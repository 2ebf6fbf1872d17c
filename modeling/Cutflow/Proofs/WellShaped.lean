import Cutflow.Proofs.Connective
import Cutflow.Proofs.Interpreter

/-!
# Well-shaped trees

A compiler finds out about shapes before the first record is seen. Which trees it accepts is said here
without it, by rules for the shape of each kind of tree (`Compiler.HasShape`), and so is the error for
a tree that it refuses: the nodes of a tree are looked at in the order in which their operands are
complete (`Expr.postorder`), each for itself (`Compiler.offence?`), and the first offence counts.

What has a shape is safe to evaluate. On a record that holds the variables of the tree with their shapes
there is one thing left that can go wrong, an index out of range.

## What is proved

* `Compiler.lower_eq_ok_iff_hasShape`: a tree is lowered to a function of a shape if it has that shape.
* `Compiler.lower_eq_error_iff`: it is refused with the error of its first offence.
* `Compiler.ends_interpret`: what has a shape ends with a value of that shape or with an index out of
  range.
* `Compiler.compile_iff_hasShape`: all of this for texts.
-/

namespace Cutflow

/-- The tree and all trees in it, operands before what they are operands of, from left to right. -/
def Expr.postorder : Expr → List Expr
  | unary op e => e.postorder ++ [unary op e]
  | binary op a b => a.postorder ++ b.postorder ++ [binary op a b]
  | index base i => base.postorder ++ i.postorder ++ [index base i]
  | e => [e]

namespace Compiler

/-- The tree has the shape: numbers and truth values are scalars, an identifier has the shape of the
function or else the variable of that name, an operator before an operand keeps its shape, two operands
make a vector if either of them is one, and an entry of a vector at a scalar index is a scalar. -/
inductive HasShape (c : Compiler) : Expr → Shape → Prop where
  | number (x : Float) : HasShape c (.number x) .scalar
  | bool (b : Bool) : HasShape c (.bool b) .scalar
  | function {name : String} {f : Func} : c.functions.find? name = some f →
      HasShape c (.ident name) f.shape
  | quantity {name : String} {s : Shape} : c.functions.find? name = none →
      c.schema.shapeOf? name = some s → HasShape c (.ident name) s
  | unary {op : UnaryOp} {e : Expr} {s : Shape} : HasShape c e s → HasShape c (.unary op e) s
  | binary {op : BinaryOp} {a b : Expr} {s s' : Shape} : HasShape c a s → HasShape c b s' →
      HasShape c (.binary op a b) (s.join s')
  | index {base i : Expr} : HasShape c base .vector → HasShape c i .scalar →
      HasShape c (.index base i) .scalar

/-- What is wrong with a node when its operands have shapes: an identifier that means nothing, or an
entry of what is no vector, or else at what is no scalar. -/
def offence? (c : Compiler) : Expr → Option Error
  | .ident name =>
    match c.functions.find? name, c.schema.shapeOf? name with
    | none, none => some (.missingVariable name)
    | _, _ => none
  | .index base i =>
    match c.shapeOf base, c.shapeOf i with
    | .scalar, _ => some (.scalarBase (Expr.index base i).formula)
    | .vector, .vector => some (.vectorIndex (Expr.index base i).formula)
    | .vector, .scalar => none
  | _ => none

variable {c : Compiler} {f g : Func} {e base i : Expr} {s : Shape} {err : Error}

/-! ### What is accepted -/

theorem shapeOf_of_hasShape (h : HasShape c e s) : c.shapeOf e = s := by
  induction h with
  | number x => rfl
  | bool b => rfl
  | function hf => simp only [shapeOf, hf]
  | quantity hn hs => simp only [shapeOf, hn, hs, Option.getD_some]
  | unary h ih => rw [shapeOf, ih]
  | binary ha hb iha ihb => rw [shapeOf, iha, ihb]
  | index hb hi ihb ihi => rfl

theorem hasShape_of_lower (hf : c.lower e = .ok f) : HasShape c e (c.shapeOf e) := by
  induction e generalizing f with
  | number x => exact .number x
  | bool b => exact .bool b
  | ident name =>
    rcases lower_ident.mp hf with ⟨g, hg, -⟩ | ⟨hn, s, hs, -⟩
    · simpa only [shapeOf, hg] using HasShape.function hg
    · simpa only [shapeOf, hn, hs, Option.getD_some] using HasShape.quantity hn hs
  | unary op e ih =>
    obtain ⟨g, hg, -⟩ := lower_unary.mp hf
    exact .unary (ih hg)
  | binary op a b iha ihb =>
    obtain ⟨g, hg, h, hh, -⟩ := lower_binary.mp hf
    exact .binary (iha hg) (ihb hh)
  | index base i ihb ihi =>
    obtain ⟨g, hg, h, hh, -, he⟩ := lower_index.mp hf
    obtain ⟨hs, hs'⟩ := Evaluator.index_eq_ok_iff.mp ⟨_, he⟩
    refine .index ?_ ?_
    · exact (shape_of_lower hg).symm.trans hs ▸ ihb hg
    · exact (shape_of_lower hh).symm.trans hs' ▸ ihi hh

/-- An entry is made if the shapes of its operands are right. -/
theorem exists_lower_index (hf : c.lower base = .ok f) (hg : c.lower i = .ok g)
    (hs : c.shapeOf base = .vector) (hs' : c.shapeOf i = .scalar) :
    ∃ h, c.lower (.index base i) = .ok h := by
  rw [← shape_of_lower hf] at hs
  rw [← shape_of_lower hg] at hs'
  obtain ⟨e, he⟩ := Evaluator.index_eq_ok_iff.mpr ⟨hs, hs'⟩
  exact ⟨⟨_, e⟩, lower_index.mpr ⟨f, hf, g, hg, rfl, he⟩⟩

theorem exists_lower_of_hasShape (h : HasShape c e s) : ∃ f, c.lower e = .ok f := by
  induction h with
  | number x => exact ⟨_, rfl⟩
  | bool b => exact ⟨_, rfl⟩
  | function hf => exact ⟨_, lower_ident.mpr (.inl ⟨_, hf, rfl⟩)⟩
  | quantity hn hs => exact ⟨_, lower_ident.mpr (.inr ⟨hn, _, hs, rfl⟩)⟩
  | unary h ih =>
    obtain ⟨f, hf⟩ := ih
    exact ⟨_, lower_unary.mpr ⟨f, hf, rfl⟩⟩
  | binary ha hb iha ihb =>
    obtain ⟨f, hf⟩ := iha
    obtain ⟨g, hg⟩ := ihb
    exact ⟨_, lower_binary.mpr ⟨f, hf, g, hg, rfl⟩⟩
  | index hb hi ihb ihi =>
    obtain ⟨f, hf⟩ := ihb
    obtain ⟨g, hg⟩ := ihi
    exact exists_lower_index hf hg (shapeOf_of_hasShape hb) (shapeOf_of_hasShape hi)

/-- **Shape checking is exact**: a tree is lowered to a function of a shape if it has that shape. -/
theorem lower_eq_ok_iff_hasShape : (∃ f, c.lower e = .ok f ∧ f.shape = s) ↔ HasShape c e s := by
  constructor
  · rintro ⟨f, hf, rfl⟩
    exact shape_of_lower hf ▸ hasShape_of_lower hf
  · intro h
    obtain ⟨f, hf⟩ := exists_lower_of_hasShape h
    exact ⟨f, hf, (shape_of_lower hf).trans (shapeOf_of_hasShape h)⟩

/-! ### What is refused -/

/-- What goes wrong with an entry of operands that are lowered is its own offence. -/
theorem lower_index_eq_error (hf : c.lower base = .ok f) (hg : c.lower i = .ok g)
    (he : c.offence? (.index base i) = some err) : c.lower (.index base i) = .error err := by
  have hn : "(" ++ f.name ++ ")[" ++ g.name ++ "]" = (Expr.index base i).formula := by
    rw [name_of_lower hf, name_of_lower hg]
    rfl
  have hs : f.evaluator.shape = c.shapeOf base := shape_of_lower hf
  have hs' : g.evaluator.shape = c.shapeOf i := shape_of_lower hg
  rw [lower, hf, hg]
  show f.index g = .error err
  simp only [Func.index, hn]
  rw [offence?, ← hs, ← hs'] at he
  obtain ⟨_, a | a⟩ := f <;> obtain ⟨_, b | b⟩ := g <;> cases he <;> rfl

/-- A tree without an offence is lowered, one with an offence is refused with the first of them. -/
theorem lower_cases (c : Compiler) (e : Expr) :
    (∃ f, c.lower e = .ok f ∧ e.postorder.findSome? c.offence? = none) ∨
      ∃ err, c.lower e = .error err ∧ e.postorder.findSome? c.offence? = some err := by
  induction e with
  | number x => exact .inl ⟨_, rfl, rfl⟩
  | bool b => exact .inl ⟨_, rfl, rfl⟩
  | ident name =>
    simp only [Expr.postorder, List.findSome?_singleton, lower, resolve, offence?]
    cases c.functions.find? name with
    | some f => exact .inl ⟨_, rfl, rfl⟩
    | none => cases c.schema.shapeOf? name <;> simp
  | unary op e ih =>
    simp only [Expr.postorder, lower, List.findSome?_append]
    rcases ih with ⟨f, hf, hn⟩ | ⟨err, he, hs⟩
    · exact .inl ⟨.unary op f, by rw [hf]; rfl, by rw [hn]; rfl⟩
    · exact .inr ⟨err, by rw [he]; rfl, by rw [hs]; rfl⟩
  | binary op a b iha ihb =>
    simp only [Expr.postorder, lower, List.findSome?_append]
    rcases iha with ⟨f, hf, hn⟩ | ⟨err, he, hs⟩
    · rcases ihb with ⟨g, hg, hn'⟩ | ⟨err, he, hs⟩
      · exact .inl ⟨.binary op f g, by rw [hf, hg]; rfl, by rw [hn, hn']; rfl⟩
      · exact .inr ⟨err, by rw [hf, he]; rfl, by rw [hn, hs]; rfl⟩
    · exact .inr ⟨err, by rw [he]; rfl, by rw [hs]; rfl⟩
  | index base i ihb ihi =>
    simp only [Expr.postorder, List.findSome?_append]
    rcases ihb with ⟨f, hf, hn⟩ | ⟨err, he, hs⟩
    · rcases ihi with ⟨g, hg, hn'⟩ | ⟨err, he, hs⟩
      · rw [hn, hn', Option.none_or, Option.none_or, List.findSome?_singleton]
        cases ho : c.offence? (.index base i) with
        | some err => exact .inr ⟨err, lower_index_eq_error hf hg ho, rfl⟩
        | none =>
          left
          simp only [offence?] at ho
          split at ho
          next => cases ho
          next => cases ho
          next hs hs' =>
            obtain ⟨h, hh⟩ := exists_lower_index hf hg hs hs'
            exact ⟨h, hh, rfl⟩
      · exact .inr ⟨err, by rw [lower, hf, he]; rfl, by rw [hn, hs]; rfl⟩
    · exact .inr ⟨err, by rw [lower, he]; rfl, by rw [hs]; rfl⟩

/-- **The first offence is reported.** -/
theorem lower_eq_error_iff :
    c.lower e = .error err ↔ e.postorder.findSome? c.offence? = some err := by
  rcases lower_cases c e with ⟨f, hf, hn⟩ | ⟨err', he, hs⟩
  · rw [hf, hn]
    simp
  · rw [he, hs, Except.error.injEq, Option.some.injEq]

end Compiler

/-! ### What is accepted is safe -/

/-- The evaluation ends with a value of the shape, or with an index out of range. -/
def Outcome.Ends (s : Shape) (o : Outcome Value) : Prop :=
  (∃ v, o.result = .ok v ∧ v.shape = s) ∨
    ∃ label x n, o.result = .error (.indexOutOfRange label x n)

namespace Outcome.Ends

variable {s s' : Shape} {o : Outcome Value}

theorem of_shape {v : Value} (h : v.shape = s) : Ends s (pure v) := .inl ⟨v, rfl, h⟩

theorem bind {f : Value → Outcome Value} (h : o.Ends s) (hf : ∀ v, v.shape = s → (f v).Ends s') :
    (o >>= f).Ends s' := by
  rw [Ends, result_bind]
  rcases h with ⟨v, hv, hs⟩ | ⟨label, x, n, he⟩
  · rw [hv]
    exact hf v hs
  · rw [he]
    exact .inr ⟨label, x, n, rfl⟩

end Outcome.Ends

namespace Value

/-- Of a vector and a scalar there is an entry, if the scalar is in range. -/
theorem ends_entry {label : String} {v w : Value} (hv : v.shape = .vector) (hw : w.shape = .scalar) :
    (Outcome.ofExcept (entry label v w)).Ends .scalar := by
  cases v <;> cases hv
  cases w <;> cases hw
  rw [entry]
  split
  · exact .inl ⟨_, rfl, rfl⟩
  · exact .inr ⟨_, _, _, rfl⟩

end Value

theorem Connective.ends_connect {op : Connective} {s s' : Shape} {right : Outcome Value}
    (hr : right.Ends s') {v : Value} (hv : v.shape = s) :
    (op.connect s' right v).Ends (s.join s') := by
  subst hv
  rcases op.connect_cases s' v with ⟨z, hz, hc⟩ | ⟨f, hf, hc⟩
  · rw [hc]
    exact .of_shape hz
  · rw [hc]
    exact hr.bind fun w hw => .of_shape (hf w hw)

namespace Compiler

variable {c : Compiler} {f : Func} {e : Expr} {s : Shape} {r : Record}

/-- The record holds the variable with the shape that the schema says. -/
def Holds (c : Compiler) (r : Record) (name : String) : Prop :=
  ∃ v, r.values.find? name = some v ∧ c.schema.shapeOf? name = some v.shape

/-- **What has a shape is safe** on a record that holds its variables. -/
theorem ends_interpret (h : HasShape c e s)
    (hi : ∀ x ∈ e.idents, c.functions.find? x = none ∧ c.Holds r x) :
    (c.interpret r e).Ends s := by
  induction h with
  | number x => exact .of_shape rfl
  | bool b => exact .of_shape rfl
  | @function name f hf =>
    have hn := (hi name List.mem_cons_self).1
    cases hf.symm.trans hn
  | @quantity name s hn hs =>
    obtain ⟨v, hv, hvs⟩ := (hi name List.mem_cons_self).2
    simp only [interpret, read, hn, hv, if_pos hvs]
    exact .of_shape (Option.some.inj (hvs.symm.trans hs))
  | unary h ih =>
    rw [interpret]
    exact (ih hi).bind fun v hv => .of_shape ((v.shape_map _).trans hv)
  | @binary op a b s s' ha hb iha ihb =>
    have iha := iha fun x hx => hi x (List.mem_append_left _ hx)
    have ihb := ihb fun x hx => hi x (List.mem_append_right _ hx)
    cases op with
    | pointwise op =>
      rw [interpret]
      exact iha.bind fun v hv => ihb.bind fun w hw =>
        .of_shape ((Value.shape_combine _ v w).trans (by rw [hv, hw]))
    | connective op =>
      rw [interpret, shapeOf_of_hasShape hb]
      exact iha.bind fun v hv => Connective.ends_connect ihb hv
  | index hb hi' ihb ihi =>
    have ihb := ihb fun x hx => hi x (List.mem_append_left _ hx)
    have ihi := ihi fun x hx => hi x (List.mem_append_right _ hx)
    rw [interpret]
    exact ihb.bind fun v hv => ihi.bind fun w hw => Value.ends_entry hv hw

/-- The schema that is inferred from a record declares what the record holds. -/
theorem holds_of_infer {name : String} (hc : c.schema = .infer r)
    (hs : c.schema.shapeOf? name = some s) : c.Holds r name := by
  have hm : c.schema.shapeOf? name = (r.values.find? name).map Value.shape := by
    rw [hc]
    exact NameMap.find?_map Value.shape r.values name
  obtain ⟨v, hv, rfl⟩ := Option.map_eq_some_iff.mp (hm.symm.trans hs)
  exact ⟨v, hv, hs⟩

/-- The identifiers of what has a shape are functions or variables. -/
theorem shapeOf?_of_hasShape (h : HasShape c e s) {x : String} (hx : x ∈ e.idents)
    (hn : c.functions.find? x = none) : ∃ s', c.schema.shapeOf? x = some s' := by
  induction h with
  | number y => cases hx
  | bool b => cases hx
  | function hf =>
    cases List.mem_singleton.mp hx
    cases hf.symm.trans hn
  | quantity _ hs =>
    cases List.mem_singleton.mp hx
    exact ⟨_, hs⟩
  | unary h ih => exact ih hx
  | binary ha hb iha ihb => exact (List.mem_append.mp hx).elim iha ihb
  | index hb hi ihb ihi => exact (List.mem_append.mp hx).elim ihb ihi

theorem compile_of_parse {text : String} (he : Expr.parse text = .ok e) :
    c.compile text = (c.lower e).map fun f => f.rename text := by
  rw [compile, he]
  show (c.lower e >>= fun f => pure (f.rename text)) = _
  cases c.lower e <;> rfl

/-- **Shape checking is exact and sound.** A text that stands for a tree compiles to a function of a
shape if the tree has that shape, and else is refused for the first offence in the tree. If no function
is mentioned, the function that is compiled gives a value of its shape, or an index is out of range, on
every record that holds the variables of the tree as the schema says, such as the record the schema is
inferred from. -/
theorem compile_iff_hasShape {text : String} (he : Expr.parse text = .ok e) (c : Compiler) :
    (∀ s, (∃ f, c.compile text = .ok f ∧ f.shape = s) ↔ HasShape c e s) ∧
    (∀ err, c.compile text = .error err ↔ e.postorder.findSome? c.offence? = some err) ∧
    ∀ f r, c.compile text = .ok f → (∀ x ∈ e.idents, c.functions.find? x = none) →
      (∀ x ∈ e.idents, c.Holds r x) ∨ c.schema = .infer r → (f.eval r).Ends f.shape := by
  refine ⟨fun s => ?_, fun err => ?_, fun f r hf hn hr => ?_⟩
  · rw [← lower_eq_ok_iff_hasShape, compile_of_parse he]
    cases c.lower e with
    | ok f => simp [Except.map, Func.rename, Func.shape]
    | error err => simp [Except.map]
  · rw [← lower_eq_error_iff, compile_of_parse he]
    cases c.lower e <;> simp [Except.map]
  · obtain ⟨e', he', g, hg, rfl⟩ := compile_eq_ok.mp hf
    cases he.symm.trans he'
    have hs : HasShape c e (g.rename text).shape :=
      lower_eq_ok_iff_hasShape.mp ⟨g, hg, rfl⟩
    have hr : ∀ x ∈ e.idents, c.Holds r x := by
      rcases hr with hr | hc
      · exact hr
      · intro x hx
        obtain ⟨s', hs'⟩ := shapeOf?_of_hasShape hs hx (hn x hx)
        exact holds_of_infer hc hs'
    have hi := ends_interpret hs fun x hx => ⟨hn x hx, hr x hx⟩
    rw [Func.eval_eq]
    exact interpret_of_lower (f := g) r hg ▸ hi

/-- An entry of a vector, or of a scalar and then before an identifier that means nothing. -/
theorem compile_iff_hasShape_entry :
    let r := ((Record.empty.insert "v" (.vector [0, 2])).insert "x" (.scalar 3)).insert "y" (.scalar 1)
    let c := ofSchema (.infer r)
    let c' := ofSchema ((Schema.empty.declare "v" .scalar).declare "x" .scalar)
    Expr.parse "v[x]+y" = .ok (.binary (.pointwise .add) (.index (.ident "v") (.ident "x"))
      (.ident "y")) ∧
    (∃ f, c.compile "v[x]+y" = .ok f ∧ f.shape = .scalar ∧ (f.eval r).Ends .scalar) ∧
    c'.compile "v[x]+y" = .error (.scalarBase "(v)[x]") := by
  intro r c c'
  have hp : Expr.parse "v[x]+y" = .ok (.binary (.pointwise .add) (.index (.ident "v") (.ident "x"))
      (.ident "y")) := by cbv
  have hs : HasShape c (.binary (.pointwise .add) (.index (.ident "v") (.ident "x")) (.ident "y"))
      (Shape.scalar.join .scalar) :=
    .binary (.index (.quantity rfl rfl) (.quantity rfl rfl)) (.quantity rfl rfl)
  obtain ⟨hok, -, hsafe⟩ := compile_iff_hasShape hp c
  obtain ⟨f, hf, hfs⟩ := (hok .scalar).mpr hs
  refine ⟨hp, ⟨f, hf, hfs, ?_⟩, ((compile_iff_hasShape hp c').2.1 _).mpr rfl⟩
  exact hfs ▸ hsafe f r hf (fun x _ => NameMap.find?_empty x) (.inr rfl)

end Compiler

end Cutflow
