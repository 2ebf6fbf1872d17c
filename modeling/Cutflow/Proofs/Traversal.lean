import Cutflow.Proofs.Composition
import Cutflow.Proofs.Connective
import Cutflow.Proofs.Interpreter

/-!
# Which leaves are called

On its way to a value a function calls the leaves it is built of. The connectives may leave leaves out,
and a failure ends the evaluation, but in whatever way the operators are composed the calls go from left
to right and no occurrence of a leaf is called twice, even where a number is combined with each entry of
a vector.

## The model

`Outcome.Traverses` says this of an outcome and the list of the leaves in a tree. It asks for nothing
but the outcomes of the leaves themselves, so leaves may be of any kind: hand-written functions, each
call of which is noted, or constants and variables, which note nothing.

## What is proved

* `Outcome.Traverses.bind`: steps in sequence go through the leaves of the first one, then of the second.
* `Evaluator.traverses_map`, `traverses_combine`, `traverses_index`: the operators put the leaves of their
  operands side by side.
* `traverses_eval`: composed functions and compiled texts go through their leaves in this way.
-/

namespace Cutflow

/-! ### Outcomes and leaves -/

namespace Outcome

variable {α β γ : Type}

/-- The leaves `made` are called on the way to the outcome, out of a tree with the leaves `leaves`;
the tree is strict if it holds no operator that may leave an operand out. -/
structure Calls (leaf : α → Outcome Value) (leaves : List α) (strict : Prop) (o : Outcome β)
    (made : List α) : Prop where
  /-- Leaves are called from left to right, each occurrence once at most. -/
  sublist : made.Sublist leaves
  /-- There are no other calls. -/
  calls : o.calls = made.flatMap fun a => (leaf a).calls
  /-- A leaf that fails is the last one to be called, and its error is the outcome. -/
  failed : ∀ {first a last e}, made = first ++ a :: last → (leaf a).result = .error e →
    last = [] ∧ o.result = .error e
  /-- Nothing fails but leaves and entries. -/
  error : ∀ {e}, o.result = .error e →
    (∃ a ∈ made, (leaf a).result = .error e) ∨ ∃ label x n, e = .indexOutOfRange label x n
  /-- All leaves of a strict tree are called if neither a leaf nor an entry fails. -/
  whole : strict → (∀ a ∈ made, ∃ v, (leaf a).result = .ok v) →
    (∀ label x n, o.result ≠ .error (.indexOutOfRange label x n)) → made = leaves

/-- The outcome comes about by calling leaves from left to right. -/
def Traverses (leaf : α → Outcome Value) (leaves : List α) (strict : Prop) (o : Outcome β) : Prop :=
  ∃ made, Calls leaf leaves strict o made

variable {leaf : α → Outcome Value} {l l' made made' : List α} {p q : Prop} {o : Outcome β}

theorem Calls.exists_ok (h : Calls leaf l p o made) (hm : ∀ a ∈ made, ∃ v, (leaf a).result = .ok v)
    (hi : ∀ label x n, o.result ≠ .error (.indexOutOfRange label x n)) :
    ∃ x, o.result = .ok x := by
  cases ho : o.result with
  | ok x => exact ⟨x, rfl⟩
  | error e =>
    rcases h.error ho with ⟨a, ha, he⟩ | ⟨label, x, n, rfl⟩
    · obtain ⟨v, hv⟩ := hm a ha
      cases hv.symm.trans he
    · exact absurd ho (hi label x n)

/-- Where the first step fails, the second one calls nothing. -/
theorem Calls.bind_of_error {f : β → Outcome γ} {e : Error} (h : Calls leaf l p o made)
    (he : o.result = .error e) : Calls leaf (l ++ l') (p ∧ q) (o >>= f) made := by
  obtain ⟨calls, result⟩ := o
  cases he
  have hb : ∀ {e' : Error}, (Except.error e : Except Error β) = .error e' →
      (Except.error e : Except Error γ) = .error e' := by
    rintro e' ⟨⟩
    rfl
  refine ⟨h.sublist.trans (List.sublist_append_left _ _), h.calls, ?_, ?_, ?_⟩
  · intro first a last e' hmade ha
    exact (h.failed hmade ha).imp_right hb
  · rintro e' ⟨⟩
    exact h.error rfl
  · intro hs hm hi
    obtain ⟨x, hx⟩ := h.exists_ok hm fun label x n he => hi label x n (hb he)
    cases hx

theorem Calls.bind_of_ok {f : β → Outcome γ} {x : β} (h : Calls leaf l p o made)
    (hx : o.result = .ok x) (h' : Calls leaf l' q (f x) made') :
    Calls leaf (l ++ l') (p ∧ q) (o >>= f) (made ++ made') := by
  obtain ⟨calls, result⟩ := o
  cases hx
  have hok : ∀ {e}, (Except.ok x : Except Error β) ≠ .error e := by rintro e ⟨⟩
  refine ⟨h.sublist.append h'.sublist, ?_, ?_, ?_, ?_⟩
  · show calls ++ (f x).calls = _
    rw [List.flatMap_append, ← h.calls, ← h'.calls]
  · -- no leaf of the first step has failed
    intro first a last e hmade ha
    rcases List.append_eq_append_iff.mp hmade with ⟨more, rfl, hmore⟩ | ⟨more, rfl, hmore⟩
    · exact h'.failed hmore ha
    · cases more with
      | nil => exact h'.failed (hmore.symm.trans (List.nil_append _).symm) ha
      | cons b more =>
        cases hmore
        exact absurd (h.failed rfl ha).2 hok
  · intro e he
    exact (h'.error he).imp_left fun ⟨a, ha, hae⟩ => ⟨a, List.mem_append_right _ ha, hae⟩
  · rintro ⟨hp, hq⟩ hm hi
    rw [h.whole hp (fun a ha => hm a (List.mem_append_left _ ha)) fun _ _ _ => hok,
      h'.whole hq (fun a ha => hm a (List.mem_append_right _ ha)) hi]

namespace Traverses

theorem single (a : α) : (leaf a).Traverses leaf [a] p := by
  refine ⟨[a], .refl _, (List.flatMap_singleton _ _).symm, ?_, ?_, fun _ _ _ => rfl⟩
  · intro first b last e hmade hb
    cases first with
    | nil =>
      obtain ⟨rfl, rfl⟩ := List.cons.inj hmade
      exact ⟨rfl, hb⟩
    | cons c first => simp at hmade
  · intro e he
    exact .inl ⟨a, List.mem_cons_self, he⟩

/-- No leaf is called for what is known, and none needs to be if the tree is not strict. -/
theorem known {x : β} (h : p → l = []) : (pure x : Outcome β).Traverses leaf l p := by
  refine ⟨[], List.nil_sublist _, rfl, ?_, ?_, fun hp _ _ => (h hp).symm⟩
  · intro first a last e hmade
    simp at hmade
  · rintro e ⟨⟩

theorem imp (h : o.Traverses leaf l p) (hq : q → p) : o.Traverses leaf l q :=
  let ⟨made, hm⟩ := h
  ⟨made, hm.sublist, hm.calls, hm.failed, hm.error, fun hs => hm.whole (hq hs)⟩

/-- **Steps in sequence** go through the leaves of the first step, then through those of the second. -/
theorem bind {f : β → Outcome γ} (h : o.Traverses leaf l p)
    (hf : ∀ x, o.result = .ok x → (f x).Traverses leaf l' q) :
    (o >>= f).Traverses leaf (l ++ l') (p ∧ q) := by
  obtain ⟨made, hm⟩ := h
  cases ho : o.result with
  | error e => exact ⟨made, hm.bind_of_error ho⟩
  | ok x =>
    obtain ⟨made', hm'⟩ := hf x ho
    exact ⟨made ++ made', hm.bind_of_ok ho hm'⟩

theorem bind_pure (f : β → γ) (h : o.Traverses leaf l p) :
    (o >>= fun x => pure (f x)).Traverses leaf l p := by
  have hb := h.bind (q := True) fun x _ => known (x := f x) (l := []) fun _ => rfl
  rw [List.append_nil] at hb
  exact hb.imp fun hp => ⟨hp, trivial⟩

end Traverses

end Outcome

open Outcome

/-! ### Operators and leaves -/

/-- The operator always evaluates both operands. -/
def BinaryOp.Strict : BinaryOp → Prop
  | pointwise _ => True
  | connective _ => False

/-- A connective calls the leaves of its right operand or none of them. -/
theorem Connective.traverses_connect {α : Type} {leaf : α → Outcome Value} {l : List α} {p : Prop}
    (op : Connective) (s : Shape) {right : Outcome Value} (h : right.Traverses leaf l p) (v : Value) :
    (op.connect s right v).Traverses leaf l False := by
  have h : right.Traverses leaf l False := h.imp False.elim
  rcases op.connect_cases s v with ⟨z, -, hc⟩ | ⟨f, -, hc⟩
  · rw [hc]
    exact .known False.elim
  · rw [hc]
    exact h.bind_pure f

namespace Evaluator

variable {α : Type} {leaf : α → Outcome Value} {l l' : List α} {p q : Prop} {a b e : Evaluator}
  {r : Record}

theorem traverses_map (op : Float → Float) (h : (a.eval r).Traverses leaf l p) :
    ((a.map op).eval r).Traverses leaf l p := by
  rw [eval_map]
  exact h.bind_pure _

theorem traverses_combine (op : BinaryOp) (ha : (a.eval r).Traverses leaf l p)
    (hb : (b.eval r).Traverses leaf l' q) :
    ((Func.combineEvaluators op a b).eval r).Traverses leaf (l ++ l') (p ∧ q ∧ op.Strict) := by
  cases op with
  | pointwise op =>
    have hpq := ha.bind fun x _ => hb.bind_pure (Value.combine op.apply x)
    rw [Func.combineEvaluators, eval_pointwise]
    exact hpq.imp fun hs => ⟨hs.1, hs.2.1⟩
  | connective op =>
    have hpq := ha.bind fun x _ => op.traverses_connect b.shape hb x
    rw [Func.combineEvaluators, eval_connective]
    exact hpq.imp fun hs => ⟨hs.1, hs.2.2⟩

/-- Of a vector at a number there is an entry, or an index is out of range; either way nothing is
called. -/
theorem traverses_entry (label : String) (xs : List Float) (x : Float) :
    (ofExcept (Value.entry label (.vector xs) (.scalar x))).Traverses leaf [] True := by
  rw [Value.entry]
  split
  · exact .known fun _ => rfl
  · refine ⟨[], .refl _, rfl, ?_, ?_, fun _ _ _ => rfl⟩
    · intro first a last e hmade
      simp at hmade
    · rintro e ⟨⟩
      exact .inr ⟨_, _, _, rfl⟩

theorem traverses_index {label : String} (ha : (a.eval r).Traverses leaf l p)
    (hb : (b.eval r).Traverses leaf l' q) (h : index label a b = .ok e) :
    (e.eval r).Traverses leaf (l ++ l') (p ∧ q) := by
  obtain ⟨hs, hs'⟩ := index_eq_ok_iff.mp ⟨e, h⟩
  have hi : ∀ v w, (a.eval r).result = .ok v → (b.eval r).result = .ok w →
      (ofExcept (Value.entry label v w)).Traverses leaf [] True := by
    intro v w hv hw
    have hv := (shape_eq_of_eval r hv).trans hs
    have hw := (shape_eq_of_eval r hw).trans hs'
    cases v <;> cases hv
    cases w <;> cases hw
    exact traverses_entry label _ _
  have hpq := ha.bind fun v hv => hb.bind fun w hw => hi v w hv hw
  rw [List.append_nil] at hpq
  rw [eval_index r h]
  exact hpq.imp fun hs => ⟨hs.1, hs.2, trivial⟩

end Evaluator

/-! ### Trees and leaves -/

/-- The composition holds no connective. -/
def Composition.Strict {α : Type} : Composition α → Prop
  | leaf _ => True
  | unary _ t => t.Strict
  | binary _ op a b => a.Strict ∧ b.Strict ∧ op.Strict
  | index base i => base.Strict ∧ i.Strict

/-- The tree holds no connective. -/
def Expr.Strict : Expr → Prop
  | number _ | bool _ | ident _ => True
  | unary _ e => e.Strict
  | binary op a b => a.Strict ∧ b.Strict ∧ op.Strict
  | index base i => base.Strict ∧ i.Strict

theorem Composition.traverses_build {α : Type} {leafFunc : α → Func} {t : Composition α} {f : Func}
    (hf : t.build leafFunc = .ok f) (r : Record) :
    (f.evaluator.eval r).Traverses (fun a => (leafFunc a).eval r) t.leaves t.Strict := by
  induction t generalizing f with
  | leaf a =>
    cases hf
    rw [← Func.eval_eq]
    exact .single a
  | unary op t ih =>
    obtain ⟨g, hg, rfl⟩ := build_unary.mp hf
    rw [Func.evaluator_unary]
    exact Evaluator.traverses_map op.apply (ih hg)
  | binary form op a b iha ihb =>
    obtain ⟨g, hg, h, hh, rfl⟩ := build_binary.mp hf
    rw [Func.evaluator_combine]
    exact Evaluator.traverses_combine op (iha hg) (ihb hh)
  | index base i ihb ihi =>
    obtain ⟨g, hg, h, hh, hi⟩ := build_index.mp hf
    obtain ⟨e, he, hf⟩ := bind_eq_ok.mp hi
    cases hf
    exact Evaluator.traverses_index (ihb hg) (ihi hh) he

theorem Compiler.traverses_lower {c : Compiler} {e : Expr} {f : Func} (hf : c.lower e = .ok f)
    (r : Record) : (f.evaluator.eval r).Traverses (c.read r) e.idents e.Strict := by
  induction e generalizing f with
  | number x =>
    cases hf
    exact .known fun _ => rfl
  | bool b =>
    cases hf
    exact .known fun _ => rfl
  | ident name =>
    rw [interpret_of_lower r hf]
    exact .single name
  | unary op e ih =>
    obtain ⟨g, hg, rfl⟩ := lower_unary.mp hf
    rw [Func.evaluator_unary]
    exact Evaluator.traverses_map op.apply (ih hg)
  | binary op a b iha ihb =>
    obtain ⟨g, hg, h, hh, rfl⟩ := lower_binary.mp hf
    exact Evaluator.traverses_combine op (iha hg) (ihb hh)
  | index base i ihb ihi =>
    obtain ⟨g, hg, h, hh, -, he⟩ := lower_index.mp hf
    exact Evaluator.traverses_index (ihb hg) (ihi hh) he

/-- **Leaves are called from left to right, once at most, and up to the first failure**, whether a
function is composed of them by operators or compiled from a text that mentions them. -/
theorem traverses_eval (r : Record) :
    (∀ {α : Type} {leafFunc : α → Func} {t : Composition α} {f : Func}, t.build leafFunc = .ok f →
      (f.eval r).Traverses (fun a => (leafFunc a).eval r) t.leaves t.Strict) ∧
    ∀ {c : Compiler} {text : String} {f : Func}, c.compile text = .ok f →
      ∃ e, Expr.parse text = .ok e ∧ (f.eval r).Traverses (c.read r) e.idents e.Strict := by
  constructor
  · intro α leafFunc t f hf
    rw [Func.eval_eq]
    exact Composition.traverses_build hf r
  · intro c text f hf
    obtain ⟨e, he, g, hg, rfl⟩ := Compiler.compile_eq_ok.mp hf
    rw [Func.eval_eq]
    exact ⟨e, he, Compiler.traverses_lower (f := g) hg r⟩

/-- A number is combined with the entries of a vector, two of which ask for it, and its second leaf
fails: the leaves up to this one are called once each, and the leaf after it is not called. -/
theorem traverses_eval_failing :
    let leaf (name : String) (value : Value) (failure : Option Error) : Func :=
      .ofEvaluator name (Func.leafEvaluator name value failure)
    let v := leaf "v" (.vector [1, 0, 2]) none
    let u := leaf "u" (.scalar 3) (some .recordText)
    let t : Composition Func := .binary .inPlace (.pointwise .mul)
      (.binary .fresh (.connective .and) (.leaf v)
        (.binary .fresh (.pointwise .add) (.leaf (leaf "s" (.scalar 5) none)) (.leaf u)))
      (.leaf (leaf "w" (.scalar 7) none))
    let c : Compiler := ⟨∅, (NameMap.empty.insert "v" v).insert "u" u⟩
    (∃ f, t.build id = .ok f ∧ (f.eval ∅).Traverses (fun a => a.eval ∅) t.leaves t.Strict ∧
      f.eval ∅ = ⟨["v", "s", "u"], .error .recordText⟩) ∧
    ∃ f, c.compile "v&&u" = .ok f ∧ (f.eval ∅).Traverses (c.read ∅) ["v", "u"] False ∧
      f.eval ∅ = ⟨["v", "u"], .error .recordText⟩ := by
  intro leaf v u t c
  constructor
  · obtain ⟨f, hf, he⟩ : ∃ f, t.build id = .ok f ∧
        f.eval ∅ = ⟨["v", "s", "u"], .error .recordText⟩ := ⟨_, rfl, rfl⟩
    exact ⟨f, hf, (traverses_eval ∅).1 hf, he⟩
  · have hp : Expr.parse "v&&u" = .ok (.binary (.connective .and) (.ident "v") (.ident "u")) := by cbv
    obtain ⟨f, hf, hfe⟩ : ∃ f, c.compile "v&&u" = .ok f ∧
        f.eval ∅ = ⟨["v", "u"], .error .recordText⟩ :=
      ⟨_, Compiler.compile_eq_ok.mpr ⟨_, hp, _, rfl, rfl⟩, rfl⟩
    obtain ⟨e, he, ht⟩ := (traverses_eval ∅).2 hf
    cases hp.symm.trans he
    exact ⟨f, hf, ht.imp False.elim, hfe⟩

end Cutflow
