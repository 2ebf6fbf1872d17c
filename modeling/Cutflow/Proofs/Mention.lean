import Cutflow.Proofs.Expr.Substitution
import Cutflow.Proofs.Overload

/-!
# What a text mentions

The meaning of a text depends on the identifiers among its tokens and on nothing else that a compiler
knows or that a record holds. The identifiers of the tree are these tokens, each of them and no other, so
they are what the compiler looks up; and as each of them is an identifier by the rule that `register` and
`validate` go by, a function that is refused could not have been mentioned anyway.

## What is proved

* `Expr.identifiers_of_parse`: the identifiers of a tree are those of its text, in the same order.
* `Compiler.compile_congr`: compilers to which the identifiers of a text mean the same make the same of it.
* `Compiler.interpret_congr`: a tree has the same value on records from which its identifiers read the same.
* `Compiler.depends_on_identifiers`: both for texts, with what follows for functions and variables that a
  text does not mention.
-/

namespace Cutflow

open Text

namespace Token

/-- The name of an identifier. -/
def Kind.ident? : Kind → Option String
  | .ident name => some name
  | _ => none

/-- The identifiers among the tokens of a text, from left to right. -/
def identifiers (text : String) : List String :=
  match lex text with
  | .ok ts => ts.filterMap fun t => t.kind.ident?
  | .error _ => []

variable {c : Char} {cs : List Char} {k : Kind} {ks : List Kind} {x text : String}

theorem Kind.ident?_eq_some : k.ident? = some x ↔ k = .ident x := by
  cases k <;> simp [Kind.ident?]

theorem Kind.ident?_eq_none (h : ∀ x, k ≠ .ident x) : k.ident? = none :=
  Option.eq_none_iff_forall_ne_some.mpr fun x hx => h x (Kind.ident?_eq_some.mp hx)

theorem isIdentifier_of_lexeme {more : Nat} (h : lexeme c cs = .ok ⟨.ident x, more⟩) : isIdentifier x = true := by
  rcases lexeme_eq_ok.mp h with ⟨-, d, n, -, hk, -⟩ | ⟨-, hc, hk, -⟩ | ⟨-, -, hk, -⟩ | ⟨-, -, -, hk, -⟩
  · cases hk
  · have hx : String.ofList (c :: cs.takeWhile isWordTail) = x := by
      rw [wordKind] at hk
      split at hk
      · cases hk
      · split at hk
        · cases hk
        · exact Kind.ident.inj hk
    rw [← hx, isIdentifier, String.toList_ofList]
    simp [hc]
  · obtain ⟨d, -, hk⟩ := Option.bind_eq_some_iff.mp hk
    unfold pairKind? at hk
    split at hk <;> cases hk
  · unfold charKind? at hk
    split at hk <;> cases hk

theorem Scans.isIdentifier (h : Scans cs ks) (hx : .ident x ∈ ks) : isIdentifier x = true := by
  induction h with
  | nil => cases hx
  | gap _ _ ih => exact ih hx
  | lexeme _ hl _ ih =>
    rcases List.mem_cons.mp hx with rfl | hx
    · exact isIdentifier_of_lexeme hl
    · exact ih hx

/-- The end of a text is no identifier. -/
theorem identifiers_of_scans (h : Scans text.toList ks) : identifiers text = ks.filterMap Kind.ident? := by
  obtain ⟨ts, hts, hk⟩ := h.scan 0
  have hmap : ts.filterMap (fun t => t.kind.ident?) = (ts.map kind).filterMap Kind.ident? := by
    rw [List.filterMap_map]
    rfl
  rw [identifiers, lex, hts]
  show ts.filterMap (fun t => t.kind.ident?) = _
  rw [hmap, hk, List.filterMap_append]
  exact List.append_nil _

theorem isIdentifier_of_mem_identifiers (h : x ∈ identifiers text) : isIdentifier x = true := by
  cases ht : lex text with
  | error e =>
    rw [identifiers, ht] at h
    cases h
  | ok ts =>
    obtain ⟨ks, hs, -⟩ := scans_of_scan ht
    rw [identifiers_of_scans hs] at h
    obtain ⟨k, hk, hx⟩ := List.mem_filterMap.mp h
    exact hs.isIdentifier (Kind.ident?_eq_some.mp hx ▸ hk)

end Token

namespace Expr

open Token (Kind Scans identifiers)

/-- The identifiers of a tree stand among the tokens that it is derived from, in the same order. -/
theorem Derives.idents_eq {s : Stratum} {ks : List Kind} {e : Expr} (h : Derives s ks e) :
    e.idents = ks.filterMap Kind.ident? := by
  induction h with
  | number y => rfl
  | bool b => rfl
  | ident name => rfl
  | parens h ih =>
    rw [ih, List.filterMap_cons_none rfl, List.filterMap_append]
    exact (List.append_nil _).symm
  | primary h ih => exact ih
  | index h hi ih ihi =>
    rw [idents, ih, ihi, List.filterMap_append, List.filterMap_cons_none rfl, List.filterMap_append]
    exact congrArg _ (List.append_nil _).symm
  | indexed h ih => exact ih
  | unary hop h ih =>
    have hk := Kind.ident?_eq_none fun _ => ne_ident_of_unaryOp? hop
    rw [idents, ih, List.filterMap_cons_none hk]
  | signed h ih => exact ih
  | raise h ih => exact ih
  | binary hop hl h h' ih ih' =>
    have hk := Kind.ident?_eq_none fun _ => ne_ident_of_binaryOp? hop
    rw [idents, ih, ih', List.filterMap_append, List.filterMap_cons_none hk]

theorem identifiers_of_parse {text : String} {e : Expr} (h : parse text = .ok e) :
    identifiers text = e.idents := by
  obtain ⟨ks, hs, hd⟩ := parse_eq_ok_iff.mp h
  rw [Token.identifiers_of_scans hs, hd.idents_eq]

end Expr

/-- What a function gives at its own shape decides what it gives at any shape. -/
theorem Func.evalAs_congr {f : Func} {r r' : Record} (h : f.eval r = f.eval r') (shape : Shape) :
    f.evalAs r shape = f.evalAs r' shape := by
  by_cases hs : shape = f.shape
  · exact hs ▸ h
  · obtain ⟨name, a | a⟩ := f <;> cases shape <;> first | rfl | exact absurd rfl hs

/-- Two records hold the same quantity of this name and shape, or neither holds one. -/
def Record.AgreeAt (r r' : Record) (name : String) : Shape → Prop
  | .scalar => r.scalar? name = r'.scalar? name
  | .vector => r.vector? name = r'.vector? name

namespace Compiler

open Token (identifiers)

variable {c c' : Compiler} {f : Func} {e : Expr} {name text : String} {r r' : Record}

/-! ### Two compilers -/

theorem resolve_congr (hf : c.functions.find? name = c'.functions.find? name)
    (hs : c.functions.find? name = none → c.schema.shapeOf? name = c'.schema.shapeOf? name) :
    c.resolve name = c'.resolve name := by
  rw [resolve, resolve, ← hf]
  cases hc : c.functions.find? name with
  | some f => rfl
  | none => rw [hs hc]

theorem lower_congr (h : ∀ x ∈ e.idents, c.resolve x = c'.resolve x) : c.lower e = c'.lower e := by
  induction e with
  | number y => rfl
  | bool b => rfl
  | ident name => exact h name List.mem_cons_self
  | unary op e ih => rw [lower, lower, ih h]
  | binary op a b iha ihb =>
    rw [lower, lower, iha fun x hx => h x (List.mem_append_left _ hx),
      ihb fun x hx => h x (List.mem_append_right _ hx)]
  | index base i ihb ihi =>
    rw [lower, lower, ihb fun x hx => h x (List.mem_append_left _ hx),
      ihi fun x hx => h x (List.mem_append_right _ hx)]

theorem compile_congr (h : ∀ x ∈ identifiers text, c.resolve x = c'.resolve x) :
    c.compile text = c'.compile text := by
  rw [compile, compile]
  cases he : Expr.parse text with
  | error err => rfl
  | ok e =>
    rw [Expr.identifiers_of_parse he] at h
    show (c.lower e >>= _) = (c'.lower e >>= _)
    rw [lower_congr h]

/-- A function under a name that is not mentioned makes no difference. -/
theorem compile_insert (h : name ∉ identifiers text) (f : Func) :
    { c with functions := c.functions.insert name f }.compile text = c.compile text := by
  refine compile_congr fun x hx => ?_
  have hne : x ≠ name := fun hxn => h (hxn ▸ hx)
  exact resolve_congr (NameMap.find?_insert_of_ne _ _ hne) fun _ => rfl

/-- Neither does a variable. -/
theorem compile_declare (h : name ∉ identifiers text) (shape : Shape) :
    { c with schema := c.schema.declare name shape }.compile text = c.compile text := by
  refine compile_congr fun x hx => ?_
  have hne : x ≠ name := fun hxn => h (hxn ▸ hx)
  exact resolve_congr rfl fun _ => NameMap.find?_insert_of_ne _ _ hne

/-- What is refused could not have been mentioned. -/
theorem not_mem_identifiers_of_register {err : Error} (h : c.register name f = .error err) (text : String) :
    name ∉ identifiers text := by
  intro hx
  rw [register, if_pos (Token.isIdentifier_of_mem_identifiers hx)] at h
  cases h

/-! ### Two records -/

theorem read_congr (hn : c.functions.find? name = none)
    (h : ∀ shape, c.schema.shapeOf? name = some shape → r.AgreeAt r' name shape) :
    c.read r name = c.read r' name := by
  cases hs : c.schema.shapeOf? name with
  | some shape =>
    have ha := h shape hs
    rw [← eval_ofVariable r hn hs, ← eval_ofVariable r' hn hs]
    cases shape <;> simp only [Func.ofVariable, Func.ofEvaluator, Evaluator.eval, show _ = _ from ha]
  | none =>
    have hmissing : ∀ r, c.read r name = .fail (.missingVariable name) := by
      intro r
      rw [read, hn, hs]
      cases r.values.find? name <;> rfl
    rw [hmissing, hmissing]

theorem interpret_congr (h : ∀ x ∈ e.idents, c.read r x = c.read r' x) : c.interpret r e = c.interpret r' e := by
  induction e with
  | number y => rfl
  | bool b => rfl
  | ident name => exact h name List.mem_cons_self
  | unary op e ih => rw [interpret, interpret, ih h]
  | binary op a b iha ihb =>
    have ha := iha fun x hx => h x (List.mem_append_left _ hx)
    have hb := ihb fun x hx => h x (List.mem_append_right _ hx)
    cases op <;> rw [interpret, interpret, ha, hb]
  | index base i ihb ihi =>
    have hb := ihb fun x hx => h x (List.mem_append_left _ hx)
    have hi := ihi fun x hx => h x (List.mem_append_right _ hx)
    rw [interpret, interpret, hb, hi]

/-- **A text means what its identifiers mean.** Two compilers make the same of a text if its identifiers are
the same registered functions with them, or the same variables, or nothing; so nothing changes when a function
is registered or a variable declared under a name that the text does not mention, and nothing changes for any
text when a function is refused. A function compiled from variables only gives the same on two records that
agree on each of these at its shape, be it that they have the same quantity or that they have none. -/
theorem depends_on_identifiers (text : String) :
    (∀ c c' : Compiler,
      (∀ x ∈ identifiers text, c.functions.find? x = c'.functions.find? x ∧
        (c.functions.find? x = none → c.schema.shapeOf? x = c'.schema.shapeOf? x)) →
      c.compile text = c'.compile text) ∧
    (∀ (c c' : Compiler) name f, name ∉ identifiers text → c.register name f = .ok c' →
      c'.compile text = c.compile text) ∧
    (∀ (c : Compiler) name shape, name ∉ identifiers text →
      { c with schema := c.schema.declare name shape }.compile text = c.compile text) ∧
    (∀ (c : Compiler) name f err, c.register name f = .error err →
      { c with functions := c.functions.insert name f }.compile text = c.compile text) ∧
    (∀ pool (s : Session) name a refusal, s.step pool (.register name a) = .error refusal →
      (s.move pool (.step (.register name a))).compiler.compile text = s.compiler.compile text) ∧
    ∀ (c : Compiler) f (r r' : Record), c.compile text = .ok f →
      (∀ x ∈ identifiers text, c.functions.find? x = none) →
      (∀ x ∈ identifiers text, ∀ shape, c.schema.shapeOf? x = some shape → r.AgreeAt r' x shape) →
      ∀ shape, f.evalAs r shape = f.evalAs r' shape := by
  refine ⟨fun c c' h => ?_, fun c c' name f hn hr => ?_, fun c name shape hn => compile_declare hn shape,
    fun c name f err hr => ?_, fun pool s name a refusal hr => ?_, fun c f r r' hc hnone hagree => ?_⟩
  · exact compile_congr fun x hx => resolve_congr (h x hx).1 (h x hx).2
  · obtain ⟨-, rfl⟩ := register_eq_ok.mp hr
    exact compile_insert hn f
  · exact compile_insert (not_mem_identifiers_of_register hr text) f
  · rw [Session.move, hr]
  · obtain ⟨e, he, -, heval⟩ := eval_of_compile r hc
    obtain ⟨e', he', -, heval'⟩ := eval_of_compile r' hc
    cases he.symm.trans he'
    rw [Expr.identifiers_of_parse he] at hnone hagree
    refine Func.evalAs_congr ?_
    rw [heval, heval']
    exact interpret_congr fun x hx => read_congr (hnone x hx) (hagree x hx)

/-- The index is known, what is added to the entry is not: one record lacks it, the other one has a list in
its place. -/
theorem depends_on_identifiers_lacking :
    let text := "v[i] + x"
    let schema := ((Schema.empty.declare "v" .vector).declare "i" .scalar).declare "x" .scalar
    let c := ofSchema schema
    let one := Func.constant 1
    let s := (Session.start schema []).move .inOrder (.step (.constant "a" 1))
    let r := (Record.empty.insert "v" (.vector [1, 2])).insert "i" (.scalar 1)
    let r' := (r.insert "x" (.vector [5])).insert "w" (.scalar 3)
    c.compile text = compile ⟨schema.declare "w" .vector, NameMap.insert ∅ "n" one⟩ text ∧
    (∃ c', c.register "n" one = .ok c' ∧ c'.compile text = c.compile text) ∧
    { c with schema := c.schema.declare "w" .vector }.compile text = c.compile text ∧
    { c with functions := c.functions.insert "v[i]" one }.compile text = c.compile text ∧
    (s.move .inOrder (.step (.register "v[i]" "a"))).compiler.compile text = s.compiler.compile text ∧
    ∃ f, c.compile text = .ok f ∧ f.evalAs r .scalar = f.evalAs r' .scalar ∧
      (f.eval r).result = .error (.missingVariable "x") := by
  intro text schema c one s r r'
  have hids : identifiers text = ["v", "i", "x"] := by cbv
  have hp : Expr.parse text = .ok (.binary (.pointwise .add) (.index (.ident "v") (.ident "i")) (.ident "x")) := by
    cbv
  obtain ⟨hcompilers, hregister, hdeclare, hrefused, hsession, hrecords⟩ := depends_on_identifiers text
  rw [hids] at hcompilers hregister hdeclare hrecords
  have hf : c.compile text = .ok _ := compile_eq_ok.mpr ⟨_, hp, _, rfl, rfl⟩
  have hagree : ∀ x ∈ ["v", "i", "x"], ∀ shape, c.schema.shapeOf? x = some shape → r.AgreeAt r' x shape := by
    simp only [List.forall_mem_cons]
    exact ⟨by rintro _ ⟨⟩; rfl, by rintro _ ⟨⟩; rfl, by rintro _ ⟨⟩; rfl, by simp⟩
  refine ⟨hcompilers _ _ ?_, ⟨_, rfl, hregister c _ "n" one (by decide) rfl⟩, hdeclare _ _ _ (by decide),
    hrefused _ _ _ _ rfl, hsession _ _ _ _ _ rfl, _, hf, hrecords c _ r r' hf (fun _ _ => rfl) hagree _, rfl⟩
  simp only [List.forall_mem_cons]
  exact ⟨⟨rfl, fun _ => rfl⟩, ⟨rfl, fun _ => rfl⟩, ⟨rfl, fun _ => rfl⟩, by simp⟩

end Compiler

end Cutflow
