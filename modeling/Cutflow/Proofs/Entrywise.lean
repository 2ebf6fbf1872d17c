import Cutflow.Proofs.Decimal.ReadBack
import Cutflow.Proofs.Interpreter

/-!
# Entry by entry

A tree over vectors computes each entry of its value from the same entry of every vector it
mentions. Taking entry `i` of the vectors first (`Compiler.atEntry`) and computing with the numbers
then gives entry `i` of the value. What stands under an index is left whole there: it is a number
already.

One kind of node breaks the rule, a connective with a number left of a vector: it answers with an
empty vector or passes its right operand on as it is, and neither is what the connective of two
numbers answers. `Compiler.Entrywise` rules it out.

## What is proved

* `Compiler.interpret_atEntry`: if a tree has a value on a record, its entry `i` is the value of the
  tree of entries.
* `Compiler.eval_atEntry`: the same of a compiled text; the tree of entries is lowered to a scalar
  function.
-/

namespace Cutflow

open Number

/-- Entry `i` of a value; a number stands for all its entries. -/
def Value.at? (i : Nat) : Value → Option Float
  | .scalar x => some x
  | .vector xs => xs[i]?

namespace Value

variable {i : Nat}

theorem at?_map (op : Float → Float) (x : Value) : (x.map op).at? i = (x.at? i).map op := by
  cases x with
  | scalar x => rfl
  | vector xs => exact List.getElem?_map

theorem at?_combine (op : Float → Float → Float) (x y : Value) :
    (combine op x y).at? i = (x.at? i).bind fun a => (y.at? i).map (op a) := by
  cases x with
  | scalar x =>
    cases y with
    | scalar y => rfl
    | vector ys => exact List.getElem?_map
  | vector xs =>
    cases y with
    | scalar y =>
      show (xs.map fun x => op x y)[i]? = _
      rw [List.getElem?_map, Option.map_eq_bind]
      rfl
    | vector ys =>
      show (List.zipWith op xs ys)[i]? = xs[i]?.bind fun a => ys[i]?.map (op a)
      rw [List.getElem?_zipWith]
      cases xs[i]? <;> cases ys[i]? <;> rfl

/-- A numeral indexes the entry whose place it says. -/
theorem entry_numeral {label : String} {xs : List Float} {x : Float} (hi : i < 2 ^ 53)
    (hx : xs[i]? = some x) :
    entry label (.vector xs) (.scalar (Decimal.toFloat ⟨i, 0⟩)) = .ok (.scalar x) := by
  obtain ⟨hfinite, hnonneg, hvalue⟩ := nearest_natCast hi
  have hsize : i ≤ UInt64.size - 1 := hi.le.trans (by decide)
  rw [Decimal.toFloat_natCast hi, entry, place?, if_pos ⟨hfinite, hnonneg⟩, hvalue, Nat.floor_natCast,
    Nat.min_eq_left hsize, Option.bind_some, hx]

end Value

namespace Connective

variable {op : Connective} {a b : Float} {right : Outcome Value}

theorem connect_of_decides (h : op.decides a = true) :
    op.connect .scalar right (.scalar a) = return .scalar (ofTruth op.deciding) := by
  simp only [connect, h]

/-- Where the right number is known, it does not matter whether it is asked for. -/
theorem result_connect (h : right.result = .ok (.scalar b)) :
    (op.connect .scalar right (.scalar a)).result = .ok (.scalar (op.onNumbers a b)) := by
  cases ha : op.decides a with
  | true => rw [connect_of_decides ha, onNumbers_of_decides ha, Outcome.result_pure]
  | false =>
    simp only [connect, ha]
    exact Outcome.result_bind_eq_ok.mpr ⟨_, h, rfl⟩

/-- **Connectives work entry by entry**, but for a number left of a vector: if the connective of two
values has an entry `i`, the connective of the entries `i` of its operands gives it. -/
theorem connect_at? {i : Nat} {s : Shape} {x z : Value} {w : Float} {right' : Outcome Value}
    (hs : ∀ {y}, right.result = .ok y → y.shape = s)
    (hr : ∀ {y b}, right.result = .ok y → y.at? i = some b → right'.result = .ok (.scalar b))
    (hx : ¬(x.shape = .scalar ∧ s = .vector)) (hz : (op.connect s right x).result = .ok z)
    (hw : z.at? i = some w) :
    ∃ a, x.at? i = some a ∧ (op.connect .scalar right' (.scalar a)).result = .ok (.scalar w) := by
  cases x with
  | scalar a =>
    cases s with
    | vector => exact absurd ⟨rfl, rfl⟩ hx
    | scalar =>
      refine ⟨a, rfl, ?_⟩
      cases ha : op.decides a with
      | true =>
        rw [connect_of_decides ha] at hz ⊢
        cases hz
        cases hw
        rfl
      | false =>
        simp only [connect, ha] at hz
        obtain ⟨y, hy, hz⟩ := Outcome.result_bind_eq_ok.mp hz
        cases y with
        | vector ys => cases hs hy
        | scalar b =>
          cases hz
          cases hw
          exact result_connect (hr hy rfl)
  | vector xs =>
    rw [connect] at hz
    split at hz
    next hall =>
      cases hz
      have hw : (xs.map fun _ => ofTruth op.deciding)[i]? = some w := hw
      rw [List.getElem?_map] at hw
      obtain ⟨a, ha, rfl⟩ := Option.map_eq_some_iff.mp hw
      have hd : op.decides a = true := List.all_eq_true.mp hall.2 a (List.mem_of_getElem? ha)
      exact ⟨a, ha, by rw [connect_of_decides hd]; rfl⟩
    next =>
      obtain ⟨y, hy, hz⟩ := Outcome.result_bind_eq_ok.mp hz
      cases hz
      rw [Value.at?_combine] at hw
      obtain ⟨a, ha, hw⟩ := Option.bind_eq_some_iff.mp hw
      obtain ⟨b, hb, rfl⟩ := Option.map_eq_some_iff.mp hw
      exact ⟨a, ha, result_connect (hr hy hb)⟩

end Connective

/-- The numeral of a natural number. -/
def Expr.numeral (i : Nat) : Expr := .number (Decimal.toFloat ⟨i, 0⟩)

namespace Compiler

/-- The tree of the entries `i`: every vector-valued identifier outside the indices and the indexed
vectors is indexed by `i`. -/
def atEntry (c : Compiler) (i : Nat) : Expr → Expr
  | .ident name =>
    match c.shapeOf (.ident name) with
    | .scalar => .ident name
    | .vector => .index (.ident name) (.numeral i)
  | .unary op e => .unary op (c.atEntry i e)
  | .binary op a b => .binary op (c.atEntry i a) (c.atEntry i b)
  | e => e

/-- No connective outside the indices and the indexed vectors has a scalar on its left and a vector
on its right. -/
def Entrywise (c : Compiler) : Expr → Prop
  | .unary _ e => c.Entrywise e
  | .binary (.pointwise _) a b => c.Entrywise a ∧ c.Entrywise b
  | .binary (.connective _) a b =>
    c.Entrywise a ∧ c.Entrywise b ∧ ¬(c.shapeOf a = .scalar ∧ c.shapeOf b = .vector)
  | _ => True

variable {c : Compiler} {f : Func} {i : Nat}

theorem shapeOf_atEntry (e : Expr) : c.shapeOf (c.atEntry i e) = .scalar := by
  induction e with
  | number x => rfl
  | bool b => rfl
  | ident name =>
    rw [atEntry]
    split
    next h => exact h
    next h => rfl
  | unary op e ih => exact ih
  | binary op a b iha ihb => rw [atEntry, shapeOf, iha, ihb, Shape.join]
  | index base i => rfl

/-- The tree of entries is lowered if the tree is. -/
theorem lower_atEntry {e : Expr} (hf : c.lower e = .ok f) :
    ∃ g, c.lower (c.atEntry i e) = .ok g := by
  induction e generalizing f with
  | ident name =>
    rw [atEntry]
    split
    next => exact ⟨f, hf⟩
    next hs =>
      obtain ⟨n, hn⟩ : ∃ n, c.lower (.numeral i) = .ok n := ⟨_, rfl⟩
      have hv : f.evaluator.shape = .vector := (shape_of_lower hf).trans hs
      have hi : n.evaluator.shape = .scalar := shape_of_lower hn
      obtain ⟨a, ha⟩ := Evaluator.index_eq_ok_iff.mpr ⟨hv, hi⟩
      exact ⟨⟨_, a⟩, lower_index.mpr ⟨f, hf, n, hn, rfl, ha⟩⟩
  | unary op e ih =>
    obtain ⟨g, hg, -⟩ := lower_unary.mp hf
    obtain ⟨g', hg'⟩ := ih hg
    exact ⟨_, lower_unary.mpr ⟨g', hg', rfl⟩⟩
  | binary op a b iha ihb =>
    obtain ⟨g, hg, h, hh, -⟩ := lower_binary.mp hf
    obtain ⟨g', hg'⟩ := iha hg
    obtain ⟨h', hh'⟩ := ihb hh
    exact ⟨_, lower_binary.mpr ⟨g', hg', h', hh', rfl⟩⟩
  | _ => exact ⟨f, hf⟩

variable (r : Record)

/-- A value has the inferred shape. -/
theorem shape_of_interpret {e : Expr} {x : Value} (hf : c.lower e = .ok f)
    (hx : (c.interpret r e).result = .ok x) : x.shape = c.shapeOf e := by
  rw [← interpret_of_lower r hf] at hx
  rw [← shape_of_lower hf]
  exact Evaluator.shape_eq_of_eval r hx

/-- If a tree has a value on a record, the tree of entries has its entry. -/
theorem interpret_atEntry {e : Expr} {x : Value} {y : Float} (hf : c.lower e = .ok f)
    (he : c.Entrywise e) (hi : i < 2 ^ 53) (hx : (c.interpret r e).result = .ok x)
    (hy : x.at? i = some y) : (c.interpret r (c.atEntry i e)).result = .ok (.scalar y) := by
  induction e generalizing f x y with
  | number z =>
    cases hx
    cases hy
    rfl
  | bool b =>
    cases hx
    cases hy
    rfl
  | ident name =>
    have hs := shape_of_interpret r hf hx
    rw [atEntry]
    split
    next h =>
      cases x with
      | vector xs => cases hs.trans h
      | scalar x =>
        cases hy
        exact hx
    next h =>
      cases x with
      | scalar x => cases hs.trans h
      | vector xs =>
        rw [interpret, Outcome.result_bind_eq_ok]
        refine ⟨_, hx, Outcome.result_bind_eq_ok.mpr ⟨_, rfl, ?_⟩⟩
        rw [Value.entry_numeral hi hy]
        rfl
  | unary op e ih =>
    obtain ⟨g, hg, -⟩ := lower_unary.mp hf
    obtain ⟨x, hx', hx⟩ := Outcome.result_bind_eq_ok.mp hx
    cases hx
    rw [Value.at?_map] at hy
    obtain ⟨a, ha, rfl⟩ := Option.map_eq_some_iff.mp hy
    exact Outcome.result_bind_eq_ok.mpr ⟨_, ih hg he hx' ha, rfl⟩
  | binary op a b iha ihb =>
    obtain ⟨g, hg, h, hh, -⟩ := lower_binary.mp hf
    cases op with
    | pointwise op =>
      obtain ⟨x, hx', hx⟩ := Outcome.result_bind_eq_ok.mp hx
      obtain ⟨z, hz, hx⟩ := Outcome.result_bind_eq_ok.mp hx
      cases hx
      rw [Value.at?_combine] at hy
      obtain ⟨u, hu, hy⟩ := Option.bind_eq_some_iff.mp hy
      obtain ⟨v, hv, rfl⟩ := Option.map_eq_some_iff.mp hy
      exact Outcome.result_bind_eq_ok.mpr ⟨_, iha hg he.1 hx' hu,
        Outcome.result_bind_eq_ok.mpr ⟨_, ihb hh he.2 hz hv, rfl⟩⟩
    | connective op =>
      obtain ⟨x, hx', hx⟩ := Outcome.result_bind_eq_ok.mp hx
      have hn : ¬(x.shape = .scalar ∧ c.shapeOf b = .vector) := by
        rw [shape_of_interpret r hg hx']
        exact he.2.2
      obtain ⟨u, hu, hz⟩ := Connective.connect_at? (shape_of_interpret r hh) (ihb hh he.2.1) hn hx hy
      rw [atEntry, interpret, shapeOf_atEntry]
      exact Outcome.result_bind_eq_ok.mpr ⟨_, iha hg he.1 hx' hu, hz⟩
  | index base j =>
    have hs := shape_of_interpret r hf hx
    cases x with
    | vector xs => cases hs
    | scalar x =>
      cases hy
      exact hx

/-- **Vectors are computed entry by entry**: take a text without a connective that has a scalar on
its left and a vector on its right, and a record on which it gives a vector. For every place `i` in
it, below `2 ^ 53`, the tree of entries `i` compiles to a scalar function, which gives entry `i` of
the vector on that record. -/
theorem eval_atEntry {text : String} {e : Expr} {v : List Float} (hf : c.compile text = .ok f)
    (hp : Expr.parse text = .ok e) (he : c.Entrywise e)
    (hv : (f.eval r).result = .ok (.vector v)) (hi : i < v.length) (hi' : i < 2 ^ 53) :
    ∃ g, c.lower (c.atEntry i e) = .ok g ∧ g.shape = .scalar ∧
      (g.eval r).result = .ok (.scalar v[i]) := by
  obtain ⟨e', hp', f', hf', rfl⟩ := compile_eq_ok.mp hf
  cases hp.symm.trans hp'
  have hx : (c.interpret r e).result = .ok (.vector v) := by
    rw [← interpret_of_lower r hf', ← hv, Func.eval_eq]
    rfl
  obtain ⟨g, hg⟩ := lower_atEntry (i := i) hf'
  refine ⟨g, hg, (shape_of_lower hg).trans (shapeOf_atEntry e), ?_⟩
  rw [Func.eval_eq, interpret_of_lower r hg]
  exact interpret_atEntry r hf' he hi' hx (List.getElem?_eq_getElem hi)

/-- A comparison with an entry, joined to a longer vector. -/
theorem eval_atEntry_comparison :
    let c := ofSchema (((Schema.empty.declare "v" .vector).declare "w" .vector).declare "x" .scalar)
    let r := ((Record.empty.insert "v" (.vector [2, 3])).insert "w" (.vector [2, 3, 0])).insert "x"
      (.scalar 1)
    let e := .binary (.connective .and)
      (.binary (.pointwise .lt) (.ident "v") (.index (.ident "w") (.ident "x"))) (.ident "w")
    ∃ f, c.compile "v < w[x] && w" = .ok f ∧ Expr.parse "v < w[x] && w" = .ok e ∧
      c.Entrywise e ∧ (f.eval r).result = .ok (.vector [1, 0]) ∧
      ∃ g, c.lower (c.atEntry 1 e) = .ok g ∧ g.shape = .scalar ∧
        (g.eval r).result = .ok (.scalar 0) := by
  intro c r e
  have hp : Expr.parse "v < w[x] && w" = .ok e := by cbv
  obtain ⟨f, hf, hv⟩ : ∃ f, c.compile "v < w[x] && w" = .ok f ∧ (f.eval r).result = .ok (.vector [1, 0]) :=
    ⟨_, compile_eq_ok.mpr ⟨_, hp, _, rfl, rfl⟩, rfl⟩
  have he : c.Entrywise e := ⟨⟨trivial, trivial⟩, trivial, by decide⟩
  exact ⟨f, hf, hp, he, hv, eval_atEntry r hf hp he hv (by decide) (by decide)⟩

end Compiler

end Cutflow
