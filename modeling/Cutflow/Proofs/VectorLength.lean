import Cutflow.Proofs.Composition
import Cutflow.Proofs.Connective
import Cutflow.Proofs.Interpreter

/-!
# The length of a composed vector

No operator complains about the lengths of its operands: a number is broadcast over any length, and two
vectors are combined over the shorter one. So a composed vector is as long as the shortest of the vectors
among its leaves, however deep that one stands. Only what stands under an index does not count, because
an entry is a number.

The connectives keep to this where they pass a vector on or answer with ones, and also where they do
without their right operand, which is a number then. There is one exception, a false number left of
`&&`. It clears the vector on its right without asking for it, and an empty vector leaves nothing of
what it is combined with (`Composition.Collapses`).

## What is proved

* `Value.size_combine`, `Connective.size_answer`: a combination has the smaller of two sizes, where a
  number is larger than every vector.
* `Composition.sized_of_build`: what this adds up to in a composition, by induction on it.
* `Composition.length_of_eval`: the same of vectors.
-/

namespace Cutflow

open Number

namespace Value

/-- The number of entries; a number has one for every place. -/
def size : Value → WithTop ℕ
  | scalar _ => ⊤
  | vector xs => xs.length

theorem size_map (op : Float → Float) (x : Value) : (x.map op).size = x.size := by
  cases x with
  | scalar a => rfl
  | vector xs => simp [map, size]

theorem size_combine (op : Float → Float → Float) (x y : Value) :
    (combine op x y).size = min x.size y.size := by
  cases x with
  | scalar a => cases y <;> simp [combine, size]
  | vector xs =>
    cases y with
    | scalar b => simp [combine, size]
    | vector ys =>
      rw [combine, size, List.length_zipWith]
      exact WithTop.coe_min xs.length ys.length

end Value

/-- With the left value `x`, the operator makes the empty vector of every vector on the right. -/
def BinaryOp.Clears : BinaryOp → Value → Shape → Prop
  | .connective .and, .scalar a, .vector => isTrue a = false
  | _, _, _ => False

namespace Connective

variable {op : Connective} {s : Shape} {right : Outcome Value} {x y z : Value}

theorem answer_of_clears (h : BinaryOp.Clears (.connective op) x y.shape) :
    op.answer x y = .vector [] := by
  cases op with
  | or => cases h
  | and =>
    cases x with
    | vector xs => cases h
    | scalar a =>
      cases y with
      | scalar b => cases h
      | vector ys =>
        have ha : isTrue a = false := h
        simp only [answer, ha]

theorem clears_of_not_asks (h : op.asks .vector x = false) :
    BinaryOp.Clears (.connective op) x .vector := by
  cases x with
  | vector xs => exact Shape.noConfusion (asks_vector_eq_false.mp h).1
  | scalar a =>
    cases op with
    | and => exact h
    | or => cases h

theorem size_answer (h : ¬BinaryOp.Clears (.connective op) x y.shape) :
    (op.answer x y).size = min x.size y.size := by
  cases x with
  | vector xs => rw [answer_vector, Value.size_combine]
  | scalar a =>
    cases y with
    | scalar b => rfl
    | vector ys =>
      cases op with
      | and =>
        have ha : isTrue a = true := Bool.not_eq_false _ ▸ h
        simp [answer, ha, Value.size]
      | or => cases ha : isTrue a <;> simp [answer, ha, Value.size]

/-- A connective that has a value has the answer with some right operand, which is the value of `right`
if it asks for that. -/
theorem exists_answer (hr : ∀ {y}, right.result = .ok y → y.shape = s)
    (hz : (op.connect s right x).result = .ok z) :
    ∃ y, y.shape = s ∧ z = op.answer x y ∧ (op.asks s x = true → right.result = .ok y) := by
  cases ha : op.asks s x with
  | true =>
    rw [connect_of_asks ha hr] at hz
    obtain ⟨y, hy, ⟨⟩⟩ := Outcome.result_bind_eq_ok.mp hz
    exact ⟨y, hr hy, rfl, fun _ => hy⟩
  | false =>
    obtain ⟨y, hy⟩ := Value.exists_shape_eq s
    rw [connect_of_not_asks ha hy] at hz
    exact ⟨y, hy, (Except.ok.inj hz).symm, Bool.noConfusion⟩

end Connective

namespace Func

/-- The function has a vector of this length on the record. -/
def HasLength (f : Func) (r : Record) (n : ℕ) : Prop :=
  ∃ xs, (f.eval r).result = .ok (.vector xs) ∧ xs.length = n

theorem eval_combine (form : Form) (op : BinaryOp) (f g : Func) (r : Record) :
    (combine form op f g).eval r = (binary op f g).eval r := by
  rw [eval_eq, eval_eq, evaluator_combine]
  rfl

end Func

namespace Composition

variable {α : Type} {leafFunc : α → Func} {r : Record} {a b t : Composition α} {f g : Func}
  {form : Form} {op : BinaryOp} {x y z : Value}

/-- The leaves that are vectors, from left to right, without those under an index. -/
def vectorLeaves (leafFunc : α → Func) : Composition α → List α
  | leaf a => if (leafFunc a).shape = .vector then [a] else []
  | unary _ t => t.vectorLeaves leafFunc
  | binary _ _ a b => a.vectorLeaves leafFunc ++ b.vectorLeaves leafFunc
  | index _ _ => []

/-- Somewhere, but not under an index, a false number clears a vector on the record. -/
def Collapses (leafFunc : α → Func) (r : Record) : Composition α → Prop
  | leaf _ => False
  | unary _ t => t.Collapses leafFunc r
  | binary _ op a b => a.Collapses leafFunc r ∨ b.Collapses leafFunc r ∨
      ∃ f x g, a.build leafFunc = .ok f ∧ (f.eval r).result = .ok x ∧ b.build leafFunc = .ok g ∧
        op.Clears x g.shape
  | index _ _ => False

theorem collapses_binary (hf : a.build leafFunc = .ok f) (hx : (f.eval r).result = .ok x)
    (hg : b.build leafFunc = .ok g) :
    (binary form op a b).Collapses leafFunc r ↔
      a.Collapses leafFunc r ∨ b.Collapses leafFunc r ∨ op.Clears x g.shape := by
  refine or_congr_right (or_congr_right ⟨?_, fun h => ⟨f, x, g, hf, hx, hg, h⟩⟩)
  rintro ⟨f', x', g', hf', hx', hg', h⟩
  cases hf.symm.trans hf'
  cases hx.symm.trans hx'
  cases hg.symm.trans hg'
  exact h

/-- How the size of a value of the composition comes about. -/
structure Sized (leafFunc : α → Func) (r : Record) (t : Composition α) (z : Value) : Prop where
  /-- Nothing is left if a vector is cleared. -/
  cleared : t.Collapses leafFunc r → z.size = 0
  /-- Else the leaves that are vectors have lengths, and the least of them counts. -/
  least : ¬t.Collapses leafFunc r → ∃ lengths,
    List.Forall₂ (fun a n => (leafFunc a).HasLength r n) (t.vectorLeaves leafFunc) lengths ∧
      z.size = lengths.minimum

namespace Sized

theorem unary (op : UnaryOp) (h : t.Sized leafFunc r x) :
    (Composition.unary op t).Sized leafFunc r (x.map op.apply) where
  cleared hc := (x.size_map op.apply).trans (h.cleared hc)
  least hc := by
    obtain ⟨lengths, hl, hx⟩ := h.least hc
    exact ⟨lengths, hl, (x.size_map op.apply).trans hx⟩

theorem of_clears (hf : a.build leafFunc = .ok f) (hx : (f.eval r).result = .ok x)
    (hg : b.build leafFunc = .ok g) (h : op.Clears x g.shape) (hz : z.size = 0) :
    (binary form op a b).Sized leafFunc r z where
  cleared _ := hz
  least hc := absurd ((collapses_binary hf hx hg).mpr (.inr (.inr h))) hc

/-- Two operands neither of which clears the other one. -/
theorem join (hf : a.build leafFunc = .ok f) (hx : (f.eval r).result = .ok x)
    (hg : b.build leafFunc = .ok g) (h : ¬op.Clears x g.shape) (ha : a.Sized leafFunc r x)
    (hb : b.Sized leafFunc r y) (hz : z.size = min x.size y.size) :
    (binary form op a b).Sized leafFunc r z where
  cleared hc := by
    rw [hz]
    rcases (collapses_binary hf hx hg).mp hc with hc | hc | hc
    · rw [ha.cleared hc, min_eq_left (zero_le)]
    · rw [hb.cleared hc, min_eq_right (zero_le)]
    · exact absurd hc h
  least hc := by
    rw [collapses_binary hf hx hg, not_or, not_or] at hc
    obtain ⟨ls, hls, hxs⟩ := ha.least hc.1
    obtain ⟨ms, hms, hys⟩ := hb.least hc.2.1
    exact ⟨ls ++ ms, List.rel_append hls hms, by rw [hz, hxs, hys, List.minimum_append]⟩

end Sized

/-- In a composition that is a number there are no vectors but under an index. -/
theorem vectorLeaves_eq_nil (hf : t.build leafFunc = .ok f) (hs : f.shape = .scalar) :
    t.vectorLeaves leafFunc = [] ∧ ¬t.Collapses leafFunc r := by
  induction t generalizing f with
  | leaf a =>
    cases hf
    exact ⟨if_neg (hs ▸ Shape.noConfusion), id⟩
  | unary op t ih =>
    obtain ⟨g, hg, rfl⟩ := build_unary.mp hf
    rw [Func.shape, Func.evaluator_unary, Evaluator.shape_map] at hs
    exact ih hg hs
  | binary form op a b iha ihb =>
    obtain ⟨g, hg, h, hh, rfl⟩ := build_binary.mp hf
    rw [Func.shape, Func.evaluator_combine, Evaluator.shape_combine] at hs
    obtain ⟨hgs, hhs⟩ : g.shape = .scalar ∧ h.shape = .scalar := Shape.join_eq_scalar.mp hs
    obtain ⟨hal, hac⟩ := iha hg hgs
    obtain ⟨hbl, hbc⟩ := ihb hh hhs
    refine ⟨List.append_eq_nil_iff.mpr ⟨hal, hbl⟩, ?_⟩
    rintro (hc | hc | ⟨-, x, h', -, -, hh', hc⟩)
    · exact hac hc
    · exact hbc hc
    · cases hh.symm.trans hh'
      rw [hhs] at hc
      revert hc
      cases op with
      | pointwise op => exact id
      | connective op => cases op <;> cases x <;> exact id
  | index base i => exact ⟨rfl, id⟩

theorem sized_of_scalar (hf : t.build leafFunc = .ok f) (hs : f.shape = .scalar)
    (hz : z.shape = .scalar) : t.Sized leafFunc r z := by
  obtain ⟨hl, hc⟩ := vectorLeaves_eq_nil (r := r) hf hs
  cases z with
  | vector xs => cases hz
  | scalar x => exact ⟨fun h => absurd h hc, fun _ => ⟨[], hl ▸ .nil, rfl⟩⟩

theorem sized_leaf {a : α} (hz : ((leafFunc a).eval r).result = .ok z) :
    (leaf a).Sized leafFunc r z := by
  have hs := Func.shape_eq_of_eval hz
  cases z with
  | scalar x => exact sized_of_scalar rfl hs.symm rfl
  | vector xs =>
    have hl : (leaf a).vectorLeaves leafFunc = [a] := if_pos hs.symm
    exact ⟨False.elim, fun _ => ⟨[xs.length], hl ▸ .cons ⟨xs, hz, rfl⟩ .nil, rfl⟩⟩

theorem sized_connective {op : Connective} (hf : a.build leafFunc = .ok f)
    (hx : (f.eval r).result = .ok x) (hg : b.build leafFunc = .ok g) (ha : a.Sized leafFunc r x)
    (hb : ∀ {y}, (g.eval r).result = .ok y → b.Sized leafFunc r y)
    (hz : (op.connect g.shape (g.eval r) x).result = .ok z) :
    (binary form (.connective op) a b).Sized leafFunc r z := by
  obtain ⟨y, hy, rfl, hask⟩ := Connective.exists_answer Func.shape_eq_of_eval hz
  by_cases hc : BinaryOp.Clears (.connective op) x g.shape
  · refine .of_clears hf hx hg hc ?_
    rw [Connective.answer_of_clears (hy ▸ hc)]
    rfl
  · refine .join hf hx hg hc ha ?_ (Connective.size_answer (hy ▸ hc))
    -- the right operand is a number, or else it is asked for
    cases hs : g.shape with
    | scalar => exact sized_of_scalar hg hs (hy.trans hs)
    | vector =>
      rw [hs] at hc hask
      cases hq : op.asks .vector x with
      | true => exact hb (hask hq)
      | false => exact absurd (Connective.clears_of_not_asks hq) hc

theorem sized_of_build (hf : t.build leafFunc = .ok f) (hz : (f.eval r).result = .ok z) :
    t.Sized leafFunc r z := by
  induction t generalizing f z with
  | leaf a =>
    cases hf
    exact sized_leaf hz
  | unary op t ih =>
    obtain ⟨g, hg, rfl⟩ := build_unary.mp hf
    rw [Func.eval_unary] at hz
    obtain ⟨x, hx, ⟨⟩⟩ := Outcome.result_bind_eq_ok.mp hz
    exact (ih hg hx).unary op
  | binary form op a b iha ihb =>
    obtain ⟨g, hg, h, hh, rfl⟩ := build_binary.mp hf
    rw [Func.eval_combine] at hz
    cases op with
    | pointwise op =>
      rw [Func.eval_pointwise] at hz
      obtain ⟨x, hx, hz⟩ := Outcome.result_bind_eq_ok.mp hz
      obtain ⟨y, hy, ⟨⟩⟩ := Outcome.result_bind_eq_ok.mp hz
      exact .join hg hx hh id (iha hg hx) (ihb hh hy) (Value.size_combine op.apply x y)
    | connective op =>
      rw [Func.eval_connective] at hz
      obtain ⟨x, hx, hz⟩ := Outcome.result_bind_eq_ok.mp hz
      exact sized_connective hg hx hh (iha hg hx) (ihb hh) hz
  | index base i =>
    obtain ⟨g, -, h, -, hi⟩ := build_index.mp hf
    obtain ⟨e, he, hfe⟩ := bind_eq_ok.mp hi
    have hs : f.shape = .scalar := by
      cases hfe
      exact Evaluator.shape_index he
    exact sized_of_scalar hf hs ((Func.shape_eq_of_eval hz).trans hs)

/-- **A composed vector is as long as its shortest vector leaf**, those under an index left out, unless
a false number left of `&&` clears a vector: then it is empty. -/
theorem length_of_eval {v : List Float} (hf : t.build leafFunc = .ok f)
    (hv : (f.eval r).result = .ok (.vector v)) :
    (t.Collapses leafFunc r → v.length = 0) ∧
    (¬t.Collapses leafFunc r → ∃ lengths,
      List.Forall₂ (fun a n => (leafFunc a).HasLength r n) (t.vectorLeaves leafFunc) lengths ∧
        lengths.minimum = v.length) := by
  have h := sized_of_build hf hv
  constructor
  · intro hc
    exact WithTop.coe_injective (h.cleared hc)
  · intro hc
    obtain ⟨lengths, hl, hs⟩ := h.least hc
    exact ⟨lengths, hl, hs.symm⟩

/-- Of `(s||v)<w` with two entries in `w`, three in `v` and one in `u`, compared to an entry of `u`. With
`s&&v` in place of `s||v` nothing is left, because `s` is `0`. -/
theorem length_of_eval_ragged :
    let leaf (name : String) (value : Value) : Composition Func :=
      .leaf (.ofEvaluator name (Func.leafEvaluator name value none))
    let s := leaf "s" (.scalar 0)
    let t (op : Connective) : Composition Func :=
      .binary .fresh (.pointwise .lt)
        (.binary .inPlace (.pointwise .lt)
          (.binary .fresh (.connective op) s (leaf "v" (.vector [1, 5, 3]))) (leaf "w" (.vector [4, 2])))
        (.index (leaf "u" (.vector [6])) s)
    (∃ f, (t .or).build id = .ok f ∧ (f.eval ∅).result = .ok (.vector [1, 1]) ∧
      ¬(t .or).Collapses id ∅ ∧ ∃ lengths,
        List.Forall₂ (fun a n => a.HasLength ∅ n) ((t .or).vectorLeaves id) lengths ∧
          lengths.minimum = 2) ∧
    ∃ f v, (t .and).build id = .ok f ∧ (f.eval ∅).result = .ok (.vector v) ∧
      (t .and).Collapses id ∅ ∧ v.length = 0 := by
  intro leaf s t
  constructor
  · obtain ⟨f, hf, hv⟩ : ∃ f, (t .or).build id = .ok f ∧
        (f.eval ∅).result = .ok (.vector [1, 1]) := ⟨_, rfl, rfl⟩
    have hc : ¬(t .or).Collapses id ∅ := by
      simp [t, s, leaf, Collapses, BinaryOp.Clears]
    exact ⟨f, hf, hv, hc, (length_of_eval hf hv).2 hc⟩
  · obtain ⟨f, v, hf, hv⟩ : ∃ f v, (t .and).build id = .ok f ∧
        (f.eval ∅).result = .ok (.vector v) := ⟨_, _, rfl, rfl⟩
    have hc : (t .and).Collapses id ∅ :=
      .inl (.inl (.inr (.inr ⟨_, .scalar 0, _, rfl, rfl, rfl, rfl⟩)))
    exact ⟨f, v, hf, hv, hc, (length_of_eval hf hv).1 hc⟩

end Composition

end Cutflow
