import Cutflow.Proofs.Expr.Formula
import Cutflow.Proofs.Lowering

/-!
# Names of constants

The name of a constant is its number in digits, which expressions have for finite numbers without a
sign only. A sign in front of the digits reads as an operator, and what no digits can say is named
by a quotient that comes to it. So the name of a constant stands for a tree with operators in it,
`Expr.ofFloat`.

## What is proved

* `stands_constant`: the name of a constant reads as this tree, inside of longer names as well.
* `Compiler.lower_ofFloat`: the tree is lowered to the function that gives the number.
* `Compiler.compile_name_constant`: so the name of a constant compiles to the constant.
-/

namespace Cutflow

open Number Token Text

namespace Expr

/-- A quotient by zero. -/
def overZero (e : Expr) : Expr := .binary (.pointwise .div) e (.number 0)

/-- The tree that the name of a constant stands for. -/
def ofFloat (x : Float) : Expr :=
  if x.isNaN then overZero (.number 0)
  else if x.isInf then overZero (if isNegative x then .unary .neg (.number 1) else .number 1)
  else if isNegative x then .unary .neg (.number x.abs)
  else .number x.abs

variable {w : List Char} {ks : List Kind} {e : Expr} {s : String} {x : Float}

theorem spells_zero : Spells ['0'] (.number 0) := ⟨'0', [], rfl, by decide +kernel⟩

theorem spells_one : Spells ['1'] (.number 1) := ⟨'1', [], rfl, by decide +kernel⟩

theorem stands_of_signed (hd : Derives .signed ks e) (hc : Cuts s.toList ks) : Stands s e :=
  ⟨ks, hd.chain topLevel, hc⟩

/-- A signed phrase is divided by zero in parentheses. -/
theorem stands_overZero (hd : Derives .signed ks e) (hc : Cuts w ks)
    (hs : s.toList = '(' :: (w ++ ['/', '0', ')'])) : Stands s (overZero e) := by
  have hz : Derives .signed [.number 0] (.number 0) := .indexed (.primary (.number 0))
  have hq : Derives (.chain 1) (ks ++ [.slash, .number 0]) (overZero e) :=
    .binary rfl rfl (hd.chain 1) (hz.chain 0)
  have hb : ∀ c ∈ ['/', '0', ')'], isBlank c = false := by
    rw [List.forall_mem_cons, List.forall_mem_cons, List.forall_mem_singleton]
    decide
  refine stands_of_signed (.indexed (.primary (.parens (hq.mono (level_le (.pointwise .div)))))) ?_
  rw [hs]
  constructor
  · refine List.forall_mem_cons.mpr ⟨by decide, ?_⟩
    intro c hc'
    exact (List.mem_append.mp hc').elim (hc.solid c) (hb c)
  · intro rest js hr h
    have hclose : Scans (')' :: rest) (.rparen :: js) := .mark rfl (fun _ => rfl) h
    have hzero := spells_zero.cuts.before (delimited_cons rfl (by decide) rest) hclose
    have hslash : Scans ('/' :: '0' :: ')' :: rest) (.slash :: .number 0 :: .rparen :: js) :=
      .mark rfl (fun _ => rfl) hzero
    have hall := hc.before (delimited_cons rfl (by decide) _) hslash
    exact .mark rfl (fun _ => rfl) (by simpa using hall)

theorem isFinite_of_not_special (hn : x.isNaN = false) (hi : x.isInf = false) :
    x.isFinite = true := by
  rw [← Bool.not_eq_true, isNaN_iff] at hn
  rw [← Bool.not_eq_true, isInf_iff] at hi
  rw [isFinite_iff]
  omega

/-- What is written for a number stands for its tree. -/
theorem stands_write (x : Float) : Stands (Func.constantLayout.write x) (ofFloat x) := by
  have hone : Derives .signed [.number 1] (.number 1) := .indexed (.primary (.number 1))
  rw [Decimal.Layout.write, ofFloat]
  cases hn : x.isNaN with
  | true =>
    show Stands "(0/0)" (overZero (.number 0))
    exact stands_overZero (.indexed (.primary (.number 0))) spells_zero.cuts (by decide)
  | false =>
    cases hi : x.isInf with
    | true =>
      cases isNegative x with
      | true =>
        show Stands "(-1/0)" (overZero (.unary .neg (.number 1)))
        exact stands_overZero (.unary rfl hone) spells_one.cuts.minus (by decide)
      | false =>
        show Stands "(1/0)" (overZero (.number 1))
        exact stands_overZero hone spells_one.cuts (by decide)
    | false =>
      have hd : Derives .signed [.number x.abs] (.number x.abs) := .indexed (.primary (.number _))
      have hc := (spells_shortest Func.constantLayout (isFinite_of_not_special hn hi)).cuts
      simp only [Bool.false_eq_true, if_false]
      cases isNegative x with
      | true => exact stands_of_signed (.unary rfl hd) (by simpa using hc.minus)
      | false => exact stands_of_signed hd (by simpa using hc)

/-- **The name of a constant stands for its tree**, whatever the number. -/
theorem stands_constant (x : Float) : Stands (Func.constant x).name (ofFloat x) := by
  have h := stands_write x
  have hn : (Func.constant x).name = Func.constantLayout.write x := h.blankless
  rwa [hn]

end Expr

/-! ### Lowering the tree -/

namespace Compiler

variable {c : Compiler} {e : Expr} {x : Float}

theorem lower_overZero (h : ∃ g, c.lower e = .ok g ∧ g.evaluator = (Func.constant x).evaluator) :
    ∃ g, c.lower (.overZero e) = .ok g ∧ g.evaluator = (Func.constant (x / 0)).evaluator := by
  obtain ⟨g, hg, he⟩ := h
  refine ⟨_, lower_binary.mpr ⟨g, hg, _, rfl, rfl⟩, ?_⟩
  show Evaluator.pointwise Pointwise.div.apply g.evaluator _ = _
  rw [he]
  rfl

theorem lower_neg (x : Float) :
    ∃ g, c.lower (.unary .neg (.number x)) = .ok g ∧ g.evaluator = (Func.constant (-x)).evaluator :=
  ⟨_, lower_unary.mpr ⟨_, rfl, rfl⟩, rfl⟩

/-- The tree of a constant is lowered to a function that gives the number. -/
theorem lower_ofFloat (x : Float) :
    ∃ g, c.lower (.ofFloat x) = .ok g ∧ g.evaluator = (Func.constant x).evaluator := by
  rw [Expr.ofFloat]
  cases hn : x.isNaN with
  | true =>
    have hx : x = 0 / 0 := of_decide_eq_true (Float.isNaN_eq_decide_eq_nan ▸ hn)
    exact hx ▸ lower_overZero ⟨_, rfl, rfl⟩
  | false =>
    have hx := ofMagnitude_isNegative_magnitude x
    cases hi : x.isInf with
    | true =>
      rw [isInf_iff.mp hi] at hx
      cases hneg : isNegative x with
      | true =>
        have hq : (-1 : Float) / 0 = x := (hneg ▸ hx) ▸ by decide +kernel
        exact hq ▸ lower_overZero (lower_neg 1)
      | false =>
        have hq : (1 : Float) / 0 = x := (hneg ▸ hx) ▸ by decide +kernel
        exact hq ▸ lower_overZero ⟨_, rfl, rfl⟩
    | false =>
      cases hneg : isNegative x with
      | true =>
        have h := lower_neg (c := c) x.abs
        rwa [neg_abs_of_isNegative hn hneg] at h
      | false => exact ⟨_, rfl, by rw [abs_of_not_isNegative hneg]⟩

/-- **The name of a constant compiles back to it**, with any compiler: the function gives this very number,
down to the sign of a zero, without a look at the record. -/
theorem compile_name_constant (c : Compiler) (x : Float) :
    ∃ f, c.compile (Func.constant x).name = .ok f ∧ f.name = (Func.constant x).name ∧
      f.shape = .scalar ∧ f.evaluator = .scalar (fun _ => return x) ∧
      ∀ r, f.evalScalar r = return x := by
  have hs := Expr.stands_constant x
  obtain ⟨g, hg, he⟩ := lower_ofFloat (c := c) x
  refine ⟨.constant x, compile_eq_ok.mpr ⟨_, hs.parse, g, hg, ?_⟩, rfl, rfl, rfl, fun _ => rfl⟩
  rw [Func.rename, he, hs.blankless]

end Compiler

end Cutflow
