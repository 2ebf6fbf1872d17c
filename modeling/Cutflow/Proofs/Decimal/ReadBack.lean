import Cutflow.Decimal
import Cutflow.Proofs.Number.Spacing

/-!
# Decimals that read back

A decimal is read as the double nearest to its value (`toFloat_eq_nearest`): far values, which are told by
the place of the first digit, have no other nearest doubles. So any decimal whose value is that of a
double reads as this double, its exact expansion in particular, and whatever the search for a
shorter one ends with was either tried out before or is the exact expansion.

## What is proved

* `toFloat_eq_nearest`: a decimal is read as the double nearest to its value.
* `toFloat_of_toRat_eq_valueOf`: a decimal that is the value of a double reads as that double.
* `toFloat_shortest`: the shortest decimal of a finite double reads back as it, without its sign.
-/

namespace Cutflow.Decimal

open Number

variable {d d' : Decimal}

/-! ### The first digit -/

theorem length_digitChars_pos (d : Decimal) : 0 < d.digitChars.length := Nat.length_toDigits_pos

theorem digits_lt (d : Decimal) : d.digits < 10 ^ d.digitChars.length :=
  (Nat.length_toDigits_le_iff (by decide) d.length_digitChars_pos).mp le_rfl

theorem le_digits (h : d.digits ≠ 0) : 10 ^ (d.digitChars.length - 1) ≤ d.digits := by
  by_cases h1 : d.digitChars.length = 1
  · rw [h1]
    exact Nat.pos_of_ne_zero h
  · have hp := d.length_digitChars_pos
    rw [← Nat.not_lt, ← Nat.length_toDigits_le_iff (by decide) (by omega)]
    show ¬ d.digitChars.length ≤ _
    omega

theorem zpow_leading_le (h : d.digits ≠ 0) : (10 : Rat) ^ d.leading ≤ d.toRat := by
  have hp := d.length_digitChars_pos
  have hd : (10 : Rat) ^ (d.digitChars.length - 1) ≤ d.digits := by exact_mod_cast le_digits h
  have he : d.leading = (d.digitChars.length - 1 : Nat) + d.exponent := by
    rw [leading]
    omega
  rw [he, zpow_add₀ (by norm_num), zpow_natCast, toRat]
  gcongr

theorem toRat_lt_zpow (d : Decimal) : d.toRat < (10 : Rat) ^ (d.leading + 1) := by
  have hd : (d.digits : Rat) < 10 ^ d.digitChars.length := by exact_mod_cast d.digits_lt
  have he : d.leading + 1 = d.digitChars.length + d.exponent := by
    rw [leading]
    omega
  rw [he, zpow_add₀ (by norm_num), zpow_natCast, toRat]
  gcongr

theorem toRat_eq_zero_iff : d.toRat = 0 ↔ d.digits = 0 := by
  rw [toRat, mul_eq_zero, or_iff_left (by positivity), Nat.cast_eq_zero]

/-! ### Reading -/

theorem zpow_two_lt_zpow_ten : (2 : Rat) ^ (1024 : Int) < 10 ^ (310 : Int) := by
  have hn : 2 ^ 1024 < 10 ^ 310 := by decide +kernel
  exact_mod_cast hn

theorem zpow_ten_lt_zpow_two : (10 : Rat) ^ (-330 : Int) < 2 ^ (-1075 : Int) := by
  have hn : 2 ^ 1075 < 10 ^ 330 := by decide +kernel
  rw [zpow_neg, zpow_neg, inv_lt_inv₀ (by positivity) (by positivity)]
  exact_mod_cast hn

theorem toRat_nonneg (d : Decimal) : 0 ≤ d.toRat := by
  rw [toRat]
  positivity

/-- **A decimal is read as the nearest double**; the place of the first digit tells nothing else. -/
theorem toFloat_eq_nearest (d : Decimal) : d.toFloat = nearest d.toRat := by
  rw [toFloat]
  split
  next h =>
    have hzero : nearestMagnitude d.toRat = 0 := by
      rcases h with h0 | hlow
      · rw [toRat_eq_zero_iff.mpr h0]
        rfl
      · refine nearestMagnitude_of_lt d.toRat_nonneg (d.toRat_lt_zpow.trans_le ?_)
        exact (zpow_le_zpow_right₀ (by norm_num) (by omega)).trans zpow_ten_lt_zpow_two.le
    rw [nearest, hzero]
  next h =>
    split
    next hhigh =>
      have hge : (2 : Rat) ^ (1024 : Int) ≤ d.toRat := by
        refine zpow_two_lt_zpow_ten.le.trans ((zpow_le_zpow_right₀ (by norm_num) hhigh).trans ?_)
        exact zpow_leading_le fun h0 => h (.inl h0)
      rw [nearest, nearestMagnitude_of_ge hge]
    next => rfl

theorem toFloat_eq_of_toRat_eq (h : d.toRat = d'.toRat) : d.toFloat = d'.toFloat := by
  rw [toFloat_eq_nearest, toFloat_eq_nearest, h]

/-- A decimal that is the value of a double reads as that double. -/
theorem toFloat_of_toRat_eq_valueOf {m : Nat} (h : m < infiniteMagnitude)
    (hd : d.toRat = valueOf m) : d.toFloat = ofMagnitude false m := by
  rw [toFloat_eq_nearest, nearest, hd, nearestMagnitude_valueOf h]

/-- The numeral of a natural number below `2 ^ 53` reads as the double that is this number. -/
theorem toFloat_natCast {n : Nat} (h : n < 2 ^ 53) : toFloat ⟨n, 0⟩ = nearest n := by
  obtain ⟨m, hm, hv⟩ := exists_valueOf_eq h
  have hd : toRat ⟨n, 0⟩ = valueOf m := by rw [toRat, zpow_zero, mul_one, hv]
  rw [toFloat_of_toRat_eq_valueOf hm hd, ← hv, nearest, nearestMagnitude_valueOf hm]

/-! ### Writing -/

theorem toRat_exact (x : Float) : (exact x).toRat = valueOf (magnitude x) := by
  show _ = (significand x : Rat) * 2 ^ Number.exponent x
  simp only [exact, toRat]
  split_ifs with h0 hq
  · simp [h0]
  · obtain ⟨q, hq'⟩ := Int.eq_ofNat_of_zero_le hq
    rw [hq', Int.toNat_natCast, Nat.shiftLeft_eq]
    push_cast
    rw [zpow_natCast, mul_one]
  · obtain ⟨k, hk⟩ : ∃ k : Nat, Number.exponent x = -k := ⟨(-Number.exponent x).toNat, by omega⟩
    rw [hk, neg_neg, Int.toNat_natCast, zpow_neg, zpow_neg, zpow_natCast, zpow_natCast]
    have h10 : (10 : Rat) ^ k = 5 ^ k * 2 ^ k := by rw [← mul_pow]; norm_num
    rw [h10, Nat.pow_eq]
    push_cast
    field_simp

theorem toFloat_exact {x : Float} (h : x.isFinite = true) : (exact x).toFloat = x.abs := by
  rw [toFloat_of_toRat_eq_valueOf (isFinite_iff.mp h) (toRat_exact x), abs_eq]

/-- The search ends with a decimal that reads as the one it began with. -/
theorem toFloat_shorten {tie : Tie} {x : Float} (h : d.toFloat = x) (k : Nat) :
    (shorten tie x d k).toFloat = x := by
  induction k with
  | zero => exact h
  | succ k ih =>
    rw [shorten]
    split
    next c hc => simpa using List.find?_some hc
    next => exact ih

/-- **The shortest decimal of a double reads back**: as the double without its sign. -/
theorem toFloat_shortest {tie : Tie} {x : Float} (h : x.isFinite = true) :
    (shortest tie x).toFloat = x.abs :=
  toFloat_shorten (toFloat_exact h) _

/-- The double nearest to the shortest decimal. -/
theorem nearestMagnitude_shortest {tie : Tie} {x : Float} (h : x.isFinite = true) :
    nearestMagnitude (shortest tie x).toRat = magnitude x := by
  have hread : ofMagnitude false (nearestMagnitude (shortest tie x).toRat) = ofMagnitude false (magnitude x) := by
    rw [← abs_eq, ← toFloat_shortest h, toFloat_eq_nearest, nearest]
  have hm := congrArg magnitude hread
  rwa [magnitude_ofMagnitude (nearestMagnitude_le _), magnitude_ofMagnitude (isFinite_iff.mp h).le] at hm

/-- The sign does not count. -/
theorem shortest_congr {tie : Tie} {x y : Float} (h : magnitude x = magnitude y) : shortest tie x = shortest tie y := by
  have he : exact x = exact y := by
    unfold exact significand Number.exponent
    rw [h]
  rw [shortest, shortest, abs_eq, abs_eq, h, he]

theorem exact_of_magnitude_eq_zero {x : Float} (h : magnitude x = 0) : exact x = ⟨0, 0⟩ := by
  have hs : significand x = 0 := by
    show significandOf (magnitude x) = 0
    rw [h]
    rfl
  rw [exact, if_pos hs]

theorem shortest_of_magnitude_eq_zero (tie : Tie) {x : Float} (h : magnitude x = 0) : shortest tie x = ⟨0, 0⟩ := by
  have he := exact_of_magnitude_eq_zero h
  rw [shortest, he]
  rfl

/-- Only zero has the digit zero. -/
theorem magnitude_of_digits_shortest {tie : Tie} {x : Float} (h : x.isFinite = true)
    (h0 : (shortest tie x).digits = 0) : magnitude x = 0 := by
  rw [← nearestMagnitude_shortest h, toRat_eq_zero_iff.mpr h0]
  rfl

end Cutflow.Decimal
