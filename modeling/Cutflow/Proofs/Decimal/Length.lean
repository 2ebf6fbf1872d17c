import Cutflow.Proofs.Decimal.ReadBack

/-!
# Seventeen digits

The exact expansion of a double may have hundreds of digits, but its first seventeen tell it from all
other doubles: cut off there and rounded, the expansion is nearer to the double than half of the distance
to the next one. So the search for the shortest decimal ends there at the latest.

## What is proved

* `abs_toRat_near_sub_le`: the nearer neighbour of a decimal is off by half a unit at most.
* `digits_shortest_le`: shortest decimals have no more than seventeen digits.
-/

namespace Cutflow.Decimal

open Number

variable {tie : Tie} {d c : Decimal} {k n unit : Nat} {x : Float}

/-! ### Trimming -/

theorem toRat_trim (d : Decimal) : d.trim.toRat = d.toRat := by
  induction d using trim.induct with
  | case1 d h ih =>
    have hd : (d.digits : Rat) = (d.digits / 10 : Nat) * 10 := by
      exact_mod_cast (Nat.div_mul_cancel (Nat.dvd_of_mod_eq_zero h.2)).symm
    rw [trim, if_pos h, ih, toRat, toRat, hd, zpow_add_one₀ (by norm_num)]
    ring
  | case2 d h => rw [trim, if_neg h]

theorem digits_trim_le (d : Decimal) : d.trim.digits ≤ d.digits := by
  induction d using trim.induct with
  | case1 d h ih =>
    rw [trim, if_pos h]
    exact ih.trans (Nat.div_le_self _ _)
  | case2 d h => rw [trim, if_neg h]

/-! ### Neighbours -/

theorem Tie.roundsDown_eq_true (h : tie.roundsDown n unit = true) : 2 * (n % unit) ≤ unit := by
  unfold Tie.roundsDown at h
  split at h
  next hc => exact (Nat.compare_eq_lt.mp hc).le
  next hc => exact (Nat.compare_eq_eq.mp hc).le
  next => cases h
  next => cases h

theorem Tie.roundsDown_eq_false (h : tie.roundsDown n unit = false) : unit ≤ 2 * (n % unit) := by
  unfold Tie.roundsDown at h
  split at h
  next => cases h
  next hc => exact (Nat.compare_eq_eq.mp hc).ge
  next hc => exact (Nat.compare_eq_eq.mp hc).ge
  next hc => exact (Nat.compare_eq_gt.mp hc).le

theorem digits_le_of_mem_neighbours (h : c ∈ neighbours tie d k) : c.digits ≤ d.digits / 10 ^ k + 1 := by
  have hlower := digits_trim_le ⟨d.digits / 10 ^ k, d.exponent + k⟩
  have hupper := digits_trim_le ⟨d.digits / 10 ^ k + 1, d.exponent + k⟩
  have hmem : c = trim ⟨d.digits / 10 ^ k, d.exponent + k⟩ ∨ c = trim ⟨d.digits / 10 ^ k + 1, d.exponent + k⟩ := by
    simp only [neighbours] at h
    split at h
    · simpa using h
    · simpa [or_comm] using h
  rcases hmem with rfl | rfl
  · exact hlower.trans (Nat.le_succ _)
  · exact hupper

/-- The value of a decimal in units of what is left after cutting off `k` digits. -/
theorem toRat_eq_unit (d : Decimal) (k : Nat) : d.toRat =
    ((d.digits / 10 ^ k : Nat) + (d.digits % 10 ^ k : Nat) / (10 : Rat) ^ k) * 10 ^ (d.exponent + k) := by
  have hk : (10 : Rat) ^ k ≠ 0 := by positivity
  have hd : (d.digits : Rat) = 10 ^ k * (d.digits / 10 ^ k : Nat) + (d.digits % 10 ^ k : Nat) := by
    exact_mod_cast (Nat.div_add_mod d.digits (10 ^ k)).symm
  rw [toRat, zpow_add₀ (by norm_num), zpow_natCast]
  conv_lhs => rw [hd]
  field_simp

/-- **The nearer neighbour is off by half a unit at most.** -/
theorem abs_toRat_near_sub_le (tie : Tie) (d : Decimal) (k : Nat) : ∃ near far, neighbours tie d k = [near, far] ∧
    |near.toRat - d.toRat| ≤ 10 ^ (d.exponent + k) / 2 := by
  have hk : (0 : Rat) < 10 ^ k := by positivity
  have hrest : (0 : Rat) ≤ (d.digits % 10 ^ k : Nat) / (10 : Rat) ^ k := by positivity
  have hrest' : (d.digits % 10 ^ k : Nat) / (10 : Rat) ^ k ≤ 1 := by
    rw [div_le_one hk]
    exact_mod_cast (Nat.mod_lt _ (by positivity)).le
  have hscale : ∀ m : Nat, |(m : Rat) - ((d.digits / 10 ^ k : Nat) + (d.digits % 10 ^ k : Nat) / (10 : Rat) ^ k)| ≤
      1 / 2 → |(trim ⟨m, d.exponent + k⟩).toRat - d.toRat| ≤ 10 ^ (d.exponent + k) / 2 := by
    intro m hm
    have hu : (0 : Rat) < 10 ^ (d.exponent + k) := by positivity
    have hhalf : (10 : Rat) ^ (d.exponent + k) / 2 = 1 / 2 * 10 ^ (d.exponent + k) := by ring
    rw [toRat_trim, toRat_eq_unit d k, toRat, ← sub_mul, abs_mul, abs_of_pos hu, hhalf]
    exact mul_le_mul_of_nonneg_right hm hu.le
  simp only [neighbours, Nat.pow_eq]
  cases hdown : tie.roundsDown d.digits (10 ^ k) with
  | true =>
    have hhalf : (d.digits % 10 ^ k : Nat) / (10 : Rat) ^ k ≤ 1 / 2 := by
      rw [div_le_div_iff₀ hk two_pos, one_mul, mul_comm]
      exact_mod_cast Tie.roundsDown_eq_true hdown
    refine ⟨_, _, rfl, hscale _ ?_⟩
    rw [abs_le]
    constructor <;> linarith
  | false =>
    have hhalf : 1 / 2 ≤ (d.digits % 10 ^ k : Nat) / (10 : Rat) ^ k := by
      rw [div_le_div_iff₀ two_pos hk, one_mul, mul_comm]
      exact_mod_cast Tie.roundsDown_eq_false hdown
    refine ⟨_, _, rfl, hscale _ ?_⟩
    rw [Nat.cast_add_one, abs_le]
    constructor <;> linarith

/-! ### Telling doubles apart -/

/-- A decimal that agrees with a double up to half a unit of the seventeenth digit reads as the double. -/
theorem toFloat_of_near (hx : x.isFinite = true) (h0 : (exact x).digits ≠ 0)
    (h : |c.toRat - (exact x).toRat| ≤ 10 ^ ((exact x).leading - 16) / 2) : c.toFloat = x.abs := by
  have hpos : 0 < (exact x).toRat := by
    have := (exact x).toRat_nonneg
    exact this.lt_of_ne' (toRat_eq_zero_iff.ne.mpr h0)
  have hm0 : magnitude x ≠ 0 := by
    intro hm
    rw [toRat_exact, hm, valueOf_zero] at hpos
    exact lt_irrefl _ hpos
  have hdigits : (10 : Rat) ^ ((exact x).leading - 16) / 2 < 2 ^ (-54 : Int) * 10 ^ (exact x).leading := by
    have hconst : (10 : Rat) ^ (-16 : Int) / 2 < 2 ^ (-54 : Int) := by norm_num
    have hscale : (0 : Rat) < 10 ^ (exact x).leading := by positivity
    calc (10 : Rat) ^ ((exact x).leading - 16) / 2 = 10 ^ (-16 : Int) / 2 * 10 ^ (exact x).leading := by
          rw [sub_eq_add_neg, zpow_add₀ (by norm_num)]
          ring
      _ < _ := mul_lt_mul_of_pos_right hconst hscale
  have hnear : |c.toRat - valueOf (magnitude x)| < 2 ^ (-54 : Int) * valueOf (magnitude x) := by
    rw [← toRat_exact]
    refine (h.trans_lt hdigits).trans_le (mul_le_mul_of_nonneg_left (zpow_leading_le h0) (by positivity))
  rw [toFloat_eq_nearest, nearest, nearestMagnitude_of_near (isFinite_iff.mp hx) hm0 hnear, abs_eq]

/-- The search ends before it comes to an eighteenth digit. -/
theorem digits_shorten_le (hx : x.isFinite = true) (h0 : (exact x).digits ≠ 0)
    (hk : (exact x).digitChars.length ≤ k + 17) : (shorten tie x.abs (exact x) k).digits ≤ 10 ^ 17 := by
  have hlt := (exact x).digits_lt
  induction k with
  | zero => exact hlt.le.trans (Nat.pow_le_pow_right (by decide) (by omega))
  | succ k ih =>
    rw [shorten]
    split
    next c hc =>
      have hle := digits_le_of_mem_neighbours (List.mem_of_find?_eq_some hc)
      have hcut : (exact x).digits / 10 ^ (k + 1) < 10 ^ 17 := by
        rw [Nat.div_lt_iff_lt_mul (by positivity), ← pow_add]
        exact hlt.trans_le (Nat.pow_le_pow_right (by decide) (by omega))
      omega
    next hnone =>
      refine ih ?_
      by_contra hlong
      obtain ⟨near, far, hneighbours, hnear⟩ := abs_toRat_near_sub_le tie (exact x) (k + 1)
      have hunit : (exact x).exponent + (k + 1 : Nat) = (exact x).leading - 16 := by
        rw [leading]
        omega
      rw [hunit] at hnear
      rw [hneighbours, List.find?_eq_none] at hnone
      exact hnone near List.mem_cons_self (decide_eq_true (toFloat_of_near hx h0 hnear))

/-- **Shortest decimals have seventeen digits at most.** -/
theorem digits_shortest_le (hx : x.isFinite = true) : (shortest tie x).digits ≤ 10 ^ 17 := by
  by_cases h0 : (exact x).digits = 0
  · have hm : magnitude x = 0 := by
      by_contra hm
      rw [← toRat_eq_zero_iff, toRat_exact] at h0
      exact (valueOf_pos hm).ne' h0
    rw [shortest_of_magnitude_eq_zero tie hm]
    exact Nat.zero_le _
  · exact digits_shorten_le hx h0 (by omega)

end Cutflow.Decimal
