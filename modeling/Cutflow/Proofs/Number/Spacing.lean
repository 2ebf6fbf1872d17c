import Cutflow.Proofs.Number.Nearest

/-!
# How near the nearest double is

Between two neighbouring doubles rounding is rounding to a whole number, in units of their last place. So
the nearest double is off by half a unit at most, greater numbers have greater nearest doubles, and all
that is less than half a unit away from a double has this double for the nearest.

## What is proved

* `abs_valueOf_nearestMagnitude_sub_le`: rounding changes a number by one part in `2 ^ 53` at most, or
  by half of the least double.
* `nearestMagnitude_mono`: it keeps the order of numbers.
* `nearestMagnitude_between`: what it does between two neighbours.
-/

namespace Cutflow.Number

variable {x y r r' : Rat} {m n : Nat} {q : Int}

/-! ### Whole numbers -/

/-- The whole number nearest to a nonnegative rational. -/
def roundRat (x : Rat) : Nat := roundRatio x.num.toNat x.den

section Half

variable {k d : Nat}

theorem div_lt_half_iff (hd : 0 < d) : (k : Rat) / d < 1 / 2 ↔ 2 * k < d := by
  have hd' : (0 : Rat) < d := by exact_mod_cast hd
  rw [div_lt_div_iff₀ hd' two_pos, one_mul, mul_comm]
  exact_mod_cast Iff.rfl

theorem half_lt_div_iff (hd : 0 < d) : 1 / 2 < (k : Rat) / d ↔ d < 2 * k := by
  have hd' : (0 : Rat) < d := by exact_mod_cast hd
  rw [div_lt_div_iff₀ two_pos hd', one_mul, mul_comm]
  exact_mod_cast Iff.rfl

theorem div_eq_half_iff (hd : 0 < d) : (k : Rat) / d = 1 / 2 ↔ 2 * k = d := by
  have hd' : (d : Rat) ≠ 0 := by exact_mod_cast hd.ne'
  rw [div_eq_div_iff hd' two_ne_zero, one_mul, mul_comm]
  exact_mod_cast Iff.rfl

end Half

/-- The whole part and the rest of a nonnegative rational. -/
theorem eq_div_add_mod (hx : 0 ≤ x) :
    x = (x.num.toNat / x.den : Nat) + (x.num.toNat % x.den : Nat) / (x.den : Rat) := by
  have hd : (x.den : Rat) ≠ 0 := by exact_mod_cast x.den_nz
  have hq : (x.num.toNat : Rat) / x.den = x := by
    rw [← Int.cast_natCast, Int.toNat_of_nonneg (Rat.num_nonneg.mpr hx), Rat.num_div_den]
  have hm : (x.num.toNat : Rat) = x.den * (x.num.toNat / x.den : Nat) + (x.num.toNat % x.den : Nat) := by
    exact_mod_cast (Nat.div_add_mod x.num.toNat x.den).symm
  conv_lhs => rw [← hq, hm, add_div, mul_div_cancel_left₀ _ hd]

theorem mod_div_bounds (x : Rat) : (0 : Rat) ≤ (x.num.toNat % x.den : Nat) / (x.den : Rat) ∧
    ((x.num.toNat % x.den : Nat) : Rat) / x.den < 1 := by
  have hd : (0 : Rat) < x.den := by exact_mod_cast x.den_pos
  refine ⟨by positivity, ?_⟩
  rw [div_lt_one hd]
  exact_mod_cast Nat.mod_lt _ x.den_pos

/-- Rounding moves a number by one half at most. -/
theorem roundRat_bounds (hx : 0 ≤ x) : x - 1 / 2 ≤ roundRat x ∧ (roundRat x : Rat) ≤ x + 1 / 2 := by
  have hsplit := eq_div_add_mod hx
  obtain ⟨hrest, hrest'⟩ := mod_div_bounds x
  rw [roundRat, roundRatio]
  rcases Nat.lt_trichotomy (2 * (x.num.toNat % x.den)) x.den with hc | hc | hc
  · have hhalf := (div_lt_half_iff x.den_pos).mpr hc
    simp only [Nat.compare_eq_lt.mpr hc]
    constructor <;> linarith
  · have hhalf := (div_eq_half_iff x.den_pos).mpr hc
    have heven : ((x.num.toNat / x.den % 2 : Nat) : Rat) ≤ 1 := by
      exact_mod_cast Nat.le_of_lt_succ (Nat.mod_lt _ two_pos)
    have heven' : (0 : Rat) ≤ (x.num.toNat / x.den % 2 : Nat) := Nat.cast_nonneg _
    simp only [Nat.compare_eq_eq.mpr hc, Nat.cast_add]
    constructor <;> linarith
  · have hhalf := (half_lt_div_iff x.den_pos).mpr hc
    simp only [Nat.compare_eq_gt.mpr hc, Nat.cast_add, Nat.cast_one]
    constructor <;> linarith

theorem roundRat_natCast (n : Nat) : roundRat n = n := roundRatio_one n

theorem roundRat_mono (hx : 0 ≤ x) (h : x ≤ y) : roundRat x ≤ roundRat y := by
  by_contra hlt
  have hlt' : (roundRat y : Rat) + 1 ≤ roundRat x := by exact_mod_cast Nat.not_le.mp hlt
  have hx' := (roundRat_bounds hx).2
  have hy' := (roundRat_bounds (hx.trans h)).1
  have hxy : x = y := by linarith
  rw [hxy] at hlt
  exact hlt le_rfl

theorem le_roundRat (h : n ≤ x) : n ≤ roundRat x := roundRat_natCast n ▸ roundRat_mono (Nat.cast_nonneg n) h

theorem roundRat_le (hx : 0 ≤ x) (h : x ≤ n) : roundRat x ≤ n := roundRat_natCast n ▸ roundRat_mono hx h

/-! ### The last place -/

/-- There are powers of two around every positive number. -/
theorem zpow_binaryExponent (hr : 0 < r) : (2 : Rat) ^ binaryExponent r ≤ r ∧ r < 2 ^ (binaryExponent r + 1) := by
  obtain ⟨n, hle, hlt⟩ := exists_mem_Ico_zpow hr one_lt_two
  rw [binaryExponent_eq hle hlt]
  exact ⟨hle, hlt⟩

theorem le_lastPlace (r : Rat) : -1074 ≤ lastPlace r := le_max_right _ _

theorem scaled_lt (hr : 0 < r) : r / 2 ^ lastPlace r < (2 * exponentWeight : Nat) := by
  have h2 : (0 : Rat) < 2 ^ lastPlace r := by positivity
  have hw : ((2 * exponentWeight : Nat) : Rat) = 2 ^ (53 : Int) := rfl
  rw [div_lt_iff₀ h2, hw, ← zpow_add₀ two_ne_zero]
  refine (zpow_binaryExponent hr).2.trans_le (zpow_le_zpow_right₀ one_le_two ?_)
  rw [lastPlace]
  omega

theorem le_scaled (hr : 0 < r) (h : lastPlace r ≠ -1074) : (exponentWeight : Nat) ≤ r / 2 ^ lastPlace r := by
  have h2 : (0 : Rat) < 2 ^ lastPlace r := by positivity
  have hw : ((exponentWeight : Nat) : Rat) = 2 ^ (52 : Int) := rfl
  rw [le_div_iff₀ h2, hw, ← zpow_add₀ two_ne_zero]
  refine (zpow_le_zpow_right₀ one_le_two ?_).trans (zpow_binaryExponent hr).1
  unfold lastPlace at *
  omega

/-- A number in units of its last place, rounded. -/
theorem roundRat_scaled (hr : 0 < r) : roundRat (r / 2 ^ lastPlace r) ≤ 2 * exponentWeight ∧
    (exponentWeight ≤ roundRat (r / 2 ^ lastPlace r) ∨ lastPlace r = -1074) := by
  refine ⟨roundRat_le (by positivity) (scaled_lt hr).le, ?_⟩
  by_cases h : lastPlace r = -1074
  · exact .inr h
  · exact .inl (le_roundRat (le_scaled hr h))

theorem nearestMagnitude_eq (hr : 0 < r) : nearestMagnitude r =
    min ((lastPlace r + 1074).toNat * exponentWeight + roundRat (r / 2 ^ lastPlace r)) infiniteMagnitude := by
  rw [nearestMagnitude, if_neg (Rat.num_pos.mpr hr).ne']
  rfl

/-- Rounding gives a number or infinity. -/
theorem nearestMagnitude_le (r : Rat) : nearestMagnitude r ≤ infiniteMagnitude := by
  rw [nearestMagnitude]
  split
  · exact Nat.zero_le _
  · exact min_le_right _ _

/-! ### Order -/

theorem binaryExponent_mono (hr : 0 < r) (h : r ≤ r') : binaryExponent r ≤ binaryExponent r' := by
  have hlt := ((zpow_binaryExponent hr).1.trans h).trans_lt (zpow_binaryExponent (hr.trans_le h)).2
  rw [zpow_lt_zpow_iff_right₀ one_lt_two] at hlt
  omega

/-- **Greater numbers have greater nearest doubles.** -/
theorem nearestMagnitude_mono (hr : 0 ≤ r) (h : r ≤ r') : nearestMagnitude r ≤ nearestMagnitude r' := by
  rcases hr.eq_or_lt with rfl | hr
  · exact Nat.zero_le _
  have hr' := hr.trans_le h
  rw [nearestMagnitude_eq hr, nearestMagnitude_eq hr']
  refine min_le_min_right _ ?_
  have hlow := le_lastPlace r
  have hle : lastPlace r ≤ lastPlace r' := max_le_max_right _ (sub_le_sub_right (binaryExponent_mono hr h) _)
  rcases hle.eq_or_lt with heq | hlt
  · have h2 : (0 : Rat) < 2 ^ lastPlace r' := by positivity
    rw [heq]
    exact Nat.add_le_add_left (roundRat_mono (by positivity) (div_le_div_of_nonneg_right h h2.le)) _
  · -- the lesser number is not above the end of its range, the greater one not below the start of its own
    have hend := (roundRat_scaled hr).1
    have hstart := (roundRat_scaled hr').2.resolve_right (by omega)
    have hstep : (lastPlace r + 1074).toNat + 1 ≤ (lastPlace r' + 1074).toNat := by omega
    calc (lastPlace r + 1074).toNat * exponentWeight + roundRat (r / 2 ^ lastPlace r)
        ≤ ((lastPlace r + 1074).toNat + 1) * exponentWeight + exponentWeight := by
          rw [Nat.succ_mul]
          omega
      _ ≤ _ := Nat.add_le_add (Nat.mul_le_mul_right _ hstep) hstart

/-! ### Distance -/

theorem valueOf_nonneg (m : Nat) : 0 ≤ valueOf m := by
  rw [valueOf]
  positivity

/-- The value of the bits that rounding ends with. -/
theorem valueOf_bits (hq : -1074 ≤ q) (hn : n ≤ 2 * exponentWeight) (hn' : exponentWeight ≤ n ∨ q = -1074) :
    valueOf ((q + 1074).toNat * exponentWeight + n) = n * 2 ^ q := by
  obtain ⟨k, hk⟩ : ∃ k : Nat, q + 1074 = k := ⟨(q + 1074).toNat, by omega⟩
  rw [hk, Int.toNat_natCast, valueOf]
  rcases hn.lt_or_eq with hlt | rfl
  · have hs : significandOf (k * exponentWeight + n) = n := by
      unfold significandOf exponentWeight at *
      split <;> omega
    have he : exponentOf (k * exponentWeight + n) = q := by
      unfold exponentOf exponentWeight at *
      omega
    rw [hs, he]
  · have hs : significandOf (k * exponentWeight + 2 * exponentWeight) = exponentWeight := by
      unfold significandOf exponentWeight
      split <;> omega
    have he : exponentOf (k * exponentWeight + 2 * exponentWeight) = q + 1 := by
      unfold exponentOf exponentWeight
      omega
    rw [hs, he, zpow_add_one₀ two_ne_zero]
    push_cast
    ring

theorem abs_sub_le_lastPlace (hr : 0 < r) (h : nearestMagnitude r < infiniteMagnitude) :
    |valueOf (nearestMagnitude r) - r| ≤ 2 ^ lastPlace r / 2 := by
  have h2 : (0 : Rat) < 2 ^ lastPlace r := by positivity
  obtain ⟨hn, hn'⟩ := roundRat_scaled hr
  rw [nearestMagnitude_eq hr] at h ⊢
  rw [Nat.min_eq_left (by omega), valueOf_bits (le_lastPlace r) hn hn']
  generalize (2 : Rat) ^ lastPlace r = u at h2 ⊢
  obtain ⟨hlow, hhigh⟩ := roundRat_bounds (div_nonneg hr.le h2.le)
  have hunit : roundRat (r / u) * u - r = (roundRat (r / u) - r / u) * u := by
    rw [sub_mul, div_mul_cancel₀ r h2.ne']
  have hhalf : u / 2 = 1 / 2 * u := by ring
  rw [hunit, abs_mul, abs_of_pos h2, hhalf]
  refine mul_le_mul_of_nonneg_right ?_ h2.le
  rw [abs_le]
  constructor <;> linarith

theorem half_zpow (q : Int) : (2 : Rat) ^ q / 2 = 2 ^ (q - 1) := by
  rw [zpow_sub_one₀ two_ne_zero, div_eq_mul_inv]

theorem half_lastPlace_le (hr : 0 < r) (h : lastPlace r = binaryExponent r - 52) :
    (2 : Rat) ^ lastPlace r / 2 ≤ 2 ^ (-53 : Int) * r := by
  have hhalf : (2 : Rat) ^ lastPlace r / 2 = 2 ^ (-53 : Int) * 2 ^ binaryExponent r := by
    rw [half_zpow, ← zpow_add₀ two_ne_zero, h]
    congr 1
    ring
  rw [hhalf]
  exact mul_le_mul_of_nonneg_left (zpow_binaryExponent hr).1 (by positivity)

/-- What rounding adds to a number or takes from it, in proportion and near zero. -/
theorem abs_valueOf_nearestMagnitude_sub_le (hr : 0 ≤ r) (h : nearestMagnitude r < infiniteMagnitude) :
    |valueOf (nearestMagnitude r) - r| ≤ 2 ^ (-53 : Int) * r + 2 ^ (-1075 : Int) := by
  rcases hr.eq_or_lt with rfl | hr
  · have hzero : nearestMagnitude 0 = 0 := rfl
    rw [hzero, valueOf_zero, sub_zero, abs_zero, mul_zero, zero_add]
    positivity
  refine (abs_sub_le_lastPlace hr h).trans ?_
  have hprop : (0 : Rat) ≤ 2 ^ (-53 : Int) * r := by positivity
  have htiny : (0 : Rat) ≤ 2 ^ (-1075 : Int) := by positivity
  rcases max_cases (binaryExponent r - 52) (-1074) with ⟨hq, -⟩ | ⟨hq, -⟩
  · exact (half_lastPlace_le hr hq).trans (le_add_of_nonneg_right htiny)
  · have hhalf : (2 : Rat) ^ lastPlace r / 2 = 2 ^ (-1075 : Int) := by
      rw [lastPlace, hq, half_zpow]
      rfl
    rw [hhalf]
    exact le_add_of_nonneg_left hprop

/-- Above the least normal double it is a matter of proportion only. -/
theorem abs_valueOf_nearestMagnitude_sub_le_of_normal (hr : 2 ^ (-1022 : Int) ≤ r)
    (h : nearestMagnitude r < infiniteMagnitude) : |valueOf (nearestMagnitude r) - r| ≤ 2 ^ (-53 : Int) * r := by
  have hpos : (0 : Rat) < r := lt_of_lt_of_le (by positivity) hr
  have hexp := hr.trans_lt (zpow_binaryExponent hpos).2
  rw [zpow_lt_zpow_iff_right₀ one_lt_two] at hexp
  exact (abs_sub_le_lastPlace hpos h).trans (half_lastPlace_le hpos (max_eq_left (by omega)))

/-! ### Between two neighbours -/

theorem bits_eq (m : Nat) : m = (exponentOf m + 1074).toNat * exponentWeight + significandOf m := by
  unfold exponentOf significandOf exponentWeight
  split <;> omega

theorem lastPlace_between (h : valueOf m ≤ r) (h' : r < valueOf m + 2 ^ exponentOf m) (hr : 0 < r) :
    lastPlace r = exponentOf m := by
  have h2 : (0 : Rat) < 2 ^ exponentOf m := by positivity
  have hnext : valueOf m + 2 ^ exponentOf m = (significandOf m + 1 : Nat) * 2 ^ exponentOf m := by
    rw [valueOf, Nat.cast_add_one, add_one_mul]
  rw [hnext] at h'
  rcases Nat.lt_or_ge m exponentWeight with hlow | hhigh
  · rw [significandOf_of_lt hlow, exponentOf_of_lt hlow] at h'
    have hsmall : r < 2 ^ (-1022 : Int) := by
      refine h'.trans_le ?_
      have hm : ((m + 1 : Nat) : Rat) ≤ 2 ^ (52 : Int) := by exact_mod_cast (show m + 1 ≤ 2 ^ 52 from hlow)
      calc ((m + 1 : Nat) : Rat) * 2 ^ (-1074 : Int) ≤ 2 ^ (52 : Int) * 2 ^ (-1074 : Int) := by gcongr
        _ = 2 ^ (-1022 : Int) := by rw [← zpow_add₀ two_ne_zero]; rfl
    have hexp := (zpow_binaryExponent hr).1.trans_lt hsmall
    rw [zpow_lt_zpow_iff_right₀ one_lt_two] at hexp
    rw [lastPlace, exponentOf_of_lt hlow]
    omega
  · have hs : exponentWeight ≤ significandOf m := significandOf_of_le hhigh ▸ Nat.le_add_right _ _
    have hexp : binaryExponent r = 52 + exponentOf m := by
      apply binaryExponent_eq
      · have hs' : (2 : Rat) ^ (52 : Int) ≤ significandOf m := by exact_mod_cast (show 2 ^ 52 ≤ significandOf m from hs)
        rw [zpow_add₀ two_ne_zero]
        exact (mul_le_mul_of_nonneg_right hs' h2.le).trans h
      · have hs' : ((significandOf m + 1 : Nat) : Rat) ≤ 2 ^ (53 : Int) := by
          exact_mod_cast (show significandOf m + 1 ≤ 2 ^ 53 from significandOf_lt m)
        have hsum : (52 : Int) + exponentOf m + 1 = 53 + exponentOf m := by ring
        rw [hsum, zpow_add₀ two_ne_zero]
        exact h'.trans_le (mul_le_mul_of_nonneg_right hs' h2.le)
    have hlow : -1074 ≤ exponentOf m := by
      rw [exponentOf]
      omega
    rw [lastPlace, hexp]
    omega

/-- Between a double and the next one, rounding is rounding to a whole number. -/
theorem nearestMagnitude_between (h : valueOf m ≤ r) (h' : r < valueOf m + 2 ^ exponentOf m) (hr : 0 < r) :
    nearestMagnitude r = min (m - significandOf m + roundRat (r / 2 ^ exponentOf m)) infiniteMagnitude := by
  have hplace := lastPlace_between h h' hr
  have hbits := bits_eq m
  rw [nearestMagnitude_eq hr, hplace]
  congr 2
  omega

theorem valueOf_succ (m : Nat) : valueOf (m + 1) = valueOf m + 2 ^ exponentOf m := by
  have hbits : m + 1 = (exponentOf m + 1074).toNat * exponentWeight + (significandOf m + 1) := by
    rw [← Nat.add_assoc, ← bits_eq]
  have hlow : -1074 ≤ exponentOf m := by
    rw [exponentOf]
    omega
  have hfull : exponentWeight ≤ significandOf m + 1 ∨ exponentOf m = -1074 := by
    rcases Nat.lt_or_ge m exponentWeight with h | h
    · exact .inr (exponentOf_of_lt h)
    · rw [significandOf_of_le h]
      omega
  rw [hbits, valueOf_bits hlow (significandOf_lt m) hfull, valueOf, Nat.cast_add_one, add_one_mul]

theorem valueOf_mono {m n : Nat} (h : m ≤ n) : valueOf m ≤ valueOf n :=
  monotone_nat_of_le_succ (fun m => valueOf_succ m ▸ le_add_of_nonneg_right (by positivity)) h

theorem significandOf_le (m : Nat) : significandOf m ≤ m := by
  unfold significandOf exponentWeight
  split <;> omega

theorem div_exponentOf (m : Nat) : valueOf m / 2 ^ exponentOf m = significandOf m := by
  rw [valueOf, mul_div_cancel_right₀ _ (by positivity)]

/-- Less than half of the distance above a double. -/
theorem nearestMagnitude_above (hm : m < infiniteMagnitude) (hr : 0 < r) (h : valueOf m ≤ r)
    (h' : r < valueOf m + 2 ^ exponentOf m / 2) : nearestMagnitude r = m := by
  have h2 : (0 : Rat) < 2 ^ exponentOf m := by positivity
  have hlow : (significandOf m : Rat) ≤ r / 2 ^ exponentOf m := by
    rw [← div_exponentOf]
    exact div_le_div_of_nonneg_right h h2.le
  have hhigh : r / 2 ^ exponentOf m < significandOf m + 1 / 2 := by
    rw [← div_exponentOf, div_lt_iff₀ h2, add_mul, div_mul_cancel₀ _ h2.ne']
    linarith
  have hround : roundRat (r / 2 ^ exponentOf m) = significandOf m := by
    refine le_antisymm (Nat.le_of_lt_succ ?_) (le_roundRat hlow)
    have hle := (roundRat_bounds (div_nonneg hr.le h2.le)).2
    have hlt : (roundRat (r / 2 ^ exponentOf m) : Rat) < significandOf m + 1 := by linarith
    exact_mod_cast hlt
  have hsig := significandOf_le m
  rw [nearestMagnitude_between h (by linarith) hr, hround, Nat.sub_add_cancel hsig, Nat.min_eq_left hm.le]

/-- Less than half of the distance below a double. -/
theorem nearestMagnitude_below (hm : m + 1 ≤ infiniteMagnitude) (h : valueOf m + 2 ^ exponentOf m / 2 < r)
    (h' : r < valueOf (m + 1)) : nearestMagnitude r = m + 1 := by
  have h2 : (0 : Rat) < 2 ^ exponentOf m := by positivity
  have hv := valueOf_nonneg m
  rw [valueOf_succ] at h'
  have hr : 0 < r := by linarith
  have hlow : (significandOf m : Rat) + 1 / 2 < r / 2 ^ exponentOf m := by
    rw [← div_exponentOf, lt_div_iff₀ h2, add_mul, div_mul_cancel₀ _ h2.ne']
    linarith
  have hhigh : r / 2 ^ exponentOf m ≤ (significandOf m + 1 : Nat) := by
    rw [Nat.cast_add_one, ← div_exponentOf, div_le_iff₀ h2, add_mul, div_mul_cancel₀ _ h2.ne', one_mul]
    exact h'.le
  have hround : roundRat (r / 2 ^ exponentOf m) = significandOf m + 1 := by
    refine le_antisymm (roundRat_le (div_nonneg hr.le h2.le) hhigh) (Nat.succ_le_of_lt ?_)
    have hle := (roundRat_bounds (div_nonneg hr.le h2.le)).1
    have hlt : (significandOf m : Rat) < roundRat (r / 2 ^ exponentOf m) := by linarith
    exact_mod_cast hlt
  have hsig := significandOf_le m
  rw [nearestMagnitude_between (by linarith) h' hr, hround, ← Nat.add_assoc, Nat.sub_add_cancel hsig,
    Nat.min_eq_left hm]

/-- **What is near a double is rounded to it.** -/
theorem nearestMagnitude_of_near (hm : m < infiniteMagnitude) (h0 : m ≠ 0)
    (h : |r - valueOf m| < 2 ^ (-54 : Int) * valueOf m) : nearestMagnitude r = m := by
  obtain ⟨hlow, hhigh⟩ := abs_lt.mp h
  have hv := valueOf_pos h0
  -- a part in `2 ^ 54` is less than half of the distance to the next double on either side
  have hhalf : ∀ n : Nat, valueOf m ≤ 2 ^ (53 : Int) * 2 ^ exponentOf n →
      2 ^ (-54 : Int) * valueOf m ≤ 2 ^ exponentOf n / 2 := by
    intro n hn
    have hscale : (2 : Rat) ^ (-54 : Int) * (2 ^ (53 : Int) * 2 ^ exponentOf n) = 2 ^ exponentOf n / 2 := by
      rw [half_zpow, ← zpow_add₀ two_ne_zero, ← zpow_add₀ two_ne_zero]
      congr 1
      ring
    rw [← hscale]
    exact mul_le_mul_of_nonneg_left hn (by positivity)
  rcases lt_trichotomy (valueOf m) r with hgt | rfl | hlt
  · have hm' := hhalf m <| by
      have hs : (significandOf m : Rat) ≤ 2 ^ (53 : Int) := by exact_mod_cast (significandOf_lt m).le
      exact mul_le_mul_of_nonneg_right hs (by positivity)
    exact nearestMagnitude_above hm (hv.trans hgt) hgt.le (sub_lt_iff_lt_add'.mp (hhigh.trans_le hm'))
  · exact nearestMagnitude_valueOf hm
  · obtain ⟨n, rfl⟩ := Nat.exists_eq_succ_of_ne_zero h0
    have hsucc : valueOf (n + 1) = (significandOf n + 1 : Nat) * 2 ^ exponentOf n := by
      rw [valueOf_succ, valueOf, Nat.cast_add_one, add_one_mul]
    have hn := hhalf n <| by
      have hs : ((significandOf n + 1 : Nat) : Rat) ≤ 2 ^ (53 : Int) := by exact_mod_cast significandOf_lt n
      rw [Nat.succ_eq_add_one, hsucc]
      exact mul_le_mul_of_nonneg_right hs (by positivity)
    have hdist := (neg_le_neg hn).trans_lt hlow
    refine nearestMagnitude_below hm.le ?_ hlt
    rw [valueOf_succ] at hdist
    linarith

/-! ### Beyond the doubles -/

theorem nearestMagnitude_of_ge (h : 2 ^ (1024 : Int) ≤ r) : nearestMagnitude r = infiniteMagnitude := by
  have hr : (0 : Rat) < r := lt_of_lt_of_le (by positivity) h
  have hexp := h.trans_lt (zpow_binaryExponent hr).2
  rw [zpow_lt_zpow_iff_right₀ one_lt_two] at hexp
  have hplace : 972 ≤ lastPlace r := by
    rw [lastPlace]
    omega
  have hfull := (roundRat_scaled hr).2.resolve_right (by omega)
  rw [nearestMagnitude_eq hr, Nat.min_eq_right]
  unfold infiniteMagnitude exponentWeight at *
  omega

theorem nearestMagnitude_of_lt (hr : 0 ≤ r) (h : r < 2 ^ (-1075 : Int)) : nearestMagnitude r = 0 := by
  rcases hr.eq_or_lt with rfl | hr
  · rfl
  · have hhalf : (2 : Rat) ^ (-1075 : Int) = 2 ^ exponentOf 0 / 2 := by
      rw [half_zpow]
      rfl
    refine nearestMagnitude_above (by decide) hr ?_ ?_ <;> rw [valueOf_zero]
    · exact hr.le
    · rwa [zero_add, ← hhalf]

end Cutflow.Number
