import Cutflow.Number
import Cutflow.Proofs.Number.Bits

/-!
# Nearest doubles

Every magnitude below infinity is that of a number, `significandOf m · 2 ^ exponentOf m`, and
rounding this number gives the magnitude back.

## What is proved

* `binaryExponent_eq`: the exponent of a number is the one of the powers of two around it.
* `nearestMagnitude_valueOf`: rounding is the identity on the values of doubles.
* `toNat_toUInt64`: cutting a double off gives its whole part.
* `nearest_natCast`: a natural number below `2 ^ 53` is a double.
-/

namespace Cutflow.Number

open Float.Model UnpackedFloat

/-- The value of the finite doubles with the magnitude bits `m`, their sign left aside. -/
def valueOf (m : Nat) : Rat := significandOf m * (2 : Rat) ^ exponentOf m

/-! ### Exponents -/

theorem log2_lt_div {n d : Nat} (hn : n ≠ 0) (hd : d ≠ 0) :
    (2 : Rat) ^ ((n.log2 : Int) - d.log2 - 1) < n / d := by
  have hd' : (0 : Rat) < d := by exact_mod_cast Nat.pos_of_ne_zero hd
  have h1 : (2 : Rat) ^ n.log2 ≤ n := by exact_mod_cast Nat.log2_self_le hn
  have h2 : (d : Rat) < 2 ^ (d.log2 + 1) := by exact_mod_cast Nat.lt_log2_self
  rw [lt_div_iff₀ hd']
  calc (2 : Rat) ^ ((n.log2 : Int) - d.log2 - 1) * d
      < 2 ^ ((n.log2 : Int) - d.log2 - 1) * 2 ^ (d.log2 + 1) := by gcongr
    _ = 2 ^ n.log2 := by
      rw [← zpow_natCast, ← zpow_natCast, ← zpow_add₀ (by norm_num)]
      congr 1
      push_cast
      ring
    _ ≤ n := h1

theorem div_lt_log2 {n d : Nat} (hd : d ≠ 0) :
    (n : Rat) / d < 2 ^ ((n.log2 : Int) - d.log2 + 1) := by
  have hd' : (0 : Rat) < d := by exact_mod_cast Nat.pos_of_ne_zero hd
  have h1 : (n : Rat) < 2 ^ (n.log2 + 1) := by exact_mod_cast Nat.lt_log2_self
  have h2 : (2 : Rat) ^ d.log2 ≤ d := by exact_mod_cast Nat.log2_self_le hd
  rw [div_lt_iff₀ hd']
  calc (n : Rat) < 2 ^ (n.log2 + 1) := h1
    _ = 2 ^ ((n.log2 : Int) - d.log2 + 1) * 2 ^ d.log2 := by
      rw [← zpow_natCast, ← zpow_natCast, ← zpow_add₀ (by norm_num)]
      congr 1
      push_cast
      ring
    _ ≤ 2 ^ ((n.log2 : Int) - d.log2 + 1) * d := by gcongr

/-- There is one power of two next below a number. -/
theorem exponent_unique {r : Rat} {a b : Int} (ha : (2 : Rat) ^ a ≤ r) (ha' : r < 2 ^ (a + 1))
    (hb : (2 : Rat) ^ b ≤ r) (hb' : r < 2 ^ (b + 1)) : a = b := by
  have h1 : (2 : Rat) ^ a < 2 ^ (b + 1) := ha.trans_lt hb'
  have h2 : (2 : Rat) ^ b < 2 ^ (a + 1) := hb.trans_lt ha'
  rw [zpow_lt_zpow_iff_right₀ (by norm_num)] at h1 h2
  omega

theorem binaryExponent_eq {r : Rat} {e : Int} (h : (2 : Rat) ^ e ≤ r) (h' : r < 2 ^ (e + 1)) :
    binaryExponent r = e := by
  have hr : 0 < r := lt_of_lt_of_le (by positivity) h
  have hn : 0 < r.num := Rat.num_pos.mpr hr
  have hq : (r.num.toNat : Rat) / r.den = r := by
    rw [← Int.cast_natCast, Int.toNat_of_nonneg hn.le, Rat.num_div_den]
  have h1 := log2_lt_div (n := r.num.toNat) (by omega) r.den_nz
  have h2 := div_lt_log2 (n := r.num.toNat) r.den_nz
  rw [hq] at h1 h2
  rw [binaryExponent]
  split
  next hle => exact exponent_unique hle h2 h h'
  next hlt =>
    refine exponent_unique h1.le ?_ h h'
    rw [sub_add_cancel]
    exact lt_of_not_ge hlt

/-! ### Rounding -/

/-- Whole numbers are not rounded. -/
theorem roundRatio_one (n : Nat) : roundRatio n 1 = n := by
  rw [roundRatio, Nat.mod_one, Nat.div_one]
  rfl

theorem significandOf_lt (m : Nat) : significandOf m < 2 ^ 53 := by
  unfold significandOf exponentWeight
  split <;> omega

theorem valueOf_pos {m : Nat} (h : m ≠ 0) : 0 < valueOf m := by
  have := significandOf_pos h
  rw [valueOf]
  positivity

theorem valueOf_zero : valueOf 0 = 0 := by
  rw [valueOf, significandOf_of_lt (by decide), Nat.cast_zero, zero_mul]

/-- The last place of a double is where rounding looks for it. -/
theorem lastPlace_valueOf {m : Nat} (h : m ≠ 0) : lastPlace (valueOf m) = exponentOf m := by
  have hs := significandOf_pos h
  have hlog : binaryExponent (valueOf m) = (significandOf m).log2 + exponentOf m := by
    have h1 : (2 : Rat) ^ (significandOf m).log2 ≤ significandOf m := by
      exact_mod_cast Nat.log2_self_le hs.ne'
    have h2 : (significandOf m : Rat) < 2 ^ ((significandOf m).log2 + 1) := by
      exact_mod_cast Nat.lt_log2_self
    rw [← zpow_natCast] at h1 h2
    apply binaryExponent_eq
    · rw [zpow_add₀ (by norm_num), valueOf]
      gcongr
    · rw [add_right_comm, zpow_add₀ (by norm_num), valueOf]
      gcongr
      exact_mod_cast h2
  rw [lastPlace, hlog]
  rcases Nat.lt_or_ge m exponentWeight with hlow | hhigh
  · rw [significandOf_of_lt hlow, exponentOf_of_lt hlow]
    have : m.log2 < 52 := (Nat.log2_lt h).mpr hlow
    omega
  · have hl : (significandOf m).log2 = 52 := by
      rw [significandOf_of_le hhigh, Nat.log2_eq_iff (by unfold exponentWeight; omega)]
      unfold exponentWeight
      omega
    have hd : 0 < m / exponentWeight := Nat.div_pos hhigh (by decide)
    rw [hl, exponentOf_of_le hhigh]
    omega

/-- **Rounding gives the doubles back**: the value of a finite double has its magnitude. -/
theorem nearestMagnitude_valueOf {m : Nat} (h : m < infiniteMagnitude) :
    nearestMagnitude (valueOf m) = m := by
  by_cases h0 : m = 0
  · subst h0
    rw [valueOf_zero]
    rfl
  have hr := valueOf_pos h0
  have hs : valueOf m / (2 : Rat) ^ exponentOf m = (significandOf m : Nat) := by
    rw [valueOf, mul_div_cancel_right₀]
    positivity
  rw [nearestMagnitude, if_neg (Rat.num_pos.mpr hr).ne']
  simp only [lastPlace_valueOf h0, hs, Rat.num_natCast, Rat.den_natCast, Int.toNat_natCast,
    roundRatio_one]
  rcases Nat.lt_or_ge m exponentWeight with hlow | hhigh
  · rw [significandOf_of_lt hlow, exponentOf_of_lt hlow]
    simp
    omega
  · have hd : 0 < m / exponentWeight := Nat.div_pos hhigh (by decide)
    have hq : ((m / exponentWeight : Nat) - 1075 + 1074 : Int).toNat = m / exponentWeight - 1 := by
      omega
    rw [significandOf_of_le hhigh, exponentOf_of_le hhigh, hq, ← Nat.add_assoc, ← Nat.succ_mul,
      Nat.succ_eq_add_one, Nat.sub_add_cancel hd, Nat.div_add_mod']
    exact Nat.min_eq_left h.le

/-! ### Natural numbers -/

/-- Up to 53 bits a natural number is the value of a double, its bits moved up to the leading
place of the significand. -/
theorem exists_magnitude_of_lt {n : Nat} (h0 : n ≠ 0) (h : n < 2 ^ 53) :
    ∃ m k : Nat, m < infiniteMagnitude ∧ m ≠ 0 ∧ significandOf m = n * 2 ^ k ∧
      exponentOf m = -k := by
  have hl : n.log2 < 53 := (Nat.log2_lt h0).mpr h
  obtain ⟨k, hk⟩ : ∃ k, n.log2 + k = 52 := ⟨52 - n.log2, by omega⟩
  have h1 : exponentWeight ≤ n * 2 ^ k := by
    calc exponentWeight = 2 ^ n.log2 * 2 ^ k := by rw [← pow_add, hk]; rfl
      _ ≤ n * 2 ^ k := Nat.mul_le_mul_right _ (Nat.log2_self_le h0)
  have h2 : n * 2 ^ k < 2 * exponentWeight := by
    calc n * 2 ^ k < 2 ^ (n.log2 + 1) * 2 ^ k :=
          Nat.mul_lt_mul_of_pos_right Nat.lt_log2_self (by positivity)
      _ = 2 * exponentWeight := by rw [← pow_add, add_right_comm, hk]; rfl
  obtain ⟨s, hs⟩ : ∃ s, n * 2 ^ k = s := ⟨_, rfl⟩
  rw [hs] at h1 h2
  have hm : exponentWeight ≤ (n.log2 + 1022) * exponentWeight + s := le_add_left h1
  refine ⟨(n.log2 + 1022) * exponentWeight + s, k, ?_, ?_, ?_, ?_⟩
  · unfold infiniteMagnitude exponentWeight at *
    omega
  · exact (Nat.lt_of_lt_of_le (by decide) hm).ne'
  · rw [significandOf_of_le hm, hs]
    unfold exponentWeight at *
    omega
  · rw [exponentOf_of_le hm]
    unfold exponentWeight at *
    omega

theorem valueOf_eq_natCast {n m k : Nat} (hs : significandOf m = n * 2 ^ k)
    (he : exponentOf m = -k) : valueOf m = n := by
  rw [valueOf, hs, he, zpow_neg, zpow_natCast]
  push_cast
  field_simp

theorem exists_valueOf_eq {n : Nat} (h : n < 2 ^ 53) :
    ∃ m, m < infiniteMagnitude ∧ valueOf m = n := by
  by_cases h0 : n = 0
  · subst h0
    exact ⟨0, by decide, valueOf_zero⟩
  · obtain ⟨m, k, hm, -, hs, he⟩ := exists_magnitude_of_lt h0 h
    exact ⟨m, hm, valueOf_eq_natCast hs he⟩

/-! ### Cutting off -/

theorem mantissa_shiftRight (k : Nat) (a : ExtendedMantissa) :
    (a >>> k).mantissa = a.mantissa / 2 ^ k := by
  induction k with
  | zero => exact (Nat.div_one _).symm
  | succ k ih =>
    show (a >>> k).shiftRightOne.mantissa = _
    rw [ExtendedMantissa.shiftRightOne, ih, Nat.div_div_eq_div_mul, Nat.pow_succ]

/-- Places behind the point are dropped. -/
theorem roundToInt_positive (m : Nat) (e : Int) : roundToInt .positive m e = ⌊(m : Rat) * 2 ^ e⌋₊ := by
  have hshift : (0 - (e - (e.toNat : Int))).toNat = (-e).toNat := by omega
  have hround : roundToInt .positive m e = (m * 2 ^ e.toNat / 2 ^ (-e).toNat : Nat) := by
    simp only [roundToInt, decreaseExponent, shiftToExponent, sub_zero, hshift, mantissa_shiftRight,
      Nat.shiftLeft_eq]
    rfl
  rw [hround]
  congr 1
  obtain ⟨k, rfl | rfl⟩ := e.eq_nat_or_neg
  · have hvalue : (m : Rat) * 2 ^ (k : Int) = (m * 2 ^ k : Nat) := by
      push_cast
      rw [zpow_natCast]
    rw [hvalue, Nat.floor_natCast]
    simp
  · have hvalue : (m : Rat) * 2 ^ (-(k : Int)) = m / (2 ^ k : Nat) := by
      push_cast
      rw [zpow_neg, zpow_natCast, div_eq_mul_inv]
    rw [hvalue, Nat.floor_div_eq_div]
    simp

/-- Minus zero counts as nonnegative. -/
theorem nonneg_iff {x : Float} (hx : x.isFinite = true) : 0 ≤ x ↔ magnitude x = 0 ∨ isNegative x = false := by
  have hle : 0 ≤ x ↔ UnpackedFloat.le (0 : Float).toModel.unpack x.toModel.unpack = true := decide_eq_true_iff
  rw [hle]
  by_cases hm : magnitude x = 0
  · rw [unpack_of_zero hm]
    simp only [hm, true_or, iff_true]
    rfl
  · rw [unpack_of_finite hx hm]
    simp only [hm, false_or]
    cases isNegative x with
    | false => exact iff_of_true rfl rfl
    | true => exact iff_of_false Bool.false_ne_true Bool.false_ne_true.symm

/-- **A finite number that is not negative is cut off to its whole part**, or to the greatest machine number
where that is less. -/
theorem toNat_toUInt64 {x : Float} (hx : x.isFinite = true) (h0 : 0 ≤ x) :
    x.toUInt64.toNat = min ⌊valueOf (magnitude x)⌋₊ (UInt64.size - 1) := by
  show x.toModel.unpack.toUInt64.toNat = _
  by_cases hm : magnitude x = 0
  · rw [unpack_of_zero hm, hm, valueOf_zero, Nat.floor_zero, Nat.zero_min]
    rfl
  · have hs : isNegative x = false := ((nonneg_iff hx).mp h0).resolve_left hm
    rw [unpack_of_finite hx hm, hs]
    show (UInt64.ofNatClamp (roundToInt .positive _ _).toNat).toNat = _
    rw [roundToInt_positive, Int.toNat_natCast, ← valueOf]
    rcases Nat.lt_or_ge ⌊valueOf (magnitude x)⌋₊ UInt64.size with hlt | hge
    · rw [UInt64.toNat_ofNatClamp_of_lt hlt, Nat.min_eq_left (Nat.le_sub_one_of_lt hlt)]
    · rw [UInt64.toNat_ofNatClamp_of_le hge, Nat.min_eq_right ((Nat.sub_le _ _).trans hge)]

/-- What a natural number below `2 ^ 53` is as a double: finite, not negative, and of the value of the number. -/
theorem nearest_natCast {n : Nat} (h : n < 2 ^ 53) :
    (nearest n).isFinite = true ∧ 0 ≤ nearest n ∧ valueOf (magnitude (nearest n)) = n := by
  obtain ⟨m, hm, hv⟩ := exists_valueOf_eq h
  have hn : nearest n = ofMagnitude false m := by rw [nearest, ← hv, nearestMagnitude_valueOf hm]
  have hx : (nearest n).isFinite = true := by rwa [hn, isFinite_iff, magnitude_ofMagnitude hm.le]
  refine ⟨hx, (nonneg_iff hx).mpr (.inr ?_), ?_⟩
  · rw [hn, isNegative_ofMagnitude hm.le]
  · rw [hn, magnitude_ofMagnitude hm.le, hv]

end Cutflow.Number
