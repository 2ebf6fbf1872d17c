import Cutflow.Json.Number
import Cutflow.Proofs.Decimal.Length
import Cutflow.Proofs.Number.Rounding

/-!
# Scaling by powers of ten

The whole number that stands for the digits is rounded when it becomes a double, the power of ten is a
rounded one, and their product or quotient is rounded again. Far below the least double there are two
divisions in place of one. Each of these steps adds a few units of rounding to the result, and none of them
makes a decimal in the range of the doubles infinite.

## What is proved

* `ofDecimal?_close`: a decimal of seventeen digits in the range of the doubles is read as a finite double,
  up to seven roundings.
* `ofDecimal?_eq_nearest`: if the digits and the power of ten are doubles themselves, it is read as the
  nearest double.
-/

namespace Cutflow.Json

open Cutflow.Decimal Cutflow.Number

variable {m n w : Nat} {e : Int}

/-! ### The greatest double -/

/-- The greatest double is a whole number. -/
def greatestWhole : Nat := (2 ^ 53 - 1) * 2 ^ 971

theorem valueOf_greatest : valueOf (infiniteMagnitude - 1) = greatestWhole := by
  have hs : significandOf (infiniteMagnitude - 1) = 2 ^ 53 - 1 := rfl
  have he : exponentOf (infiniteMagnitude - 1) = (971 : Nat) := rfl
  rw [valueOf, hs, he, zpow_natCast, greatestWhole, Nat.cast_mul, Nat.cast_pow, Nat.cast_ofNat]

/-- It has one digit more than the greatest power of ten has zeros. -/
theorem greatestWhole_bounds : 10 ^ greatestPower ≤ greatestWhole ∧ greatestWhole < 10 ^ (greatestPower + 1) := by
  decide +kernel

theorem nearestMagnitude_lt_of_le {r : Rat} (hr : 0 ≤ r) (h : r ≤ valueOf (infiniteMagnitude - 1)) :
    nearestMagnitude r < infiniteMagnitude := by
  have hle := nearestMagnitude_mono hr h
  rw [nearestMagnitude_valueOf (by decide)] at hle
  exact hle.trans_lt (by decide)

theorem nearest_natCast_lt (hw : w ≤ 10 ^ greatestPower) : nearestMagnitude w < infiniteMagnitude := by
  refine nearestMagnitude_lt_of_le (Nat.cast_nonneg w) ?_
  rw [valueOf_greatest]
  exact_mod_cast hw.trans greatestWhole_bounds.1

theorem seventeen_digits_le (hw : w ≤ 10 ^ 17) : w ≤ 10 ^ greatestPower :=
  hw.trans (Nat.pow_le_pow_right (by decide) (by decide))

/-! ### Powers of ten -/

/-- The magnitude bits of the double nearest to a power of ten. -/
def powerBits (n : Nat) : Nat := nearestMagnitude (10 ^ n)

theorem powerOfTen_eq (n : Nat) : powerOfTen n = ofMagnitude false (powerBits n) := by
  rw [powerOfTen, toFloat_eq_nearest, nearest, powerBits, toRat, Nat.cast_one, one_mul, zpow_natCast]

/-- Up to `10 ^ 22` powers of ten are doubles. -/
theorem valueOf_powerBits (hn : n ≤ 22) : valueOf (powerBits n) = 10 ^ n := by
  have hall : ∀ n ≤ 22, valueOf (powerBits n) = 10 ^ n := by decide +kernel
  exact hall n hn

theorem one_le_powerBits (n : Nat) : 1 ≤ valueOf (powerBits n) := by
  rw [← pow_zero 10, ← valueOf_powerBits (Nat.zero_le 22)]
  exact valueOf_mono (nearestMagnitude_mono (by positivity) (pow_le_pow_right₀ (by norm_num) (Nat.zero_le n)))

theorem powerBits_ne_zero (n : Nat) : powerBits n ≠ 0 := by
  intro h
  have := one_le_powerBits n
  rw [h, valueOf_zero] at this
  exact absurd this (by norm_num)

theorem powerBits_lt (hn : n ≤ greatestPower) : powerBits n < infiniteMagnitude := by
  have hlt := nearest_natCast_lt (Nat.pow_le_pow_right (by decide : 0 < 10) hn)
  rwa [Nat.cast_pow, Nat.cast_ofNat] at hlt

/-- A power of ten is off by one part in `2 ^ 53` at most. -/
theorem abs_powerBits_sub_le (hn : n ≤ greatestPower) :
    |valueOf (powerBits n) - 10 ^ n| ≤ 2 ^ (-53 : Int) * 10 ^ n := by
  refine abs_valueOf_nearestMagnitude_sub_le_of_normal ?_ (powerBits_lt hn)
  have hsmall : (2 : Rat) ^ (-1022 : Int) ≤ 1 := zpow_le_one_of_nonpos₀ one_le_two (by norm_num)
  exact hsmall.trans (one_le_pow₀ (by norm_num))

/-! ### One step -/

theorem isFinite_ofMagnitude {s : Bool} (hm : m < infiniteMagnitude) : (ofMagnitude s m).isFinite = true := by
  rw [isFinite_iff, magnitude_ofMagnitude hm.le]
  exact hm

theorem mul_ofMagnitude (hm : m < infiniteMagnitude) (hn : n < infiniteMagnitude) :
    ofMagnitude false m * ofMagnitude false n = ofMagnitude false (nearestMagnitude (valueOf m * valueOf n)) := by
  rw [mul_eq (isFinite_ofMagnitude hm) (isFinite_ofMagnitude hn), isNegative_ofMagnitude hm.le,
    isNegative_ofMagnitude hn.le, magnitude_ofMagnitude hm.le, magnitude_ofMagnitude hn.le, bne_self_eq_false]

theorem div_ofMagnitude (hm : m < infiniteMagnitude) (hn : n < infiniteMagnitude) (h0 : n ≠ 0) :
    ofMagnitude false m / ofMagnitude false n = ofMagnitude false (nearestMagnitude (valueOf m / valueOf n)) := by
  have hn' := magnitude_ofMagnitude (s := false) hn.le
  rw [div_eq (isFinite_ofMagnitude hm) (isFinite_ofMagnitude hn) (hn'.symm ▸ h0), isNegative_ofMagnitude hm.le,
    isNegative_ofMagnitude hn.le, magnitude_ofMagnitude hm.le, hn', bne_self_eq_false]

theorem scale?_mul (hm : m < infiniteMagnitude) (hn : n ≤ greatestPower)
    (h : nearestMagnitude (valueOf m * valueOf (powerBits n)) < infiniteMagnitude) :
    scale? (ofMagnitude false m) n =
      some (ofMagnitude false (nearestMagnitude (valueOf m * valueOf (powerBits n)))) := by
  have hinf : (ofMagnitude false (nearestMagnitude (valueOf m * valueOf (powerBits n)))).isInf = false := by
    rw [← Bool.not_eq_true, isInf_iff, magnitude_ofMagnitude h.le]
    exact h.ne
  rw [scale?, Int.natAbs_natCast, if_pos hn, if_pos (Int.natCast_nonneg n), powerOfTen_eq,
    mul_ofMagnitude hm (powerBits_lt hn)]
  simp only [hinf, Bool.false_eq_true, if_false]

theorem scale?_div (hm : m < infiniteMagnitude) (hn : n ≤ greatestPower) (h0 : 0 < n) :
    scale? (ofMagnitude false m) (-n) =
      some (ofMagnitude false (nearestMagnitude (valueOf m / valueOf (powerBits n)))) := by
  have hneg : ¬ 0 ≤ -(n : Int) := by omega
  rw [scale?, Int.natAbs_neg, Int.natAbs_natCast, if_pos hn, if_neg hneg, powerOfTen_eq,
    div_ofMagnitude hm (powerBits_lt hn) (powerBits_ne_zero n)]

theorem scale?_zero (e : Int) : scale? (ofMagnitude false 0) e = some (ofMagnitude false 0) := by
  have hzero : nearestMagnitude 0 = 0 := rfl
  by_cases hnear : e.natAbs ≤ greatestPower
  · obtain ⟨n, rfl | ⟨rfl, hn⟩⟩ : ∃ n : Nat, e = n ∨ e = -n ∧ 0 < n := ⟨e.natAbs, by omega⟩
    · have hlt : nearestMagnitude (valueOf 0 * valueOf (powerBits n)) < infiniteMagnitude := by
        rw [valueOf_zero, zero_mul, hzero]
        decide
      rw [scale?_mul (by decide) (by omega) hlt, valueOf_zero, zero_mul, hzero]
    · rw [scale?_div (by decide) (by omega) hn, valueOf_zero, zero_div, hzero]
  · have heq : (ofMagnitude false 0 == 0) = true := rfl
    rw [scale?, if_neg hnear, heq, if_pos rfl]

theorem scale?_far (hm : m < infiniteMagnitude) (h0 : m ≠ 0) (he : e < -greatestPower) :
    scale? (ofMagnitude false m) e =
      scale? (ofMagnitude false (nearestMagnitude (valueOf m / valueOf (powerBits greatestPower))))
        (e + greatestPower) := by
  have hfar : ¬ e.natAbs ≤ greatestPower := by omega
  have hneg : ¬ 0 ≤ e := by omega
  have hne : (ofMagnitude false m == 0) = false := by
    have hfinite := isFinite_ofMagnitude (s := false) hm
    have hmag := magnitude_ofMagnitude (s := false) hm.le
    show Float.Model.UnpackedFloat.beq (ofMagnitude false m).toModel.unpack (0 : Float).toModel.unpack = false
    rw [unpack_of_finite hfinite (hmag.symm ▸ h0), isNegative_ofMagnitude hm.le]
    rfl
  rw [scale?, if_neg hfar, hne, if_neg Bool.false_ne_true, if_neg hneg, powerOfTen_eq,
    div_ofMagnitude hm (powerBits_lt le_rfl) (powerBits_ne_zero _)]

/-! ### Accuracy -/

section Accuracy

variable {u t a b p q s v : Rat} {k : Nat}

/-- One more rounding. -/
theorem abs_sub_le_of_rounded {r c : Rat} (hu : 0 ≤ u) (ha : |a - b| ≤ c * r) (hr : u * b + t = r)
    (hv : |v - a| ≤ u * a + t) : |v - b| ≤ ((1 + u) * c + 1) * r := by
  have hup : u * (a - b) ≤ u * (c * r) := mul_le_mul_of_nonneg_left (le_of_abs_le ha) hu
  calc |v - b| ≤ |v - a| + |a - b| := abs_sub_le _ _ _
    _ ≤ (r + u * (c * r)) + c * r := add_le_add (by linarith) ha
    _ = ((1 + u) * c + 1) * r := by ring

/-- A divisor that is off by one rounding is not much less than it should be. -/
theorem le_mul_of_abs_sub_le (hu : 0 ≤ u) (hu' : 1000 * u ≤ 1) (hq : 0 ≤ q) (hpq : |p - q| ≤ u * q) :
    q ≤ p * (1 + 2 * u) := by
  have hlow := (abs_le.mp hpq).1
  nlinarith [mul_nonneg hu hq]

/-- The error of the dividend and that of the divisor add up in the quotient. -/
theorem abs_div_sub_le_of_close {r : Rat} (hu : 0 ≤ u) (hu' : 1000 * u ≤ 1) (ht : 0 ≤ t) (hs : 0 ≤ s) (hq : 1 ≤ q)
    (hr : u * s + t = r) (hab : |a - s * q| ≤ k * (u * (s * q) + t)) (hpq : |p - q| ≤ u * q) :
    |a / p - s| ≤ (k + 1) * (1 + 2 * u) * r := by
  have hq0 : 0 < q := zero_lt_one.trans_le hq
  have hle := le_mul_of_abs_sub_le hu hu' hq0.le hpq
  have hp : 0 < p := pos_of_mul_pos_left (hq0.trans_le hle) (by positivity)
  have hr0 : 0 ≤ r := hr ▸ add_nonneg (mul_nonneg hu hs) ht
  have htq : t ≤ t * q := le_mul_of_one_le_right ht hq
  have hqr : u * (s * q) + t * q = q * r := by
    rw [← hr]
    ring
  have hdividend : |(a - s * q) / p| ≤ k * (1 + 2 * u) * r := by
    rw [abs_div, abs_of_pos hp, div_le_iff₀ hp]
    calc |a - s * q| ≤ k * (u * (s * q) + t) := hab
      _ ≤ k * (q * r) := by gcongr; linarith
      _ ≤ k * (p * (1 + 2 * u) * r) := by gcongr
      _ = k * (1 + 2 * u) * r * p := by ring
  have hdivisor : |s * (q - p) / p| ≤ (1 + 2 * u) * r := by
    rw [abs_div, abs_of_pos hp, div_le_iff₀ hp, abs_mul, abs_of_nonneg hs, abs_sub_comm]
    calc s * |p - q| ≤ s * (u * q) := by gcongr
      _ ≤ q * r := by linarith
      _ ≤ p * (1 + 2 * u) * r := by gcongr
      _ = (1 + 2 * u) * r * p := by ring
  have hsplit : a / p - s = (a - s * q) / p + s * (q - p) / p := by
    field_simp
    ring
  rw [hsplit, add_mul, add_mul, one_mul]
  exact (abs_add_le _ _).trans (add_le_add hdividend hdivisor)

/-- A quotient is as good as its dividend and its divisor, and one rounding. -/
theorem abs_div_sub_le (hu : 0 ≤ u) (hu' : 1000 * u ≤ 1) (ht : 0 ≤ t) (hb : 0 ≤ b) (hk : k ≤ 100) (hq : 1 ≤ q)
    (hab : |a - b| ≤ k * (u * b + t)) (hpq : |p - q| ≤ u * q) (hv : |v - a / p| ≤ u * (a / p) + t) :
    |v - b / q| ≤ (k + 3 : Nat) * (u * (b / q) + t) := by
  have hq0 : 0 < q := zero_lt_one.trans_le hq
  obtain ⟨s, rfl⟩ : ∃ s, b = s * q := ⟨b / q, (div_mul_cancel₀ b hq0.ne').symm⟩
  have hs : 0 ≤ s := nonneg_of_mul_nonneg_left hb hq0
  rw [mul_div_cancel_right₀ _ hq0.ne']
  have hquot := abs_div_sub_le_of_close hu hu' ht hs hq rfl hab hpq
  have hfactor : (1 + u) * ((k + 1) * (1 + 2 * u)) ≤ (k : Rat) + 2 := by
    have hk' : (k : Rat) + 1 ≤ 101 := by exact_mod_cast Nat.succ_le_succ hk
    have hsquare : (1 + 2 * u) * (1 + u) ≤ 1 + 4 * u := by nlinarith
    calc (1 + u) * ((k + 1) * (1 + 2 * u)) = (k + 1) * ((1 + 2 * u) * (1 + u)) := by ring
      _ ≤ (k + 1) * (1 + 4 * u) := by gcongr
      _ = k + 1 + 4 * ((k + 1) * u) := by ring
      _ ≤ k + 1 + 4 * (101 * u) := by gcongr
      _ ≤ k + 2 := by linarith
  refine (abs_sub_le_of_rounded hu hquot rfl hv).trans (mul_le_mul_of_nonneg_right ?_ (by positivity))
  push_cast
  linarith

/-- A product is as good as its factors, and one rounding. -/
theorem abs_mul_sub_le (hu : 0 ≤ u) (hu' : 1000 * u ≤ 1) (ht : 0 ≤ t) (hb : 0 ≤ b) (hq : 0 ≤ q)
    (hab : |a - b| ≤ u * b) (hpq : |p - q| ≤ u * q) (hv : |v - a * p| ≤ u * (a * p) + t) :
    |v - b * q| ≤ 4 * (u * (b * q) + t) := by
  have hbq : 0 ≤ b * q := mul_nonneg hb hq
  have hprod : |a * p - b * q| ≤ (2 + u) * (u * (b * q) + t) := by
    have hsplit : a * p - b * q = (a - b) * (p - q) + ((a - b) * q + b * (p - q)) := by ring
    have h1 : |(a - b) * (p - q)| ≤ u * b * (u * q) := by
      rw [abs_mul]
      exact mul_le_mul hab hpq (abs_nonneg _) (by positivity)
    have h2 : |(a - b) * q| ≤ u * b * q := by
      rw [abs_mul, abs_of_nonneg hq]
      exact mul_le_mul_of_nonneg_right hab hq
    have h3 : |b * (p - q)| ≤ b * (u * q) := by
      rw [abs_mul, abs_of_nonneg hb]
      exact mul_le_mul_of_nonneg_left hpq hb
    calc |a * p - b * q| ≤ u * b * (u * q) + (u * b * q + b * (u * q)) := by
          rw [hsplit]
          exact (abs_add_le _ _).trans (add_le_add h1 ((abs_add_le _ _).trans (add_le_add h2 h3)))
      _ = (2 + u) * (u * (b * q)) := by ring
      _ ≤ (2 + u) * (u * (b * q) + t) := by gcongr; linarith
  refine (abs_sub_le_of_rounded hu hprod rfl hv).trans (mul_le_mul_of_nonneg_right ?_ (by positivity))
  nlinarith

end Accuracy

/-! ### Counting roundings -/

/-- A number agrees with another up to `k` roundings. -/
def Close (k : Nat) (a b : Rat) : Prop := |a - b| ≤ k * (2 ^ (-53 : Int) * b + 2 ^ (-1075 : Int))

section Close

variable {k : Nat} {a b q : Rat}

theorem close_nearest (hb : 0 ≤ b) (h : nearestMagnitude b < infiniteMagnitude) :
    Close 1 (valueOf (nearestMagnitude b)) b := by
  rw [Close, Nat.cast_one, one_mul]
  exact abs_valueOf_nearestMagnitude_sub_le hb h

theorem nearestMagnitude_div_lt (hm : m < infiniteMagnitude) (n : Nat) :
    nearestMagnitude (valueOf m / valueOf (powerBits n)) < infiniteMagnitude := by
  have hp := one_le_powerBits n
  refine (nearestMagnitude_mono (div_nonneg (valueOf_nonneg m) (valueOf_nonneg _))
    (div_le_self (valueOf_nonneg m) hp)).trans_lt ?_
  rwa [nearestMagnitude_valueOf hm]

theorem Close.div (h : Close k (valueOf m) b) (hm : m < infiniteMagnitude) (hb : 0 ≤ b) (hk : k ≤ 100)
    (hn : n ≤ greatestPower) :
    Close (k + 3) (valueOf (nearestMagnitude (valueOf m / valueOf (powerBits n)))) (b / 10 ^ n) :=
  abs_div_sub_le (by positivity) (by norm_num) (by positivity) hb hk (one_le_pow₀ (by norm_num)) h
    (abs_powerBits_sub_le hn) (abs_valueOf_nearestMagnitude_sub_le
      (div_nonneg (valueOf_nonneg m) (valueOf_nonneg _)) (nearestMagnitude_div_lt hm n))

theorem Close.mono {k' : Nat} (h : Close k a b) (hb : 0 ≤ b) (hk : k ≤ k') : Close k' a b := by
  have hk' : (k : Rat) ≤ k' := by exact_mod_cast hk
  exact h.trans (mul_le_mul_of_nonneg_right hk' (by positivity))

/-- What is nothing but rounding errors is so after a division. -/
theorem Close.zero_div (h : Close k 0 b) (hb : 0 ≤ b) (hq : 1 ≤ q) : Close k 0 (b / q) := by
  have hq0 : 0 < q := zero_lt_one.trans_le hq
  rw [Close, zero_sub, abs_neg, abs_of_nonneg hb] at h
  rw [Close, zero_sub, abs_neg, abs_of_nonneg (div_nonneg hb hq0.le), div_le_iff₀ hq0]
  refine h.trans ?_
  rw [mul_assoc, add_mul, mul_assoc, div_mul_cancel₀ _ hq0.ne']
  have hscale : (2 : Rat) ^ (-1075 : Int) ≤ 2 ^ (-1075 : Int) * q := le_mul_of_one_le_right (by positivity) hq
  gcongr

/-- Division by one power of ten. -/
theorem scale?_close_near (h : Close k (valueOf m) b) (hm : m < infiniteMagnitude) (hb : 0 ≤ b) (hk : k ≤ 100)
    (hn : n ≤ greatestPower) (h0 : 0 < n) : ∃ m' < infiniteMagnitude,
      scale? (ofMagnitude false m) (-n) = some (ofMagnitude false m') ∧ Close (k + 3) (valueOf m') (b / 10 ^ n) :=
  ⟨_, nearestMagnitude_div_lt hm n, scale?_div hm hn h0, h.div hm hb hk hn⟩

/-- Division by two powers of ten. -/
theorem scale?_close_far (h : Close 1 (valueOf m) b) (hm : m < infiniteMagnitude) (hb : 0 ≤ b)
    (hn : n ≤ greatestPower) (h0 : 0 < n) : ∃ m' < infiniteMagnitude,
      scale? (ofMagnitude false m) (-(greatestPower + n : Nat)) = some (ofMagnitude false m') ∧
        Close 7 (valueOf m') (b / 10 ^ (greatestPower + n)) := by
  by_cases hm0 : m = 0
  · subst hm0
    refine ⟨0, by decide, scale?_zero _, ?_⟩
    rw [valueOf_zero] at h ⊢
    exact (h.zero_div hb (one_le_pow₀ (by norm_num))).mono (by positivity) (by decide)
  · have hstep := h.div hm hb (by decide) (le_refl greatestPower)
    obtain ⟨m', hm', hscale, hclose⟩ := scale?_close_near hstep (nearestMagnitude_div_lt hm _) (by positivity)
      (by decide) hn h0
    refine ⟨m', hm', ?_, ?_⟩
    · have hexp : -((greatestPower + n : Nat) : Int) + greatestPower = -n := by
        push_cast
        ring
      rw [scale?_far hm hm0 (by omega), hexp, hscale]
    · rwa [pow_add, ← div_div]

end Close

/-! ### Decimals -/

theorem product_mono {v : Nat} (hw : w ≤ v) (hn : m ≤ n) :
    nearestMagnitude (valueOf (nearestMagnitude w) * valueOf (powerBits m)) ≤
      nearestMagnitude (valueOf (nearestMagnitude v) * valueOf (powerBits n)) := by
  refine nearestMagnitude_mono (mul_nonneg (valueOf_nonneg _) (valueOf_nonneg _)) ?_
  refine mul_le_mul (valueOf_mono ?_) (valueOf_mono ?_) (valueOf_nonneg _) (valueOf_nonneg _)
  · exact nearestMagnitude_mono (Nat.cast_nonneg w) (by exact_mod_cast hw)
  · exact nearestMagnitude_mono (by positivity) (pow_le_pow_right₀ (by norm_num) hn)

/-- The greatest digits of no more than seventeen places that a power of ten takes. -/
def greatestDigits (n : Nat) : Nat := min (10 ^ 17) (greatestWhole / 10 ^ n)

theorem product_greatestDigits_lt : ∀ k ≤ 17,
    nearestMagnitude (valueOf (nearestMagnitude (greatestDigits (291 + k))) * valueOf (powerBits (291 + k))) <
      infiniteMagnitude := by decide +kernel

/-- Up to the greatest double the errors in the factors do not make a product infinite, if the digits are
not too many. -/
theorem product_lt (hw : w ≤ 10 ^ 17) (hn : n ≤ greatestPower)
    (hmax : (w : Rat) * 10 ^ n ≤ valueOf (infiniteMagnitude - 1)) :
    nearestMagnitude (valueOf (nearestMagnitude w) * valueOf (powerBits n)) < infiniteMagnitude := by
  have hquot : w ≤ greatestWhole / 10 ^ n := by
    rw [Nat.le_div_iff_mul_le (by positivity)]
    rw [valueOf_greatest] at hmax
    exact_mod_cast hmax
  rcases Nat.le_total n 291 with hlow | hhigh
  · have hall : 10 ^ 17 ≤ greatestDigits 291 := by
      refine le_min le_rfl ((Nat.le_div_iff_mul_le (by positivity)).mpr ?_)
      have hsum : 17 + 291 = greatestPower := rfl
      rw [← pow_add, hsum]
      exact greatestWhole_bounds.1
    exact (product_mono (hw.trans hall) hlow).trans_lt (product_greatestDigits_lt 0 (by decide))
  · obtain ⟨k, rfl⟩ := Nat.exists_eq_add_of_le hhigh
    refine (product_mono (le_min hw hquot) le_rfl).trans_lt (product_greatestDigits_lt k ?_)
    rw [greatestPower] at hn
    omega

variable {d : Decimal}

theorem ofDecimal?_eq (d : Decimal) :
    ofDecimal? d = scale? (ofMagnitude false (nearestMagnitude d.digits)) d.exponent := rfl

theorem toRat_of_exponent_eq (h : d.exponent = n) : d.toRat = d.digits * 10 ^ n := by
  rw [toRat, h, zpow_natCast]

theorem toRat_of_exponent_eq_neg (h : d.exponent = -n) : d.toRat = d.digits / 10 ^ n := by
  rw [toRat, h, zpow_neg, zpow_natCast, div_eq_mul_inv]

/-- A double is not above `10 ^ 309`. -/
theorem le_greatestPower (h0 : w ≠ 0) (hmax : (w : Rat) * 10 ^ n ≤ valueOf (infiniteMagnitude - 1)) :
    n ≤ greatestPower := by
  by_contra hn
  have hbound := greatestWhole_bounds.2
  rw [valueOf_greatest] at hmax
  have hle : w * 10 ^ n ≤ greatestWhole := by exact_mod_cast hmax
  have hpow : 10 ^ (greatestPower + 1) ≤ 10 ^ n := Nat.pow_le_pow_right (by decide) (Nat.not_le.mp hn)
  exact absurd ((hpow.trans (Nat.le_mul_of_pos_left _ (Nat.pos_of_ne_zero h0))).trans hle) hbound.not_ge

/-- Multiplication by a power of ten. -/
theorem scale?_close_mul (hw : w ≤ 10 ^ 17) (h0 : w ≠ 0)
    (hmax : (w : Rat) * 10 ^ n ≤ valueOf (infiniteMagnitude - 1)) : ∃ m < infiniteMagnitude,
      scale? (ofMagnitude false (nearestMagnitude w)) n = some (ofMagnitude false m) ∧
        Close 4 (valueOf m) (w * 10 ^ n) := by
  have hn := le_greatestPower h0 hmax
  have hlt := product_lt hw hn hmax
  have hsmall : (2 : Rat) ^ (-1022 : Int) ≤ w :=
    (zpow_le_one_of_nonpos₀ one_le_two (by norm_num)).trans (by exact_mod_cast Nat.one_le_iff_ne_zero.mpr h0)
  have hw' := nearest_natCast_lt (seventeen_digits_le hw)
  refine ⟨_, hlt, scale?_mul hw' hn hlt, ?_⟩
  rw [Close, Nat.cast_ofNat]
  exact abs_mul_sub_le (by positivity) (by norm_num) (by positivity) (Nat.cast_nonneg w) (by positivity)
    (abs_valueOf_nearestMagnitude_sub_le_of_normal hsmall hw') (abs_powerBits_sub_le hn)
    (abs_valueOf_nearestMagnitude_sub_le (mul_nonneg (valueOf_nonneg _) (valueOf_nonneg _)) hlt)

/-- **Every decimal in the range of the doubles is read as a double close to it**, if it has no more than
seventeen digits. -/
theorem ofDecimal?_close (hd : d.digits ≤ 10 ^ 17) (he : -616 ≤ d.exponent)
    (hmax : d.toRat ≤ valueOf (infiniteMagnitude - 1)) : ∃ m < infiniteMagnitude,
      ofDecimal? d = some (ofMagnitude false m) ∧ Close 7 (valueOf m) d.toRat := by
  have hw := nearest_natCast_lt (seventeen_digits_le hd)
  have hw0 : (0 : Rat) ≤ d.digits := Nat.cast_nonneg _
  have hclose := close_nearest hw0 hw
  rw [ofDecimal?_eq]
  obtain ⟨n, hpos | ⟨hneg, hn⟩⟩ : ∃ n : Nat, d.exponent = n ∨ d.exponent = -n ∧ 0 < n := ⟨d.exponent.natAbs, by omega⟩
  · rw [hpos, toRat_of_exponent_eq hpos]
    by_cases h0 : d.digits = 0
    · have hzero : nearestMagnitude 0 = 0 := rfl
      refine ⟨0, by decide, ?_, ?_⟩
      · rw [h0, Nat.cast_zero, hzero, scale?_zero]
      · rw [Close, h0, Nat.cast_zero, valueOf_zero, zero_mul, sub_zero, abs_zero]
        positivity
    · rw [toRat_of_exponent_eq hpos] at hmax
      obtain ⟨m, hm, hscale, hc⟩ := scale?_close_mul hd h0 hmax
      exact ⟨m, hm, hscale, hc.mono (by positivity) (by decide)⟩
  · rw [hneg, toRat_of_exponent_eq_neg hneg]
    rcases Nat.lt_or_ge greatestPower n with hfar | hnear
    · obtain ⟨k, rfl⟩ := Nat.exists_eq_add_of_le hfar.le
      have hk : k ≤ greatestPower := by
        rw [hneg] at he
        unfold greatestPower at *
        omega
      exact scale?_close_far hclose hw hw0 hk (by omega)
    · obtain ⟨m, hm, hscale, hc⟩ := scale?_close_near hclose hw hw0 (by decide) hnear hn
      exact ⟨m, hm, hscale, hc.mono (by positivity) (by decide)⟩

/-! ### Without rounding -/

/-- **A whole number and a power of ten that are doubles give the nearest double**: there is one rounding. -/
theorem ofDecimal?_eq_nearest (hd : d.digits < 2 ^ 53) (he : d.exponent.natAbs ≤ 22)
    (hlt : nearestMagnitude d.toRat < infiniteMagnitude) : ofDecimal? d = some (nearest d.toRat) := by
  obtain ⟨m, hm, hv⟩ := exists_valueOf_eq hd
  have hw : nearestMagnitude d.digits = m := by rw [← hv, nearestMagnitude_valueOf hm]
  rw [ofDecimal?_eq, hw, nearest]
  obtain ⟨n, hpos | ⟨hneg, hn⟩⟩ : ∃ n : Nat, d.exponent = n ∨ d.exponent = -n ∧ 0 < n := ⟨d.exponent.natAbs, by omega⟩
  · have hn : n ≤ 22 := by omega
    rw [toRat_of_exponent_eq hpos, ← hv, ← valueOf_powerBits hn] at hlt ⊢
    rw [hpos, scale?_mul hm (hn.trans (by decide)) hlt]
  · have hn' : n ≤ 22 := by omega
    rw [toRat_of_exponent_eq_neg hneg, ← hv, ← valueOf_powerBits hn', hneg,
      scale?_div hm (hn'.trans (by decide)) hn]

end Cutflow.Json
