import Cutflow.Number
import Mathlib

/-!
# Doubles and their bits

A double is its sign and its magnitude bits. The logical model of doubles computes with what it
unpacks from a word; here that is said as a function of sign and magnitude (`parts`), and all
questions about signs and special values become questions about natural numbers.

## What is proved

* `unpack_eq_parts`: what the model of doubles unpacks.
* `ofMagnitude_isNegative_magnitude`: a double is its sign and its magnitude.
* `isNaN_iff`, `isInf_iff`, `isFinite_iff`: the special values have the greatest magnitudes.
* `abs_eq`, `neg_eq`: absolute value and negation touch the sign only.
-/

namespace Cutflow.Number

open Float.Model UnpackedFloat

/-! ### The fields of a word -/

theorem toNat_unpackMantissa (b : BitVec 64) :
    (@unpackMantissa Format.binary64 b).toNat = b.toNat % 2 ^ 52 := by
  simp [unpackMantissa, BitVec.extractLsb_toNat]

theorem toNat_unpackExponent (b : BitVec 64) :
    (@unpackExponent Format.binary64 b).toNat = b.toNat / 2 ^ 52 % 2 ^ 11 := by
  simp [unpackExponent, BitVec.extractLsb_toNat, Nat.shiftRight_eq_div_pow]

theorem toNat_unpackSign (b : BitVec 64) :
    (@unpackSign Format.binary64 b).toNat = b.toNat / 2 ^ 63 := by
  have := b.isLt
  simp [unpackSign, BitVec.extractLsb_toNat, Nat.shiftRight_eq_div_pow]
  omega

/-- The word with the given sign and magnitude bits. -/
def word (negative : Bool) (m : Nat) : UInt64 :=
  UInt64.ofNat (if negative then signWeight + m else m)

/-- The sign as the model of doubles has it. -/
def signOf (negative : Bool) : Sign := if negative then .negative else .positive

section Word

variable {s : Bool} {m : Nat}

theorem toNat_word (h : m < signWeight) :
    (word s m).toNat = if s then signWeight + m else m := by
  rw [word, UInt64.toNat_ofNat']
  apply Nat.mod_eq_of_lt
  unfold signWeight at *
  split <;> omega

theorem toNat_toBitVec_word (h : m < signWeight) :
    (word s m).toBitVec.toNat = if s then signWeight + m else m := toNat_word h

theorem toNat_mantissa_word (h : m < signWeight) :
    (@unpackMantissa Format.binary64 (word s m).toBitVec).toNat = m % exponentWeight := by
  rw [toNat_unpackMantissa, toNat_toBitVec_word h]
  unfold signWeight exponentWeight
  split <;> omega

theorem toNat_exponent_word (h : m < signWeight) :
    (@unpackExponent Format.binary64 (word s m).toBitVec).toNat = m / exponentWeight := by
  rw [toNat_unpackExponent, toNat_toBitVec_word h]
  unfold signWeight exponentWeight at *
  split <;> omega

theorem sign_word (h : m < signWeight) :
    Sign.ofBitVec (@unpackSign Format.binary64 (word s m).toBitVec) = signOf s := by
  have hs : @unpackSign Format.binary64 (word s m).toBitVec = BitVec.ofBool s := by
    apply BitVec.eq_of_toNat_eq
    rw [toNat_unpackSign, toNat_toBitVec_word h, BitVec.toNat_ofBool]
    unfold signWeight at *
    cases s <;> simp <;> omega
  rw [hs]
  cases s <;> rfl

end Word

/-! ### What a word stands for -/

/-- The significand of the finite doubles with the magnitude bits `m`. -/
def significandOf (m : Nat) : Nat :=
  if m < exponentWeight then m else exponentWeight + m % exponentWeight

/-- The exponent of the finite doubles with the magnitude bits `m`. -/
def exponentOf (m : Nat) : Int := (max (m / exponentWeight) 1 : Nat) - 1075

theorem significandOf_of_lt {m : Nat} (h : m < exponentWeight) : significandOf m = m := if_pos h

theorem significandOf_of_le {m : Nat} (h : exponentWeight ≤ m) :
    significandOf m = exponentWeight + m % exponentWeight := if_neg (Nat.not_lt.mpr h)

theorem exponentOf_of_lt {m : Nat} (h : m < exponentWeight) : exponentOf m = -1074 := by
  rw [exponentOf, Nat.div_eq_of_lt h]
  rfl

theorem exponentOf_of_le {m : Nat} (h : exponentWeight ≤ m) :
    exponentOf m = (m / exponentWeight : Nat) - 1075 := by
  rw [exponentOf, Nat.max_eq_left (Nat.div_pos h (by decide))]

theorem significandOf_pos {m : Nat} (h : m ≠ 0) : 0 < significandOf m := by
  rw [significandOf]
  split
  · exact Nat.pos_of_ne_zero h
  · exact Nat.lt_of_lt_of_le (by decide) (Nat.le_add_right _ _)

/-- What the sign and the magnitude bits of a double stand for. -/
def parts (negative : Bool) (m : Nat) : UnpackedFloat :=
  if infiniteMagnitude < m then .notANumber
  else if m = infiniteMagnitude then .infinity (signOf negative)
  else if h : m = 0 then .zero (signOf negative)
  else .finite (signOf negative) (significandOf m) (exponentOf m) (significandOf_pos h)

theorem toNat_one_append {n : Nat} (b : BitVec n) : (1#1 ++ b).toNat = 2 ^ n + b.toNat := by
  rw [BitVec.toNat_append, ← Nat.shiftLeft_add_eq_or_of_lt b.isLt, Nat.shiftLeft_eq]
  simp

theorem unpack_word {s : Bool} {m : Nat} (h : m < signWeight) :
    UnpackedFloat.unpack Format.binary64 (word s m).toBitVec = parts s m := by
  have hm := toNat_mantissa_word (s := s) h
  have he := toNat_exponent_word (s := s) h
  have hm0 : @unpackMantissa Format.binary64 (word s m).toBitVec = 0#_ ↔
      m % exponentWeight = 0 := by
    rw [← BitVec.toNat_inj, hm]
    rfl
  have he0 : @unpackExponent Format.binary64 (word s m).toBitVec = 0#_ ↔
      m / exponentWeight = 0 := by
    rw [← BitVec.toNat_inj, he]
    rfl
  have he1 : @unpackExponent Format.binary64 (word s m).toBitVec = -1#_ ↔
      m / exponentWeight = 2047 := by
    rw [← BitVec.toNat_inj, he]
    rfl
  have hb : (Format.binary64.exponentBias : Int) + Format.binary64.mantissaBitsWithoutImplicit =
      1075 := rfl
  unfold UnpackedFloat.unpack
  simp only [hm0, he0, he1, sign_word h, toNat_one_append, hm, he, hb]
  unfold signWeight at h
  rcases Nat.lt_trichotomy m infiniteMagnitude with hlt | rfl | hgt
  · have h1 : m / exponentWeight ≠ 2047 := by
      unfold infiniteMagnitude exponentWeight at *
      omega
    rw [parts, if_neg h1, if_neg (Nat.lt_asymm hlt), if_neg (Nat.ne_of_lt hlt)]
    rcases Nat.lt_or_ge m exponentWeight with hlow | hhigh
    · rw [if_pos (Nat.div_eq_of_lt hlow)]
      simp only [Nat.mod_eq_of_lt hlow, Nat.div_eq_of_lt hlow, significandOf_of_lt hlow,
        exponentOf_of_lt hlow]
      rfl
    · have hz : m / exponentWeight ≠ 0 := Nat.ne_of_gt (Nat.div_pos hhigh (by decide))
      have h0 : m ≠ 0 := Nat.ne_of_gt (Nat.lt_of_lt_of_le (by decide) hhigh)
      rw [if_neg hz, dif_neg h0]
      simp only [significandOf_of_le hhigh, exponentOf_of_le hhigh]
      rfl
  · rfl
  · have h1 : m / exponentWeight = 2047 := by
      unfold infiniteMagnitude exponentWeight at *
      omega
    have h2 : m % exponentWeight ≠ 0 := by
      unfold infiniteMagnitude exponentWeight at *
      omega
    rw [parts, if_pos h1, if_neg h2, if_pos hgt]

/-! ### Doubles -/

theorem magnitude_lt (x : Float) : magnitude x < signWeight := Nat.mod_lt _ (by decide)

/-- The bits of a double are its sign and its magnitude. -/
theorem toBits_eq (x : Float) : x.toBits = word (isNegative x) (magnitude x) := by
  apply UInt64.toNat_inj.mp
  rw [toNat_word (magnitude_lt x)]
  have := x.toBits.toNat_lt
  simp only [isNegative, magnitude, decide_eq_true_eq]
  unfold signWeight
  split <;> omega

/-- A double is its sign and its magnitude. -/
theorem ofMagnitude_isNegative_magnitude (x : Float) :
    ofMagnitude (isNegative x) (magnitude x) = x := by
  have hx := x.ofBits_toBits
  rwa [toBits_eq] at hx

theorem unpack_eq_parts (x : Float) : x.toModel.unpack = parts (isNegative x) (magnitude x) := by
  rw [← unpack_word (magnitude_lt x), ← toBits_eq]
  rfl

theorem ofMagnitude_eq {s : Bool} {m : Nat} (h : m < signWeight) :
    ofMagnitude s m = .ofModel (.pack (parts s m)) := by
  rw [← unpack_word h]
  rfl

/-- Only NaN has other bits than it is made of. -/
theorem toBits_ofMagnitude {s : Bool} {m : Nat} (h : m ≤ infiniteMagnitude) :
    (ofMagnitude s m).toBits = word s m := by
  have hw : m < signWeight := Nat.lt_of_le_of_lt h (by decide)
  have hb : @isNaNBits Format.binary64 (word s m).toBitVec = false := by
    rw [isNaNBits, decide_eq_false_iff_not, ← BitVec.toNat_inj, Ne, ← BitVec.toNat_inj,
      toNat_exponent_word hw, toNat_mantissa_word hw]
    show ¬ (m / exponentWeight = 2047 ∧ m % exponentWeight ≠ 0)
    unfold infiniteMagnitude exponentWeight at *
    omega
  apply UInt64.toBitVec_inj.mp
  show pack Format.binary64 (unpack Format.binary64 (word s m).toBitVec) = _
  rw [pack_unpack, hb, if_neg (by decide)]

theorem magnitude_ofMagnitude {s : Bool} {m : Nat} (h : m ≤ infiniteMagnitude) :
    magnitude (ofMagnitude s m) = m := by
  have hw : m < signWeight := Nat.lt_of_le_of_lt h (by decide)
  rw [magnitude, toBits_ofMagnitude h, toNat_word hw]
  cases s
  · exact Nat.mod_eq_of_lt hw
  · rw [if_pos rfl, Nat.add_mod_left, Nat.mod_eq_of_lt hw]

theorem isNegative_ofMagnitude {s : Bool} {m : Nat} (h : m ≤ infiniteMagnitude) :
    isNegative (ofMagnitude s m) = s := by
  have hw : m < signWeight := Nat.lt_of_le_of_lt h (by decide)
  rw [isNegative, toBits_ofMagnitude h, toNat_word hw]
  cases s
  · simpa using hw
  · simp

/-! ### The special values -/

section Special

variable {x : Float}

theorem isNaN_iff : x.isNaN = true ↔ infiniteMagnitude < magnitude x := by
  show (x.toModel.unpack).isNaN = true ↔ _
  rw [unpack_eq_parts, parts]
  split_ifs <;> simp_all [UnpackedFloat.isNaN]

theorem isInf_iff : x.isInf = true ↔ magnitude x = infiniteMagnitude := by
  show (x.toModel.unpack).isInf = true ↔ _
  rw [unpack_eq_parts, parts]
  split_ifs <;> simp_all [UnpackedFloat.isInf]
  omega

theorem isFinite_iff : x.isFinite = true ↔ magnitude x < infiniteMagnitude := by
  show (x.toModel.unpack).isFinite = true ↔ _
  rw [unpack_eq_parts, parts]
  split_ifs <;> simp_all [UnpackedFloat.isFinite] <;> omega

theorem magnitude_le_of_not_isNaN (h : x.isNaN = false) : magnitude x ≤ infiniteMagnitude := by
  rw [← Nat.not_lt, ← isNaN_iff, h]
  decide

end Special

/-! ### The finite values -/

section Finite

variable {x : Float}

theorem unpack_of_finite (hx : x.isFinite = true) (h0 : magnitude x ≠ 0) : x.toModel.unpack =
    .finite (signOf (isNegative x)) (significandOf (magnitude x)) (exponentOf (magnitude x))
      (significandOf_pos h0) := by
  have hm := isFinite_iff.mp hx
  rw [unpack_eq_parts, parts, if_neg (Nat.lt_asymm hm), if_neg hm.ne, dif_neg h0]

theorem unpack_of_zero (h0 : magnitude x = 0) : x.toModel.unpack = .zero (signOf (isNegative x)) := by
  rw [unpack_eq_parts, h0]
  rfl

end Finite

/-! ### Signs -/

theorem neg_signOf (s : Bool) : -signOf s = signOf !s := by
  cases s <;> rfl

theorem abs_eq (x : Float) : x.abs = ofMagnitude false (magnitude x) := by
  rw [ofMagnitude_eq (magnitude_lt x)]
  show Float.ofModel (.pack (x.toModel.unpack).abs) = _
  congr 2
  rw [unpack_eq_parts, parts, parts]
  split_ifs <;> rfl

theorem neg_eq (x : Float) : -x = ofMagnitude (!isNegative x) (magnitude x) := by
  rw [ofMagnitude_eq (magnitude_lt x)]
  show Float.ofModel (.pack (x.toModel.unpack).neg) = _
  congr 2
  rw [unpack_eq_parts, parts, parts]
  split_ifs <;> simp [UnpackedFloat.neg, neg_signOf]

theorem abs_of_not_isNegative {x : Float} (h : isNegative x = false) : x.abs = x := by
  rw [abs_eq, ← h, ofMagnitude_isNegative_magnitude]

theorem neg_abs_of_isNegative {x : Float} (h : x.isNaN = false) (hs : isNegative x = true) :
    -x.abs = x := by
  have hm := magnitude_le_of_not_isNaN h
  rw [neg_eq, abs_eq, isNegative_ofMagnitude hm, magnitude_ofMagnitude hm, Bool.not_false, ← hs,
    ofMagnitude_isNegative_magnitude]

end Cutflow.Number
