import Cutflow.Proofs.Number.Spacing

/-!
# Products and quotients of doubles

The model of doubles multiplies and divides exactly, except that it cuts the result off at some place
and keeps two bits about the rest, and rounds in the end. What the two bits say is enough to find the
double nearest to the exact result.

## What is proved

* `Locates.shiftRight`: moving bits out of a mantissa keeps what is known about the number.
* `Locates.roundedMantissa`: what is known is enough to round to the nearest whole number.
* `ofModel_roundWithAccuracy`: what the model rounds to is the nearest double.
* `mul_eq`, `div_eq`: products and quotients of doubles are the nearest doubles to those of their values.
-/

namespace Cutflow.Number

open Float.Model UnpackedFloat

/-! ### Mantissas with residual bits -/

/-- What the round bit and the sticky bit say about the part of a number that is cut off. -/
def Residue : Bool → Bool → Rat → Prop
  | false, false, f => f = 0
  | false, true, f => 0 < f ∧ f < 1 / 2
  | true, false, f => f = 1 / 2
  | true, true, f => 1 / 2 < f ∧ f < 1

/-- The number is the mantissa and what its residual bits say. -/
def Locates (em : ExtendedMantissa) (x : Rat) : Prop := Residue em.roundBit em.stickyBit (x - em.mantissa)

variable {em : ExtendedMantissa} {x r : Rat} {m n : Nat} {e : Int} {s : Bool}

theorem Residue.bounds {b b' : Bool} {f : Rat} (h : Residue b b' f) : 0 ≤ f ∧ f < 1 := by
  cases b <;> cases b' <;> simp only [Residue] at h <;> constructor <;> linarith

/-- One more bit is cut off, and becomes the round bit. -/
theorem Residue.half {b b' : Bool} {f : Rat} (h : Residue b b' f) (odd : Bool) :
    Residue odd (b || b') (((if odd then 1 else 0) + f) / 2) := by
  cases odd <;> cases b <;> cases b' <;>
    simp only [Residue, Bool.or_self, Bool.or_true, Bool.or_false, if_true, if_false, Bool.false_eq_true] at h ⊢ <;>
    first | linarith | constructor <;> linarith

theorem Locates.le (h : Locates em x) : em.mantissa ≤ x := sub_nonneg.mp h.bounds.1

theorem Locates.lt (h : Locates em x) : x < em.mantissa + 1 := sub_lt_iff_lt_add'.mp h.bounds.2

theorem Locates.shiftRightOne (h : Locates em x) : Locates em.shiftRightOne (x / 2) := by
  have hn : ((em.mantissa % 2 : Nat) : Rat) + 2 * (em.mantissa / 2 : Nat) = em.mantissa := by
    exact_mod_cast Nat.mod_add_div em.mantissa 2
  have hodd : ((em.mantissa % 2 : Nat) : Rat) = if em.mantissa % 2 != 0 then 1 else 0 := by
    rcases Nat.mod_two_eq_zero_or_one em.mantissa with h2 | h2 <;> simp [h2]
  have hrest : x / 2 - (em.mantissa / 2 : Nat) =
      ((if em.mantissa % 2 != 0 then 1 else 0) + (x - em.mantissa)) / 2 := by
    rw [← hodd]
    linarith
  rw [Locates, ExtendedMantissa.shiftRightOne, hrest]
  exact h.half _

theorem Locates.shiftRight (h : Locates em x) (k : Nat) : Locates (em >>> k) (x / 2 ^ k) := by
  induction k with
  | zero =>
    rw [pow_zero, div_one]
    exact h
  | succ k ih =>
    rw [pow_succ, div_mul_eq_div_div]
    exact ih.shiftRightOne

/-- **The residual bits say how to round** to the nearest whole number. -/
theorem Locates.roundedMantissa (h : Locates em x) : em.roundedMantissa = roundRat x := by
  obtain ⟨n, b, b'⟩ := em
  have hx : 0 ≤ x := (Nat.cast_nonneg n).trans h.le
  have hsplit := eq_div_add_mod hx
  obtain ⟨hrest, hrest'⟩ := mod_div_bounds x
  have hn : x.num.toNat / x.den = n := by
    have hle := h.le
    have hlt := h.lt
    refine Nat.le_antisymm (Nat.le_of_lt_succ ?_) (Nat.le_of_lt_succ ?_)
    · exact_mod_cast (show ((x.num.toNat / x.den : Nat) : Rat) < n + 1 by linarith)
    · exact_mod_cast (show (n : Rat) < (x.num.toNat / x.den : Nat) + 1 by linarith)
  rw [hn] at hsplit
  have hres : Residue b b' ((x.num.toNat % x.den : Nat) / x.den) := by
    rw [← sub_eq_iff_eq_add'.mpr hsplit]
    exact h
  rw [roundRat, roundRatio, hn]
  rcases Nat.lt_trichotomy (2 * (x.num.toNat % x.den)) x.den with hc | hc | hc
  · have hhalf := (div_lt_half_iff x.den_pos).mpr hc
    rw [Nat.compare_eq_lt.mpr hc]
    cases b <;> cases b' <;> simp only [Residue] at hres
    · rfl
    · rfl
    all_goals linarith
  · have hhalf := (div_eq_half_iff x.den_pos).mpr hc
    rw [Nat.compare_eq_eq.mpr hc]
    cases b <;> cases b' <;> simp only [Residue] at hres
    case true.false => rfl
    all_goals linarith
  · have hhalf := (half_lt_div_iff x.den_pos).mpr hc
    rw [Nat.compare_eq_gt.mpr hc]
    cases b <;> cases b' <;> simp only [Residue] at hres
    case true.true => rfl
    all_goals linarith

/-! ### Rounding a mantissa -/

/-- The mantissa and the accuracy say where the number is, in units of the exponent. -/
def Approximates (m : Nat) (e : Int) (accuracy : Accuracy) (r : Rat) : Prop :=
  Locates (ExtendedMantissa.ofMantissaAndAccuracy m accuracy) (r / 2 ^ e)

theorem mantissa_ofMantissaAndAccuracy (m : Nat) (accuracy : Accuracy) :
    (ExtendedMantissa.ofMantissaAndAccuracy m accuracy).mantissa = m := by
  rcases accuracy with _ | _ | _ | _ <;> rfl

variable {accuracy : Accuracy}

theorem binaryExponent_of_approximates (h : Approximates m e accuracy r) (hm : m ≠ 0) :
    binaryExponent r = m.log2 + e := by
  have h2 : (0 : Rat) < 2 ^ e := by positivity
  have hle := h.le
  have hlt := h.lt
  rw [mantissa_ofMantissaAndAccuracy] at hle hlt
  rw [le_div_iff₀ h2] at hle
  rw [div_lt_iff₀ h2] at hlt
  have hlow : ((2 : Rat) ^ m.log2) ≤ m := by exact_mod_cast Nat.log2_self_le hm
  have hhigh : (m : Rat) + 1 ≤ 2 ^ (m.log2 + 1) := by exact_mod_cast Nat.lt_log2_self
  apply binaryExponent_eq
  · rw [zpow_add₀ two_ne_zero, zpow_natCast]
    exact (mul_le_mul_of_nonneg_right hlow h2.le).trans hle
  · rw [add_right_comm, zpow_add₀ two_ne_zero]
    refine hlt.trans_le (mul_le_mul_of_nonneg_right ?_ h2.le)
    exact_mod_cast hhigh

theorem targetExponent_eq (m : Nat) (e : Int) :
    Format.binary64.targetExponent (totalExponent m e) = max (m.log2 + e - 52) (-1074) := by
  have hmin : Format.binary64.minExponent = -1074 := rfl
  have hbits : (Format.binary64.mantissaBits : Int) = 53 := rfl
  rw [Format.targetExponent, totalExponent, hmin, hbits]
  congr 1
  omega

/-- The model shifts to the last place of the doubles near the number. -/
theorem targetExponent_of_approximates (h : Approximates m e accuracy r) (hr : 0 < r) (he : e ≤ lastPlace r) :
    Format.binary64.targetExponent (totalExponent m e) = lastPlace r := by
  rw [targetExponent_eq]
  by_cases hm : m = 0
  · -- the number is below the unit of the exponent, so this one is as small as an exponent can be
    have h2 : (0 : Rat) < 2 ^ e := by positivity
    have hlt := h.lt
    rw [mantissa_ofMantissaAndAccuracy, hm, Nat.cast_zero, zero_add, div_lt_one h2] at hlt
    have hexp := (zpow_binaryExponent hr).1.trans_lt hlt
    rw [zpow_lt_zpow_iff_right₀ one_lt_two] at hexp
    have hlog : Nat.log2 0 = 0 := rfl
    unfold lastPlace at *
    rw [hm, hlog]
    omega
  · rw [lastPlace, binaryExponent_of_approximates h hm]

/-! ### Packing -/

theorem parts_of_significand (s : Bool) {f : Nat} {q : Int} (hf : f < 2 * exponentWeight)
    (hfull : exponentWeight ≤ f ∨ q = -1074) (hq : -1074 ≤ q) (hq' : q ≤ 971) (hpos : 0 < f) :
    parts s ((q + 1074).toNat * exponentWeight + f) = .finite (signOf s) f q hpos := by
  obtain ⟨k, hk⟩ : ∃ k : Nat, q + 1074 = k := ⟨(q + 1074).toNat, by omega⟩
  rw [hk, Int.toNat_natCast]
  have hinf : k * exponentWeight + f < infiniteMagnitude := by
    unfold infiniteMagnitude exponentWeight at *
    omega
  have hne : k * exponentWeight + f ≠ 0 := by omega
  have hs : significandOf (k * exponentWeight + f) = f := by
    unfold significandOf exponentWeight at *
    split <;> omega
  have he : exponentOf (k * exponentWeight + f) = q := by
    unfold exponentOf exponentWeight at *
    omega
  rw [parts, if_neg (Nat.lt_asymm hinf), if_neg (Nat.ne_of_lt hinf), dif_neg hne]
  simp only [hs, he]

/-- What is too great for a double becomes infinite. -/
theorem ofModel_pack_finite (s : Bool) {f : Nat} {q : Int} (hf : f < 2 * exponentWeight)
    (hfull : exponentWeight ≤ f ∨ q = -1074) (hq : -1074 ≤ q) (hpos : 0 < f) :
    Float.ofModel (.pack (.finite (signOf s) f q hpos)) =
      ofMagnitude s (min ((q + 1074).toNat * exponentWeight + f) infiniteMagnitude) := by
  rcases le_or_gt q 971 with hlow | hhigh
  · have hinf : (q + 1074).toNat * exponentWeight + f < infiniteMagnitude := by
      unfold infiniteMagnitude exponentWeight at *
      omega
    rw [Nat.min_eq_left hinf.le, ofMagnitude_eq (hinf.trans (by decide)),
      parts_of_significand s hf hfull hq hlow hpos]
  · have hinf : infiniteMagnitude ≤ (q + 1074).toNat * exponentWeight + f := by
      unfold infiniteMagnitude exponentWeight at *
      omega
    have hparts : parts s infiniteMagnitude = .infinity (signOf s) := rfl
    have hpack : UnpackedFloat.pack Format.binary64 (.finite (signOf s) f q hpos) =
        packedInfinity Format.binary64 (signOf s) := by
      have hbias : (Format.binary64.exponentBias : Int) + Format.binary64.mantissaBitsWithoutImplicit = 1075 := rfl
      rw [UnpackedFloat.pack]
      simp only
      rw [if_pos]
      rw [add_assoc, hbias]
      show 2048 ≤ _
      omega
    rw [Nat.min_eq_right hinf, ofMagnitude_eq (by decide), hparts]
    simp only [Float.Model.pack, hpack]
    rfl

/-- After the first rounding the mantissa may have one bit too many, which is zero. -/
theorem shift_roundedMantissa {n : Nat} {q : Int} (hn : exponentWeight ≤ n ∨ q = -1074)
    (hn' : n ≤ 2 * exponentWeight) (hq : -1074 ≤ q) :
    let shifted := shiftToTargetExponent Format.binary64 n q .exact
    shifted.1.mantissa < 2 * exponentWeight ∧ (exponentWeight ≤ shifted.1.mantissa ∨ shifted.2 = -1074) ∧
      -1074 ≤ shifted.2 ∧
      (shifted.2 + 1074).toNat * exponentWeight + shifted.1.mantissa = (q + 1074).toNat * exponentWeight + n := by
  simp only [shiftToTargetExponent, shiftToExponent, targetExponent_eq, mantissa_shiftRight,
    mantissa_ofMantissaAndAccuracy]
  rcases Nat.lt_or_ge n (2 * exponentWeight) with hlt | hge
  · have hk : (max ((n.log2 : Int) + q - 52) (-1074) - q).toNat = 0 := by
      rcases Nat.lt_or_ge n exponentWeight with hlow | hhigh
      · obtain rfl := hn.resolve_left (Nat.not_le.mpr hlow)
        have hlog : n.log2 ≤ 52 := by
          by_cases h0 : n = 0
          · rw [h0]
            exact Nat.zero_le 52
          · exact Nat.le_of_lt_succ ((Nat.log2_lt h0).mpr hlt)
        omega
      · have hlog : n.log2 = 52 :=
          (Nat.log2_eq_iff (Nat.ne_of_gt (Nat.lt_of_lt_of_le (by decide) hhigh))).mpr ⟨hhigh, hlt⟩
        omega
    rw [hk, pow_zero, Nat.div_one, Nat.cast_zero, add_zero]
    exact ⟨hlt, hn, hq, rfl⟩
  · obtain rfl : n = 2 * exponentWeight := le_antisymm hn' hge
    have hlog : (2 * exponentWeight).log2 = 53 := by decide
    have hk : (max (((2 * exponentWeight).log2 : Int) + q - 52) (-1074) - q).toNat = 1 := by omega
    have hw : 2 * exponentWeight / 2 = exponentWeight := by decide
    have hnext : (q + 1 + 1074).toNat = (q + 1074).toNat + 1 := by omega
    rw [hk, pow_one, hw, Nat.cast_one, hnext]
    exact ⟨by decide, .inl le_rfl, by omega, by ring⟩

/-- **The model rounds to the nearest double**, if the mantissa it has cut off the number reaches to the last
place of the doubles near the number. -/
theorem ofModel_roundWithAccuracy (s : Bool) (h : Approximates m e accuracy r) (hr : 0 < r) (he : e ≤ lastPlace r) :
    Float.ofModel (.pack (roundWithAccuracy Format.binary64 (signOf s) m e accuracy)) =
      ofMagnitude s (nearestMagnitude r) := by
  obtain ⟨k, hk⟩ : ∃ k : Nat, lastPlace r = e + k := ⟨(lastPlace r - e).toNat, by omega⟩
  have hk' : (lastPlace r - e).toNat = k := by omega
  obtain ⟨em, hem⟩ : ∃ em, ExtendedMantissa.ofMantissaAndAccuracy m accuracy >>> k = em := ⟨_, rfl⟩
  have hlocates : Locates em (r / 2 ^ lastPlace r) := by
    rw [← hem, hk, zpow_add₀ two_ne_zero, zpow_natCast, div_mul_eq_div_div]
    exact h.shiftRight k
  have hshift : shiftToTargetExponent Format.binary64 m e accuracy = (em, lastPlace r) := by
    simp only [shiftToTargetExponent, shiftToExponent, targetExponent_of_approximates h hr he, hk', hem]
    rw [← hk]
  have hround := hlocates.roundedMantissa
  obtain ⟨hn, hn'⟩ := roundRat_scaled hr
  have hnearest := nearestMagnitude_eq hr
  rw [← hround] at hn hn' hnearest
  obtain ⟨hf, hfull, hq, hbits⟩ := shift_roundedMantissa hn' hn (le_lastPlace r)
  simp only [roundWithAccuracy, hshift]
  split
  next h0 =>
    have hzero : nearestMagnitude r = 0 := by
      rw [h0] at hfull hbits
      rw [hfull.resolve_left (by decide)] at hbits
      rw [hnearest, ← hbits]
      rfl
    rw [hzero, ofMagnitude_eq (by decide)]
    rfl
  next h0 => rw [ofModel_pack_finite s hf hfull hq, hbits, hnearest]

/-! ### Products and quotients -/

variable {x y : Float}

theorem signOf_mul (s t : Bool) : signOf s * signOf t = signOf (s != t) := by
  cases s <;> cases t <;> rfl

theorem signOf_div (s t : Bool) : signOf s / signOf t = signOf (s != t) := by
  cases s <;> cases t <;> rfl

theorem ofModel_pack_zero (s : Bool) : Float.ofModel (.pack (.zero (signOf s))) = ofMagnitude s 0 := by
  rw [ofMagnitude_eq (by decide)]
  rfl

theorem approximates_exact (m : Nat) (e : Int) : Approximates m e .exact (m * 2 ^ e) := by
  show (m : Rat) * 2 ^ e / 2 ^ e - m = 0
  rw [mul_div_cancel_right₀ _ (by positivity), sub_self]

theorem valueOf_mul (a b : Nat) : valueOf a * valueOf b =
    (significandOf a * significandOf b : Nat) * 2 ^ (exponentOf a + exponentOf b) := by
  rw [valueOf, valueOf, zpow_add₀ two_ne_zero]
  push_cast
  ring

/-- Significands are cut off far enough for their product: if neither has its full length, both have the
least exponent there is. -/
theorem le_lastPlace_mul {a b : Nat} (ha : a ≠ 0) (hb : b ≠ 0) :
    exponentOf a + exponentOf b ≤ lastPlace (valueOf a * valueOf b) := by
  obtain ⟨m, hm⟩ : ∃ m, significandOf a * significandOf b = m := ⟨_, rfl⟩
  have hpos : 0 < m := hm ▸ Nat.mul_pos (significandOf_pos ha) (significandOf_pos hb)
  have hexp := binaryExponent_of_approximates (approximates_exact m (exponentOf a + exponentOf b)) hpos.ne'
  rw [valueOf_mul, hm, lastPlace, hexp]
  by_cases hfull : exponentWeight ≤ a ∨ exponentWeight ≤ b
  · have hlong : 2 ^ 52 ≤ m := by
      rw [← hm]
      rcases hfull with h | h
      · calc 2 ^ 52 ≤ significandOf a := significandOf_of_le h ▸ Nat.le_add_right _ _
          _ ≤ _ := Nat.le_mul_of_pos_right _ (significandOf_pos hb)
      · calc 2 ^ 52 ≤ significandOf b := significandOf_of_le h ▸ Nat.le_add_right _ _
          _ ≤ _ := Nat.le_mul_of_pos_left _ (significandOf_pos ha)
    have hlog : 52 ≤ m.log2 := (Nat.le_log2 hpos.ne').mpr hlong
    omega
  · rw [not_or, Nat.not_le, Nat.not_le] at hfull
    rw [exponentOf_of_lt hfull.1, exponentOf_of_lt hfull.2]
    omega

/-- **The product of two doubles is the double nearest to the product** of their values. -/
theorem mul_eq (hx : x.isFinite = true) (hy : y.isFinite = true) : x * y =
    ofMagnitude (isNegative x != isNegative y) (nearestMagnitude (valueOf (magnitude x) * valueOf (magnitude y))) := by
  show Float.ofModel (.pack (UnpackedFloat.mul Format.binary64 x.toModel.unpack y.toModel.unpack)) = _
  by_cases hx0 : magnitude x = 0
  · have hmul : UnpackedFloat.mul Format.binary64 x.toModel.unpack y.toModel.unpack =
        .zero (signOf (isNegative x) * signOf (isNegative y)) := by
      rw [unpack_of_zero hx0]
      by_cases hy0 : magnitude y = 0
      · rw [unpack_of_zero hy0]
        rfl
      · rw [unpack_of_finite hy hy0]
        rfl
    rw [hmul, signOf_mul, ofModel_pack_zero, hx0, valueOf_zero, zero_mul]
    rfl
  by_cases hy0 : magnitude y = 0
  · rw [unpack_of_finite hx hx0, unpack_of_zero hy0, hy0, valueOf_zero, mul_zero]
    show Float.ofModel (.pack (.zero (signOf _ * signOf _))) = _
    rw [signOf_mul, ofModel_pack_zero]
    rfl
  have happrox := approximates_exact (significandOf (magnitude x) * significandOf (magnitude y))
    (exponentOf (magnitude x) + exponentOf (magnitude y))
  rw [← valueOf_mul] at happrox
  rw [unpack_of_finite hx hx0, unpack_of_finite hy hy0]
  show Float.ofModel (.pack (roundWithAccuracy _ (signOf _ * signOf _) _ _ _)) = _
  rw [signOf_mul]
  exact ofModel_roundWithAccuracy _ happrox (mul_pos (valueOf_pos hx0) (valueOf_pos hy0)) (le_lastPlace_mul hx0 hy0)

/-- Division with remainder says where a fraction is. -/
theorem approximates_div {d : Nat} (m : Nat) (hd : 0 < d) (e : Int) :
    Approximates (m / d) e (accuracyOfFraction (m % d) d) (m / d * 2 ^ e) := by
  have hd' : (0 : Rat) < d := by exact_mod_cast hd
  have hk : ((m % d : Nat) : Rat) / d < 1 := by
    rw [div_lt_one hd']
    exact_mod_cast Nat.mod_lt m hd
  have hrest : (m : Rat) / d * 2 ^ e / 2 ^ e - (m / d : Nat) = (m % d : Nat) / d := by
    have hm : (m : Rat) = d * (m / d : Nat) + (m % d : Nat) := by exact_mod_cast (Nat.div_add_mod m d).symm
    rw [mul_div_cancel_right₀ _ (by positivity), sub_eq_iff_eq_add']
    conv_lhs => rw [hm]
    rw [add_div, mul_div_cancel_left₀ _ hd'.ne']
  rw [Approximates, Locates, mantissa_ofMantissaAndAccuracy, hrest, accuracyOfFraction]
  split
  next h0 =>
    rw [h0, Nat.cast_zero, zero_div]
    rfl
  next h0 =>
    rcases Nat.lt_trichotomy (2 * (m % d)) d with hc | hc | hc
    · rw [Nat.compare_eq_lt.mpr hc]
      have hpos : (0 : Rat) < (m % d : Nat) := by exact_mod_cast Nat.pos_of_ne_zero h0
      exact ⟨div_pos hpos hd', (div_lt_half_iff hd).mpr hc⟩
    · rw [Nat.compare_eq_eq.mpr hc]
      exact (div_eq_half_iff hd).mpr hc
    · rw [Nat.compare_eq_gt.mpr hc]
      exact ⟨(half_lt_div_iff hd).mpr hc, hk⟩

theorem approximates_divCore (a : Nat) {b : Nat} (hb : b ≠ 0) :
    let q := divCore Format.binary64 (significandOf a) (exponentOf a) (significandOf b) (exponentOf b)
    Approximates q.1 q.2.1 q.2.2 (valueOf a / valueOf b) := by
  simp only [divCore, Nat.shiftLeft_eq]
  generalize htarget : min (exponentOf a - exponentOf b) _ = t
  obtain ⟨k, hk⟩ : ∃ k : Nat, exponentOf a - exponentOf b = t + k := ⟨(exponentOf a - exponentOf b - t).toNat, by omega⟩
  have hk' : (exponentOf a - exponentOf b - t).toNat = k := by omega
  have hb' : (significandOf b : Rat) ≠ 0 := by exact_mod_cast (significandOf_pos hb).ne'
  have hvalue : valueOf a / valueOf b = (significandOf a * 2 ^ k : Nat) / significandOf b * 2 ^ t := by
    have he : exponentOf a = t + k + exponentOf b := by omega
    rw [valueOf, valueOf, he, zpow_add₀ two_ne_zero, zpow_add₀ two_ne_zero, zpow_natCast]
    push_cast
    field_simp
  rw [hk', hvalue]
  exact approximates_div _ (significandOf_pos hb) t

/-- The quotient of two significands is cut off at the last place or before it. -/
theorem le_lastPlace_div {a b : Nat} (ha : a ≠ 0) (hb : b ≠ 0) :
    (divCore Format.binary64 (significandOf a) (exponentOf a) (significandOf b) (exponentOf b)).2.1 ≤
      lastPlace (valueOf a / valueOf b) := by
  have hmin : Format.binary64.minExponent = -1074 := rfl
  have hbits : (Format.binary64.mantissaBits : Int) = 53 := rfl
  have hexp : ((significandOf a).log2 : Int) - (significandOf b).log2 - 1 + (exponentOf a - exponentOf b) ≤
      binaryExponent (valueOf a / valueOf b) := by
    have hlog := log2_lt_div (significandOf_pos ha).ne' (significandOf_pos hb).ne'
    have h2 : (0 : Rat) < 2 ^ (exponentOf a - exponentOf b) := by positivity
    have hvalue : valueOf a / valueOf b = significandOf a / significandOf b * 2 ^ (exponentOf a - exponentOf b) := by
      rw [valueOf, valueOf, zpow_sub₀ two_ne_zero, mul_div_mul_comm]
    have hlt := (zpow_binaryExponent (div_pos (valueOf_pos ha) (valueOf_pos hb))).2
    rw [← Int.lt_add_one_iff, ← zpow_lt_zpow_iff_right₀ (one_lt_two (α := Rat))]
    refine lt_of_le_of_lt ?_ hlt
    rw [zpow_add₀ two_ne_zero, hvalue]
    exact mul_le_mul_of_nonneg_right hlog.le h2.le
  simp only [divCore, Format.targetExponent, totalExponent, hmin, hbits]
  rw [lastPlace]
  omega

/-- **The quotient of two doubles is the double nearest to the quotient** of their values. -/
theorem div_eq (hx : x.isFinite = true) (hy : y.isFinite = true) (h0 : magnitude y ≠ 0) : x / y =
    ofMagnitude (isNegative x != isNegative y) (nearestMagnitude (valueOf (magnitude x) / valueOf (magnitude y))) := by
  show Float.ofModel (.pack (UnpackedFloat.div Format.binary64 x.toModel.unpack y.toModel.unpack)) = _
  by_cases hx0 : magnitude x = 0
  · rw [unpack_of_zero hx0, unpack_of_finite hy h0, hx0, valueOf_zero, zero_div]
    show Float.ofModel (.pack (.zero (signOf _ / signOf _))) = _
    rw [signOf_div, ofModel_pack_zero]
    rfl
  rw [unpack_of_finite hx hx0, unpack_of_finite hy h0]
  show Float.ofModel (.pack (roundWithAccuracy _ (signOf _ / signOf _) _ _ _)) = _
  rw [signOf_div]
  exact ofModel_roundWithAccuracy _ (approximates_divCore _ h0) (div_pos (valueOf_pos hx0) (valueOf_pos h0))
    (le_lastPlace_div hx0 h0)

end Cutflow.Number
