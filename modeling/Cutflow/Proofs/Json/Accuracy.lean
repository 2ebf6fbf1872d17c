import Cutflow.Proofs.Json.Number
import Cutflow.Proofs.Json.Scaling

/-!
# How well numbers are read back

The shortest digits of a double are at most seventeen, those that count are all kept when its text is read,
and the number they stand for is in the range of the doubles. So the text of every finite double is read as
a finite double near to it, and as the same double if scaling its digits is one rounding.

## What is proved

* `exists_near_of_isFinite`: what a finite double is read back as is near to it.
* `reread?_of_isShort`: a double of few digits is read back as it is.
-/

open Cutflow.Decimal Cutflow.Number

namespace Cutflow.Json

variable {x y : Float} {m : Nat}

/-! ### The digits -/

/-- The zeros and the point of a whole number do not make it longer than seventeen digits. -/
theorem digits_written_le (hx : x.isFinite = true) : (written (shortest layout.tie x)).digits ≤ 10 ^ 17 := by
  have hlt := (shortest layout.tie x).digits_lt
  rw [written]
  split
  next h =>
    obtain ⟨hpos, he⟩ := h
    have hlead : (shortest layout.tie x).leading ≤ 15 := by
      simp only [layout, Bool.and_eq_true, decide_eq_true_eq] at hpos
      exact hpos.2
    rw [leading] at hlead
    calc (shortest layout.tie x).digits * 10 ^ ((shortest layout.tie x).exponent.toNat + 1)
        ≤ 10 ^ (shortest layout.tie x).digitChars.length * 10 ^ ((shortest layout.tie x).exponent.toNat + 1) :=
          Nat.mul_le_mul_right _ hlt.le
      _ = 10 ^ ((shortest layout.tie x).digitChars.length + ((shortest layout.tie x).exponent.toNat + 1)) :=
          (Nat.pow_add _ _ _).symm
      _ ≤ 10 ^ 17 := Nat.pow_le_pow_right (by decide) (by omega)
  next => exact digits_shortest_le hx

theorem toRat_shortest_le (hx : x.isFinite = true) :
    (shortest layout.tie x).toRat ≤ valueOf (infiniteMagnitude - 1) := by
  rcases Nat.lt_or_ge (magnitude x) (infiniteMagnitude - 1) with hlt | hge
  · by_contra hgt
    have hle := nearestMagnitude_mono (valueOf_nonneg _) (not_le.mp hgt).le
    rw [nearestMagnitude_valueOf (by decide), nearestMagnitude_shortest hx] at hle
    exact absurd hlt hle.not_gt
  · -- the greatest double
    have hmax : (shortest layout.tie (ofMagnitude false (infiniteMagnitude - 1))).toRat ≤
        valueOf (infiniteMagnitude - 1) := by decide +kernel
    have hm := isFinite_iff.mp hx
    have heq : magnitude x = magnitude (ofMagnitude false (infiniteMagnitude - 1)) := by
      rw [magnitude_ofMagnitude (Nat.sub_le _ _)]
      omega
    rwa [shortest_congr heq]

/-- The digits of the least double do not stand for less than `10 ^ -616`. -/
theorem le_exponent_written (hx : x.isFinite = true) : -616 ≤ (written (shortest layout.tie x)).exponent := by
  rw [written]
  split
  next =>
    show (-616 : Int) ≤ -1
    decide
  next =>
    by_cases h0 : magnitude x = 0
    · rw [shortest_of_magnitude_eq_zero layout.tie h0]
      decide
    · by_contra hlow
      have hd : ((shortest layout.tie x).digits : Rat) ≤ 10 ^ (17 : Int) := by exact_mod_cast digits_shortest_le hx
      have hsmall : (shortest layout.tie x).toRat < 2 ^ (-1075 : Int) := by
        calc (shortest layout.tie x).toRat
            ≤ 10 ^ (17 : Int) * 10 ^ (shortest layout.tie x).exponent := by
              rw [toRat]
              gcongr
          _ = 10 ^ (17 + (shortest layout.tie x).exponent) := (zpow_add₀ (by norm_num) _ _).symm
          _ ≤ 10 ^ (-330 : Int) := zpow_le_zpow_right₀ (by norm_num) (by omega)
          _ < 2 ^ (-1075 : Int) := zpow_ten_lt_zpow_two
      apply h0
      rw [← nearestMagnitude_shortest hx, nearestMagnitude_of_lt (toRat_nonneg _) hsmall]

/-- **Scaling the decimal that was written is what reading a number does**: all its digits count. -/
theorem reread?_eq_scaled (hx : x.isFinite = true) :
    reread? x = (ofDecimal? (written (shortest layout.tie x))).map (signed (isNegative x)) :=
  reread?_eq hx ((digits_written_le hx).trans_lt (by decide))

theorem signed_ofMagnitude {s : Bool} (hm : m ≤ infiniteMagnitude) :
    signed s (ofMagnitude false m) = ofMagnitude s m := by
  cases s with
  | false => rfl
  | true =>
    rw [signed, if_pos rfl, neg_eq, isNegative_ofMagnitude hm, magnitude_ofMagnitude hm]
    rfl

/-! ### Near numbers -/

/-- A finite double of the same sign as another one, off by one part in `2 ^ 49` of it and eight times the
least double at most. -/
structure Near (x y : Float) : Prop where
  isFinite : y.isFinite = true
  isNegative : isNegative y = isNegative x
  dist : |valueOf (magnitude y) - valueOf (magnitude x)| ≤
    2 ^ (-49 : Int) * valueOf (magnitude x) + 2 ^ (-1071 : Int)

/-- The errors of writing and of reading add up. -/
theorem Close.trans_nearest {v r d : Rat} (hv : Close 7 v d) (hr : Close 1 r d) (hr0 : 0 ≤ r) (hd : 0 ≤ d) :
    |v - r| ≤ 2 ^ (-49 : Int) * r + 2 ^ (-1071 : Int) := by
  obtain ⟨u, hu⟩ : ∃ u : Rat, 2 ^ (-53 : Int) = u := ⟨_, rfl⟩
  obtain ⟨t, ht⟩ : ∃ t : Rat, 2 ^ (-1075 : Int) = t := ⟨_, rfl⟩
  have hu0 : 0 ≤ u := hu ▸ by positivity
  have ht0 : 0 ≤ t := ht ▸ by positivity
  have husmall : 1000 * u ≤ 1 := hu ▸ by norm_num
  have hu16 : (2 : Rat) ^ (-49 : Int) = 16 * u := hu ▸ by norm_num
  have ht16 : (2 : Rat) ^ (-1071 : Int) = 16 * t := by
    have h16 : (16 : Rat) = 2 ^ (4 : Int) := rfl
    rw [← ht, h16, ← zpow_add₀ two_ne_zero]
    rfl
  rw [Close, hu, ht, Nat.cast_one, one_mul] at hr
  rw [Close, hu, ht, Nat.cast_ofNat] at hv
  rw [hu16, ht16]
  have hsum : |v - r| ≤ 8 * (u * d + t) := by
    have htri := abs_sub_le v d r
    rw [abs_sub_comm d r] at htri
    linarith
  have hd' : d ≤ 2 * (r + t) := by
    have hlow := (abs_le.mp hr).1
    have hud : 1000 * (u * d) ≤ d := by
      rw [← mul_assoc]
      exact mul_le_of_le_one_left hd husmall
    linarith
  have hud : u * d ≤ u * (2 * (r + t)) := mul_le_mul_of_nonneg_left hd' hu0
  have hut : 1000 * (u * t) ≤ t := by
    rw [← mul_assoc]
    exact mul_le_of_le_one_left ht0 husmall
  linarith

/-- **The text of every finite double is read as a double near to it.** -/
theorem exists_near_of_isFinite (hx : x.isFinite = true) : ∃ y, reread? x = some y ∧ Near x y := by
  have hd0 := (shortest layout.tie x).toRat_nonneg
  obtain ⟨m, hm, hread, hclose⟩ := ofDecimal?_close (digits_written_le hx) (le_exponent_written hx)
    ((toRat_written _).trans_le (toRat_shortest_le hx))
  rw [toRat_written] at hclose
  have hshort : Close 1 (valueOf (magnitude x)) (shortest layout.tie x).toRat := by
    have hlt : nearestMagnitude (shortest layout.tie x).toRat < infiniteMagnitude := by
      rw [nearestMagnitude_shortest hx]
      exact isFinite_iff.mp hx
    have hnearest := close_nearest hd0 hlt
    rwa [nearestMagnitude_shortest hx] at hnearest
  refine ⟨ofMagnitude (isNegative x) m, ?_, isFinite_ofMagnitude hm, isNegative_ofMagnitude hm.le, ?_⟩
  · rw [reread?_eq_scaled hx, hread, Option.map_some, signed_ofMagnitude hm.le]
  · rw [magnitude_ofMagnitude hm.le]
    exact hclose.trans_nearest hshort (valueOf_nonneg _) hd0

theorem near_of_reread? (h : reread? x = some y) : Near x y := by
  obtain ⟨y', hy', hnear⟩ := exists_near_of_isFinite (isFinite_of_reread? h)
  cases h.symm.trans hy'
  exact hnear

/-! ### Numbers of few digits -/

/-- The digits that are written are a double, and so is the power of ten that they are scaled by. -/
def IsShort (x : Float) : Prop :=
  x.isFinite = true ∧ (written (shortest layout.tie x)).digits < 2 ^ 53 ∧
    (written (shortest layout.tie x)).exponent.natAbs ≤ 22

instance : DecidablePred IsShort := fun _ => inferInstanceAs (Decidable (_ ∧ _))

/-- **A double of few digits is read back as it is.** -/
theorem reread?_of_isShort (h : IsShort x) : reread? x = some x := by
  obtain ⟨hx, hd, he⟩ := h
  have hm := isFinite_iff.mp hx
  have hvalue : nearestMagnitude (written (shortest layout.tie x)).toRat = magnitude x := by
    rw [toRat_written, nearestMagnitude_shortest hx]
  rw [reread?_eq_scaled hx, ofDecimal?_eq_nearest hd he (hvalue.trans_lt hm), nearest, hvalue, Option.map_some,
    signed_ofMagnitude hm.le, ofMagnitude_isNegative_magnitude]

end Cutflow.Json
