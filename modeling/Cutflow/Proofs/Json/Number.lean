import Cutflow.Proofs.Decimal.Layout
import Cutflow.Proofs.Json.Object

/-!
# Reading numbers back

A number in JSON is read as the digits that count scaled by a power of ten, in the arithmetic of doubles.
What is read off the text of a double is so fixed by the shortest digits of the double, and it is the same
wherever the text stands.

## What is proved

* `number?_write`: the text of a finite double is read over its whole length, as `reread?` says.
* `reread?_eq`: up to the sign, this is the scaling of the decimal that was written (`written`), as long as
  all digits of it count.
-/

open Cutflow.Decimal Cutflow.Token

namespace Cutflow.Json

variable {c : Char} {cs ds fs es rest : List Char} {d : Decimal} {p : Int} {x y : Float} {s : Nat}

/-! ### The parts of a number -/

/-- The whole part of a number: digits, of which the first is no zero if there are others. -/
structure IsWhole (ds : List Char) : Prop where
  ne_nil : ds ≠ []
  isDigit : ∀ c ∈ ds, c.isDigit = true
  head : ds.head? = some '0' → ds = ['0']

/-- An exponent for this power of ten, or none for the power zero. -/
structure IsExponent (es : List Char) (p : Int) : Prop where
  part : exponentPart es = some (p, es.length)
  head : ∀ c ∈ es.head?, c = 'e'

/-- What may stand behind a number. -/
def Ended (rest : List Char) : Prop := ∀ c ∈ rest.head?, continuesNumber c = false

theorem Ended.nil : Ended [] := by
  rintro c ⟨⟩

theorem Separated.ended (h : Separated rest) : Ended rest := by
  intro c hc
  rcases h c hc with rfl | rfl | rfl <;> rfl

theorem IsExponent.nil : IsExponent [] 0 := ⟨rfl, by simp⟩

theorem isExponent_exponentChars (plus : Bool) (p : Int) : IsExponent ('e' :: exponentChars plus p) p :=
  ⟨exponentPart_exponentChars plus p, by simp⟩

/-- What begins behind the digits of a number: the exponent or what follows the number. -/
theorem IsExponent.head?_append (he : IsExponent es p) (hr : Ended rest) :
    ∀ c ∈ (es ++ rest).head?, c.isDigit = false ∧ c ≠ '.' := by
  intro c hc
  cases es with
  | nil => exact ⟨isDigit_of_not_continues (hr c hc), ne_of_not_continues (hr c hc) rfl⟩
  | cons e es =>
    have he : e = 'e' := he.head e rfl
    obtain rfl : e = c := by simpa using hc
    rw [he]
    exact ⟨rfl, by decide⟩

theorem IsExponent.part_append (he : IsExponent es p) (hr : Ended rest) :
    exponentPart (es ++ rest) = some (p, es.length) := by
  have hreplaces : ReplacesNumber (es.drop es.length) rest := fun c hc => .inr (hr c hc)
  have h := exponentPart_take_append he.part hreplaces
  rwa [List.take_length] at h

theorem wholeDigits_append (h : IsWhole ds) (hr : ∀ c ∈ rest.head?, c.isDigit = false) :
    wholeDigits (ds ++ rest) = ds := by
  obtain ⟨c, cs, rfl⟩ := List.exists_cons_of_ne_nil h.ne_nil
  by_cases hc : c = '0'
  · subst hc
    rw [h.head rfl]
    rfl
  · have hdigits : wholeDigits (c :: cs ++ rest) = (c :: cs ++ rest).takeWhile Char.isDigit := by
      rw [wholeDigits]
      rintro cs' ⟨⟩
      exact hc rfl
    rw [hdigits, takeWhile_digits h.isDigit hr]

/-! ### Unsigned numbers -/

/-- The spelling of an unsigned number, and the decimal that counts for it. -/
inductive Spells : List Char → Decimal → Prop where
  /-- Digits without a point. -/
  | whole {ds es : List Char} {p : Int} : IsWhole ds → IsExponent es p → Spells (ds ++ es) (kept ds [] p)
  /-- Digits before and behind a point. -/
  | point {ds fs es : List Char} {p : Int} : IsWhole ds → fs ≠ [] → (∀ c ∈ fs, c.isDigit = true) →
      IsExponent es p → Spells (ds ++ '.' :: (fs ++ es)) (kept ds fs p)

theorem unsignedNumber?_of_parts {n k : Nat} (hd : wholeDigits cs = ds) (hne : ds ≠ [])
    (hf : fractionPart (cs.drop ds.length) = (fs, rest, n)) (hn : n ≠ 1) (he : exponentPart rest = some (p, k)) :
    unsignedNumber? cs = (ofDecimal? (kept ds fs p)).map fun x => (x, ds.length + n + k) := by
  have hempty : ds.isEmpty = false := by simpa using hne
  have hcond : (ds.isEmpty || decide (n = 1)) = false := by simp [hempty, hn]
  simp only [unsignedNumber?, hd, hf, he, hcond, Option.bind_eq_bind, Option.bind_some]
  cases ofDecimal? (kept ds fs p) <;> rfl

theorem unsignedNumber?_whole (hd : IsWhole ds) (he : IsExponent es p) (hr : Ended rest) :
    unsignedNumber? (ds ++ es ++ rest) = (ofDecimal? (kept ds [] p)).map fun x => (x, (ds ++ es).length) := by
  have hhead := he.head?_append hr
  have hfrac : fractionPart ((ds ++ (es ++ rest)).drop ds.length) = ([], es ++ rest, 0) := by
    rw [List.drop_left, fractionPart_of_ne fun c hc => (hhead c hc).2]
  rw [List.append_assoc, List.length_append]
  exact unsignedNumber?_of_parts (wholeDigits_append hd fun c hc => (hhead c hc).1) hd.ne_nil hfrac
    Nat.zero_ne_one (he.part_append hr)

theorem unsignedNumber?_point (hd : IsWhole ds) (hne : fs ≠ []) (hf : ∀ c ∈ fs, c.isDigit = true)
    (he : IsExponent es p) (hr : Ended rest) : unsignedNumber? (ds ++ '.' :: (fs ++ es) ++ rest) =
      (ofDecimal? (kept ds fs p)).map fun x => (x, (ds ++ '.' :: (fs ++ es)).length) := by
  have hhead := he.head?_append hr
  have hpoint : ∀ c ∈ ('.' :: (fs ++ (es ++ rest))).head?, c.isDigit = false := by
    rintro c ⟨⟩
    rfl
  have hfrac : fractionPart ((ds ++ '.' :: (fs ++ (es ++ rest))).drop ds.length) =
      (fs, es ++ rest, fs.length + 1) := by
    rw [List.drop_left]
    simp only [fractionPart, takeWhile_digits hf fun c hc => (hhead c hc).1,
      dropWhile_digits hf fun c hc => (hhead c hc).1]
  have hlen : (ds ++ '.' :: (fs ++ es)).length = ds.length + (fs.length + 1) + es.length := by
    rw [List.length_append, List.length_cons, List.length_append]
    omega
  rw [List.append_assoc, List.cons_append, List.append_assoc, hlen]
  exact unsignedNumber?_of_parts (wholeDigits_append hd hpoint) hd.ne_nil hfrac (by simpa using hne)
    (he.part_append hr)

theorem unsignedNumber?_of_spells (h : Spells cs d) (hr : Ended rest) :
    unsignedNumber? (cs ++ rest) = (ofDecimal? d).map fun x => (x, cs.length) := by
  cases h with
  | whole hd he => exact unsignedNumber?_whole hd he hr
  | point hd hne hf he => exact unsignedNumber?_point hd hne hf he hr

/-! ### The digits that count -/

theorem gather_of_lt (h : Nat.ofDigitChars 10 cs s < significandBound) :
    gather s cs = (Nat.ofDigitChars 10 cs s, []) := by
  induction cs generalizing s with
  | nil => rfl
  | cons c cs ih =>
    have hstep : Nat.ofDigitChars 10 (c :: cs) s = Nat.ofDigitChars 10 cs (Nat.ofDigitChars 10 [c] s) := by
      rw [← List.singleton_append, Nat.ofDigitChars_append]
    have hle : Nat.ofDigitChars 10 [c] s ≤ Nat.ofDigitChars 10 (c :: cs) s := by
      rw [hstep, Nat.ofDigitChars_eq_ofDigitChars_zero (l := cs)]
      exact le_add_right (Nat.le_mul_of_pos_left _ (by positivity))
    rw [gather, if_pos (hle.trans_lt h), ih (hstep ▸ h), hstep]

/-- Nothing is left out below the bound. -/
theorem kept_eq_ofParts (h : (ofParts ds fs p).digits < significandBound) : kept ds fs p = ofParts ds fs p := by
  have happend : (ofParts ds fs p).digits = Nat.ofDigitChars 10 fs (Nat.ofDigitChars 10 ds 0) :=
    Nat.ofDigitChars_append 0
  have hds : Nat.ofDigitChars 10 ds 0 ≤ (ofParts ds fs p).digits := by
    rw [happend, Nat.ofDigitChars_eq_ofDigitChars_zero (l := fs)]
    exact le_add_right (Nat.le_mul_of_pos_left _ (by positivity))
  have hfs : gather (Nat.ofDigitChars 10 ds 0) fs = (Nat.ofDigitChars 10 fs (Nat.ofDigitChars 10 ds 0), []) :=
    gather_of_lt (happend ▸ h)
  simp only [kept, gather_of_lt (hds.trans_lt h), hfs, ofParts, Nat.ofDigitChars_append, List.length_nil,
    Nat.cast_zero, add_zero]

/-! ### The numbers that are written -/

/-- The decimal that the text of a decimal spells out: a whole number without an exponent is written with
one more digit, behind the point. -/
def written (d : Decimal) : Decimal :=
  if layout.positional d.leading ∧ 0 ≤ d.exponent then ⟨d.digits * 10 ^ (d.exponent.toNat + 1), -1⟩ else d

theorem toRat_written (d : Decimal) : (written d).toRat = d.toRat := by
  rw [written]
  split
  next h =>
    obtain ⟨k, hk⟩ := Int.eq_ofNat_of_zero_le h.2
    rw [toRat, toRat, hk, Int.toNat_natCast, zpow_natCast, zpow_neg_one]
    push_cast
    ring
  next => rfl

theorem IsWhole.singleton (hc : c.isDigit = true) : IsWhole [c] :=
  ⟨List.cons_ne_nil c [], by simpa using hc, fun h => by rw [Option.some.inj h]⟩

/-- Zeros behind the digits of a whole number. -/
theorem isWhole_digitChars_append (k : Nat) (h : d.digits = 0 → k = 0) :
    IsWhole (d.digitChars ++ List.replicate k '0') := by
  by_cases h0 : d.digits = 0
  · rw [h h0, digitChars, h0]
    exact .singleton rfl
  · obtain ⟨c, cs, hd, -, -⟩ := d.exists_cons_digitChars
    have hhead : d.digitChars.head? ≠ some '0' := head?_toDigits_ne h0
    refine ⟨by simp [hd], fun c hc => ?_, fun h => absurd ?_ hhead⟩
    · exact (List.mem_append.mp hc).elim (d.isDigit_digitChars c) (isDigit_replicate k c)
    · rwa [hd, List.cons_append, List.head?_cons, ← List.head?_cons, ← hd] at h

/-- What stands before the point of a number that is no whole number. -/
theorem isWhole_take {places : Nat} (h0 : d.digits ≠ 0)
    (hds : List.replicate (places + 1 - d.digitChars.length) '0' ++ d.digitChars = ds) :
    IsWhole (ds.take (ds.length - places)) := by
  rcases Nat.lt_or_ge places d.digitChars.length with hlt | hge
  · rw [Nat.sub_eq_zero_of_le hlt, List.replicate_zero, List.nil_append] at hds
    have htake : ds.length - places ≠ 0 := by
      rw [← hds]
      omega
    have hhead : ds.head? ≠ some '0' := hds ▸ head?_toDigits_ne h0
    refine ⟨?_, fun c hc => d.isDigit_digitChars c (hds ▸ List.mem_of_mem_take hc), fun h => absurd ?_ hhead⟩
    · rw [ne_eq, List.take_eq_nil_iff, not_or]
      exact ⟨htake, hds ▸ Nat.toDigits_ne_nil⟩
    · rwa [List.head?_take, if_neg htake] at h
  · -- the first of the zeros in front is all there is before the point
    have hlen : ds.length - places = 1 := by
      rw [← hds, List.length_append, List.length_replicate]
      omega
    have hpad : places + 1 - d.digitChars.length = (places - d.digitChars.length) + 1 := by omega
    rw [hlen, ← hds, hpad]
    exact .singleton rfl

theorem spells_scientific (plus : Bool) (d : Decimal) :
    ∃ ds fs p, Spells (scientificChars plus d) (kept ds fs p) ∧ ofParts ds fs p = d := by
  obtain ⟨c, cs, hd, hc, hcs⟩ := d.exists_cons_digitChars
  have hparts : ofParts [c] cs d.leading = d := by
    have hv : Nat.ofDigitChars 10 (c :: cs) 0 = d.digits := hd ▸ d.ofDigitChars_digitChars
    have hl : d.leading - cs.length = d.exponent := by
      rw [leading, hd, List.length_cons]
      omega
    rw [ofParts, List.singleton_append, hv, hl]
  have hexp := isExponent_exponentChars plus d.leading
  rw [scientificChars, hd]
  refine ⟨[c], cs, d.leading, ?_, hparts⟩
  cases cs with
  | nil => exact .whole (.singleton hc) hexp
  | cons c' cs => exact .point (.singleton hc) (List.cons_ne_nil c' cs) hcs hexp

theorem spells_positional_whole {k : Nat} (he : d.exponent = k) (h : d.digits = 0 → k = 0) :
    ∃ ds fs p, Spells (positionalChars true d) (kept ds fs p) ∧ ofParts ds fs p = ⟨d.digits * 10 ^ (k + 1), -1⟩ := by
  have htext : positionalChars true d = d.digitChars ++ List.replicate k '0' ++ '.' :: (['0'] ++ []) := by
    rw [positionalChars, he, if_pos (Int.natCast_nonneg k), Int.toNat_natCast]
    rfl
  have hv : Nat.ofDigitChars 10 (d.digitChars ++ List.replicate k '0' ++ ['0']) 0 = d.digits * 10 ^ (k + 1) := by
    rw [Nat.ofDigitChars_append, Nat.ofDigitChars_append, ofDigitChars_digitChars, Nat.ofDigitChars_replicate_zero,
      Nat.ofDigitChars_cons, Nat.ofDigitChars_nil, pow_succ]
    show 10 * (10 ^ k * d.digits) + 0 = _
    ring
  rw [htext]
  refine ⟨_, _, _, .point (isWhole_digitChars_append k h) (List.cons_ne_nil _ _) (by simp) .nil, ?_⟩
  rw [ofParts, hv]
  rfl

theorem spells_positional_point (he : ¬ 0 ≤ d.exponent) (h0 : d.digits ≠ 0) (point : Bool) :
    ∃ ds fs p, Spells (positionalChars point d) (kept ds fs p) ∧ ofParts ds fs p = d := by
  obtain ⟨places, hp⟩ : ∃ places : Nat, d.exponent = -places := ⟨(-d.exponent).toNat, by omega⟩
  obtain ⟨ds, hds⟩ : ∃ ds, List.replicate (places + 1 - d.digitChars.length) '0' ++ d.digitChars = ds := ⟨_, rfl⟩
  have hlen : places < ds.length := by
    rw [← hds, List.length_append, List.length_replicate]
    omega
  have hdigits : ∀ c ∈ ds, c.isDigit = true := by
    rw [← hds]
    exact fun c hc => (List.mem_append.mp hc).elim (isDigit_replicate _ c) (d.isDigit_digitChars c)
  have hv : Nat.ofDigitChars 10 ds 0 = d.digits := by
    rw [← hds, Nat.ofDigitChars_append, Nat.ofDigitChars_replicate_zero, Nat.mul_zero, ofDigitChars_digitChars]
  have hparts : ofParts (ds.take (ds.length - places)) (ds.drop (ds.length - places)) 0 = d := by
    rw [ofParts, List.take_append_drop, hv, List.length_drop, Nat.sub_sub_self hlen.le, zero_sub, ← hp]
  have htext : positionalChars point d =
      ds.take (ds.length - places) ++ '.' :: (ds.drop (ds.length - places) ++ []) := by
    rw [positionalChars, if_neg he, hp, neg_neg, Int.toNat_natCast, ← hds, List.append_nil]
  have hne : ds.drop (ds.length - places) ≠ [] := by
    rw [ne_eq, List.drop_eq_nil_iff]
    omega
  rw [htext]
  exact ⟨_, _, _, .point (isWhole_take h0 hds) hne (fun c hc => hdigits c (List.mem_of_mem_drop hc)) .nil, hparts⟩

/-- The text of a decimal spells out its digits. -/
theorem spells_chars (h : d.digits = 0 → d.exponent = 0) :
    ∃ ds fs p, Spells (layout.chars d) (kept ds fs p) ∧ ofParts ds fs p = written d := by
  rw [Layout.chars, written]
  cases hpos : layout.positional d.leading with
  | false =>
    rw [if_neg Bool.false_ne_true, if_neg fun hn => Bool.false_ne_true hn.1]
    exact spells_scientific layout.exponentPlus d
  | true =>
    rw [if_pos rfl]
    by_cases he : 0 ≤ d.exponent
    · obtain ⟨k, hk⟩ := Int.eq_ofNat_of_zero_le he
      have hzero : d.digits = 0 → k = 0 := fun h0 => Int.natCast_eq_zero.mp (hk ▸ h h0)
      rw [if_pos (And.intro rfl he), hk, Int.toNat_natCast]
      exact spells_positional_whole hk hzero
    · rw [if_neg fun hn => he hn.2]
      exact spells_positional_point he (fun h0 => he (h h0).ge) layout.wholePoint

/-! ### The text of a double -/

/-- What the text of a double is read as. -/
def reread? (x : Float) : Option Float := (number? (layout.write x).toList).map (·.1)

/-- The text of a double, without its sign, spells out its shortest digits. -/
theorem spells_shortest (h : x.isFinite = true) : ∃ ds fs p,
    Spells (layout.chars (shortest layout.tie x)) (kept ds fs p) ∧
      ofParts ds fs p = written (shortest layout.tie x) := by
  refine spells_chars fun h0 => ?_
  rw [shortest_of_magnitude_eq_zero layout.tie (magnitude_of_digits_shortest h h0)]

/-- The number with a sign in front of it. -/
def signed (negative : Bool) (x : Float) : Float := if negative then -x else x

theorem Spells.exists_cons (h : Spells cs d) : ∃ c rest, cs = c :: rest ∧ c.isDigit = true := by
  cases h with
  | whole hd he | point hd hne hf he =>
    obtain ⟨c, ds, rfl⟩ := List.exists_cons_of_ne_nil hd.ne_nil
    exact ⟨c, _, rfl, hd.isDigit c List.mem_cons_self⟩

theorem number?_of_spells (h : Spells cs d) (hr : Ended rest) (negative : Bool) :
    number? ((if negative then ['-'] else []) ++ cs ++ rest) = (ofDecimal? d).map fun x =>
      (signed negative x, ((if negative then ['-'] else []) ++ cs).length) := by
  have hu := unsignedNumber?_of_spells h hr
  cases negative with
  | true =>
    show (unsignedNumber? (cs ++ rest)).map _ = _
    rw [hu, Option.map_map]
    rfl
  | false =>
    obtain ⟨c, cs', rfl, hc⟩ := h.exists_cons
    have hnumber : number? (c :: cs' ++ rest) = unsignedNumber? (c :: cs' ++ rest) := by
      rw [number?]
      rintro _ ⟨⟩
      cases hc
    rw [if_neg Bool.false_ne_true, List.nil_append, hnumber, hu]
    rfl

/-- **The text of a finite double is read over its whole length**, wherever it stands. -/
theorem number?_write (h : x.isFinite = true) (hr : Ended rest) :
    number? ((layout.write x).toList ++ rest) = (reread? x).map fun y => (y, (layout.write x).toList.length) := by
  obtain ⟨ds, fs, p, hs, -⟩ := spells_shortest h
  have halone := number?_of_spells hs .nil (Number.isNegative x)
  rw [List.append_nil] at halone
  rw [reread?, layout.toList_write h, number?_of_spells hs hr, halone, Option.map_map, Option.map_map]
  rfl

/-- **Scaling the decimal that was written gives the number back**, up to its sign. -/
theorem reread?_eq (h : x.isFinite = true) (hd : (written (shortest layout.tie x)).digits < significandBound) :
    reread? x = (ofDecimal? (written (shortest layout.tie x))).map (signed (Number.isNegative x)) := by
  obtain ⟨ds, fs, p, hs, hparts⟩ := spells_shortest h
  have halone := number?_of_spells hs .nil (Number.isNegative x)
  rw [List.append_nil] at halone
  rw [reread?, layout.toList_write h, halone, Option.map_map, kept_eq_ofParts (hparts ▸ hd), hparts]
  rfl

/-! ### The token of a number -/

theorem write_of_not_finite (h : x.isFinite = false) : layout.write x = "null" := by
  rw [Layout.write]
  cases hn : x.isNaN with
  | true => rfl
  | false =>
    have hi : x.isInf = true := by
      rw [← Bool.not_eq_true, Number.isFinite_iff, Nat.not_lt] at h
      rw [← Bool.not_eq_true, Number.isNaN_iff, Nat.not_lt] at hn
      exact Number.isInf_iff.mpr (Nat.le_antisymm hn h)
    rw [hi, if_neg Bool.false_ne_true, if_pos rfl]
    exact ite_self "null"

/-- Only finite numbers are read as numbers. -/
theorem reread?_of_not_finite (h : x.isFinite = false) : reread? x = none := by
  rw [reread?, write_of_not_finite h]
  rfl

theorem isFinite_of_reread? (h : reread? x = some y) : x.isFinite = true := by
  by_contra hx
  rw [reread?_of_not_finite (Bool.eq_false_iff.mpr hx)] at h
  cases h

theorem token?_of_number (hc : c = '-' ∨ c.isDigit = true) :
    token? c cs = (number? (c :: cs)).map fun (x, n) => (.number x, n - 1) := by
  rcases hc with rfl | hc
  · rfl
  · unfold token?
    split <;> first | rfl | cases hc

theorem not_isGap_of_number (hc : c = '-' ∨ c.isDigit = true) : isGap c = false := by
  rcases hc with rfl | hc
  · rfl
  · rw [← Bool.not_eq_true]
    simp only [isGap, Bool.or_eq_true, decide_eq_true_eq]
    rintro (((rfl | rfl) | rfl) | rfl) <;> cases hc

theorem exists_cons_write (h : x.isFinite = true) :
    ∃ c cs, (layout.write x).toList = c :: cs ∧ (c = '-' ∨ c.isDigit = true) := by
  obtain ⟨ds, fs, p, hs, -⟩ := spells_shortest h
  obtain ⟨c, cs, hcs, hc⟩ := hs.exists_cons
  rw [layout.toList_write h, hcs]
  cases Number.isNegative x with
  | true => exact ⟨'-', c :: cs, rfl, .inl rfl⟩
  | false => exact ⟨c, cs, rfl, .inr hc⟩

theorem tokens_write (hy : reread? x = some y) (hr : Separated rest) :
    tokens ((layout.write x).toList ++ rest) = .number y :: tokens rest := by
  have hx := isFinite_of_reread? hy
  obtain ⟨c, cs, hcs, hc⟩ := exists_cons_write hx
  have hnumber := number?_write hx hr.ended
  rw [hcs, hy] at hnumber
  have htoken : token? c (cs ++ rest) = some (.number y, cs.length) := by
    rw [token?_of_number hc, ← List.cons_append, hnumber]
    rfl
  rw [hcs, List.cons_append, tokens_of_token? (not_isGap_of_number hc) htoken, List.drop_left]

/-- What is not read as a number is a token that is not one. -/
theorem tokens_write_none (hx : reread? x = none) (hr : Separated rest) :
    ∃ t ts, tokens ((layout.write x).toList ++ rest) = t :: ts ∧ (t = .null ∨ t = .invalid) := by
  cases hfinite : x.isFinite with
  | true =>
    obtain ⟨c, cs, hcs, hc⟩ := exists_cons_write hfinite
    have hnumber := number?_write hfinite hr.ended
    rw [hcs, hx] at hnumber
    have htoken : token? c (cs ++ rest) = none := by
      rw [token?_of_number hc, ← List.cons_append, hnumber]
      rfl
    have hnext : next? (c :: (cs ++ rest)) = some (.invalid, []) := by
      rw [next?, if_neg (by simp [not_isGap_of_number hc]), htoken]
    rw [hcs, List.cons_append, tokens_of_next? hnext]
    exact ⟨_, _, rfl, .inr rfl⟩
  | false =>
    have htoken : token? 'n' ("ull".toList ++ rest) = some (.null, 3) := rfl
    rw [write_of_not_finite hfinite]
    exact ⟨_, _, tokens_of_token? rfl htoken, .inl rfl⟩

end Cutflow.Json
