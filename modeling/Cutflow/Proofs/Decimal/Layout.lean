import Cutflow.Proofs.Decimal.ReadBack
import Cutflow.Proofs.Token.Number
import Cutflow.Decimal

/-!
# Written numbers

What a layout writes for a decimal is a number in the sense of the lexer, over its whole length, and
it has the value of the decimal. The layouts may differ in where they put the point and in whether
they write an exponent; none of that changes the value.

## What is proved

* `Layout.number_chars`: the text of a decimal is a number of the same value.
* `Layout.exists_cons_chars`: this text begins with a digit.
-/

namespace Cutflow.Decimal

open Token

variable {cs ds rest : List Char}

/-! ### Digits -/

theorem takeWhile_digits (h : ∀ c ∈ ds, c.isDigit = true) (hr : ∀ c ∈ rest.head?, c.isDigit = false) :
    (ds ++ rest).takeWhile Char.isDigit = ds := by
  rw [takeWhile_append_of_head hr, List.takeWhile_eq_self_iff.mpr h]

theorem dropWhile_digits (h : ∀ c ∈ ds, c.isDigit = true) (hr : ∀ c ∈ rest.head?, c.isDigit = false) :
    (ds ++ rest).dropWhile Char.isDigit = rest := by
  rw [dropWhile_append_of_head hr, List.dropWhile_eq_nil_iff.mpr h, List.nil_append]

theorem isDigit_toDigits (n : Nat) : ∀ c ∈ Nat.toDigits 10 n, c.isDigit = true :=
  fun _ hc => Nat.isDigit_of_mem_toDigits (by decide) (by decide) hc

theorem isDigit_digitChars (d : Decimal) : ∀ c ∈ d.digitChars, c.isDigit = true :=
  isDigit_toDigits d.digits

theorem isDigit_replicate (n : Nat) : ∀ c ∈ List.replicate n '0', c.isDigit = true := by
  intro c hc
  rw [List.eq_of_mem_replicate hc]
  rfl

theorem head?_toDigits_ne {n : Nat} (h : n ≠ 0) : (Nat.toDigits 10 n).head? ≠ some '0' := by
  induction n using Nat.strongRecOn with
  | ind n ih =>
    rcases Nat.lt_or_ge n 10 with hlt | hge
    · rw [Nat.toDigits_of_lt_base hlt, List.head?_cons, ne_eq, Option.some.injEq, Nat.digitChar_eq_zero]
      exact h
    · have hpos : n / 10 ≠ 0 := Nat.ne_of_gt (Nat.div_pos hge (by decide))
      have hhead := ih _ (Nat.div_lt_self (Nat.pos_of_ne_zero h) (by decide)) hpos
      obtain ⟨c, cs, hc⟩ := List.exists_cons_of_ne_nil (Nat.toDigits_ne_nil (n := n / 10) (b := 10))
      rw [Nat.toDigits_of_base_le (by decide) hge, hc, List.cons_append, List.head?_cons]
      rwa [hc, List.head?_cons] at hhead

theorem ofDigitChars_digitChars (d : Decimal) : Nat.ofDigitChars 10 d.digitChars 0 = d.digits :=
  Nat.ofDigitChars_toDigits (by decide) (by decide)

/-! ### Parts of a number -/

/-- Digits without a point, before an exponent or nothing. -/
theorem number_whole {p : Int} (rest : List Char) (h : ∀ c ∈ ds, c.isDigit = true)
    (hr : ∀ c ∈ rest.head?, c.isDigit = false ∧ c ≠ '.')
    (hp : exponentPart rest = some (p, rest.length)) :
    number (ds ++ rest) = .ok (ofParts ds [] p, (ds ++ rest).length) := by
  have hf := fractionPart_of_ne fun c hc => (hr c hc).2
  refine number_eq_ok.mpr ⟨p, rest.length, ?_⟩
  rw [takeWhile_digits h fun c hc => (hr c hc).1, dropWhile_digits h fun c hc => (hr c hc).1, hf]
  exact ⟨hp, rfl, List.length_append⟩

/-- Digits with a point, before an exponent or nothing. -/
theorem number_point {fs : List Char} {p : Int} (rest : List Char) (h : ∀ c ∈ ds, c.isDigit = true)
    (hf : ∀ c ∈ fs, c.isDigit = true) (hr : ∀ c ∈ rest.head?, c.isDigit = false)
    (hp : exponentPart rest = some (p, rest.length)) :
    number (ds ++ '.' :: (fs ++ rest)) =
      .ok (ofParts ds fs p, (ds ++ '.' :: (fs ++ rest)).length) := by
  have hpoint : ∀ c ∈ ('.' :: (fs ++ rest)).head?, c.isDigit = false := by
    rintro c ⟨⟩
    rfl
  have hfrac : fractionPart ('.' :: (fs ++ rest)) = (fs, rest, fs.length + 1) := by
    simp only [fractionPart, takeWhile_digits hf hr, dropWhile_digits hf hr]
  refine number_eq_ok.mpr ⟨p, rest.length, ?_⟩
  rw [takeWhile_digits h hpoint, dropWhile_digits h hpoint, hfrac]
  refine ⟨hp, rfl, ?_⟩
  show _ = ds.length + (fs.length + 1) + rest.length
  rw [List.length_append, List.length_cons, List.length_append]
  omega

/-- The sign of a written exponent. -/
theorem exponentSign_exponentChars (plus : Bool) (e : Int) :
    exponentSign (exponentChars plus e) = (decide (e < 0), Nat.toDigits 10 e.natAbs,
      (exponentChars plus e).length - (Nat.toDigits 10 e.natAbs).length) := by
  by_cases he : e < 0
  · simp [exponentChars, exponentSign, he]
  · cases plus with
    | true => simp [exponentChars, exponentSign, he]
    | false =>
      have hc : exponentChars false e = Nat.toDigits 10 e.natAbs := by simp [exponentChars, he]
      rw [hc, exponentSign_of_ne, Nat.sub_self, decide_eq_false he]
      intro c hc
      have hd := isDigit_toDigits e.natAbs c (List.mem_of_mem_head? hc)
      constructor <;>
      · rintro rfl
        cases hd

theorem length_toDigits_le_exponentChars (plus : Bool) (e : Int) :
    (Nat.toDigits 10 e.natAbs).length ≤ (exponentChars plus e).length := by
  rw [exponentChars, List.length_append]
  exact Nat.le_add_left _ _

theorem exponentPart_exponentChars (plus : Bool) (e : Int) :
    exponentPart ('e' :: exponentChars plus e) = some (e, (exponentChars plus e).length + 1) := by
  have hl := length_toDigits_le_exponentChars plus e
  have ht : (Nat.toDigits 10 e.natAbs).takeWhile Char.isDigit = Nat.toDigits 10 e.natAbs :=
    List.takeWhile_eq_self_iff.mpr (isDigit_toDigits e.natAbs)
  have hv : Nat.ofDigitChars 10 (Nat.toDigits 10 e.natAbs) 0 = e.natAbs :=
    Nat.ofDigitChars_toDigits (by decide) (by decide)
  have hn : (Nat.toDigits 10 e.natAbs).isEmpty = false := by simp
  have he : (if decide (e < 0) then -((e.natAbs : Nat) : Int) else (e.natAbs : Nat)) = e := by
    by_cases h : e < 0
    · rw [decide_eq_true h, if_pos rfl]
      omega
    · rw [decide_eq_false h, if_neg (by simp)]
      omega
  simp only [exponentPart, exponentSign_exponentChars, ht, hv, hn, he]
  simp
  omega

/-! ### Layouts -/

theorem exists_cons_digitChars (d : Decimal) :
    ∃ c cs, d.digitChars = c :: cs ∧ c.isDigit = true ∧ ∀ x ∈ cs, x.isDigit = true := by
  obtain ⟨c, cs, h⟩ := List.exists_cons_of_ne_nil (Nat.toDigits_ne_nil (n := d.digits) (b := 10))
  have hd : ∀ x ∈ c :: cs, x.isDigit = true := h ▸ d.isDigit_digitChars
  exact ⟨c, cs, h, hd c List.mem_cons_self, fun x hx => hd x (List.mem_cons_of_mem c hx)⟩

/-- Digits and zeros up to the point. -/
theorem number_positional_whole (d : Decimal) (h : 0 ≤ d.exponent) (point : Bool) :
    ∃ d', number (positionalChars point d) = .ok (d', (positionalChars point d).length) ∧
      d'.toRat = d.toRat := by
  obtain ⟨k, hk⟩ := Int.eq_ofNat_of_zero_le h
  have hd : ∀ c ∈ d.digitChars ++ List.replicate k '0', c.isDigit = true := by
    intro c hc
    exact (List.mem_append.mp hc).elim (d.isDigit_digitChars c) (isDigit_replicate k c)
  have hv : Nat.ofDigitChars 10 (d.digitChars ++ List.replicate k '0') 0 = 10 ^ k * d.digits := by
    rw [Nat.ofDigitChars_append, ofDigitChars_digitChars, Nat.ofDigitChars_replicate_zero]
  rw [positionalChars, if_pos h, hk, Int.toNat_natCast]
  generalize d.digitChars ++ List.replicate k '0' = ds at hd hv ⊢
  cases point with
  | false =>
    refine ⟨_, number_whole (p := 0) [] hd (by simp) rfl, ?_⟩
    rw [ofParts, List.append_nil, hv, toRat, toRat, hk]
    simp
    ring
  | true =>
    have hz : ∀ c ∈ ['0'], c.isDigit = true := by simp
    refine ⟨_, number_point (p := 0) [] hd hz (by simp) rfl, ?_⟩
    rw [ofParts, Nat.ofDigitChars_append, hv, toRat, toRat, hk]
    simp [Nat.ofDigitChars_cons]
    ring

/-- With a point, the digits of a decimal are written behind as many zeros as put one digit before
the point. -/
theorem positionalChars_of_neg (d : Decimal) (h : ¬ 0 ≤ d.exponent) (point : Bool) :
    ∃ (ds : List Char) (p : Nat), p < ds.length ∧ d.exponent = -p ∧
      (∀ c ∈ ds, c.isDigit = true) ∧ Nat.ofDigitChars 10 ds 0 = d.digits ∧
      positionalChars point d = ds.take (ds.length - p) ++ '.' :: ds.drop (ds.length - p) := by
  obtain ⟨p, hp⟩ : ∃ p : Nat, d.exponent = -p := ⟨(-d.exponent).toNat, by omega⟩
  refine ⟨List.replicate (p + 1 - d.digitChars.length) '0' ++ d.digitChars, p, ?_, hp, ?_, ?_, ?_⟩
  · rw [List.length_append, List.length_replicate]
    omega
  · intro c hc
    exact (List.mem_append.mp hc).elim (isDigit_replicate _ c) (d.isDigit_digitChars c)
  · rw [Nat.ofDigitChars_append, Nat.ofDigitChars_replicate_zero, Nat.mul_zero,
      ofDigitChars_digitChars]
  · rw [positionalChars, if_neg h, hp, neg_neg, Int.toNat_natCast]

/-- Digits with the point among them or before them. -/
theorem number_positional_point (d : Decimal) (h : ¬ 0 ≤ d.exponent) (point : Bool) :
    number (positionalChars point d) = .ok (d, (positionalChars point d).length) := by
  obtain ⟨ds, p, hl, hp, hd, hv, hc⟩ := positionalChars_of_neg d h point
  have hparts : ofParts (ds.take (ds.length - p)) (ds.drop (ds.length - p)) 0 = d := by
    rw [ofParts, List.take_append_drop, hv, List.length_drop, Nat.sub_sub_self hl.le, zero_sub,
      ← hp]
  have ht : ∀ c ∈ ds.take (ds.length - p), c.isDigit = true :=
    fun c hc => hd c (List.mem_of_mem_take hc)
  have hr : ∀ c ∈ ds.drop (ds.length - p), c.isDigit = true :=
    fun c hc => hd c (List.mem_of_mem_drop hc)
  have hn := number_point (p := 0) [] ht hr (by simp) rfl
  rwa [hparts, List.append_nil, ← hc] at hn

theorem number_scientific (d : Decimal) (plus : Bool) :
    number (scientificChars plus d) = .ok (d, (scientificChars plus d).length) := by
  obtain ⟨c, cs, hd, hc, hcs⟩ := d.exists_cons_digitChars
  have he := exponentPart_exponentChars plus d.leading
  have hv : Nat.ofDigitChars 10 (c :: cs) 0 = d.digits := hd ▸ d.ofDigitChars_digitChars
  have hl : d.leading = d.exponent + cs.length := by
    rw [leading, hd, List.length_cons]
    omega
  have hone : ∀ x ∈ [c], x.isDigit = true := by simpa using hc
  rw [scientificChars, hd]
  cases cs with
  | nil =>
    have hparts : ofParts [c] [] d.leading = d := by
      rw [ofParts, List.append_nil, hv, hl]
      simp
    have hn := number_whole _ hone (by simp) he
    rwa [hparts] at hn
  | cons c' cs =>
    have hparts : ofParts [c] (c' :: cs) d.leading = d := by
      rw [ofParts, List.singleton_append, hv, hl]
      simp
    have hn := number_point _ hone hcs (by simp) he
    rwa [hparts] at hn

/-- **What a layout writes is a number** of the value that was to be written. -/
theorem Layout.number_chars (l : Layout) (d : Decimal) :
    ∃ d', number (l.chars d) = .ok (d', (l.chars d).length) ∧ d'.toRat = d.toRat := by
  rw [chars]
  split
  · by_cases h : 0 ≤ d.exponent
    · exact number_positional_whole d h _
    · exact ⟨d, number_positional_point d h _, rfl⟩
  · exact ⟨d, number_scientific d _, rfl⟩

/-- A written number begins with a digit. -/
theorem Layout.exists_cons_chars (l : Layout) (d : Decimal) :
    ∃ c cs, l.chars d = c :: cs ∧ c.isDigit = true := by
  obtain ⟨c, cs, hd, hc, -⟩ := d.exists_cons_digitChars
  rw [chars]
  split
  · by_cases h : 0 ≤ d.exponent
    · rw [positionalChars, if_pos h, hd]
      exact ⟨c, _, rfl, hc⟩
    · obtain ⟨ds, p, hl, -, hds, -, hch⟩ := positionalChars_of_neg d h l.wholePoint
      obtain ⟨n, hn⟩ : ∃ n, ds.length - p = n + 1 := ⟨ds.length - p - 1, by omega⟩
      cases ds with
      | nil => cases hl
      | cons c ds =>
        rw [hch, hn]
        exact ⟨c, _, rfl, hds c List.mem_cons_self⟩
  · rw [scientificChars, hd]
    exact ⟨c, _, rfl, hc⟩

/-- What is written for a finite double. -/
theorem Layout.toList_write (l : Layout) {x : Float} (h : x.isFinite = true) : (l.write x).toList =
    (if Number.isNegative x then ['-'] else []) ++ l.chars (shortest l.tie x) := by
  have hn : x.isNaN = false := by
    rw [← Bool.not_eq_true, Number.isNaN_iff]
    exact Nat.lt_asymm (Number.isFinite_iff.mp h)
  have hi : x.isInf = false := by
    rw [← Bool.not_eq_true, Number.isInf_iff]
    exact Nat.ne_of_lt (Number.isFinite_iff.mp h)
  rw [Layout.write, hn, hi, if_neg Bool.false_ne_true, if_neg Bool.false_ne_true, String.toList_ofList]

end Cutflow.Decimal
