import Cutflow.Proofs.Token.Lexeme

/-!
# Numerals

The spellings of unsigned decimals that are accepted wherever a whole text is to be one number: digits
with a point before, among or behind them or without one, and an exponent that may be left out. What the
lexer takes for a number is such a numeral, so the text of a number token always has a value.

## What is proved

* `numeral_of_number`: a number at the front of a text is a numeral, and read as its value.
-/

namespace Cutflow.Decimal

open Token

/-- The exponent of a numeral, and the power of ten it stands for. -/
inductive ExponentText : List Char → Int → Prop where
  /-- No exponent. -/
  | none : ExponentText [] 0
  /-- A mark and digits. -/
  | plain {mark : Char} {ds : List Char} : (mark = 'e' ∨ mark = 'E') → ds ≠ [] →
      (∀ c ∈ ds, c.isDigit = true) → ExponentText (mark :: ds) (Nat.ofDigitChars 10 ds 0)
  /-- A mark, a plus sign and digits. -/
  | plus {mark : Char} {ds : List Char} : (mark = 'e' ∨ mark = 'E') → ds ≠ [] →
      (∀ c ∈ ds, c.isDigit = true) → ExponentText (mark :: '+' :: ds) (Nat.ofDigitChars 10 ds 0)
  /-- A mark, a minus sign and digits. -/
  | minus {mark : Char} {ds : List Char} : (mark = 'e' ∨ mark = 'E') → ds ≠ [] →
      (∀ c ∈ ds, c.isDigit = true) → ExponentText (mark :: '-' :: ds) (-Nat.ofDigitChars 10 ds 0)

/-- A spelling of an unsigned decimal. -/
inductive Numeral : List Char → Decimal → Prop where
  /-- Digits without a point. -/
  | whole {ds es : List Char} {p : Int} : ds ≠ [] → (∀ c ∈ ds, c.isDigit = true) →
      ExponentText es p → Numeral (ds ++ es) (ofParts ds [] p)
  /-- Digits on both sides of a point, or on one side of it. -/
  | point {ds fs es : List Char} {p : Int} : ds ++ fs ≠ [] → (∀ c ∈ ds, c.isDigit = true) →
      (∀ c ∈ fs, c.isDigit = true) → ExponentText es p →
      Numeral (ds ++ '.' :: (fs ++ es)) (ofParts ds fs p)

variable {c : Char} {cs : List Char} {d : Decimal} {n : Nat} {p : Int}

theorem isDigit_of_mem_takeWhile : ∀ c ∈ cs.takeWhile Char.isDigit, c.isDigit = true :=
  fun _ => List.mem_takeWhile_imp

theorem take_length_takeWhile (cs : List Char) :
    cs.take (cs.takeWhile Char.isDigit).length = cs.takeWhile Char.isDigit := by
  have h := take_length_takeWhile_add Char.isDigit cs 0
  rwa [List.take_zero, List.append_nil] at h

theorem exponentSign_cases (cs : List Char) :
    exponentSign cs = (false, cs, 0) ∨ (∃ rest, cs = '+' :: rest ∧ exponentSign cs = (false, rest, 1)) ∨
      ∃ rest, cs = '-' :: rest ∧ exponentSign cs = (true, rest, 1) := by
  unfold exponentSign
  split
  · exact .inr (.inl ⟨_, rfl, rfl⟩)
  · exact .inr (.inr ⟨_, rfl, rfl⟩)
  · exact .inl rfl

theorem exponentText_of_exponentPart (h : exponentPart cs = some (p, n)) :
    ExponentText (cs.take n) p := by
  cases cs with
  | nil =>
    cases h
    exact .none
  | cons c cs =>
    by_cases hc : (decide (c = 'e') || decide (c = 'E')) = true
    · have hmark : c = 'e' ∨ c = 'E' := by simpa using hc
      simp only [exponentPart, if_pos hc] at h
      split at h
      next => cases h
      next hd =>
        cases h
        rw [List.isEmpty_iff] at hd
        rw [Nat.add_assoc, Nat.add_comm 1, List.take_succ_cons]
        rcases exponentSign_cases cs with he | ⟨rest, rfl, he⟩ | ⟨rest, rfl, he⟩ <;> rw [he] at hd ⊢
        · rw [Nat.zero_add, take_length_takeWhile]
          exact .plain hmark hd isDigit_of_mem_takeWhile
        · rw [Nat.add_comm 1, List.take_succ_cons, take_length_takeWhile]
          exact .plus hmark hd isDigit_of_mem_takeWhile
        · rw [Nat.add_comm 1, List.take_succ_cons, take_length_takeWhile]
          exact .minus hmark hd isDigit_of_mem_takeWhile
    · simp only [exponentPart, if_neg hc] at h
      cases h
      exact .none

theorem fractionPart_cases (cs : List Char) :
    fractionPart cs = ([], cs, 0) ∨ ∃ rest, cs = '.' :: rest ∧ fractionPart cs =
      (rest.takeWhile Char.isDigit, rest.dropWhile Char.isDigit, (rest.takeWhile Char.isDigit).length + 1) := by
  unfold fractionPart
  split
  · exact .inr ⟨_, rfl, rfl⟩
  · exact .inl rfl

theorem beginsNumber_cases (h : beginsNumber c cs = true) :
    c.isDigit = true ∨ c = '.' ∧ ∃ e rest, cs = e :: rest ∧ e.isDigit = true := by
  by_cases hc : c = '.'
  · subst hc
    cases cs with
    | nil => cases h
    | cons e rest => exact .inr ⟨rfl, e, rest, rfl, h⟩
  · exact .inl (by rwa [beginsNumber_of_ne hc] at h)

/-- **A number at the front of a text is a numeral**, and read as its value. -/
theorem numeral_of_number (hb : beginsNumber c cs = true) (h : number (c :: cs) = .ok (d, n)) :
    Numeral ((c :: cs).take n) d := by
  obtain ⟨p, k, hp, rfl, rfl⟩ := number_eq_ok.mp h
  have he := exponentText_of_exponentPart hp
  rw [Nat.add_assoc, take_length_takeWhile_add]
  have hdigit : c.isDigit = true → (c :: cs).takeWhile Char.isDigit ≠ [] := fun hc => by
    rw [List.takeWhile_cons_of_pos hc]
    exact List.cons_ne_nil _ _
  rcases fractionPart_cases ((c :: cs).dropWhile Char.isDigit) with hf | ⟨rest, hrest, hf⟩
  · rw [hf] at he ⊢
    rw [Nat.zero_add]
    refine .whole ?_ isDigit_of_mem_takeWhile he
    rcases beginsNumber_cases hb with hc | ⟨rfl, e, rest, rfl, -⟩
    · exact hdigit hc
    · -- a point is the beginning of a fraction
      exact absurd (congrArg (fun part => part.2.2) hf) (Nat.succ_ne_zero _)
  · rw [hf] at he ⊢
    rw [hrest, Nat.add_right_comm, List.take_succ_cons, take_length_takeWhile_add]
    refine .point ?_ isDigit_of_mem_takeWhile isDigit_of_mem_takeWhile he
    rcases beginsNumber_cases hb with hc | ⟨rfl, e, rest, rfl, hdigit'⟩
    · exact List.append_ne_nil_of_left_ne_nil (hdigit hc) _
    · -- a number that begins with its point has a digit behind it
      cases hrest
      rw [List.takeWhile_cons_of_pos hdigit']
      exact List.append_ne_nil_of_right_ne_nil _ (List.cons_ne_nil _ _)

end Cutflow.Decimal
