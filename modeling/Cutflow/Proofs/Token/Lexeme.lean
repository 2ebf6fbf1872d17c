import Cutflow.Proofs.Token.Number

/-!
# Lexemes

A lexeme is read off the front of a text with a look at one character behind it at most. The
characters that end a lexeme depend on its kind only (`endsBefore`); before one of them the lexeme
is the same whatever follows.

## What is proved

* `lexeme_eq_ok`, `lexeme_eq_error`: the four ways in which a lexeme begins a text, and the two in
  which none does.
* `lexeme_take_append`: a lexeme reads the same with something else behind it that begins alike, or
  that does not continue it.
* `lexeme_append`, `lexeme_take`: in particular with more behind the text, and with nothing.
* `lexeme_take_of_missingExponent`: an exponent mark without digits stands behind a number.
* `isGraphic_of_lexeme`: a lexeme is made of the characters of ASCII that show; so it holds no blank.
-/

namespace Cutflow.Token

open Text

variable {c : Char} {cs rest : List Char} {k : Kind} {more : Nat}

/-- A character that ends a lexeme of the given kind. -/
def endsBefore : Kind → Char → Bool
  | .number _, d | .ident _, d | .bool _, d => !continuesNumber d
  | .bang, d | .lt, d | .gt, d => d ≠ '='
  | _, _ => true

theorem lexeme_eq_ok :
    lexeme c cs = .ok ⟨k, more⟩ ↔
      (beginsNumber c cs = true ∧
        ∃ d n, number (c :: cs) = .ok (d, n) ∧ .number d.toFloat = k ∧ n - 1 = more) ∨
      (beginsNumber c cs = false ∧ isWordHead c = true ∧
        wordKind (String.ofList (c :: cs.takeWhile isWordTail)) = k ∧
        (cs.takeWhile isWordTail).length = more) ∨
      (beginsNumber c cs = false ∧ isWordHead c = false ∧
        cs.head?.bind (pairKind? c) = some k ∧ 1 = more) ∨
      (beginsNumber c cs = false ∧ isWordHead c = false ∧
        cs.head?.bind (pairKind? c) = none ∧ charKind? c = some k ∧ 0 = more) := by
  rw [lexeme]
  cases hb : beginsNumber c cs with
  | true =>
    rw [if_pos rfl]
    cases hn : number (c :: cs) with
    | error e => simp
    | ok p =>
      obtain ⟨d, n⟩ := p
      simp
  | false =>
    rw [if_neg (by simp)]
    cases hw : isWordHead c with
    | true => simp
    | false =>
      rw [if_neg (by simp)]
      cases hp : cs.head?.bind (pairKind? c) with
      | some k' => simp
      | none => cases hc : charKind? c <;> simp

theorem lexeme_eq_error {ahead : Nat} {fault : SyntaxFault} :
    lexeme c cs = .error (ahead, fault) ↔
      (beginsNumber c cs = true ∧ number (c :: cs) = .error ahead ∧ .missingExponent = fault) ∨
      (beginsNumber c cs = false ∧ isWordHead c = false ∧ cs.head?.bind (pairKind? c) = none ∧
        charKind? c = none ∧ 0 = ahead ∧ .unexpectedChar c = fault) := by
  rw [lexeme]
  cases hb : beginsNumber c cs with
  | true =>
    rw [if_pos rfl]
    cases hn : number (c :: cs) with
    | error e => simp
    | ok p =>
      obtain ⟨d, n⟩ := p
      simp
  | false =>
    rw [if_neg (by simp)]
    cases hw : isWordHead c with
    | true => simp
    | false =>
      rw [if_neg (by simp)]
      cases hp : cs.head?.bind (pairKind? c) with
      | some k' => simp
      | none => cases hc : charKind? c <;> simp

/-! ### What follows a lexeme -/

theorem beginsNumber_of_ne (h : c ≠ '.') (cs : List Char) : beginsNumber c cs = c.isDigit := by
  rw [beginsNumber]
  rintro _ _ rfl
  exact absurd rfl h

theorem isAlpha_iff_toNat :
    c.isAlpha = true ↔ (65 ≤ c.toNat ∧ c.toNat ≤ 90) ∨ (97 ≤ c.toNat ∧ c.toNat ≤ 122) := by
  simp only [Char.isAlpha, Char.isUpper, Char.isLower, Bool.or_eq_true, Bool.and_eq_true,
    decide_eq_true_eq, ge_iff_le, UInt32.le_iff_toNat_le]
  rfl

theorem isDigit_iff_toNat : c.isDigit = true ↔ 48 ≤ c.toNat ∧ c.toNat ≤ 57 := Char.isDigit_iff_toNat

theorem not_isDigit_of_isWordHead (h : isWordHead c = true) : c.isDigit = false := by
  simp only [isWordHead, Bool.or_eq_true, isAlpha_iff_toNat, decide_eq_true_eq] at h
  rcases h with h | rfl
  · rw [← Bool.not_eq_true, isDigit_iff_toNat]
    omega
  · rfl

theorem beginsNumber_of_isWordHead (h : isWordHead c = true) (cs : List Char) :
    beginsNumber c cs = false := by
  have hc : c ≠ '.' := by
    rintro rfl
    cases h
  rw [beginsNumber_of_ne hc, not_isDigit_of_isWordHead h]

theorem beginsNumber_of_charKind? (h : charKind? c = some k) (cs : List Char) :
    beginsNumber c cs = false := by
  have hc : c ≠ '.' := by
    rintro rfl
    cases h
  rw [beginsNumber_of_ne hc]
  unfold charKind? at h
  split at h <;> cases h <;> rfl

theorem beginsNumber_append (h : cs ≠ []) : beginsNumber c (cs ++ rest) = beginsNumber c cs := by
  obtain ⟨d, cs, rfl⟩ := List.exists_cons_of_ne_nil h
  by_cases hc : c = '.'
  · subst hc
    rfl
  · rw [beginsNumber_of_ne hc, beginsNumber_of_ne hc]

theorem endsBefore_wordKind {w : String} {d : Char} (h : endsBefore (wordKind w) d = true) :
    continuesNumber d = false := by
  rw [wordKind] at h
  split_ifs at h <;> simpa [endsBefore] using h

theorem isWordTail_of_not_continues {d : Char} (h : continuesNumber d = false) :
    isWordTail d = false :=
  (Bool.or_eq_false_iff.mp h).1

/-- A lexeme of one character is not the first one of a pair, before a character that ends it. -/
theorem pairKind?_of_endsBefore {d : Char} (h : charKind? c = some k)
    (hd : endsBefore k d = true) : pairKind? c d = none := by
  unfold charKind? at h
  split at h <;> cases h <;> simp_all [pairKind?, endsBefore]

/-- A number has a first character, and what it takes of the rest lets it begin. -/
theorem beginsNumber_take_mantissa (hb : beginsNumber c cs = true) :
    ∃ m, mantissaLength (c :: cs) = m + 1 ∧ ∀ k, beginsNumber c (cs.take (m + k)) = true := by
  by_cases hc : c = '.'
  · subst hc
    cases cs with
    | nil => cases hb
    | cons e cs =>
      have he : e.isDigit = true := hb
      refine ⟨(cs.takeWhile Char.isDigit).length + 1, ?_, fun k => ?_⟩
      · rw [mantissaLength, List.takeWhile_cons_of_neg (by decide),
          List.dropWhile_cons_of_neg (by decide)]
        simp [Decimal.fractionPart, he]
      · rw [Nat.add_right_comm, List.take_succ_cons]
        exact he
  · have hd : c.isDigit = true := by rwa [beginsNumber_of_ne hc] at hb
    rw [mantissaLength, List.takeWhile_cons_of_pos hd, List.length_cons, Nat.succ_add]
    exact ⟨_, rfl, fun k => by rwa [beginsNumber_of_ne hc]⟩

theorem beginsNumber_take {d : Decimal} {n : Nat} (hb : beginsNumber c cs = true)
    (hn : number (c :: cs) = .ok (d, n)) :
    ∃ m, n = m + 1 ∧ beginsNumber c (cs.take m) = true := by
  obtain ⟨p, k, -, -, rfl⟩ := number_eq_ok.mp hn
  obtain ⟨m, hm, htake⟩ := beginsNumber_take_mantissa hb
  rw [mantissaLength] at hm
  exact ⟨m + k, by omega, htake k⟩

theorem lexeme_length (h : lexeme c cs = .ok ⟨k, more⟩) : more ≤ cs.length := by
  rcases lexeme_eq_ok.mp h with ⟨hb, d, n, hn, -, rfl⟩ | ⟨-, -, -, rfl⟩ | ⟨-, -, hp, rfl⟩ |
    ⟨-, -, -, -, rfl⟩
  · have hlen := (number_length hn).1
    rw [List.length_cons] at hlen
    omega
  · exact (List.takeWhile_sublist _).length_le
  · cases cs with
    | nil => cases hp
    | cons d cs => exact Nat.le_add_left _ _
  · exact Nat.zero_le _

/-- **One character behind a lexeme tells its end**, whatever follows that. -/
theorem lexeme_take_append (h : lexeme c cs = .ok ⟨k, more⟩)
    (hr : Replaces (fun d => endsBefore k d = true) (cs.drop more) rest) :
    lexeme c (cs.take more ++ rest) = .ok ⟨k, more⟩ := by
  rw [lexeme_eq_ok] at h ⊢
  rcases h with ⟨hb, d, n, hn, rfl, rfl⟩ | ⟨-, hw, rfl, rfl⟩ | ⟨hb, hw, hp, rfl⟩ | ⟨-, hw, hp, hk, rfl⟩
  · -- a number
    obtain ⟨m, rfl, hm⟩ := beginsNumber_take hb hn
    rw [Nat.add_sub_cancel] at hr ⊢
    refine .inl ⟨?_, d, m + 1, ?_, rfl, rfl⟩
    · by_cases hcs : cs.take m = []
      · rw [hcs] at hm ⊢
        have hc : c ≠ '.' := by
          rintro rfl
          cases hm
        rwa [beginsNumber_of_ne hc] at hm ⊢
      · rwa [beginsNumber_append hcs]
    · exact number_take_append hn (hr.imp fun d hd => by simpa [endsBefore] using hd)
  · -- a word
    have ht : Replaces (fun d => isWordTail d = false) (cs.drop (cs.takeWhile isWordTail).length) rest :=
      hr.imp fun d hd => isWordTail_of_not_continues (endsBefore_wordKind hd)
    rw [takeWhile_take_length_append ht]
    exact .inr (.inl ⟨beginsNumber_of_isWordHead hw _, hw, rfl, rfl⟩)
  · -- two characters
    cases cs with
    | nil => cases hp
    | cons d cs =>
      refine .inr (.inr (.inl ⟨?_, hw, hp, rfl⟩))
      have hd : ∀ cs, beginsNumber c ([d] ++ cs) = beginsNumber c [d] :=
        fun cs => beginsNumber_append (by simp)
      exact (hd rest).trans ((hd cs).symm.trans hb)
  · -- one character
    refine .inr (.inr (.inr ⟨beginsNumber_of_charKind? hk _, hw, ?_, hk, rfl⟩))
    rw [List.take_zero, List.nil_append, Option.bind_eq_none_iff]
    intro d hd
    rcases hr d hd with hd | hd
    · exact Option.bind_eq_none_iff.mp hp d hd
    · exact pairKind?_of_endsBefore hk hd

theorem lexeme_append (h : lexeme c cs = .ok ⟨k, more⟩)
    (hr : ∀ d ∈ rest.head?, endsBefore k d = true) : lexeme c (cs ++ rest) = .ok ⟨k, more⟩ := by
  have hl := lexeme_take_append h (.drop_append hr more)
  rwa [← List.append_assoc, List.take_append_drop] at hl

theorem lexeme_take (h : lexeme c cs = .ok ⟨k, more⟩) : lexeme c (cs.take more) = .ok ⟨k, more⟩ := by
  have hl := lexeme_take_append h .nil
  rwa [List.append_nil] at hl

/-- A character that begins no lexeme does not begin one alone. -/
theorem lexeme_nil_of_unexpected {ahead : Nat} {d : Char}
    (h : lexeme c cs = .error (ahead, .unexpectedChar d)) :
    ahead = 0 ∧ d = c ∧ lexeme c [] = .error (0, .unexpectedChar c) := by
  rcases lexeme_eq_error.mp h with ⟨-, -, hf⟩ | ⟨hb, hw, -, hk, rfl, hf⟩
  · cases hf
  · cases hf
    refine ⟨rfl, rfl, lexeme_eq_error.mpr (.inr ⟨?_, hw, rfl, hk, rfl, rfl⟩)⟩
    by_cases hc : c = '.'
    · subst hc
      rfl
    · rwa [beginsNumber_of_ne hc] at hb ⊢

/-- **An exponent mark without digits stands behind a number**, and spoils it without what follows. -/
theorem lexeme_take_of_missingExponent {ahead : Nat} (h : lexeme c cs = .error (ahead, .missingExponent)) :
    ∃ m d rest, ahead = m + 1 ∧ cs.drop m = d :: rest ∧
      (∃ x, lexeme c (cs.take m) = .ok ⟨.number x, m⟩) ∧
      lexeme c (cs.take m ++ [d]) = .error (m + 1, .missingExponent) := by
  rcases lexeme_eq_error.mp h with ⟨hb, hn, -⟩ | ⟨-, -, -, -, -, hf⟩
  swap
  · cases hf
  obtain ⟨⟨x, hx⟩, d, rest, hdrop, hmark⟩ := number_take_of_error hn
  obtain ⟨m, hm, htake⟩ := beginsNumber_take_mantissa hb
  rw [← (number_eq_error.mp hn).2] at hm
  subst hm
  rw [List.take_succ_cons] at hx hmark
  have h0 := htake 0
  have h1 := htake 1
  rw [List.drop_succ_cons] at hdrop
  rw [List.take_add, hdrop, List.take_succ_cons, List.take_zero] at h1
  exact ⟨m, d, rest, rfl, hdrop, ⟨_, lexeme_eq_ok.mpr (.inl ⟨h0, x, m + 1, hx, rfl, rfl⟩)⟩,
    lexeme_eq_error.mpr (.inl ⟨h1, hmark, rfl⟩)⟩

/-! ### Lexemes side by side -/

/-- The kinds of tokens whose lexemes would run into each other. -/
def isAtom : Kind → Bool
  | .number _ | .ident _ | .bool _ => true
  | _ => false

/-- Whether lexemes of two kinds may stand side by side without a gap. -/
def touches : Kind → Kind → Bool
  | .bang, .eqEq | .lt, .eqEq | .gt, .eqEq => false
  | k, k' => !(isAtom k && isAtom k')

theorem isAtom_wordKind (w : String) : isAtom (wordKind w) = true := by
  rw [wordKind]
  split_ifs <;> rfl

theorem not_continues_of_pairKind? {d : Char} (h : pairKind? c d = some k) :
    continuesNumber c = false ∧ (c = '=' → k = .eqEq) := by
  unfold pairKind? at h
  split at h <;> cases h <;> exact ⟨by decide, by simp⟩

theorem not_continues_of_charKind? (h : charKind? c = some k) :
    continuesNumber c = false ∧ c ≠ '=' := by
  unfold charKind? at h
  split at h <;> cases h <;> exact ⟨by decide, by decide⟩

theorem isAtom_of_continues (h : lexeme c cs = .ok ⟨k, more⟩) (hc : continuesNumber c = true) :
    isAtom k = true := by
  rcases lexeme_eq_ok.mp h with ⟨-, d, n, -, rfl, -⟩ | ⟨-, -, rfl, -⟩ | ⟨-, -, hp, -⟩ | ⟨-, -, -, hk, -⟩
  · rfl
  · exact isAtom_wordKind _
  · obtain ⟨d, -, hp⟩ := Option.bind_eq_some_iff.mp hp
    exact absurd hc (by simp [(not_continues_of_pairKind? hp).1])
  · exact absurd hc (by simp [(not_continues_of_charKind? hk).1])

theorem eq_eqEq_of_lexeme (h : lexeme '=' cs = .ok ⟨k, more⟩) : k = .eqEq := by
  rcases lexeme_eq_ok.mp h with ⟨hb, -⟩ | ⟨-, hw, -⟩ | ⟨-, -, hp, -⟩ | ⟨-, -, -, hk, -⟩
  · cases hb
  · cases hw
  · obtain ⟨d, -, hp⟩ := Option.bind_eq_some_iff.mp hp
    exact (not_continues_of_pairKind? hp).2 rfl
  · cases hk

/-- A lexeme ends before one that it may touch. -/
theorem endsBefore_of_touches {k' : Kind} (h : lexeme c cs = .ok ⟨k', more⟩)
    (ht : touches k k' = true) : endsBefore k c = true := by
  have h1 : isAtom k = true → continuesNumber c = false := by
    intro hk
    rw [← Bool.not_eq_true]
    intro hc
    have hk' := isAtom_of_continues h hc
    cases k <;> cases hk <;> cases k' <;> cases hk' <;> cases ht
  have h2 : (k = .bang ∨ k = .lt ∨ k = .gt) → c ≠ '=' := by
    rintro hk rfl
    cases eq_eqEq_of_lexeme h
    rcases hk with rfl | rfl | rfl <;> cases ht
  cases k <;> simp_all [endsBefore, isAtom]

/-! ### Lexemes are made of graphic characters -/

/-- A character of ASCII that shows: neither a blank nor a control character. -/
def IsGraphic (c : Char) : Prop := 33 ≤ c.toNat ∧ c.toNat ≤ 126

theorem IsGraphic.not_isBlank (h : IsGraphic c) : isBlank c = false := by
  obtain ⟨h, h'⟩ := h
  simp [isBlank, blankRanges]
  omega

theorem isGraphic_of_isWordTail (h : isWordTail c = true) : IsGraphic c := by
  simp only [isWordTail, Char.isAlphanum, Bool.or_eq_true, isAlpha_iff_toNat, isDigit_iff_toNat,
    decide_eq_true_eq] at h
  rcases h with (h | h) | rfl
  · exact ⟨by omega, by omega⟩
  · exact ⟨by omega, by omega⟩
  · exact ⟨by decide, by decide⟩

theorem isGraphic_of_isWordHead (h : isWordHead c = true) : IsGraphic c := by
  apply isGraphic_of_isWordTail
  simp only [isWordHead, isWordTail, Char.isAlphanum, Bool.or_eq_true] at h ⊢
  exact h.imp_left .inl

theorem isGraphic_of_isNumberChar (h : isNumberChar c = true) : IsGraphic c := by
  simp only [isNumberChar, Bool.or_eq_true, decide_eq_true_eq] at h
  rcases h with ((((h | rfl) | rfl) | rfl) | rfl) | rfl
  · exact isGraphic_of_isWordTail (by simp [isWordTail, Char.isAlphanum, h])
  all_goals exact ⟨by decide, by decide⟩

theorem isGraphic_of_pairKind? {d : Char} (h : pairKind? c d = some k) :
    IsGraphic c ∧ IsGraphic d := by
  unfold pairKind? at h
  split at h <;> cases h <;> exact ⟨⟨by decide, by decide⟩, by decide, by decide⟩

theorem isGraphic_of_charKind? (h : charKind? c = some k) : IsGraphic c := by
  unfold charKind? at h
  split at h <;> cases h <;> exact ⟨by decide, by decide⟩

theorem isGraphic_of_lexeme (h : lexeme c cs = .ok ⟨k, more⟩) :
    ∀ d ∈ c :: cs.take more, IsGraphic d := by
  rcases lexeme_eq_ok.mp h with ⟨hb, d, n, hn, -, rfl⟩ | ⟨-, hw, -, rfl⟩ | ⟨-, -, hp, rfl⟩ |
    ⟨-, -, -, hk, rfl⟩
  · obtain ⟨m, rfl, -⟩ := beginsNumber_take hb hn
    exact fun e he => isGraphic_of_isNumberChar ((number_length hn).2 e he)
  · rw [List.forall_mem_cons]
    refine ⟨isGraphic_of_isWordHead hw, ?_⟩
    intro d hd
    exact isGraphic_of_isWordTail (of_mem_take_takeWhile hd)
  · cases cs with
    | nil => cases hp
    | cons d cs =>
      have hg := isGraphic_of_pairKind? hp
      simpa using hg
  · simpa using isGraphic_of_charKind? hk

end Cutflow.Token
