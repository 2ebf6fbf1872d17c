import Cutflow.Proofs.Json.Object
import Cutflow.Proofs.Token.Number

/-!
# A gap behind a JSON text

What is read off the front of a text is told from what follows it, so it might change when a gap is put
behind the text: a string might be closed, a word or an escape completed, a number go on. A gap does none of
this. Whatever the text, be it JSON or not, its tokens stay the same.

## What is proved

* `unquote_append_gap`, `number?_append_gap`, `token?_append_gap`: each lexeme is read, or is none, as before.
* `tokens_append_gap`: so are all tokens of a text.
-/

namespace Cutflow.Json

open Cutflow.Token Decimal

variable {c g : Char} {cs rest : List Char} {n : Nat} {t : Token}

theorem cases_of_isGap (hg : isGap g = true) : g = ' ' ∨ g = '\t' ∨ g = '\n' ∨ g = '\r' := by
  simpa [isGap, or_assoc] using hg

/-- What is left behind `n` characters keeps the gap, or nothing is left with it nor without. -/
theorem drop_append_gap (n : Nat) (cs : List Char) (g : Char) :
    (cs ++ [g]).drop n = cs.drop n ++ [g] ∨ (cs ++ [g]).drop n = cs.drop n := by
  by_cases hn : n ≤ cs.length
  · exact .inl (List.drop_append_of_le_length hn)
  · have hlen : (cs ++ [g]).length ≤ n := by
      rw [List.length_append, List.length_singleton]
      omega
    exact .inr ((List.drop_eq_nil_of_le hlen).trans (List.drop_eq_nil_of_le (by omega)).symm)

/-! ### Strings -/

theorem codeUnit?_append_gap (hg : isGap g = true) (cs : List Char) : codeUnit? (cs ++ [g]) = codeUnit? cs := by
  have hhex : hexValue? g = none := by
    rcases cases_of_isGap hg with rfl | rfl | rfl | rfl <;> rfl
  match cs with
  | [] | [_] | [_, _] => rfl
  | [a, b, c] => simp [codeUnit?, hhex]
  | _ :: _ :: _ :: _ :: _ => rfl

theorem four_le_length_of_codeUnit? (h : codeUnit? cs = some n) : 4 ≤ cs.length := by
  match cs with
  | [] | [_] | [_, _] | [_, _, _] => cases h
  | _ :: _ :: _ :: _ :: _ => simp

theorem unicodeEscape_append_gap (hg : isGap g = true) (cs : List Char) :
    unicodeEscape (cs ++ [g]) = unicodeEscape cs := by
  rw [unicodeEscape, unicodeEscape, codeUnit?_append_gap hg]
  cases hu : codeUnit? cs with
  | none => rfl
  | some high =>
    have hdrop : (cs ++ [g]).drop 4 = cs.drop 4 ++ [g] :=
      List.drop_append_of_le_length (four_le_length_of_codeUnit? hu)
    simp only [Option.bind_eq_bind, Option.bind_some, hdrop]
    -- the second surrogate of a pair stands behind a backslash and a letter, and a gap is neither
    rcases cs.drop 4 with _ | ⟨d, _ | ⟨e, ds⟩⟩
    · rcases cases_of_isGap hg with rfl | rfl | rfl | rfl <;> rfl
    · rcases cases_of_isGap hg with rfl | rfl | rfl | rfl <;> simp
    · by_cases hde : d = '\\' ∧ e = 'u'
      · obtain ⟨rfl, rfl⟩ := hde
        simp only [List.cons_append, codeUnit?_append_gap hg]
      · have hne (xs : List Char) : ∀ ys, d :: e :: xs = '\\' :: 'u' :: ys → False := by
          rintro ys ⟨⟩
          exact hde ⟨rfl, rfl⟩
        congr 1
        rw [List.cons_append, List.cons_append]
        split
        next h => exact (hne _ _ h).elim
        next =>
          split
          next h => exact (hne _ _ h).elim
          next => rfl

theorem unescape_append_gap (hg : isGap g = true) (cs : List Char) : unescape (cs ++ [g]) = unescape cs := by
  cases cs with
  | nil => rcases cases_of_isGap hg with rfl | rfl | rfl | rfl <;> rfl
  | cons c cs =>
    by_cases hc : c = 'u'
    · subst hc
      show (unicodeEscape (cs ++ [g])).map _ = (unicodeEscape cs).map _
      rw [unicodeEscape_append_gap hg]
    · rw [List.cons_append]
      unfold unescape
      split <;> first | rfl | simp_all

theorem unquote_append_gap (hg : isGap g = true) (cs : List Char) : unquote (cs ++ [g]) = unquote cs := by
  have hnil : unquote [] = none := by rw [unquote]
  have hgap : unquote [g] = none := by
    rcases cases_of_isGap hg with rfl | rfl | rfl | rfl <;> simp [unquote]
  induction cs using unquote.induct with
  | case1 => rw [List.nil_append, hnil, hgap]
  | case2 cs => rw [List.cons_append, unquote, unquote, if_pos rfl, if_pos rfl]
  | case3 cs hne ih =>
    rw [List.cons_append, unquote, unquote, if_neg hne, if_pos rfl, if_neg hne, if_pos rfl,
      unescape_append_gap hg]
    have hrest (n : Nat) : unquote ((cs ++ [g]).drop n) = unquote (cs.drop n) := by
      rcases drop_append_gap n cs g with hdrop | hdrop
      · rw [hdrop, ih n]
      · rw [hdrop]
    simp only [hrest]
  | case4 c cs hq hb hc =>
    rw [List.cons_append, unquote, unquote, if_neg hq, if_neg hb, if_pos hc, if_neg hq, if_neg hb, if_pos hc]
  | case5 c cs hq hb hc ih =>
    rw [List.cons_append, unquote, unquote, if_neg hq, if_neg hb, if_neg hc, if_neg hq, if_neg hb, if_neg hc, ih]

/-! ### Numbers -/

theorem endsNumber_gap (hg : isGap g = true) : EndsNumber [g] := by
  rintro _ ⟨⟩
  rcases cases_of_isGap hg with rfl | rfl | rfl | rfl <;> rfl

theorem wholeDigits_append_gap (h : EndsNumber rest) (cs : List Char) :
    wholeDigits (cs ++ rest) = wholeDigits cs := by
  by_cases hc : cs.head? = some '0'
  · obtain ⟨cs, rfl⟩ := List.head?_eq_some_iff.mp hc
    rfl
  · have htake (xs : List Char) (hx : xs.head? ≠ some '0') : wholeDigits xs = xs.takeWhile Char.isDigit := by
      rw [wholeDigits]
      rintro ys rfl
      exact hx rfl
    have hhead : (cs ++ rest).head? ≠ some '0' := by
      cases cs with
      | nil => exact fun h0 => absurd rfl (h.ne (d := '0') rfl '0' h0)
      | cons c cs => exact hc
    rw [htake _ hhead, htake _ hc, takeWhile_append_of_head h.isDigit]

theorem length_wholeDigits_le (cs : List Char) : (wholeDigits cs).length ≤ cs.length := by
  unfold wholeDigits
  split
  · simp
  · exact (List.takeWhile_sublist _).length_le

theorem unsignedNumber?_append_gap (h : EndsNumber rest) (cs : List Char) :
    unsignedNumber? (cs ++ rest) = unsignedNumber? cs := by
  simp only [unsignedNumber?, wholeDigits_append_gap h, List.drop_append_of_le_length (length_wholeDigits_le cs),
    fractionPart_append h, exponentPart_append h]

theorem number?_append_gap (hg : isGap g = true) (cs : List Char) : number? (cs ++ [g]) = number? cs := by
  have hu := unsignedNumber?_append_gap (endsNumber_gap hg)
  have hsame (xs : List Char) (hx : ∀ ys, xs = '-' :: ys → False) : number? xs = unsignedNumber? xs := by
    rw [number?]
    exact hx
  cases cs with
  | nil =>
    have hgap : ∀ ys, [g] = '-' :: ys → False := by
      rintro ys ⟨⟩
      cases hg
    exact (hsame [g] hgap).trans (hu [])
  | cons c cs =>
    by_cases hc : c = '-'
    · subst hc
      show (unsignedNumber? (cs ++ [g])).map _ = (unsignedNumber? cs).map _
      rw [hu]
    · have hne (xs : List Char) : ∀ ys, c :: xs = '-' :: ys → False := by
        rintro ys ⟨⟩
        exact hc rfl
      rw [hsame _ (hne cs), ← hu]
      exact hsame _ (hne _)

/-! ### Tokens -/

theorem isPrefixOf_append_gap {w : List Char} (hg : g ∉ w) (cs : List Char) :
    w.isPrefixOf (cs ++ [g]) = w.isPrefixOf cs := by
  induction w generalizing cs with
  | nil => cases cs <;> rfl
  | cons a w ih =>
    rw [List.mem_cons, not_or] at hg
    cases cs with
    | nil => simp [List.isPrefixOf, Ne.symm hg.1]
    | cons c cs => rw [List.cons_append, List.isPrefixOf, List.isPrefixOf, ih hg.2]

theorem token?_append_gap (hg : isGap g = true) (c : Char) (cs : List Char) :
    token? c (cs ++ [g]) = token? c cs := by
  have hword {w : List Char} (hw : ∀ d ∈ w, isGap d = false) : w.isPrefixOf (cs ++ [g]) = w.isPrefixOf cs := by
    refine isPrefixOf_append_gap (fun hmem => ?_) cs
    rw [hw g hmem] at hg
    cases hg
  have hnumber : number? (c :: (cs ++ [g])) = number? (c :: cs) := number?_append_gap hg (c :: cs)
  unfold token?
  split
  case h_7 => rw [unquote_append_gap hg]
  case h_8 | h_9 | h_10 => rw [hword (by simp [isGap])]
  case h_11 => rw [hnumber]
  all_goals rfl

/-- A gap in front of the end of a text does not change what its first token is. -/
theorem next?_append_gap (hg : isGap g = true) (cs : List Char) :
    next? (cs ++ [g]) = next? cs ∨
      ∃ t rest, next? cs = some (t, rest) ∧ next? (cs ++ [g]) = some (t, rest ++ [g]) := by
  induction cs with
  | nil =>
    left
    simp only [List.nil_append, next?, if_pos hg]
  | cons c cs ih =>
    rw [List.cons_append, next?, next?, token?_append_gap hg]
    split
    next => exact ih
    next =>
      cases token? c cs with
      | none => exact .inl rfl
      | some p =>
        obtain ⟨t, more⟩ := p
        rcases drop_append_gap more cs g with hdrop | hdrop
        · exact .inr ⟨t, cs.drop more, rfl, by simp only [hdrop]⟩
        · exact .inl (by simp only [hdrop])

theorem tokens_of_next?_eq_none (h : next? cs = none) : tokens cs = [] := by
  rw [tokens]
  split
  next => rfl
  next h' => cases h.symm.trans h'

/-- **A gap behind a text does not change its tokens.** -/
theorem tokens_append_gap (hg : isGap g = true) (cs : List Char) : tokens (cs ++ [g]) = tokens cs := by
  induction cs using tokens.induct with
  | case1 cs h =>
    rcases next?_append_gap hg cs with hn | ⟨t, rest, hn, -⟩
    · rw [tokens_of_next?_eq_none h, tokens_of_next?_eq_none (hn.trans h)]
    · cases h.symm.trans hn
  | case2 cs t rest h _ ih =>
    rcases next?_append_gap hg cs with hn | ⟨t', rest', hn, hg'⟩
    · rw [tokens_of_next? h, tokens_of_next? (hn.trans h)]
    · cases h.symm.trans hn
      rw [tokens_of_next? h, tokens_of_next? hg', ih]

end Cutflow.Json
