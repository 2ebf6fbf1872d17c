import Cutflow.Json.Quoted
import Mathlib

/-!
# Reading quoted strings back

Whatever characters a string has, what is written for it between quotation marks reads as the string
again: every character is spelled by itself or by an escape, and no spelling can be mistaken for the
closing mark.

## What is proved

* `escape_cases`: the two ways of spelling a character.
* `unquote_flatMap_escape`: the spelled characters and the closing mark read as the string.
-/

namespace Cutflow.Json

variable {c : Char} {cs rest : List Char}

theorem hexValue?_hexDigit {n : Nat} (h : n < 16) : hexValue? (hexDigit n) = some n := by
  interval_cases n <;> decide

theorem unicodeEscape_control (h : c.toNat < 0x20) (rest : List Char) :
    unicodeEscape ('0' :: '0' :: hexDigit (c.toNat / 16) :: hexDigit (c.toNat % 16) :: rest) = some (c, 4) := by
  have hzero : hexValue? '0' = some 0 := by decide
  have hdiv : hexValue? (hexDigit (c.toNat / 16)) = some (c.toNat / 16) := hexValue?_hexDigit (by omega)
  have hmod : hexValue? (hexDigit (c.toNat % 16)) = some (c.toNat % 16) := hexValue?_hexDigit (by omega)
  have hn : ((0 * 16 + 0) * 16 + c.toNat / 16) * 16 + c.toNat % 16 = c.toNat := by omega
  have hunit : codeUnit? ('0' :: '0' :: hexDigit (c.toNat / 16) :: hexDigit (c.toNat % 16) :: rest) =
      some c.toNat := by
    simp only [codeUnit?, hzero, hdiv, hmod, Option.bind_eq_bind, Option.bind_some, hn]
    rfl
  have hhigh : ¬ (0xd800 ≤ c.toNat) := by omega
  have hlow : ¬ (0xdc00 ≤ c.toNat) := by omega
  simp [unicodeEscape, hunit, hhigh, hlow, Char.ofNat_toNat]

/-- A character is spelled by an escape, or by itself if that means nothing else. -/
theorem escape_cases (c : Char) :
    (∃ w, escape c = '\\' :: w ∧ ∀ rest, unescape (w ++ rest) = some (c, w.length)) ∨
      (escape c = [c] ∧ c ≠ '\x22' ∧ c ≠ '\\' ∧ ¬ c.toNat < 0x20) := by
  unfold escape
  split
  case h_8 hquote hslash _ _ _ _ _ =>
    split
    next hc =>
      refine .inl ⟨_, rfl, fun rest => ?_⟩
      show (unicodeEscape ('0' :: '0' :: hexDigit (c.toNat / 16) :: hexDigit (c.toNat % 16) :: rest)).map _ = _
      rw [unicodeEscape_control hc rest]
      rfl
    next hc => exact .inr ⟨rfl, hquote, hslash, hc⟩
  all_goals exact .inl ⟨_, rfl, fun _ => rfl⟩

theorem unquote_escape_append (c : Char) (cs : List Char) :
    unquote (escape c ++ cs) = (unquote cs).map fun (s, n) => (c :: s, n + (escape c).length) := by
  rcases escape_cases c with ⟨w, hw, hread⟩ | ⟨hself, hquote, hslash, hc⟩
  · rw [hw, List.cons_append, unquote, if_neg (by decide), if_pos rfl, hread]
    simp only [Option.bind_eq_bind, Option.bind_some, List.drop_left]
    cases unquote cs <;> simp [Nat.add_assoc]
  · rw [hself, List.singleton_append, unquote, if_neg hquote, if_neg hslash, if_neg hc]
    cases unquote cs <;> rfl

/-- **A quoted string reads back**, whatever its characters are and whatever follows. -/
theorem unquote_flatMap_escape (cs rest : List Char) :
    unquote (cs.flatMap escape ++ '\x22' :: rest) = some (cs, (cs.flatMap escape).length + 1) := by
  induction cs with
  | nil => rw [List.flatMap_nil, List.nil_append, unquote, if_pos rfl]; rfl
  | cons c cs ih =>
    have hlen : (cs.flatMap escape).length + 1 + (escape c).length =
        (escape c ++ cs.flatMap escape).length + 1 := by
      rw [List.length_append]
      omega
    rw [List.flatMap_cons, List.append_assoc, unquote_escape_append, ih, ← hlen]
    rfl

end Cutflow.Json
