import Cutflow.Proofs.Json.Line
import Cutflow.Proofs.Json.TrailingGap

/-!
# Event files line by line

An event file is read line by line up to the first line that is neither blank nor a record. Lines are
counted before the blank ones are dropped, a line may end in two ways, and the last one need not end at all;
still two files with a line feed between them are read as one after the other.

## What is proved

* `Record.ofLines_append`: lines are read as their first part, and then the rest with the count going on.
* `Record.ofLines_eq_error`: reading stops at the first line that is refused (`Accepts`), and says its number.
* `Record.ofLines_of_lastLine`: it does not matter how the last line ends.
* `Record.parseLines_append`: all of this for two texts.
-/

namespace Cutflow.Record

open Json Text

/-- A line of an event file that is skipped, because it is blank, or read as a record. -/
def Accepts (line : List Char) : Prop := isBlankLine line = true ∨ ∃ r, parse (String.ofList line) = .ok r

variable {n : Nat} {line cs : List Char} {ls ms : List (List Char)} {r : Record} {rs : List Record} {e : Error}

/-! ### One line -/

theorem parse_ofList_eq_ok : parse (String.ofList line) = .ok r ↔ ofJson line = .ok r := by
  rw [parse, String.toList_ofList, mapError_eq_ok]

theorem ofLines_of_blank (hb : isBlankLine line = true) : ofLines n (line :: ls) = ofLines (n + 1) ls := by
  rw [ofLines, if_pos hb]

theorem ofLines_of_record (hb : isBlankLine line = false) (hr : ofJson line = .ok r) :
    ofLines n (line :: ls) = (ofLines (n + 1) ls).map (r :: ·) := by
  rw [ofLines, if_neg (by simp [hb]), hr]
  cases ofLines (n + 1) ls <;> rfl

theorem ofLines_of_not_accepts (h : ¬Accepts line) : ofLines n (line :: ls) = .error (.recordLine n) := by
  rw [Accepts, not_or, Bool.not_eq_true] at h
  rw [ofLines, if_neg (by simp [h.1])]
  cases hr : ofJson line with
  | error fault => rfl
  | ok r => exact absurd ⟨r, parse_ofList_eq_ok.mpr hr⟩ h.2

theorem line_cases (line : List Char) : isBlankLine line = true ∨
    (isBlankLine line = false ∧ ∃ r, ofJson line = .ok r) ∨ ¬Accepts line := by
  by_cases h : Accepts line
  · rcases h with hb | ⟨r, hr⟩
    · exact .inl hb
    · cases hb : isBlankLine line with
      | true => exact .inl rfl
      | false => exact .inr (.inl ⟨rfl, r, parse_ofList_eq_ok.mp hr⟩)
  · exact .inr (.inr h)

/-! ### Many lines -/

/-- **Lines are read part by part**, with the count going on. -/
theorem ofLines_append (n : Nat) (ls ms : List (List Char)) :
    ofLines n (ls ++ ms) = do
      let rs ← ofLines n ls
      let rs' ← ofLines (n + ls.length) ms
      return rs ++ rs' := by
  induction ls generalizing n with
  | nil =>
    show ofLines n ms = ofLines n ms >>= pure
    cases ofLines n ms <;> rfl
  | cons line ls ih =>
    have hlen : n + (line :: ls).length = n + 1 + ls.length := by
      rw [List.length_cons]
      omega
    rw [hlen, List.cons_append]
    rcases line_cases line with hb | ⟨hb, r, hr⟩ | h
    · rw [ofLines_of_blank hb, ofLines_of_blank hb, ih]
    · rw [ofLines_of_record hb hr, ofLines_of_record hb hr, ih]
      cases ofLines (n + 1) ls with
      | error e => rfl
      | ok rs => cases ofLines (n + 1 + ls.length) ms <;> rfl
    · rw [ofLines_of_not_accepts h, ofLines_of_not_accepts h]
      rfl

theorem exists_ofLines_eq_ok (n : Nat) (h : ∀ line ∈ ls, Accepts line) : ∃ rs, ofLines n ls = .ok rs := by
  induction ls generalizing n with
  | nil => exact ⟨[], rfl⟩
  | cons line ls ih =>
    rw [List.forall_mem_cons] at h
    obtain ⟨rs, hrs⟩ := ih (n + 1) h.2
    rcases line_cases line with hb | ⟨hb, r, hr⟩ | hne
    · exact ⟨rs, by rw [ofLines_of_blank hb, hrs]⟩
    · exact ⟨r :: rs, by rw [ofLines_of_record hb hr, hrs]; rfl⟩
    · exact absurd h.1 hne

/-- **Reading stops at the first line that is refused**, and counts all lines before it. -/
theorem ofLines_eq_error : ofLines n ls = .error e ↔
    ∃ before line after, ls = before ++ line :: after ∧ (∀ l ∈ before, Accepts l) ∧ ¬Accepts line ∧
      e = .recordLine (n + before.length) := by
  constructor
  · intro h
    induction ls generalizing n with
    | nil => cases h
    | cons line ls ih =>
      -- the first line does not stop the reading
      have hnext (ha : Accepts line) (h : ofLines (n + 1) ls = .error e) :
          ∃ before l after, line :: ls = before ++ l :: after ∧ (∀ l ∈ before, Accepts l) ∧ ¬Accepts l ∧
            e = .recordLine (n + before.length) := by
        obtain ⟨before, l, after, rfl, hbefore, hl, rfl⟩ := ih h
        refine ⟨line :: before, l, after, rfl, List.forall_mem_cons.mpr ⟨ha, hbefore⟩, hl, ?_⟩
        rw [List.length_cons, Nat.add_assoc, Nat.add_comm 1]
      rcases line_cases line with hb | ⟨hb, r, hr⟩ | hne
      · rw [ofLines_of_blank hb] at h
        exact hnext (.inl hb) h
      · rw [ofLines_of_record hb hr] at h
        refine hnext (.inr ⟨r, parse_ofList_eq_ok.mpr hr⟩) ?_
        cases hrest : ofLines (n + 1) ls with
        | ok rs =>
          rw [hrest] at h
          cases h
        | error e' =>
          rw [hrest] at h
          cases h
          rfl
      · rw [ofLines_of_not_accepts hne] at h
        cases h
        exact ⟨[], line, ls, rfl, by simp, hne, rfl⟩
  · rintro ⟨before, line, after, rfl, hbefore, hline, rfl⟩
    obtain ⟨rs, hrs⟩ := exists_ofLines_eq_ok n hbefore
    rw [ofLines_append, hrs, ofLines_of_not_accepts hline]
    rfl

/-! ### The last line -/

/-- A return behind a line is a gap for JSON and blank. -/
theorem ofLines_append_return (n : Nat) (line : List Char) : ofLines n [line ++ ['\r']] = ofLines n [line] := by
  have hb : isBlankLine (line ++ ['\r']) = isBlankLine line := by
    rw [isBlankLine, isBlankLine, List.all_append]
    exact Bool.and_true _
  have hj : ofJson (line ++ ['\r']) = ofJson line := by
    rw [ofJson, ofJson, tokens_append_gap rfl]
  simp only [ofLines, hb, hj]

/-- It does not matter how the last line ends. -/
theorem ofLines_of_lastLine {init : List (List Char)} {last : List Char} (h : LastLine cs init last) (n : Nat) :
    ofLines n (init ++ [last]) = ofLines n (lines cs) := by
  rcases h with ⟨h, rfl⟩ | h | h
  · rw [h, ofLines_append, ofLines_of_blank rfl]
    cases ofLines n init with
    | error e => rfl
    | ok rs => exact congrArg Except.ok (List.append_nil rs)
  · rw [h]
  · rw [h, ofLines_append, ofLines_append, ofLines_append_return]

/-! ### Two texts -/

theorem parseLines_append_feed (s t : String) : parseLines (s ++ "\n" ++ t) = do
    let rs ← parseLines s
    let rs' ← ofLines (1 + (s.toList.count '\n' + 1)) (lines t.toList)
    return rs ++ rs' := by
  obtain ⟨init, last, hlen, hlast, hlines⟩ := lines_append_feed s.toList
  have htext : (s ++ "\n" ++ t).toList = s.toList ++ '\n' :: t.toList := by simp
  have hcount : (init ++ [last]).length = s.toList.count '\n' + 1 := by
    rw [List.length_append, hlen, List.length_singleton]
  rw [parseLines, parseLines, htext, hlines, List.append_cons, ofLines_append, ofLines_of_lastLine hlast, hcount]

/-- **Event files are read one after the other.** With a line feed between them, two texts are read as the
records of both; where the second one is refused, so is the whole, at a line that counts those of the first
one; where the first one is refused, so is the whole at the same line. It is always the first line refused,
of all lines counted from one, blank or not. -/
theorem parseLines_append (s t : String) :
    (∀ rs rs', parseLines s = .ok rs → parseLines t = .ok rs' →
      parseLines (s ++ "\n" ++ t) = .ok (rs ++ rs')) ∧
    (∀ rs e, parseLines s = .ok rs → parseLines t = .error e → ∃ k, e = .recordLine k ∧
      parseLines (s ++ "\n" ++ t) = .error (.recordLine (k + 1 + s.toList.count '\n'))) ∧
    (∀ e, parseLines s = .error e → ∃ k, e = .recordLine k ∧
      parseLines (s ++ "\n" ++ t) = .error (.recordLine k)) ∧
    ∀ (text : String) (e : Error), parseLines text = .error e ↔
      ∃ before line after, lines text.toList = before ++ line :: after ∧ (∀ l ∈ before, Accepts l) ∧
        ¬Accepts line ∧ e = .recordLine (before.length + 1) := by
  rw [parseLines_append_feed]
  refine ⟨fun rs rs' hs ht => ?_, fun rs e hs ht => ?_, fun e hs => ?_, fun text e => ?_⟩
  · rw [hs, ofLines_eq_ok.mpr (ofLines_eq_ok.mp ht)]
    rfl
  · obtain ⟨before, line, after, hlines, hbefore, hline, rfl⟩ := ofLines_eq_error.mp ht
    refine ⟨_, rfl, ?_⟩
    rw [hs, ofLines_eq_error.mpr ⟨before, line, after, hlines, hbefore, hline, rfl⟩]
    refine congrArg (Except.error ∘ Error.recordLine) ?_
    omega
  · obtain ⟨before, line, after, -, -, -, rfl⟩ := ofLines_eq_error.mp hs
    exact ⟨_, rfl, by rw [hs]; rfl⟩
  · simp only [parseLines, ofLines_eq_error, Nat.add_comm 1]

/-- The first text ends in a return without a line feed, once behind a record and once on a blank line. -/
theorem parseLines_append_returns :
    parseLines ("\x7b\x7d\r" ++ "\n" ++ "\x7b\x7d") = .ok [empty, empty] ∧
      parseLines ("\x7b\x7d\r\n \r" ++ "\n" ++ "\x7b\x7d\n[]") = .error (.recordLine 4) ∧
      parseLines ("\n[]" ++ "\n" ++ "[]") = .error (.recordLine 2) := by
  refine ⟨?_, ?_, ?_⟩
  · exact (parseLines_append "\x7b\x7d\r" "\x7b\x7d").1 [empty] [empty] (by decide +kernel) (by decide +kernel)
  · have hs : parseLines "\x7b\x7d\r\n \r" = .ok [empty] := by decide +kernel
    have ht : parseLines "\x7b\x7d\n[]" = .error (.recordLine 2) := by decide +kernel
    obtain ⟨k, hk, htext⟩ := (parseLines_append _ _).2.1 _ _ hs ht
    cases hk
    exact htext
  · have hs : parseLines "\n[]" = .error (.recordLine 2) := by decide +kernel
    obtain ⟨k, hk, htext⟩ := (parseLines_append _ "[]").2.2.1 _ hs
    cases hk
    exact htext

end Cutflow.Record
