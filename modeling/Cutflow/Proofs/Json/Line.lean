import Cutflow.Proofs.Decimal.Layout
import Cutflow.Proofs.Text.Line
import Cutflow.Proofs.Token.Lexeme
import Cutflow.Record.Json

/-!
# JSON on one line

What is written as JSON holds no control characters: strings spell them out, and all the rest is made
of characters that show. So it holds no line end, and texts of JSON on lines of their own are these lines.

## What is proved

* `noControl_quote`, `noControl_write`, `noControl_writeObject`: no control character is written.
* `lines_flatMap`: texts without control characters, each ended by a line feed, are the lines.
* `Record.ofLines_eq_ok`: an event file holds one record on each line that is not blank.
-/

namespace Cutflow

namespace Text

/-- No character is one of the control characters of ASCII below the space. -/
def NoControl (cs : List Char) : Prop := ∀ c ∈ cs, 0x20 ≤ c.toNat

variable {cs ds : List Char}

theorem NoControl.append (h : NoControl cs) (h' : NoControl ds) : NoControl (cs ++ ds) :=
  List.forall_mem_append.mpr ⟨h, h'⟩

theorem NoControl.of_isGraphic (h : ∀ c ∈ cs, Token.IsGraphic c) : NoControl cs :=
  fun c hc => Nat.le_of_succ_le (h c hc).1

theorem NoControl.intercalate {parts : List (List Char)} (h : NoControl cs) (hp : ∀ p ∈ parts, NoControl p) :
    NoControl (cs.intercalate parts) := by
  induction parts with
  | nil => simp [NoControl]
  | cons p parts ih =>
    rw [List.forall_mem_cons] at hp
    cases parts with
    | nil => simpa using hp.1
    | cons q parts =>
      rw [List.intercalate_cons_cons]
      exact (hp.1.append h).append (ih hp.2)

theorem NoControl.not_mem {c : Char} (h : NoControl cs) (hc : c.toNat < 0x20) : c ∉ cs :=
  fun hmem => absurd (h c hmem) (Nat.not_le.mpr hc)

theorem lines_flatMap {texts : List String} (h : ∀ t ∈ texts, NoControl t.toList) :
    lines (texts.flatMap fun t => t.toList ++ ['\n']) = texts.map String.toList := by
  induction texts with
  | nil => rfl
  | cons t texts ih =>
    rw [List.forall_mem_cons] at h
    have hr : t.toList.getLast? ≠ some '\r' :=
      fun hlast => h.1.not_mem (by decide) (List.mem_of_getLast? hlast)
    rw [List.flatMap_cons, lines_append_ending (h.1.not_mem (by decide)) (.inl rfl) fun _ => hr,
      ih h.2, List.map_cons]

end Text

open Text Token

namespace Json

theorem noControl_hexDigit {n : Nat} (h : n < 16) : 0x20 ≤ (hexDigit n).toNat := by
  interval_cases n <;> decide

theorem noControl_escape (c : Char) : NoControl (escape c) := by
  unfold escape
  split
  case h_8 =>
    split
    next hc =>
      have h1 : 0x20 ≤ (hexDigit (c.toNat / 16)).toNat := noControl_hexDigit (by omega)
      have h2 : 0x20 ≤ (hexDigit (c.toNat % 16)).toNat := noControl_hexDigit (by omega)
      simp [NoControl, h1, h2]
    next hc => simpa [NoControl] using Nat.le_of_not_lt hc
  all_goals simp [NoControl]

theorem noControl_quote (s : String) : NoControl (quote s).toList := by
  rw [quote, String.toList_ofList]
  intro c hc
  rw [List.cons_append, List.mem_cons, List.mem_append, List.mem_flatMap, List.mem_singleton] at hc
  rcases hc with rfl | ⟨d, -, hc⟩ | rfl
  · decide
  · exact noControl_escape d c hc
  · decide

theorem noControl_write (x : Float) : NoControl (layout.write x).toList := by
  refine .of_isGraphic fun c hc => ?_
  have hnull : ∀ c ∈ "null".toList, IsGraphic c := by
    simp [IsGraphic]
  rw [Decimal.Layout.write] at hc
  split at hc
  · exact hnull c hc
  split at hc
  · exact hnull c (by simpa [layout] using hc)
  rw [String.toList_ofList, List.mem_append] at hc
  rcases hc with hc | hc
  · split at hc
    · rw [List.mem_singleton.mp hc]
      exact ⟨by decide, by decide⟩
    · cases hc
  · obtain ⟨d, hd, -⟩ := layout.number_chars (Decimal.shortest layout.tie x)
    have hnum := (number_length hd).2
    rw [List.take_length] at hnum
    exact isGraphic_of_isNumberChar (hnum c hc)

theorem noControl_writeList {entries : List String} (h : ∀ e ∈ entries, NoControl e.toList) :
    NoControl (writeList entries).toList := by
  rw [writeList, String.toList_append, String.toList_append, String.toList_intercalate]
  refine (NoControl.append (by simp [NoControl]) ?_).append (by simp [NoControl])
  exact .intercalate (by simp [NoControl]) (by simpa using h)

theorem noControl_writeObject {members : List (String × String)} (h : ∀ m ∈ members, NoControl m.2.toList) :
    NoControl (writeObject members).toList := by
  rw [writeObject, String.toList_append, String.toList_append, String.toList_intercalate]
  refine (NoControl.append (by simp [NoControl]) ?_).append (by simp [NoControl])
  refine .intercalate (by simp [NoControl]) fun p hp => ?_
  rw [List.map_map, List.mem_map] at hp
  obtain ⟨m, hm, rfl⟩ := hp
  simp only [Function.comp_apply, String.toList_append]
  exact ((noControl_quote m.1).append (by simp [NoControl])).append (h m hm)

end Json

theorem Value.noControl_toJson (v : Value) : NoControl v.toJson.toList := by
  cases v with
  | scalar x => exact Json.noControl_write x
  | vector xs =>
    refine Json.noControl_writeList fun e he => ?_
    obtain ⟨x, -, rfl⟩ := List.mem_map.mp he
    exact Json.noControl_write x

theorem Record.noControl_toJson (r : Record) : NoControl r.toJson.toList := by
  refine Json.noControl_writeObject fun m hm => ?_
  obtain ⟨⟨name, v⟩, -, rfl⟩ := List.mem_map.mp hm
  exact v.noControl_toJson

/-! ### Event files -/

theorem Record.ofLines_eq_ok {number : Nat} {lines : List (List Char)} {rs : List Record} :
    ofLines number lines = .ok rs ↔ List.Forall₂ (fun line r => ofJson line = .ok r)
      (lines.filter fun line => !isBlankLine line) rs := by
  induction lines generalizing number rs with
  | nil =>
    rw [ofLines, List.filter_nil, List.forall₂_nil_left_iff, Except.ok.injEq, eq_comm]
  | cons line lines ih =>
    rw [ofLines]
    split
    next hb =>
      rw [List.filter_cons_of_neg (by simp [hb]), ih]
    next hb =>
      rw [List.filter_cons_of_pos (by simp [hb]), List.forall₂_cons_left_iff]
      cases hr : ofJson line with
      | error e => simp
      | ok r =>
        simp only [bind_eq_ok, pure_eq_ok, ih]
        constructor
        · rintro ⟨rest, hrest, rfl⟩
          exact ⟨r, rest, rfl, hrest, rfl⟩
        · rintro ⟨r', rest, ⟨⟩, hrest, rfl⟩
          exact ⟨rest, hrest, rfl⟩

end Cutflow
