import Cutflow.Proofs.Json.Accuracy
import Cutflow.Proofs.Json.Line

/-!
# Event files read back

A record that is written as JSON is read as a record of the same names and shapes. Every number is
replaced by what its own text is read as, which is the number itself for most doubles and one near to it
for some. What holds of one record holds of the lines of an event file.

## What is proved

* `Record.parse_toJson_eq_ok`: the text of a record is read as the record with its numbers replaced, and is
  refused if one of them cannot be read.
* `Record.parseLines_eq_ok`: so is a text in which records stand on lines of their own.
* `Record.parse_written`: finite numbers are always read, never far from what they were, and unchanged if
  their digits are few.
-/

namespace Cutflow

open Json Text

theorem exists_forall₂ {α β : Type} {R : α → β → Prop} {l : List α} (h : ∀ a ∈ l, ∃ b, R a b) :
    ∃ l', List.Forall₂ R l l' := by
  induction l with
  | nil => exact ⟨[], .nil⟩
  | cons a l ih =>
    rw [List.forall_mem_cons] at h
    obtain ⟨b, hb⟩ := h.1
    obtain ⟨l', hl'⟩ := ih h.2
    exact ⟨b :: l', .cons hb hl'⟩

/-! ### Lists of numbers -/

namespace Json

/-- The text of the entries of a list after the first one. -/
def tailChars (xs : List Float) : List Char := xs.flatMap (fun x => ',' :: (layout.write x).toList) ++ [']']

variable {x : Float} {xs ys : List Float} {rest : List Char}

theorem toList_writeList_cons (x : Float) (xs : List Float) :
    (writeList ((x :: xs).map layout.write)).toList = '[' :: ((layout.write x).toList ++ tailChars xs) := by
  have hjoin : ∀ (a : List Char) (as : List (List Char)),
      [','].intercalate (a :: as) = a ++ as.flatMap (',' :: ·) := by
    intro a as
    induction as generalizing a with
    | nil => simp
    | cons b as ih => rw [List.intercalate_cons_cons, ih, List.flatMap_cons, List.append_assoc]; rfl
  simp [writeList, tailChars, hjoin, List.flatMap_map]

theorem tokens_writeList_cons (x : Float) (xs : List Float) (rest : List Char) :
    tokens ((writeList ((x :: xs).map layout.write)).toList ++ rest) =
      .openBracket :: tokens ((layout.write x).toList ++ (tailChars xs ++ rest)) := by
  rw [toList_writeList_cons, List.cons_append, List.append_assoc, tokens_mark rfl rfl]

theorem tokens_tailChars_cons (x : Float) (xs : List Float) (rest : List Char) :
    tokens (tailChars (x :: xs) ++ rest) = .comma :: tokens ((layout.write x).toList ++ (tailChars xs ++ rest)) := by
  have htext : tailChars (x :: xs) ++ rest = ',' :: ((layout.write x).toList ++ (tailChars xs ++ rest)) := by
    simp [tailChars]
  rw [htext, tokens_comma]

theorem separated_tailChars (xs : List Float) (rest : List Char) : Separated (tailChars xs ++ rest) := by
  cases xs with
  | nil => exact separated_bracket rest
  | cons x xs => exact separated_comma _

theorem entries_tailChars (h : List.Forall₂ (fun x y => reread? x = some y) xs ys) (rest : List Char) :
    ∃ n, Record.entries (tokens (tailChars xs ++ rest)) = .ok (ys, n) ∧
      (tokens (tailChars xs ++ rest)).drop n = tokens rest := by
  induction h with
  | nil =>
    have htokens : tokens (tailChars [] ++ rest) = .closeBracket :: tokens rest := tokens_mark rfl rfl
    rw [htokens]
    exact ⟨1, rfl, rfl⟩
  | @cons x y xs ys hx _ ih =>
    obtain ⟨n, hn, hdrop⟩ := ih
    rw [tokens_tailChars_cons, tokens_write hx (separated_tailChars xs rest), Record.entries, hn]
    exact ⟨n + 2, rfl, hdrop⟩

theorem entries_tailChars_error (h : ∃ x ∈ xs, reread? x = none) (rest : List Char) :
    ∃ fault, Record.entries (tokens (tailChars xs ++ rest)) = .error fault := by
  induction xs with
  | nil =>
    obtain ⟨x, hx, -⟩ := h
    cases hx
  | cons x xs ih =>
    have hsep := separated_tailChars xs rest
    rw [tokens_tailChars_cons]
    cases hx : reread? x with
    | none =>
      obtain ⟨t, ts, htokens, ht⟩ := tokens_write_none hx hsep
      rw [htokens]
      rcases ht with rfl | rfl <;> exact ⟨_, rfl⟩
    | some y =>
      obtain ⟨x', hmem, hnone⟩ := h
      rcases List.mem_cons.mp hmem with rfl | hmem
      · cases hx.symm.trans hnone
      · obtain ⟨fault, hfault⟩ := ih ⟨x', hmem, hnone⟩
        rw [tokens_write hx hsep, Record.entries, hfault]
        exact ⟨fault, rfl⟩

end Json

/-! ### Values -/

namespace Value

/-- The value with every number replaced by what its text is read as. -/
inductive Rereads : Value → Value → Prop where
  /-- One number. -/
  | scalar {x y : Float} : reread? x = some y → Rereads (.scalar x) (.scalar y)
  /-- Number by number. -/
  | vector {xs ys : List Float} : List.Forall₂ (fun x y => reread? x = some y) xs ys →
      Rereads (.vector xs) (.vector ys)

/-- The numbers of a value. -/
def numbers : Value → List Float
  | .scalar x => [x]
  | .vector xs => xs

variable {v w : Value}

theorem Rereads.reads (h : v.Rereads w) : Reads Record.value v.toJson.toList w := by
  intro rest hsep
  cases h with
  | @scalar x y hx =>
    rw [toJson, tokens_write hx hsep]
    exact ⟨1, rfl, rfl⟩
  | @vector xs ys hxs =>
    cases hxs with
    | nil =>
      have htokens : tokens ((toJson (.vector [])).toList ++ rest) = .openBracket :: .closeBracket :: tokens rest := by
        show tokens ('[' :: ']' :: rest) = _
        rw [tokens_mark rfl rfl, tokens_mark rfl rfl]
      rw [htokens]
      exact ⟨2, rfl, rfl⟩
    | @cons x y xs ys hx hxs =>
      obtain ⟨n, hn, hdrop⟩ := entries_tailChars hxs rest
      rw [toJson, tokens_writeList_cons, tokens_write hx (separated_tailChars xs rest), Record.value, hn]
      exact ⟨n + 2, rfl, hdrop⟩

theorem refuses (h : ∃ x ∈ v.numbers, reread? x = none) : Refuses Record.value v.toJson.toList := by
  intro rest hsep
  cases v with
  | scalar x =>
    obtain ⟨_, hmem, hx⟩ := h
    obtain rfl := List.mem_singleton.mp hmem
    obtain ⟨t, ts, htokens, ht⟩ := tokens_write_none hx hsep
    rw [toJson, htokens]
    rcases ht with rfl | rfl <;> exact ⟨_, rfl⟩
  | vector xs =>
    cases xs with
    | nil =>
      obtain ⟨x, hx, -⟩ := h
      cases hx
    | cons x xs =>
      have htail := separated_tailChars xs rest
      rw [toJson, tokens_writeList_cons]
      cases hx : reread? x with
      | none =>
        obtain ⟨t, ts, htokens, ht⟩ := tokens_write_none hx htail
        rw [htokens]
        rcases ht with rfl | rfl <;> exact ⟨_, rfl⟩
      | some y =>
        obtain ⟨x', hmem, hnone⟩ := h
        rcases List.mem_cons.mp hmem with rfl | hmem
        · cases hx.symm.trans hnone
        · obtain ⟨fault, hfault⟩ := entries_tailChars_error ⟨x', hmem, hnone⟩ rest
          rw [tokens_write hx htail, Record.value, hfault]
          exact ⟨fault, rfl⟩

theorem rereads_or_exists (v : Value) : (∃ w, v.Rereads w) ∨ ∃ x ∈ v.numbers, reread? x = none := by
  by_cases h : ∃ x ∈ v.numbers, reread? x = none
  · exact .inr h
  · have hsome : ∀ x ∈ v.numbers, ∃ y, reread? x = some y := fun x hx =>
      Option.ne_none_iff_exists'.mp fun hnone => h ⟨x, hx, hnone⟩
    left
    cases v with
    | scalar x =>
      obtain ⟨y, hy⟩ := hsome x (List.mem_singleton_self x)
      exact ⟨.scalar y, .scalar hy⟩
    | vector xs =>
      obtain ⟨ys, hys⟩ := exists_forall₂ hsome
      exact ⟨.vector ys, .vector hys⟩

theorem rereads_self_iff : v.Rereads v ↔ ∀ x ∈ v.numbers, reread? x = some x := by
  cases v with
  | scalar x =>
    rw [numbers, List.forall_mem_singleton]
    refine ⟨fun h => ?_, .scalar⟩
    cases h with
    | scalar hx => exact hx
  | vector xs =>
    refine ⟨fun h => ?_, fun h => .vector (List.forall₂_same.mpr h)⟩
    cases h with
    | vector hxs => exact List.forall₂_same.mp hxs

theorem Rereads.numbers (h : v.Rereads w) :
    List.Forall₂ (fun x y => reread? x = some y) v.numbers w.numbers := by
  cases h with
  | scalar hx => exact .cons hx .nil
  | vector hxs => exact hxs

end Value

/-! ### Records -/

namespace Record

/-- The record with every number replaced by what its text is read as. -/
def Rereads (r r' : Record) : Prop :=
  List.Forall₂ (fun a b => a.1 = b.1 ∧ a.2.Rereads b.2) r.values.toList r'.values.toList

/-- All numbers of a record. -/
def numbers (r : Record) : List Float := r.values.toList.flatMap fun entry => entry.2.numbers

variable {r r' : Record}

theorem rereads_self_iff : r.Rereads r ↔ ∀ x ∈ r.numbers, reread? x = some x := by
  simp only [Rereads, List.forall₂_same, true_and, Value.rereads_self_iff, numbers, List.forall_mem_flatMap]

theorem Rereads.numbers (h : r.Rereads r') :
    List.Forall₂ (fun x y => reread? x = some y) r.numbers r'.numbers :=
  List.rel_flatMap h fun _ _ hab => hab.2.numbers

/-- No number is far from the one it was. -/
theorem Rereads.near (h : r.Rereads r') : List.Forall₂ Near r.numbers r'.numbers :=
  h.numbers.imp fun _ _ => near_of_reread?

theorem Rereads.ofJson (h : r.Rereads r') : ofJson r.toJson.toList = .ok r' := by
  have hobject : object value (tokens r.toJson.toList) = .ok r'.values.toList := by
    refine object_writeObject (List.forall₂_map_left_iff.mpr ?_)
    exact List.Forall₂.imp (fun a b hab => ⟨hab.1, hab.2.reads⟩) h
  rw [Record.ofJson, hobject]
  show Except.ok (⟨.ofList r'.values.toList⟩ : Record) = .ok r'
  rw [NameMap.ofList_toList]

/-- One number that cannot be read spoils the record. -/
theorem ofJson_error (h : ∃ x ∈ r.numbers, reread? x = none) : ∃ fault, ofJson r.toJson.toList = .error fault := by
  obtain ⟨x, hx, hnone⟩ := h
  obtain ⟨entry, hentry, hx⟩ := List.mem_flatMap.mp hx
  have hobject : ∃ fault, object value (tokens r.toJson.toList) = .error fault := by
    refine object_writeObject_error (fun m hm => ?_) ?_
    · obtain ⟨entry, -, rfl⟩ := List.mem_map.mp hm
      exact entry.2.rereads_or_exists.imp (fun ⟨w, hw⟩ => ⟨w, hw.reads⟩) Value.refuses
    · exact ⟨_, List.mem_map_of_mem hentry, Value.refuses ⟨x, hx, hnone⟩⟩
  obtain ⟨fault, hfault⟩ := hobject
  rw [Record.ofJson, hfault]
  exact ⟨fault, rfl⟩

theorem rereads_or_exists (r : Record) : (∃ r', r.Rereads r') ∨ ∃ x ∈ r.numbers, reread? x = none := by
  by_cases h : ∃ x ∈ r.numbers, reread? x = none
  · exact .inr h
  · have hsome : ∀ entry ∈ r.values.toList, ∃ b : String × Value, entry.1 = b.1 ∧ entry.2.Rereads b.2 := by
      intro entry hentry
      rcases entry.2.rereads_or_exists with ⟨w, hw⟩ | ⟨x, hx, hnone⟩
      · exact ⟨(entry.1, w), rfl, hw⟩
      · exact absurd ⟨x, List.mem_flatMap.mpr ⟨entry, hentry, hx⟩, hnone⟩ h
    obtain ⟨entries, hentries⟩ := exists_forall₂ hsome
    have hnames : r.values.toList.map (·.1) = entries.map (·.1) := by
      rw [← List.forall₂_eq_eq_eq, List.forall₂_map_left_iff, List.forall₂_map_right_iff]
      exact hentries.imp fun _ _ hab => hab.1
    have hsorted : entries.Pairwise fun a b => a.1 < b.1 := by
      rw [← List.pairwise_map (f := Prod.fst), ← hnames, List.pairwise_map]
      exact r.values.sorted
    exact .inl ⟨⟨⟨entries, hsorted⟩⟩, hentries⟩

theorem exists_rereads (h : ∀ x ∈ r.numbers, x.isFinite = true) : ∃ r', r.Rereads r' := by
  refine r.rereads_or_exists.resolve_right ?_
  rintro ⟨x, hx, hnone⟩
  obtain ⟨y, hy, -⟩ := exists_near_of_isFinite (h x hx)
  cases hnone.symm.trans hy

theorem ofJson_toJson : ofJson r.toJson.toList = .ok r' ↔ r.Rereads r' := by
  refine ⟨fun h => ?_, Rereads.ofJson⟩
  rcases r.rereads_or_exists with ⟨r'', hr⟩ | hnone
  · cases hr.ofJson.symm.trans h
    exact hr
  · obtain ⟨fault, hfault⟩ := ofJson_error hnone
    cases hfault.symm.trans h

theorem parse_toJson_eq_ok : parse r.toJson = .ok r' ↔ r.Rereads r' := by
  rw [parse, mapError_eq_ok, ofJson_toJson]

theorem parse_toJson_error (h : ∃ x ∈ r.numbers, reread? x = none) : parse r.toJson = .error .recordText := by
  obtain ⟨fault, hfault⟩ := ofJson_error h
  rw [parse, hfault]
  rfl

/-! ### Event files -/

/-- The texts in which records stand on lines of their own, with blank lines anywhere between them. -/
inductive Writes : List Record → List Char → Prop where
  /-- What is left may be blank, or nothing at all. -/
  | rest {line : List Char} : (∀ c ∈ line, isBlank c = true ∧ c ≠ '\n') → Writes [] line
  /-- The last record may stand on a line that is not ended. -/
  | last (r : Record) : Writes [r] r.toJson.toList
  /-- A blank line. -/
  | blank {rs : List Record} {line ending text : List Char} : (∀ c ∈ line, isBlank c = true ∧ c ≠ '\n') →
      IsEnding ending → Writes rs text → Writes rs (line ++ ending ++ text)
  /-- The line of a record. -/
  | record {rs : List Record} {ending text : List Char} (r : Record) : IsEnding ending → Writes rs text →
      Writes (r :: rs) (r.toJson.toList ++ ending ++ text)

variable {rs rs' : List Record} {text : List Char}

theorem not_isBlankLine_toJson (r : Record) : isBlankLine r.toJson.toList = false := by
  rw [toJson, toList_writeObject]
  rfl

theorem lines_blank {line ending text : List Char} (hline : ∀ c ∈ line, isBlank c = true ∧ c ≠ '\n')
    (he : IsEnding ending) :
    ∃ first, lines (line ++ ending ++ text) = first :: lines text ∧ isBlankLine first = true := by
  have hblank : isBlankLine line = true := List.all_eq_true.mpr fun c hc => (hline c hc).1
  have hfeed : '\n' ∉ line := fun hmem => (hline _ hmem).2 rfl
  by_cases hlast : ending = ['\n'] ∧ line.getLast? = some '\r'
  · -- the return at the end of the blank line belongs to its ending
    obtain ⟨rfl, hlast⟩ := hlast
    obtain ⟨front, rfl⟩ := List.getLast?_eq_some_iff.mp hlast
    have hfront : '\n' ∉ front := fun hmem => hfeed (List.mem_append_left _ hmem)
    refine ⟨front, ?_, ?_⟩
    · rw [List.append_assoc front, List.append_assoc front, ← List.append_assoc front]
      exact lines_append_ending hfront (.inr rfl) (by simp) text
    · exact List.all_eq_true.mpr fun c hc => (hline c (List.mem_append_left _ hc)).1
  · exact ⟨line, lines_append_ending hfeed he (fun hend hr => hlast ⟨hend, hr⟩) text, hblank⟩

theorem Writes.filter_lines (h : Writes rs text) :
    (lines text).filter (fun line => !isBlankLine line) = rs.map fun r => r.toJson.toList := by
  induction h with
  | @rest line hline =>
    have hblank : isBlankLine line = true := List.all_eq_true.mpr fun c hc => (hline c hc).1
    by_cases hnil : line = []
    · rw [hnil]
      rfl
    · rw [lines_unended (fun hmem => (hline _ hmem).2 rfl) hnil, List.filter_cons_of_neg (by simp [hblank])]
      rfl
  | last r =>
    have hfeed : '\n' ∉ r.toJson.toList := r.noControl_toJson.not_mem (by decide)
    have hne : r.toJson.toList ≠ [] := by
      rw [toJson, toList_writeObject]
      exact List.cons_ne_nil _ _
    rw [lines_unended hfeed hne, List.filter_cons_of_pos (by simp [r.not_isBlankLine_toJson])]
    rfl
  | blank hline he _ ih =>
    obtain ⟨first, hlines, hblank⟩ := lines_blank hline he
    rw [hlines, List.filter_cons_of_neg (by simp [hblank]), ih]
  | record r he _ ih =>
    have hfeed : '\n' ∉ r.toJson.toList := r.noControl_toJson.not_mem (by decide)
    have hreturn : r.toJson.toList.getLast? ≠ some '\r' := fun hlast =>
      r.noControl_toJson.not_mem (by decide) (List.mem_of_getLast? hlast)
    rw [lines_append_ending hfeed he fun _ => hreturn, List.filter_cons_of_pos (by simp [r.not_isBlankLine_toJson]), ih,
      List.map_cons]

/-- **The records of an event file are read as they are one by one.** -/
theorem parseLines_eq_ok (h : Writes rs text) :
    parseLines (String.ofList text) = .ok rs' ↔ List.Forall₂ Rereads rs rs' := by
  simp only [parseLines, String.toList_ofList, ofLines_eq_ok, h.filter_lines, List.forall₂_map_left_iff,
    ofJson_toJson]

/-- A number with neighbours so near that the reading of its seventeen digits ends with one of them. -/
theorem parse_toJson_neighbour :
    let r := empty.insert "a" (.scalar (Float.ofBits 0x3fccf89a3913d537))
    (∀ x ∈ r.numbers, x.isFinite = true) ∧ r.toJson = "\x7b\"a\":0.22633674418435998\x7d" ∧
      parse r.toJson = .ok (empty.insert "a" (.scalar (Float.ofBits 0x3fccf89a3913d538))) ∧
      parse r.toJson ≠ .ok r ∧ parseLines (r.toJson ++ "\n") ≠ .ok [r] := by
  decide +kernel

theorem eq_iff_of_parse_toJson (h : parse r.toJson = .ok r') : r' = r ↔ ∀ x ∈ r.numbers, reread? x = some x := by
  rw [← rereads_self_iff, ← parse_toJson_eq_ok, h, Except.ok.injEq]

/-- Records of finite numbers on lines of their own are read, and as they were if all numbers are. -/
theorem exists_parseLines (h : Writes rs text) (hfinite : ∀ r ∈ rs, ∀ x ∈ r.numbers, x.isFinite = true) :
    ∃ rs', parseLines (String.ofList text) = .ok rs' ∧ List.Forall₂ Rereads rs rs' ∧
      (rs' = rs ↔ ∀ r ∈ rs, ∀ x ∈ r.numbers, reread? x = some x) := by
  obtain ⟨rs', hrs⟩ := exists_forall₂ fun r hr => exists_rereads (hfinite r hr)
  have hparse := (parseLines_eq_ok h).mpr hrs
  have hself : parseLines (String.ofList text) = .ok rs ↔ ∀ r ∈ rs, ∀ x ∈ r.numbers, reread? x = some x := by
    simp only [parseLines_eq_ok h, List.forall₂_same, rereads_self_iff]
  rw [hparse, Except.ok.injEq] at hself
  exact ⟨rs', hparse, hrs, hself⟩

/-- **Reading undoes writing up to the last digits of the numbers.** Finite numbers are read as numbers near
to them, those of few digits as they were, and everything else in a record is kept; a number that is not
finite makes the text of its record one that is refused. -/
theorem parse_written :
    (∀ (rs : List Record) (text : List Char), Writes rs text → (∀ r ∈ rs, ∀ x ∈ r.numbers, x.isFinite = true) →
        ∃ rs', parseLines (String.ofList text) = .ok rs' ∧ List.Forall₂ Rereads rs rs' ∧
          (rs' = rs ↔ ∀ r ∈ rs, ∀ x ∈ r.numbers, reread? x = some x)) ∧
      (∀ r : Record, (∀ x ∈ r.numbers, x.isFinite = true) → ∃ r', parse r.toJson = .ok r' ∧ r.Rereads r' ∧
        (r' = r ↔ ∀ x ∈ r.numbers, reread? x = some x)) ∧
      (∀ r r' : Record, r.Rereads r' → List.Forall₂ Near r.numbers r'.numbers) ∧
      (∀ x : Float, IsShort x → reread? x = some x) ∧
      ∀ r : Record, (∃ x ∈ r.numbers, x.isFinite = false) → parse r.toJson = .error .recordText := by
  refine ⟨fun _ _ => exists_parseLines, fun r hfinite => ?_, fun _ _ => Rereads.near, fun _ => reread?_of_isShort, ?_⟩
  · obtain ⟨r', hr⟩ := exists_rereads hfinite
    have hparse := parse_toJson_eq_ok.mpr hr
    exact ⟨r', hparse, hr, eq_iff_of_parse_toJson hparse⟩
  · rintro r ⟨x, hx, hinf⟩
    exact parse_toJson_error ⟨x, hx, reread?_of_not_finite hinf⟩

/-- Two records of short numbers on lines with different endings, a blank line between them, one with a
number that is not read as itself, and one with a NaN. -/
theorem parse_written_lines :
    let r := (empty.insert "a\"\n\x01é" (.vector [])).insert "b" (.scalar (-0))
    let r' := empty.insert "c" (.vector [1.5, 100])
    let x := Float.ofBits 0x3fccf89a3913d537
    let y := Float.ofBits 0x3fccf89a3913d538
    let nan := Float.ofBits 0x7ff8000000000000
    let s := empty.insert "d" (.vector [1, nan])
    let text := r.toJson.toList ++ ['\r', '\n'] ++ ([' ', '\t'] ++ ['\n'] ++ r'.toJson.toList)
    (Writes [r, r'] text ∧ parseLines (String.ofList text) = .ok [r, r']) ∧ parse r.toJson = .ok r ∧
      (x ≠ y ∧ Near x y) ∧ (∃ x ∈ s.numbers, x.isFinite = false) ∧ parse s.toJson = .error .recordText := by
  intro r r' x y nan s text
  have hgap : ∀ c ∈ [' ', '\t'], isBlank c = true ∧ c ≠ '\n' := by
    rw [List.forall_mem_cons, List.forall_mem_singleton]
    decide
  have htail : Writes [r'] ([' ', '\t'] ++ ['\n'] ++ r'.toJson.toList) := .blank hgap (.inl rfl) (.last r')
  have hwrites : Writes [r, r'] text := .record r (.inr rfl) htail
  obtain ⟨hlines, hrecord, hnear, hself, hrefused⟩ := parse_written
  have hr : ∀ x ∈ r.numbers, IsShort x := by decide +kernel
  have hr' : ∀ x ∈ r'.numbers, IsShort x := by decide +kernel
  have hall : ∀ q ∈ [r, r'], ∀ x ∈ q.numbers, IsShort x := by
    rw [List.forall_mem_cons, List.forall_mem_singleton]
    exact ⟨hr, hr'⟩
  obtain ⟨rs, hparse, -, hrs⟩ := hlines [r, r'] text hwrites fun q hq x hx => (hall q hq x hx).1
  rw [hrs.mpr fun q hq x hx => hself x (hall q hq x hx)] at hparse
  obtain ⟨q, hone, -, hq⟩ := hrecord r fun x hx => (hr x hx).1
  rw [hq.mpr fun x hx => hself x (hr x hx)] at hone
  have hxy := hnear (empty.insert "a" (.scalar x)) (empty.insert "a" (.scalar y))
    (.cons ⟨rfl, .scalar (by decide +kernel)⟩ .nil)
  have hs : ∃ x ∈ s.numbers, x.isFinite = false :=
    ⟨nan, List.mem_cons_of_mem 1 (List.mem_singleton_self nan), by decide⟩
  exact ⟨⟨hwrites, hparse⟩, hone, ⟨by decide, (List.forall₂_cons.mp hxy).1⟩, hs, hrefused s hs⟩

end Record

end Cutflow
