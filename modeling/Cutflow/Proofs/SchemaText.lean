import Cutflow.Proofs.Json.Object
import Cutflow.Proofs.Outcome
import Cutflow.Proofs.Text.Byte
import Cutflow.Schema.Json

/-!
# Schemas read back

A schema may declare variables of any names, but the text of a schema is refused if one of the names is
no identifier. So what is written for a schema reads as the schema again if all names are identifiers, and
else the first of the others is named in the error.

## What is proved

* `Schema.ofJson_toJson`: the text of a schema spells the schema, whatever the names are.
* `Schema.invalidName?_eq_some_iff`: the name in the error is the least one in the order of bytes.
* `Schema.parse_toJson`: when a schema reads back, and that one that has been read does.
-/

namespace Cutflow

open Text

/-! ### Identifiers -/

/-- A letter of ASCII or an underscore. -/
def Text.IsLetter (c : Char) : Prop := ('A' ≤ c ∧ c ≤ 'Z') ∨ ('a' ≤ c ∧ c ≤ 'z') ∨ c = '_'

/-- A letter of ASCII or an underscore, then letters, digits and underscores. -/
def Text.IsPlainName (name : String) : Prop :=
  ∃ c cs, name.toList = c :: cs ∧ IsLetter c ∧ ∀ d ∈ cs, IsLetter d ∨ ('0' ≤ d ∧ d ≤ '9')

theorem Text.isWordHead_iff {c : Char} : isWordHead c = true ↔ IsLetter c := by
  simp only [isWordHead, IsLetter, Char.isAlpha, Char.isUpper, Char.isLower, Bool.or_eq_true, Bool.and_eq_true,
    decide_eq_true_eq, or_assoc, ge_iff_le]
  rfl

theorem Text.isWordTail_iff {c : Char} : isWordTail c = true ↔ IsLetter c ∨ ('0' ≤ c ∧ c ≤ '9') := by
  rw [← isWordHead_iff]
  simp only [isWordTail, isWordHead, Char.isAlphanum, Char.isDigit, Bool.or_eq_true, Bool.and_eq_true,
    decide_eq_true_eq, ge_iff_le]
  exact or_right_comm

theorem Text.isIdentifier_iff {name : String} : isIdentifier name = true ↔ IsPlainName name := by
  rw [isIdentifier, IsPlainName]
  cases name.toList with
  | nil => simp
  | cons c cs => simp [isWordHead_iff, isWordTail_iff]

namespace Schema

variable {s : Schema} {name : String}

/-! ### Names that are refused -/

/-- The schema declares a variable of this name. -/
def Declares (s : Schema) (name : String) : Prop := ∃ shape, s.shapeOf? name = some shape

theorem declares_iff : s.Declares name ↔ name ∈ s.shapes.toList.map (·.1) := by
  rw [Declares, ← Option.isSome_iff_exists, shapeOf?, NameMap.find?, List.lookup_isSome_iff, List.mem_map]
  exact exists_congr fun entry => and_congr_right fun _ => by rw [beq_iff_eq, eq_comm]

theorem names_sorted (s : Schema) : (s.shapes.toList.map (·.1)).Pairwise (· < ·) :=
  List.pairwise_map.mpr s.shapes.sorted

theorem invalidName?_eq_none_iff : s.invalidName? = none ↔ ∀ name, s.Declares name → IsPlainName name := by
  rw [invalidName?, List.find?_eq_none]
  refine forall_congr' fun name => ?_
  rw [declares_iff, ← isIdentifier_iff]
  simp

theorem exists_of_invalidName? (h : s.invalidName? = some name) : s.Declares name ∧ ¬ IsPlainName name ∧
    ∀ other, s.Declares other → ¬ IsPlainName other → other ≠ name → bytes name < bytes other := by
  obtain ⟨hname, before, after, hnames, hbefore⟩ := List.find?_eq_some_iff_append.mp h
  have hsorted := s.names_sorted
  rw [hnames] at hsorted
  simp only [declares_iff, ← isIdentifier_iff, hnames]
  refine ⟨by simp, by simpa using hname, fun other hmem hother hne => ?_⟩
  rcases List.mem_append.mp hmem with hmem | hmem
  · exact absurd (by simpa using hbefore other hmem) hother
  · have hlt := (List.pairwise_append.mp hsorted).2.1
    exact bytes_lt_bytes (List.rel_of_pairwise_cons hlt (List.mem_of_ne_of_mem hne hmem))

/-- **The name that is refused is the least one** in the order of bytes that is no identifier. -/
theorem invalidName?_eq_some_iff : s.invalidName? = some name ↔ s.Declares name ∧ ¬ IsPlainName name ∧
    ∀ other, s.Declares other → ¬ IsPlainName other → other ≠ name → bytes name < bytes other := by
  refine ⟨exists_of_invalidName?, fun ⟨hdecl, hname, hleast⟩ => ?_⟩
  cases hs : s.invalidName? with
  | none => exact absurd (invalidName?_eq_none_iff.mp hs name hdecl) hname
  | some other =>
    obtain ⟨hdecl', hother, hleast'⟩ := exists_of_invalidName? hs
    by_cases hne : other = name
    · rw [hne]
    · have hlt := hleast other hdecl' hother hne
      exact absurd (hleast' name hdecl hname (Ne.symm hne)) (List.lt_asymm hlt)

/-! ### Reading what is written -/

theorem reads_label (shape : Shape) : Json.Reads Schema.shape (Json.quote shape.label).toList shape := by
  intro rest _
  refine ⟨1, ?_, ?_⟩
  · rw [Json.tokens_quote, Schema.shape, shapeOfWord, Shape.ofLabel?_label]
    rfl
  · rw [Json.tokens_quote, List.drop_succ_cons, List.drop_zero]

/-- **The text of a schema spells the schema**, whatever names it declares. -/
theorem ofJson_toJson (s : Schema) : ofJson s.toJson.toList = .ok s := by
  have hobject : Json.object Schema.shape (Json.tokens s.toJson.toList) = .ok s.shapes.toList := by
    refine Json.object_writeObject (List.forall₂_map_left_iff.mpr ?_)
    exact List.forall₂_same.mpr fun entry _ => ⟨rfl, reads_label entry.2⟩
  rw [ofJson, hobject]
  show Except.ok (⟨.ofList s.shapes.toList⟩ : Schema) = .ok s
  rw [NameMap.ofList_toList]

theorem parse_eq {text : String} (h : ofJson text.toList = .ok s) :
    parse text = match s.invalidName? with
      | some name => .error (.variableName name)
      | none => .ok s := by
  rw [parse, h]
  show (s.validate >>= fun _ => pure s) = _
  rw [validate]
  cases s.invalidName? <;> rfl

theorem invalidName?_of_parse {text : String} (h : parse text = .ok s) : s.invalidName? = none := by
  cases hs : ofJson text.toList with
  | error fault =>
    rw [parse, hs] at h
    cases h
  | ok s' =>
    rw [parse_eq hs] at h
    cases hn : s'.invalidName? with
    | none =>
      rw [hn] at h
      cases h
      exact hn
    | some name =>
      rw [hn] at h
      cases h

/-- **A schema reads back if all its names are identifiers**, and else the error names the least of the
others in the order of bytes. A schema that comes of a text has passed this check, so it reads back. -/
theorem parse_toJson :
    (∀ s : Schema, (parse s.toJson = .ok s ↔ ∀ name, s.Declares name → IsPlainName name) ∧
      ((∃ name, s.Declares name ∧ ¬ IsPlainName name) →
        ∃ name, parse s.toJson = .error (.variableName name) ∧ s.Declares name ∧ ¬ IsPlainName name ∧
          ∀ other, s.Declares other → ¬ IsPlainName other → other ≠ name → bytes name < bytes other)) ∧
    ∀ (text : String) (s : Schema), parse text = .ok s → s.validate = .ok () ∧ parse s.toJson = .ok s := by
  refine ⟨fun s => ⟨?_, ?_⟩, fun text s h => ?_⟩
  · rw [parse_eq s.ofJson_toJson, ← invalidName?_eq_none_iff]
    cases s.invalidName? <;> simp
  · rintro ⟨other, hdecl, hother⟩
    rw [parse_eq s.ofJson_toJson]
    cases hs : s.invalidName? with
    | none => exact absurd (invalidName?_eq_none_iff.mp hs other hdecl) hother
    | some name => exact ⟨name, rfl, exists_of_invalidName? hs⟩
  · have hnone := invalidName?_of_parse h
    rw [parse_eq s.ofJson_toJson, validate, hnone]
    exact ⟨rfl, rfl⟩

/-- Two names that are no identifiers, of which the one in ASCII comes first, and a text with its members in
another order than that of their names. -/
theorem parse_toJson_accented :
    let s := ((empty.declare "é" .scalar).declare "x-1" .vector).declare "z" .scalar
    let text := "\x7b\"b\": \"scalar\", \"a\": \"vector\"\x7d"
    let t := (empty.declare "a" .vector).declare "b" .scalar
    ((∃ name, s.Declares name ∧ ¬ IsPlainName name) ∧ parse s.toJson = .error (.variableName "x-1")) ∧
      parse text = .ok t ∧ t.validate = .ok () ∧ parse t.toJson = .ok t := by
  intro s text t
  have hrefused (name : String) (h : isIdentifier name = false) : ¬ IsPlainName name := by
    rw [← isIdentifier_iff, h]
    exact Bool.false_ne_true
  have hname : ∃ name, s.Declares name ∧ ¬ IsPlainName name := ⟨"é", ⟨_, rfl⟩, hrefused _ (by decide)⟩
  have hparse : parse text = .ok t := by decide +kernel
  refine ⟨⟨hname, ?_⟩, hparse, parse_toJson.2 text t hparse⟩
  obtain ⟨name, herror, hdecl, hplain, hleast⟩ := (parse_toJson.1 s).2 hname
  have hmem : name ∈ ["x-1", "z", "é"] := declares_iff.mp hdecl
  rw [List.mem_cons, List.mem_cons, List.mem_singleton] at hmem
  rcases hmem with rfl | rfl | rfl
  · exact herror
  · exact absurd (isIdentifier_iff.mp (by decide)) hplain
  · have hlt := hleast "x-1" ⟨_, rfl⟩ (hrefused _ (by decide)) (by decide)
    exact absurd hlt (by decide)

end Schema

end Cutflow
