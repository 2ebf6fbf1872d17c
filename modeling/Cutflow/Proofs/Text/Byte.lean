import Mathlib

/-!
# Texts as bytes

Offsets in a text count its bytes in UTF-8, and names are put in order by theirs. A place in a text is
between two characters of it or at an end, so what is cut out of a text from one place to another is a
text again (`IsSlice`); from a byte in the middle of a character nothing can be cut.

## What is proved

* `isSlice_iff_of_ascii`, `bytes_of_ascii`: in a text of ASCII characters, bytes are characters.
* `bytes_lt_bytes`: texts in the order of their characters are in the order of their bytes.
-/

namespace Cutflow.Text

/-- The bytes of a text in UTF-8. -/
def bytes (s : String) : List UInt8 := s.toUTF8.data.toList

/-- The slice of a text from byte `start` up to but not including byte `stop`. There is none unless both
are places in the text, the first not behind the second. -/
def IsSlice (text : String) (start stop : Nat) (slice : String) : Prop :=
  ∃ before after, text = before ++ slice ++ after ∧ before.utf8ByteSize = start ∧
    (before ++ slice).utf8ByteSize = stop

variable {s t text slice : String} {cs : List Char} {c d : Char} {start stop : Nat}

theorem bytes_eq (s : String) : bytes s = s.toList.flatMap String.utf8EncodeChar := by
  obtain ⟨cs, rfl⟩ := s.exists_eq_ofList
  simp [bytes, List.utf8Encode]

theorem length_bytes (s : String) : (bytes s).length = s.utf8ByteSize := rfl

/-! ### ASCII -/

/-- All characters are ASCII. -/
def Ascii (cs : List Char) : Prop := ∀ c ∈ cs, c.toNat < 128

theorem utf8EncodeChar_of_ascii (h : c.toNat < 128) : String.utf8EncodeChar c = [c.toUInt8] := by
  refine String.utf8EncodeChar_eq_singleton (Char.utf8Size_eq_one_iff.mpr ?_)
  exact UInt32.le_iff_toNat_le.mpr (Nat.le_of_lt_succ h)

theorem bytes_of_ascii (h : Ascii s.toList) : bytes s = s.toList.map Char.toUInt8 := by
  rw [bytes_eq, List.map_eq_flatMap]
  exact List.flatMap_congr fun c hc => utf8EncodeChar_of_ascii (h c hc)

theorem utf8ByteSize_of_ascii (h : Ascii s.toList) : s.utf8ByteSize = s.toList.length := by
  rw [← length_bytes, bytes_of_ascii h, List.length_map]

theorem isSlice_iff_of_ascii (h : Ascii text.toList) :
    IsSlice text start stop slice ↔ ∃ before after, text.toList = before ++ slice.toList ++ after ∧
      before.length = start ∧ start + slice.toList.length = stop := by
  constructor
  · rintro ⟨before, after, rfl, rfl, rfl⟩
    have hbefore : Ascii before.toList := fun c hc => h c (by simp [hc])
    have hslice : Ascii slice.toList := fun c hc => h c (by simp [hc])
    refine ⟨before.toList, after.toList, by simp, (utf8ByteSize_of_ascii hbefore).symm, ?_⟩
    rw [String.utf8ByteSize_append, utf8ByteSize_of_ascii hslice]
  · rintro ⟨before, after, htext, rfl, rfl⟩
    have hbefore : Ascii (String.ofList before).toList := fun c hc => h c (by simp_all)
    have hslice : Ascii slice.toList := fun c hc => h c (by simp_all)
    have hlength : (String.ofList before).utf8ByteSize = before.length := by
      rw [utf8ByteSize_of_ascii hbefore, String.toList_ofList]
    refine ⟨String.ofList before, String.ofList after, ?_, hlength, ?_⟩
    · rw [← String.toList_inj]
      simpa using htext
    · rw [String.utf8ByteSize_append, hlength, utf8ByteSize_of_ascii hslice]

/-! ### The order of bytes -/

/-- Whatever follows two characters, the bytes of the greater one are the greater ones: a longer encoding
begins with a greater byte, and of two equally long ones each byte holds the next bits of the character. -/
theorem utf8EncodeChar_append_lt (h : c < d) (u v : List UInt8) :
    String.utf8EncodeChar c ++ u < String.utf8EncodeChar d ++ v := by
  have hn : c.val.toNat < d.val.toNat := UInt32.lt_iff_toNat_lt.mp h
  have hd : d.val.toNat < 0x110000 := by
    have := d.valid
    unfold UInt32.isValidChar Nat.isValidChar at this
    omega
  -- with the quotients nested, the arithmetic that remains is linear
  have h2 (n : Nat) : n / 4096 = n / 64 / 64 := by omega
  have h3 (n : Nat) : n / 262144 = n / 64 / 64 / 64 := by omega
  unfold String.utf8EncodeChar
  simp only [h2, h3]
  generalize c.val.toNat = m at *
  generalize d.val.toNat = n at *
  clear h h2 h3
  split_ifs <;> simp only [List.cons_append, List.nil_append, List.cons_lt_cons_iff,
    UInt8.lt_iff_toNat_lt, ← UInt8.toNat_inj, UInt8.toNat_ofNat'] <;> omega

/-- **The order of names is that of their bytes.** -/
theorem bytes_lt_bytes (h : s < t) : bytes s < bytes t := by
  rw [bytes_eq, bytes_eq]
  have hl : s.toList < t.toList := h
  generalize s.toList = cs, t.toList = ds at hl
  induction hl with
  | @nil d ds =>
    obtain ⟨b, bs, hb⟩ := List.exists_cons_of_ne_nil (String.utf8EncodeChar_ne_nil (c := d))
    rw [List.flatMap_cons, hb]
    exact List.nil_lt_cons ..
  | rel h => exact utf8EncodeChar_append_lt h _ _
  | cons h ih =>
    rw [List.flatMap_cons, List.flatMap_cons]
    exact List.append_left_lt ih

end Cutflow.Text
