import Cutflow.Text.Printable

/-!
# Texts

The notions of character, word, line and place by which expressions, event files and messages are
read and written.

## The model

Two notions of white space meet in an expression. Between its tokens an expression may hold the
five blanks of ASCII (`isGap`); the name of a function holds no character with Unicode's
`White_Space` property at all (`isBlank`), which is a larger set.

A line of an event file ends at a line feed, or at a return followed by a line feed (`lines`). The
places that messages tell by line and column know the line feed only (`Position`).

## What is proved

* `isBlank_of_isGap`: a gap is a blank, so removing the blanks of a text removes its gaps.
* `not_isBlank_of_mem_withoutBlanks`: what `withoutBlanks` leaves holds no blank.
-/

namespace Cutflow.Text

/-! ### Blanks -/

/-- The characters that may stand between two tokens: space, tab, line feed, form feed, return. -/
def isGap (c : Char) : Bool :=
  c = ' ' || c = '\t' || c = '\n' || c = '\x0c' || c = '\r'

/-- First and last code points of the runs of characters with Unicode's `White_Space` property. -/
def blankRanges : List (Nat × Nat) :=
  [(0x9, 0xd), (0x20, 0x20), (0x85, 0x85), (0xa0, 0xa0), (0x1680, 0x1680), (0x2000, 0x200a),
    (0x2028, 0x2029), (0x202f, 0x202f), (0x205f, 0x205f), (0x3000, 0x3000)]

/-- Whether a character has Unicode's `White_Space` property. -/
def isBlank (c : Char) : Bool :=
  blankRanges.any fun (lo, hi) => lo ≤ c.toNat && c.toNat ≤ hi

/-- The text with its blanks taken out. -/
def withoutBlanks (s : String) : String :=
  String.ofList (s.toList.filter fun c => !isBlank c)

theorem isBlank_of_isGap {c : Char} (h : isGap c = true) : isBlank c = true := by
  simp only [isGap, Bool.or_eq_true, decide_eq_true_eq] at h
  rcases h with (((rfl | rfl) | rfl) | rfl) | rfl <;> decide

theorem toList_withoutBlanks (s : String) :
    (withoutBlanks s).toList = s.toList.filter fun c => !isBlank c := by
  simp [withoutBlanks]

theorem not_isBlank_of_mem_withoutBlanks {s : String} {c : Char}
    (h : c ∈ (withoutBlanks s).toList) : isBlank c = false := by
  rw [toList_withoutBlanks] at h
  simpa using (List.mem_filter.mp h).2

/-! ### Identifiers

The words by which an expression refers to a variable or a function: a letter or an underscore,
then letters, digits and underscores, all of them ASCII. -/

/-- A character that may begin a word. -/
def isWordHead (c : Char) : Bool := c.isAlpha || c = '_'

/-- A character that may continue a word. -/
def isWordTail (c : Char) : Bool := c.isAlphanum || c = '_'

/-- Whether a whole text is one identifier. -/
def isIdentifier (s : String) : Bool :=
  match s.toList with
  | [] => false
  | c :: cs => isWordHead c && cs.all isWordTail

/-! ### Lines

What comes after the last line feed is one more line, if it is not empty. -/

/-- The lines of a text without their ends. -/
def lines : List Char → List (List Char)
  | [] => []
  | '\r' :: '\n' :: cs => [] :: lines cs
  | '\n' :: cs => [] :: lines cs
  | c :: cs =>
    match lines cs with
    | [] => [[c]]
    | line :: rest => (c :: line) :: rest

/-- What follows the first line feed of a text, and the line feed. -/
def withoutFirstLine (s : String) : String := String.ofList (s.toList.dropWhile (· ≠ '\n'))

/-- Whether a line holds nothing but blanks. -/
def isBlankLine (line : List Char) : Bool := line.all isBlank

/-! ### Positions -/

/-- A place in a text. -/
structure Position where
  /-- The line, counted from one. -/
  line : Nat
  /-- How many bytes of the line come before the place. -/
  column : Nat
  deriving DecidableEq

namespace Position

/-- The beginning of a text. -/
def start : Position := ⟨1, 0⟩

/-- The place one character further on. -/
def next (p : Position) (c : Char) : Position :=
  if c = '\n' then ⟨p.line + 1, 0⟩ else ⟨p.line, p.column + c.utf8Size⟩

/-- The end of a text. -/
def after (cs : List Char) : Position := cs.foldl next start

end Position

/-! ### Literals

Texts displayed between quotation marks, with everything in them that would not show, or not
show as itself, spelled out. -/

/-- One character of a displayed text. -/
def literalChar (c : Char) : List Char :=
  match c with
  | '\x00' => ['\\', '0']
  | '\x09' => ['\\', 't']
  | '\x0a' => ['\\', 'n']
  | '\x0d' => ['\\', 'r']
  | '\x22' => ['\\', '\x22']
  | '\\' => ['\\', '\\']
  | c =>
    if isPrintable c then [c]
    else ['\\', 'u', '\x7b'] ++ Nat.toDigits 16 c.toNat ++ ['\x7d']

/-- A text between quotation marks. -/
def literal (s : String) : String :=
  String.ofList ('\x22' :: s.toList.flatMap literalChar ++ ['\x22'])

end Cutflow.Text
