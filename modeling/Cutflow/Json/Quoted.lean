/-!
# Quoted strings

Strings as JSON writes them, between quotation marks.

## The model

`quote` writes a string: quotation marks, backslashes and the control characters below U+0020
are escaped, everything else stands for itself. `unquote` reads what follows an opening quotation
mark and accepts every escape of the standard: the short ones, and `\u` with four hexadecimal
digits, where a character beyond U+FFFF is spelled by a pair of surrogates and a surrogate on its
own spells nothing. The readers say how many characters of the text they used.
-/

namespace Cutflow.Json

/-- The digit for a number below sixteen, in lower case. -/
def hexDigit (n : Nat) : Char := Nat.digitChar n

/-- The spelling of one character of a string. -/
def escape (c : Char) : List Char :=
  match c with
  | '\x22' => ['\\', '\x22']
  | '\\' => ['\\', '\\']
  | '\x08' => ['\\', 'b']
  | '\x09' => ['\\', 't']
  | '\x0a' => ['\\', 'n']
  | '\x0c' => ['\\', 'f']
  | '\x0d' => ['\\', 'r']
  | c =>
    if c.toNat < 0x20 then ['\\', 'u', '0', '0', hexDigit (c.toNat / 16), hexDigit (c.toNat % 16)]
    else [c]

/-- A string between quotation marks. -/
def quote (s : String) : String :=
  String.ofList ('\x22' :: s.toList.flatMap escape ++ ['\x22'])

/-- The number a hexadecimal digit stands for. -/
def hexValue? (c : Char) : Option Nat :=
  if c.isDigit then some (c.toNat - '0'.toNat)
  else if 'a' ≤ c && c ≤ 'f' then some (c.toNat - 'a'.toNat + 10)
  else if 'A' ≤ c && c ≤ 'F' then some (c.toNat - 'A'.toNat + 10)
  else none

/-- The number that the first four characters spell in hexadecimal. -/
def codeUnit? : List Char → Option Nat
  | a :: b :: c :: d :: _ => do
    let a ← hexValue? a
    let b ← hexValue? b
    let c ← hexValue? c
    let d ← hexValue? d
    return ((a * 16 + b) * 16 + c) * 16 + d
  | _ => none

/-- The character that a backslash, `u` and the text `cs` spell, and how many characters of `cs`
belong to the spelling. -/
def unicodeEscape (cs : List Char) : Option (Char × Nat) := do
  let high ← codeUnit? cs
  if 0xd800 ≤ high && high ≤ 0xdbff then
    match cs.drop 4 with
    | '\\' :: 'u' :: ds =>
      let low ← codeUnit? ds
      if 0xdc00 ≤ low && low ≤ 0xdfff then
        return (Char.ofNat (0x10000 + (high - 0xd800) * 0x400 + (low - 0xdc00)), 10)
      else none
    | _ => none
  else if 0xdc00 ≤ high && high ≤ 0xdfff then none
  else return (Char.ofNat high, 4)

/-- The character that a backslash and the text spell, and how many characters of the text belong
to the spelling. -/
def unescape : List Char → Option (Char × Nat)
  | '\x22' :: _ => some ('\x22', 1)
  | '\\' :: _ => some ('\\', 1)
  | '/' :: _ => some ('/', 1)
  | 'b' :: _ => some ('\x08', 1)
  | 't' :: _ => some ('\x09', 1)
  | 'n' :: _ => some ('\x0a', 1)
  | 'f' :: _ => some ('\x0c', 1)
  | 'r' :: _ => some ('\x0d', 1)
  | 'u' :: cs => (unicodeEscape cs).map fun (c, n) => (c, n + 1)
  | _ => none

/-- The characters up to the closing quotation mark, and how many characters of the text they and
the mark take; `none` if no string ends there. -/
def unquote : List Char → Option (List Char × Nat)
  | [] => none
  | c :: cs =>
    if c = '\x22' then some ([], 1)
    else if c = '\\' then do
      let (d, n) ← unescape cs
      let (s, m) ← unquote (cs.drop n)
      return (d :: s, m + n + 1)
    else if c.toNat < 0x20 then none
    else do
      let (s, m) ← unquote cs
      return (c :: s, m + 1)
termination_by cs => cs.length
decreasing_by
  · exact Nat.lt_succ_of_le (List.drop_sublist _ _).length_le
  · exact Nat.lt_succ_self _

end Cutflow.Json
