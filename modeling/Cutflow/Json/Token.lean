import Cutflow.Json.Number
import Cutflow.Json.Quoted

/-!
# JSON texts as tokens

The lexemes of JSON texts and the one kind of JSON value that event files are made of: an object
whose members are all read alike.

## The model

A text is cut into tokens first (`tokens`); a part that is no token ends the list as `invalid`,
which no reader accepts. `object` reads a whole list of tokens as one object. How the value of a
member is read is a parameter, a function that looks at the tokens after the colon and says what
the value is and how many tokens it takes. Reading goes from left to right, so of two faults in a
text the first one is found.
-/

namespace Cutflow.Json

/-- A lexeme of a JSON text. -/
inductive Token where
  /-- The brace that begins an object. -/
  | openBrace
  /-- The brace that ends an object. -/
  | closeBrace
  /-- `[` -/
  | openBracket
  /-- `]` -/
  | closeBracket
  /-- `:` -/
  | colon
  /-- `,` -/
  | comma
  /-- The word `null`. -/
  | null
  /-- The word `true` or `false`. -/
  | bool (value : Bool)
  /-- A string, its escapes resolved. -/
  | string (value : String)
  /-- A number. -/
  | number (value : Float)
  /-- A part of the text that is no lexeme, and all that follows it. -/
  | invalid
  deriving DecidableEq

/-- What is wrong with a JSON text. -/
inductive Fault where
  /-- It does not spell a value of the kind that is expected. -/
  | malformed
  /-- A string is none of the words it can be; this many tokens follow it. -/
  | unknownWord (word : String) (left : Nat)
  deriving DecidableEq

/-! ### Cutting a text into tokens -/

/-- The characters that may stand between tokens. -/
def isGap (c : Char) : Bool := c = ' ' || c = '\t' || c = '\n' || c = '\r'

/-- The token at the front of a text that does not begin with a gap, and how many characters it
has after its first. -/
def token? (c : Char) (cs : List Char) : Option (Token × Nat) :=
  match c with
  | '\x7b' => some (.openBrace, 0)
  | '\x7d' => some (.closeBrace, 0)
  | '[' => some (.openBracket, 0)
  | ']' => some (.closeBracket, 0)
  | ':' => some (.colon, 0)
  | ',' => some (.comma, 0)
  | '\x22' => (unquote cs).map fun (s, n) => (.string (String.ofList s), n)
  | 'n' => if "ull".toList.isPrefixOf cs then some (.null, 3) else none
  | 't' => if "rue".toList.isPrefixOf cs then some (.bool true, 3) else none
  | 'f' => if "alse".toList.isPrefixOf cs then some (.bool false, 4) else none
  | c => (number? (c :: cs)).map fun (x, n) => (.number x, n - 1)

/-- The first token of a text and what follows it; `none` if only a gap is left. -/
def next? : List Char → Option (Token × List Char)
  | [] => none
  | c :: cs =>
    if isGap c then next? cs
    else
      match token? c cs with
      | none => some (.invalid, [])
      | some (token, more) => some (token, cs.drop more)

theorem length_of_next? {cs rest : List Char} {token : Token} (h : next? cs = some (token, rest)) :
    rest.length < cs.length := by
  induction cs with
  | nil => exact nomatch h
  | cons c cs ih =>
    unfold next? at h
    split at h
    · exact Nat.lt_succ_of_lt (ih h)
    · split at h
      · cases h
        exact Nat.zero_lt_succ _
      · cases h
        exact Nat.lt_succ_of_le (List.drop_sublist _ _).length_le

/-- The tokens of a text. -/
def tokens (cs : List Char) : List Token :=
  match h : next? cs with
  | none => []
  | some (token, rest) =>
    have := length_of_next? h
    token :: tokens rest
termination_by cs.length

/-- What follows the first tokens of a text. -/
def dropTokens : Nat → List Char → List Char
  | 0, cs => cs
  | n + 1, cs =>
    match next? cs with
    | none => []
    | some (_, rest) => dropTokens n rest

/-! ### Objects -/

/-- Members up to the brace that closes the object and ends the text. -/
def members {α : Type} (value : List Token → Except Fault (α × Nat)) :
    List Token → Except Fault (List (String × α))
  | .string name :: .colon :: ts =>
    match value ts with
    | .error fault => .error fault
    | .ok (a, n) =>
      match h : ts.drop n with
      | [.closeBrace] => .ok [(name, a)]
      | .comma :: rest =>
        have : rest.length < ts.length := by
          have := congrArg List.length h
          simp only [List.length_drop, List.length_cons] at this
          omega
        (members value rest).map ((name, a) :: ·)
      | _ => .error .malformed
  | _ => .error .malformed
termination_by ts => ts.length

/-- The members of the object that a whole list of tokens spells. -/
def object {α : Type} (value : List Token → Except Fault (α × Nat)) :
    List Token → Except Fault (List (String × α))
  | [.openBrace, .closeBrace] => .ok []
  | .openBrace :: ts => members value ts
  | _ => .error .malformed

/-! ### Writing -/

/-- An object with the given members, in compact form. -/
def writeObject (members : List (String × String)) : String :=
  "\x7b" ++ ",".intercalate (members.map fun (name, value) => quote name ++ ":" ++ value) ++ "\x7d"

/-- A list with the given entries, in compact form. -/
def writeList (entries : List String) : String :=
  "[" ++ ",".intercalate entries ++ "]"

end Cutflow.Json
