import Cutflow.Decimal
import Cutflow.Error
import Cutflow.Text

/-!
# Reading tokens

An expression is cut into the longest lexemes from left to right; gaps between them are dropped
and the end of the text is a token of its own.

## The model

`lexeme` reads one lexeme off the front of a text that does not begin with a gap and says how
many characters follow its first one. Everything a lexeme or a gap is made of is ASCII, so up to
the first character that begins no lexeme, where reading stops for good, characters and bytes
count the same: the offsets below are byte offsets of the text.
-/

namespace Cutflow.Token

/-- A lexeme at the front of a text: its kind, and how many characters it has after its first. -/
structure Lexeme where
  kind : Kind
  more : Nat
  deriving DecidableEq

/-- The number at the front of a text, `digits[.digits][e[sign]digits]`, and its length; or how
far its exponent mark is when that has no digits. -/
def number (cs : List Char) : Except Nat (Decimal × Nat) :=
  let whole := cs.takeWhile Char.isDigit
  let (fraction, rest, fractionLength) := Decimal.fractionPart (cs.dropWhile Char.isDigit)
  let length := whole.length + fractionLength
  match Decimal.exponentPart rest with
  | none => .error length
  | some (power, exponentLength) =>
    .ok (Decimal.ofParts whole fraction power, length + exponentLength)

/-- Whether a number begins here: a digit, or a point before a digit. -/
def beginsNumber : Char → List Char → Bool
  | '.', d :: _ => d.isDigit
  | c, _ => c.isDigit

/-- The kind of a word. -/
def wordKind (word : String) : Kind :=
  if word = "true" then .bool true
  else if word = "false" then .bool false
  else .ident word

/-- The operators of two characters. -/
def pairKind? : Char → Char → Option Kind
  | '&', '&' => some .andAnd
  | '|', '|' => some .orOr
  | '=', '=' => some .eqEq
  | '!', '=' => some .ne
  | '<', '=' => some .le
  | '>', '=' => some .ge
  | _, _ => none

/-- The lexemes of one character. -/
def charKind? : Char → Option Kind
  | '(' => some .lparen
  | ')' => some .rparen
  | '[' => some .lbracket
  | ']' => some .rbracket
  | '+' => some .plus
  | '-' => some .minus
  | '*' => some .star
  | '/' => some .slash
  | '%' => some .percent
  | '!' => some .bang
  | '<' => some .lt
  | '>' => some .gt
  | _ => none

/-- The lexeme at the front of `c :: cs`, or what is wrong there and how many characters on. -/
def lexeme (c : Char) (cs : List Char) : Except (Nat × SyntaxFault) Lexeme :=
  if beginsNumber c cs then
    match number (c :: cs) with
    | .ok (value, length) => .ok ⟨.number value.toFloat, length - 1⟩
    | .error mark => .error (mark, .missingExponent)
  else if Text.isWordHead c then
    let tail := cs.takeWhile Text.isWordTail
    .ok ⟨wordKind (String.ofList (c :: tail)), tail.length⟩
  else
    match cs.head?.bind (pairKind? c), charKind? c with
    | some kind, _ => .ok ⟨kind, 1⟩
    | none, some kind => .ok ⟨kind, 0⟩
    | none, none => .error (0, .unexpectedChar c)

/-- The tokens of a text whose first character is byte `offset` of the whole. -/
def scan (offset : Nat) : List Char → Except Error (List Token)
  | [] => .ok [⟨.eof, offset, offset⟩]
  | c :: cs =>
    if Text.isGap c then scan (offset + 1) cs
    else
      match lexeme c cs with
      | .error (ahead, fault) => .error (.parse (offset + ahead) fault)
      | .ok ⟨kind, more⟩ =>
        let stop := offset + more + 1
        match scan stop (cs.drop more) with
        | .error e => .error e
        | .ok tokens => .ok (⟨kind, offset, stop⟩ :: tokens)
termination_by cs => cs.length
decreasing_by
  · exact Nat.lt_succ_self _
  · exact Nat.lt_succ_of_le (List.drop_sublist _ _).length_le

/-- The tokens of a text; the last one, and no other, is its end. -/
def lex (text : String) : Except Error (List Token) := scan 0 text.toList

end Cutflow.Token
