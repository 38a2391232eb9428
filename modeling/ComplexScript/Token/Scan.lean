import ComplexScript.Text.Cursor
import ComplexScript.Token.Basic
import ComplexScript.Token.Numeral
set_option autoImplicit false

/-!
# Reading tokens

Tokens are read from a cursor, each by looking at most one character past its own.  That one is
left unused under the cursor, so a token never waits for input past it.  Text that makes no token
gives a placeholder of kind `Kind.empty` together with the fault; reading goes on after it.
-/

namespace ComplexScript.Token

open ComplexScript.Text

/-- Why a piece of text makes no token. -/
inductive Fault where
  /-- a character that starts no token -/
  | invalidCharacter (c : Char)
  /-- a literal whose point is not followed by a digit -/
  | malformedFraction (literal : String)
  /-- half of a two-character operator -/
  | unmatchedOperator (c : Char)
  /-- a literal too great for a number -/
  | literalOutOfRange
  deriving DecidableEq, Repr, Inhabited

/-- The message for a fault. -/
def Fault.message : Fault → String
  | .invalidCharacter c => "invalid character: " ++ c.toString
  | .malformedFraction literal => "malformed fraction in literal " ++ literal
  | .unmatchedOperator c => "unmatched operator " ++ c.toString
  | .literalOutOfRange => "number literal out of range"

/-- A token read from a text, with the fault if it is a placeholder. -/
structure Lexeme where
  token : Token
  fault : Option Fault := none
  deriving DecidableEq, Repr, Inhabited

namespace Lexeme

/-- A token without value. -/
def plain (kind : Kind) (text : List Char) (start : Position) : Lexeme :=
  { token := { kind := kind, text := String.ofList text, position := start } }

/-- A number. -/
def number (text : List Char) (start : Position) (z : Number) : Lexeme :=
  { token :=
      { kind := .number, text := String.ofList text, position := start, value := some z } }

/-- A placeholder. -/
def faulty (fault : Fault) (text : List Char) (start : Position) : Lexeme :=
  { token := { kind := .empty, text := String.ofList text, position := start }
    fault := some fault }

/-- A number literal, whose value may be out of range. -/
def ofLiteral (text : List Char) (start : Position) : Except ArithmeticFault Number → Lexeme
  | .ok z => number text start z
  | .error _ => faulty .literalOutOfRange text start

end Lexeme

/-! ## Character classes -/

/-- The characters between tokens. -/
def isBlank (c : Char) : Bool := c = ' ' || c = '\t'

/-- The characters that a word starts with; other alphabets have none. -/
def isLetter (c : Char) : Bool := ('a' ≤ c && c ≤ 'z') || ('A' ≤ c && c ≤ 'Z')

/-- The characters that a number starts with. -/
def isDecimalDigit (c : Char) : Bool := '0' ≤ c && c ≤ '9'

/-- The characters that a word goes on with. -/
def isWordCharacter (c : Char) : Bool := isLetter c || isDecimalDigit c

/-- The kind of a character that is a token by itself. -/
def Kind.ofCharacter? : Char → Option Kind
  | '+' | '-' => some .additiveOperator
  | '*' | '/' | '%' => some .multiplicativeOperator
  | '^' => some .powerOperator
  | '(' => some .openParenthesis
  | ')' => some .closeParenthesis
  | '{' => some .openBrace
  | '}' => some .closeBrace
  | ',' => some .comma
  | ';' => some .semicolon
  | _ => none

/-- How an operator character pairs with a second one. -/
structure Pairing where
  /-- The second character of the pair. -/
  second : Char
  /-- The kind of the pair. -/
  paired : Kind
  /-- The kind of the first character alone, if it is a token. -/
  alone : Option Kind
  deriving DecidableEq, Repr, Inhabited

/-- The pairing of an operator character. -/
def Pairing.of? : Char → Option Pairing
  | '=' => some ⟨'=', .relationalOperator, some .assignment⟩
  | '!' => some ⟨'=', .relationalOperator, some .negation⟩
  | '<' | '>' => some ⟨'=', .relationalOperator, some .relationalOperator⟩
  | '&' => some ⟨'&', .logicalAnd, none⟩
  | '|' => some ⟨'|', .logicalOr, none⟩
  | _ => none

/-! ## Scanning -/

/-- Reading from a cursor. -/
abbrev Scan := StateM Cursor

namespace Scan

/-- The character under the cursor. -/
def peek : Scan Char := fun c => c.peek

/-- Use the character under the cursor. -/
def release : Scan PUnit := fun c => (⟨⟩, c.release)

/-- Use the character under the cursor and look at the next one. -/
def advance : Scan Char := fun c => c.advance

/-- Use characters while they satisfy `p`. -/
def takeRun (p : Char → Bool) : Scan (List Char) := fun c => c.takeRun p

/-- The position of the character under the cursor. -/
def position : Scan Position := fun c => (c.position, c)

/-- A token of one character, which is used. -/
def single (kind : Kind) (c : Char) (start : Position) : Scan Lexeme := do
  release
  return .plain kind [c] start

/-- An operator of two characters, or its first one alone. -/
def pair (first : Char) (p : Pairing) (start : Position) : Scan Lexeme := do
  if (← advance) = p.second then
    release
    return .plain p.paired [first, p.second] start
  else
    match p.alone with
    | some kind => return .plain kind [first] start
    | none => return .faulty (.unmatchedOperator first) [first] start

/-- A word: a letter, then letters and digits. -/
def word (start : Position) : Scan Lexeme := do
  let cs ← takeRun isWordCharacter
  return .plain (Kind.ofWord (String.ofList cs)) cs start

/-- The end of a number literal: the imaginary suffix, or nothing. -/
def suffix (text : List Char) (v : Float) (start : Position) : Scan Lexeme := do
  if (← peek) = 'i' then
    release
    return .ofLiteral (text ++ ['i']) start (Number.ofImaginary v)
  else
    return .ofLiteral text start (Number.ofReal v)

/-- A literal from its whole digits on, after the characters `opening`.  A point must have a digit
after it. -/
def digits (b : Base) (opening : List Char) (v : Float) (start : Position) : Scan Lexeme := do
  let whole ← takeRun b.isDigit
  let text := opening ++ whole
  let v := b.extend v whole
  if (← peek) = '.' then
    release
    if b.isDigit (← peek) then
      let places ← takeRun b.isDigit
      suffix (text ++ '.' :: places) (roundHalfUp (b.addPlaces v places) places.length) start
    else
      let text := text ++ ['.']
      return .faulty (.malformedFraction (String.ofList text)) text start
  else
    suffix text v start

/-- A number literal that starts with the digit under the cursor. -/
def number (first : Char) (start : Position) : Scan Lexeme := do
  let second ← advance
  match Base.opening first second with
  | .zero => return .number [first] start .zero
  | .plain b => digits b [first] (digitValue first) start
  | .marked b =>
    release
    digits b [first, second] (digitValue first) start

/-- The next token.  The end of the text is left under the cursor, so it is read again and
again. -/
def next : Scan Lexeme := do
  let _ ← takeRun isBlank
  let c ← peek
  let start ← position
  if c = endOfText then return .plain .endOfInput [] start
  else if c = '\n' ∨ c = '\r' then single .lineBreak '\n' start
  else if isDecimalDigit c then number c start
  else if isLetter c then word start
  else
    match Pairing.of? c, Kind.ofCharacter? c with
    | some p, _ => pair c p start
    | none, some kind => single kind c start
    | none, none =>
      release
      return .faulty (.invalidCharacter c) [c] start

/-- At most `n` tokens, up to and including the end of the text. -/
def tokensUpTo : Nat → Scan (List Lexeme)
  | 0 => return []
  | n + 1 => do
    let x ← next
    if x.token.kind = .endOfInput then return [x]
    else
      let xs ← tokensUpTo n
      return x :: xs

/-- The tokens up to and including the end of the text.  Every token but that one uses a
character, so the characters to come bound their number. -/
def tokens : Scan (List Lexeme) := fun c => tokensUpTo (c.size + 1) c

end Scan

end ComplexScript.Token
