/-
  Memberwise/Token/Lexeme.lean
  ============================
  **The token that a text starts with.**

  Outside gaps, the first character decides what kind of token follows, and each
  kind has a rule for how far it goes.  A lexeme is the answer: how many
  characters, and which token they make.  All rules look at characters only;
  where the token stands in the source is no concern of theirs.

  Every character outside ASCII belongs to names, so a name can be written in any
  script and an unknown character never splits one.
-/
import Memberwise.Token
import Memberwise.Token.Quotation

namespace Memberwise.Token

/-! ### Names -/

def isNamePart (c : Char) : Bool := c.isAlphanum || c == '_' || 0x80 ≤ c.toNat

/-- Whether a name can start with a character, quoting and directives aside. -/
def isNameStart (c : Char) : Bool := c.isAlpha || c == '_' || c == '$' || 0x80 ≤ c.toNat

def nameRun (text : List Char) : Nat := (text.takeWhile isNamePart).length

/-- Number of characters of a quoted name behind its opening backtick.  The closing
    one may be missing. -/
def quotedNameRun (text : List Char) : Nat :=
  let run := nameRun text
  if (text.drop run).head? = some '\x60' then run + 1 else run

/-! ### Operators -/

def isOperatorPart (c : Char) : Bool :=
  ['/', '=', '-', '+', '!', '*', '%', '<', '>', '&', '|', '^', '~', '?'].contains c

/-- Number of operator characters that a text starts with, up to a comment. -/
def operatorRun : List Char → Nat
  | '/' :: '/' :: _ => 0
  | '/' :: '*' :: _ => 0
  | c :: rest => if isOperatorPart c then operatorRun rest + 1 else 0
  | [] => 0

def ofOperator (text : String) : Token := if text = "=" then .equals else .operator text

/-! ### Numbers -/

/-- Whether a character can stand inside a number: digits, underscores, and the
    letters of prefixes, exponents and hexadecimal digits. -/
def isNumberPart (c : Char) : Bool := c.isAlphanum || c == '_'

def numberRun (text : List Char) : Nat := (text.takeWhile isNumberPart).length

/-- Length of what goes on behind a sign, if a text starts with one. -/
def signedRun? : List Char → Option Nat
  | '+' :: rest => some (numberRun rest + 1)
  | '-' :: rest => some (numberRun rest + 1)
  | _ => none

def isDecimalMark (c : Char) : Bool := c == 'e' || c == 'E'

def isBinaryMark (c : Char) : Bool := c == 'p' || c == 'P'

/-- Finishes a number of which `read` characters are known, exponent marks being
    told by `isMark`.  A sign is part of the number directly behind a mark.  The
    result is whether the number has an exponent, and its length. -/
def withExponent (isMark : Char → Bool) (text : List Char) (read : Nat) : Bool × Nat :=
  let known := text.take read
  match known.getLast?.any isMark, signedRun? (text.drop read) with
  | true, some run => (true, read + run)
  | _, _ => (known.any isMark, read)

/-- Number of characters up to the end of the fraction, if there is one: a point
    counts only in front of a digit. -/
def fractionEnd? (text : List Char) (read : Nat) : Option Nat :=
  match text.drop read with
  | '.' :: c :: rest => if c.isDigit then some (read + 1 + numberRun (c :: rest)) else none
  | _ => none

/-- Reads the number that a text starts with: whether it is a floating-point
    number, and its length.  A hexadecimal number has a binary exponent, if any,
    and octal and binary numbers have none; of these three none has a fraction. -/
def numeral (text : List Char) : Bool × Nat :=
  let read := numberRun text
  match text with
  | '0' :: 'x' :: _ => withExponent isBinaryMark text read
  | '0' :: 'o' :: _ => (false, read)
  | '0' :: 'b' :: _ => (false, read)
  | _ =>
    match fractionEnd? text read with
    | some stop => (true, (withExponent isDecimalMark text stop).2)
    | none => withExponent isDecimalMark text read

/-! ### Lexemes -/

/-- The piece of text that makes a token: the token as a function of the text, and
    the number of characters. -/
structure Lexeme where
  token : String → Token
  length : Nat

def Lexeme.mark (token : Token) : Lexeme := ⟨fun _ => token, 1⟩

def lexeme (first : Char) (rest : List Char) : Except Unclosed Lexeme :=
  match first with
  | '@' => .ok (.mark .atSign)
  | '\x7b' => .ok (.mark (.opening .curly))
  | '\x7d' => .ok (.mark (.closing .curly))
  | '(' => .ok (.mark (.opening .round))
  | ')' => .ok (.mark (.closing .round))
  | '[' => .ok (.mark (.opening .square))
  | ']' => .ok (.mark (.closing .square))
  | ':' => .ok (.mark .colon)
  | ',' => .ok (.mark .comma)
  | ';' => .ok (.mark .semicolon)
  | '.' =>
    -- two points or more start an operator, such as that of a range
    match rest.takeWhile (· == '.') with
    | [] => .ok (.mark .dot)
    | dots => .ok ⟨.operator, 1 + dots.length + operatorRun (rest.drop dots.length)⟩
  | '"' => (quotationLength rest).map fun length => ⟨.string, length⟩
  | '\x60' => .ok ⟨.name, 1 + quotedNameRun rest⟩
  | '#' => .ok ⟨.name, 1 + nameRun rest⟩
  | _ =>
    if isNameStart first then .ok ⟨.name, 1 + nameRun rest⟩
    else if first.isDigit then
      match numeral (first :: rest) with
      | (true, length) => .ok ⟨.float, length⟩
      | (false, length) => .ok ⟨.integer, length⟩
    else if isOperatorPart first then .ok ⟨ofOperator, 1 + operatorRun rest⟩
    else .ok ⟨.operator, 1⟩

end Memberwise.Token
