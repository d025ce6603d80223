/-
  Memberwise/Token.lean
  =====================
  **Tokens of declaration text.**

  Punctuation, names, literals and operators.  The five sorts of token whose
  text varies keep it as it was written: a name keeps its backticks or its `#`,
  a string its quotes.  Keywords are names; what a name means depends on where it
  stands.
-/
import Memberwise.Text
import Memberwise.Text.Printable

namespace Memberwise

inductive Bracket where
  | round
  | square
  | curly
deriving DecidableEq, Repr

inductive Token where
  | opening (bracket : Bracket)
  | closing (bracket : Bracket)
  | atSign
  | colon
  | comma
  | semicolon
  | dot
  /-- An `=` that is no part of a longer operator. -/
  | equals
  /-- Names, keywords, backticked names and `#` directives. -/
  | name (text : String)
  | integer (text : String)
  | float (text : String)
  | string (text : String)
  /-- Any other run of operator characters. -/
  | operator (text : String)
  | endOfInput
deriving DecidableEq, Repr

structure Placed where
  token : Token
  span : Span
  /-- Whether a line feed was read since the token before this one began.  A line
      feed inside that token counts.  The first token is always on a new line. -/
  afterNewline : Bool
deriving DecidableEq, Repr

namespace Token

def sort : Token → String
  | opening .round => "LParen"
  | closing .round => "RParen"
  | opening .square => "LBracket"
  | closing .square => "RBracket"
  | opening .curly => "LBrace"
  | closing .curly => "RBrace"
  | atSign => "At"
  | colon => "Colon"
  | comma => "Comma"
  | semicolon => "Semi"
  | dot => "Dot"
  | equals => "Equals"
  | name _ => "Name"
  | integer _ => "Integer"
  | float _ => "Float"
  | string _ => "Str"
  | operator _ => "Operator"
  | endOfInput => "Eof"

/-- The text of a token whose sort does not determine it. -/
def text? : Token → Option String
  | name text | integer text | float text | string text | operator text => some text
  | _ => none

/-- A token as messages name it: its sort, and its text where that varies. -/
def description (token : Token) : String :=
  match token.text? with
  | some text => token.sort ++ "(" ++ Text.shown text ++ ")"
  | none => token.sort

def isName : Token → Bool
  | name _ => true
  | _ => false

/-- Nesting depth behind a token that stands at some depth.  Brackets of all
    kinds count alike, and one that closes nothing leaves depth zero. -/
def depthAfter : Token → Nat → Nat
  | opening _, depth => depth + 1
  | closing _, depth => depth - 1
  | _, depth => depth

end Token

end Memberwise
