/-
  Memberwise/ReadError.lean
  =========================
  **Why a source text cannot be read.**

  Either it is no sequence of tokens, or the tokens do not make declarations, or
  an attribute that requests something has the wrong arguments.  Every error has
  a place.
-/
import Memberwise.Token.Scan

namespace Memberwise

/-- What is wrong with the arguments of an attribute that requests a declaration
    or a key; `owner` is the name of the attribute. -/
inductive ArgumentError where
  | unknownStrategy (strategy : String)
  | missingArgument (owner label : String)
  | expectedStringLiteral (owner label : String)
  | unexpectedArgument (owner label : String)
deriving DecidableEq, Repr

def ArgumentError.message : ArgumentError → String
  | unknownStrategy strategy =>
    "unknown naming strategy '" ++ strategy ++ "', expected 'default' or 'snake_case'"
  | missingArgument owner label =>
    "'@" ++ owner ++ "' requires a '" ++ label ++ ":' argument"
  | expectedStringLiteral owner label =>
    "'" ++ label ++ ":' argument of '@" ++ owner ++ "' must be a string literal"
  | unexpectedArgument owner label =>
    "unexpected argument '" ++ label ++ "' for '@" ++ owner ++ "'"

inductive Expected where
  | declaration
  | name
  | argumentEnd
  | bodyStart
  /-- The brace that closes the body of the declaration with this name. -/
  | bodyEnd (name : String)
  | type
  | arrayEnd
  | elementEnd
deriving DecidableEq, Repr

inductive Fault where
  | expected (what : Expected) (found : Token)
  | openAccessors
  /-- More entries than a reader was told to read. -/
  | tooLong
deriving DecidableEq, Repr

inductive ReadError where
  | scan (error : ScanError)
  | malformed (place : Position) (fault : Fault)
  | argument (place : Position) (cause : ArgumentError)
deriving DecidableEq, Repr

def Expected.text : Expected → String
  | declaration => "declaration"
  | name => "name"
  | argumentEnd => "',' or ')' in attribute arguments"
  | bodyStart => "'\x7b'"
  | bodyEnd owner => "'\x7d' to close '" ++ owner ++ "'"
  | type => "type"
  | arrayEnd => "']'"
  | elementEnd => "',' or ']' in array literal"

def Fault.text : Fault → String
  | expected what found => "expected " ++ what.text ++ ", found " ++ found.description
  | openAccessors => "unterminated accessor block"
  | tooLong => "too many entries"

namespace ReadError

def position : ReadError → Position
  | scan error => error.position
  | malformed place _ => place
  | argument place _ => place

def message : ReadError → String
  | scan error => error.message
  | malformed place fault => "syntax error at " ++ place.text ++ ": " ++ fault.text
  | argument place cause => "invalid macro argument at " ++ place.text ++ ": " ++ cause.message

/-- The error in words, followed by its cause where it has one of its own. -/
def chain (error : ReadError) : List String :=
  match error with
  | argument _ cause => [error.message, cause.message]
  | _ => [error.message]

end ReadError

end Memberwise
