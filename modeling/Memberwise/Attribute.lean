/-
  Memberwise/Attribute.lean
  =========================
  **Attributes and what they request.**

  Three attributes mean something here: one asks for an initializer, one for an
  enumeration of keys, and one fixes the key of a single member.  Any other
  attribute is none of the library's business, whatever its arguments.  Of the
  three, an argument with a label that does not belong is reported before
  anything else.

  A key is the name of the member, or the name in snake case: every capital
  behind the first character becomes an underscore and a small letter.  The first
  character is kept as it is.
-/
import Memberwise.Member
import Memberwise.ReadError
import Memberwise.Text.Case

namespace Memberwise

/-! ### From member names to keys -/

inductive Naming where
  | identity
  | snakeCase
deriving DecidableEq, Repr

namespace Naming

/-- One character of a name behind its first, in snake case. -/
def snakePart (c : Char) : List Char := if Text.isCapital c then '_' :: Text.small c else [c]

def snake : List Char → List Char
  | [] => []
  | first :: rest => first :: rest.flatMap snakePart

def apply : Naming → String → String
  | identity, name => name
  | snakeCase, name => String.ofList (snake name.toList)

def word : Naming → String
  | identity => "default"
  | snakeCase => "snake_case"

/-- Reads a way of naming.  Points in front of the word are dropped. -/
def ofText (text : String) : Except ArgumentError Naming :=
  let word := String.ofList (text.toList.dropWhile (· == '.'))
  if word = "default" ∨ word = "identity" then .ok identity
  else if word = "snake_case" then .ok snakeCase
  else .error (.unknownStrategy word)

end Naming

def unquotedName (name : String) : String :=
  match name.toList with
  | '\x60' :: rest => if rest.getLast? = some '\x60' then String.ofList rest.dropLast else name
  | _ => name

/-! ### Attributes -/

structure Argument where
  label? : Option String
  value : Expr
deriving Repr

/-- An attribute as it is written, `@name(label: value, …)`. -/
structure Attribute where
  name : String
  arguments : List Argument
  span : Span
deriving Repr

inductive Request where
  /-- A public memberwise initializer. -/
  | publicInit
  /-- An enumeration of serialization keys. -/
  | codingKeys (naming : Naming)
  /-- The key of one member. -/
  | codingKey (key : StringLiteral)
deriving DecidableEq, Repr

structure Attachment where
  request : Request
  span : Span
deriving DecidableEq, Repr

namespace Request

def publicInitName : String := "PublicInit"

def codingKeysName : String := "CodingKeys"

def codingKeyName : String := "CodingKey"

def name : Request → String
  | publicInit => publicInitName
  | codingKeys _ => codingKeysName
  | codingKey _ => codingKeyName

end Request

namespace Attribute

/-- The value of the first argument with a label. -/
def argument? (attr : Attribute) (label : String) : Option Expr :=
  (attr.arguments.find? (·.label? == some label)).map (·.value)

/-- Reports the first argument whose label is not allowed.  An argument without a
    label goes by `_`. -/
def rejectUnknown (attr : Attribute) (allowed : List String) : Except ArgumentError Unit :=
  match (attr.arguments.map (·.label?.getD "_")).find? (!allowed.contains ·) with
  | some label => .error (.unexpectedArgument attr.name label)
  | none => .ok ()

def key (attr : Attribute) : Except ArgumentError StringLiteral := do
  attr.rejectUnknown ["name"]
  match attr.argument? "name" with
  | none => .error (.missingArgument attr.name "name")
  | some ⟨.string, text, _⟩ => .ok ⟨text⟩
  | some _ => .error (.expectedStringLiteral attr.name "name")

def naming (attr : Attribute) : Except ArgumentError Naming := do
  attr.rejectUnknown ["using"]
  match attr.argument? "using" with
  | none => .ok .identity
  | some ⟨.implicitMember name, _, _⟩ => Naming.ofText name
  | some ⟨_, text, _⟩ => Naming.ofText text

def request? (attr : Attribute) : Except ArgumentError (Option Request) :=
  if attr.name = Request.publicInitName then
    (attr.rejectUnknown []).map fun _ => some .publicInit
  else if attr.name = Request.codingKeysName then
    attr.naming.map fun naming => some (.codingKeys naming)
  else if attr.name = Request.codingKeyName then
    attr.key.map fun key => some (.codingKey key)
  else .ok none

def marker (attr : Attribute) : Except ArgumentError Marker :=
  if attr.name = Request.codingKeyName then attr.key.map .codingKey
  else .ok (.other attr.name)

end Attribute

end Memberwise
