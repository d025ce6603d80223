/-
  Memberwise/Expr.lean
  ====================
  **Initializer expressions.**

  Of an expression the library knows its text and its shape, and the shape only
  as far as a literal shows it.  Calls, operators and references to other names
  all have the shape `other`.  The type of a literal is read off its shape alone:
  no name is ever looked up.
-/
import Memberwise.Text

namespace Memberwise

/-! ### String literals -/

/-- A string literal as it is written, quotes included. -/
structure StringLiteral where
  source : String
deriving DecidableEq, Repr

/-- The characters of a value between two quotes: a backslash goes before each
    quote and each backslash. -/
def StringLiteral.escaped (value : List Char) : List Char :=
  value.flatMap fun c => if c = '"' ∨ c = '\\' then ['\\', c] else [c]

def StringLiteral.quoted (value : String) : StringLiteral :=
  ⟨String.ofList ('"' :: escaped value.toList ++ ['"'])⟩

/-! ### Types of values -/

inductive ValueType where
  /-- A type taken over as it is written. -/
  | explicit (text : String)
  | bool
  | int
  | double
  | string
  | array (element : ValueType)
deriving DecidableEq, Repr

def ValueType.text : ValueType → String
  | explicit text => text
  | bool => "Bool"
  | int => "Int"
  | double => "Double"
  | string => "String"
  | array element => "[" ++ element.text ++ "]"

/-! ### Expressions -/

mutual

structure Expr where
  shape : Expr.Shape
  text : String
  span : Span

/-- What an expression is, as far as its text alone shows. -/
inductive Expr.Shape where
  | bool (value : Bool)
  | integer
  | float
  | string
  | array (elements : List Expr)
  | nil
  /-- A member of a type that the context supplies, `.name`. -/
  | implicitMember (name : String)
  | other

end

deriving instance Repr for Expr, Expr.Shape

namespace Expr

def bool (value : Bool) : Expr := ⟨.bool value, if value then "true" else "false", .nowhere⟩

def integer (text : String) : Expr := ⟨.integer, text, .nowhere⟩

def float (text : String) : Expr := ⟨.float, text, .nowhere⟩

def string (value : String) : Expr := ⟨.string, (StringLiteral.quoted value).source, .nowhere⟩

def array (elements : List Expr) : Expr :=
  ⟨.array elements, "[" ++ String.intercalate ", " (elements.map Expr.text) ++ "]", .nowhere⟩

def nil : Expr := ⟨.nil, "nil", .nowhere⟩

def other (text : String) : Expr := ⟨.other, text, .nowhere⟩

mutual

/-- The type that an expression shows by its shape.  An array has the type of its
    first element; the other elements do not matter. -/
def literalType? : Expr → Option ValueType
  | ⟨shape, _, _⟩ => shapeType? shape

def shapeType? : Shape → Option ValueType
  | .bool _ => some .bool
  | .integer => some .int
  | .float => some .double
  | .string => some .string
  | .array [] => none
  | .array (first :: _) => (literalType? first).map .array
  | .nil | .implicitMember _ | .other => none

end

end Expr

end Memberwise
