/-
  Memberwise/Generated.lean
  =========================
  **Generated declarations.**

  What a request is answered with: a public initializer, or an enumeration of
  serialization keys.  These are trees; their text is the business of the layout.

  As text a declaration is a list of lines: a head, one line for each entry, and a
  closing brace.  Entries are indented by one level.  A text can be moved to the
  right as a whole, which leaves its empty lines empty.
-/
import Memberwise.Expr

namespace Memberwise

/-- A parameter `name: Type = default`. -/
structure Parameter where
  name : String
  type : ValueType
  /-- The default value as it is written. -/
  default? : Option String
deriving DecidableEq, Repr

/-- An assignment `self.member = value`. -/
structure Assignment where
  member : String
  value : String
deriving DecidableEq, Repr

structure Initializer where
  parameters : List Parameter
  body : List Assignment
deriving DecidableEq, Repr

structure KeyCase where
  name : String
  rawValue? : Option StringLiteral
deriving DecidableEq, Repr

structure KeyEnum where
  name : String
  rawType : String
  conformances : List String
  cases : List KeyCase
deriving DecidableEq, Repr

inductive Generated where
  | initializer (init : Initializer)
  | keyEnum (keys : KeyEnum)
deriving DecidableEq, Repr

def Initializer.storing (parameters : List Parameter) : Initializer :=
  ⟨parameters, parameters.map fun parameter => ⟨parameter.name, parameter.name⟩⟩

/-- Whether an initializer takes nothing and does nothing. -/
def Initializer.isEmpty (init : Initializer) : Bool :=
  init.parameters.isEmpty && init.body.isEmpty

def KeyEnum.codingKeys (cases : List KeyCase) : KeyEnum :=
  ⟨"CodingKeys", "String", ["CodingKey"], cases⟩

/-! ### Layout -/

structure Layout where
  /-- Spaces a nesting level. -/
  indentWidth : Nat
deriving DecidableEq, Repr

def Layout.standard : Layout := ⟨4⟩

/-- Whether an indentation can be made.  A text has fewer than `2 ^ 63` bytes, and an
    indentation that would be longer breaks the program off before it is made. -/
def Layout.fits (layout : Layout) : Bool := layout.indentWidth < 0x8000000000000000

def Layout.indent (layout : Layout) : String :=
  String.ofList (List.replicate layout.indentWidth ' ')

/-- ` = value`, or nothing. -/
def assigned (value? : Option String) : String :=
  match value? with
  | some value => " = " ++ value
  | none => ""

def Parameter.text (parameter : Parameter) : String :=
  parameter.name ++ ": " ++ parameter.type.text ++ assigned parameter.default?

/-- Lines of a parameter list, with a comma behind each line but the last. -/
def parameterLines (indent : String) : List Parameter → List String
  | [] => []
  | [last] => [indent ++ last.text]
  | parameter :: rest => (indent ++ parameter.text ++ ",") :: parameterLines indent rest

def Assignment.text (assignment : Assignment) : String :=
  "self." ++ assignment.member ++ " = " ++ assignment.value

def Initializer.headLines (indent : String) (init : Initializer) : List String :=
  if init.parameters.isEmpty then ["public init() \x7b"]
  else "public init(" :: parameterLines indent init.parameters ++ [") \x7b"]

def Initializer.lines (indent : String) (init : Initializer) : List String :=
  init.headLines indent ++ init.body.map (indent ++ ·.text) ++ ["\x7d"]

def KeyCase.text (keyCase : KeyCase) : String :=
  "case " ++ keyCase.name ++ assigned (keyCase.rawValue?.map (·.source))

def KeyEnum.headLine (keys : KeyEnum) : String :=
  "enum " ++ keys.name ++ ": " ++ String.intercalate ", " (keys.rawType :: keys.conformances) ++
  " \x7b"

def KeyEnum.lines (indent : String) (keys : KeyEnum) : List String :=
  keys.headLine :: keys.cases.map (indent ++ ·.text) ++ ["\x7d"]

namespace Generated

def lines (layout : Layout) : Generated → List String
  | initializer init => init.lines layout.indent
  | keyEnum keys => keys.lines layout.indent

def text (layout : Layout) (generated : Generated) : String :=
  String.intercalate "\n" (generated.lines layout)

/-- A line moved to the right by a margin, unless it is empty. -/
def indentedLine (margin : List Char) (line : List Char) : List Char :=
  if line.isEmpty then [] else margin ++ line

/-- The text of a generated declaration with a margin in front of each line that
    is not empty.  The text is cut into lines anew, since a default value may hold
    line endings of its own. -/
def indented (layout : Layout) (margin : List Char) (generated : Generated) : List Char :=
  ['\n'].intercalate ((Text.lines (generated.text layout).toList).map (indentedLine margin))

end Generated

end Memberwise
