/-
  Memberwise/Text/Json.lean
  =========================
  **JSON, written out over several lines.**

  A value of the kind that reports are made of, and its text: two spaces a level,
  one entry a line, a colon and a space between a key and its value, and nothing
  between the brackets of an empty list or object.  Keys come in the order given.
  Characters outside ASCII are written as they are.
-/
import Memberwise.Text.Printable

namespace Memberwise

/-- A JSON value.  Numbers are natural, since offsets, lines and columns are. -/
inductive Json where
  | null
  | number (value : Nat)
  | text (value : String)
  | list (items : List Json)
  | object (fields : List (String × Json))

namespace Json

def escapedChar (c : Char) : List Char :=
  if c = '"' then ['\\', '"']
  else if c = '\\' then ['\\', '\\']
  else if c = '\n' then ['\\', 'n']
  else if c = '\r' then ['\\', 'r']
  else if c = '\t' then ['\\', 't']
  else if c.toNat = 0x08 then ['\\', 'b']
  else if c.toNat = 0x0C then ['\\', 'f']
  else if c.toNat < 0x10 then ['\\', 'u', '0', '0', '0'] ++ Text.hexDigits c.toNat
  else if c.toNat < 0x20 then ['\\', 'u', '0', '0'] ++ Text.hexDigits c.toNat
  else [c]

def quoted (text : String) : String :=
  String.ofList ('"' :: text.toList.flatMap escapedChar ++ ['"'])

def margin (level : Nat) : String := String.ofList (List.replicate (2 * level) ' ')

def block (opening closing : String) (level : Nat) (entries : List String) : String :=
  if entries.isEmpty then opening ++ closing
  else
    opening ++ "\n" ++
    String.intercalate ",\n" (entries.map (margin (level + 1) ++ ·)) ++
    "\n" ++ margin level ++ closing

mutual

def textAt (level : Nat) : Json → String
  | .null => "null"
  | .number value => toString value
  | .text value => quoted value
  | .list items => block "[" "]" level (itemTexts (level + 1) items)
  | .object fields => block "\x7b" "\x7d" level (fieldTexts (level + 1) fields)

def itemTexts (level : Nat) : List Json → List String
  | [] => []
  | item :: rest => textAt level item :: itemTexts level rest

def fieldTexts (level : Nat) : List (String × Json) → List String
  | [] => []
  | (key, value) :: rest => (quoted key ++ ": " ++ textAt level value) :: fieldTexts level rest

end

def pretty (value : Json) : String := textAt 0 value

end Json

end Memberwise
