/-
  Memberwise/Command/Arguments.lean
  =================================
  **Reading a command off the command line.**

  The first argument that is no switch names the action; behind it come options
  and at most one input.  A long option takes its value behind an equals sign or
  from the next argument, and the short option `-o` also directly behind its
  letter.  The switch `-v` is accepted anywhere and changes no result.  Behind
  `--` every argument is an input.
-/
import Memberwise.Command

namespace Memberwise

inductive UsageError where
  | noAction
  | unknownAction (word : String)
  | unknownOption (word : String)
  | missingValue (option : String)
  | repeatedOption (option : String)
  | badValue (option value : String)
  | extraInput (path : String)
deriving DecidableEq, Repr

def UsageError.message : UsageError → String
  | noAction => "a command is required: expand, check or fix"
  | unknownAction word => "unrecognized command '" ++ word ++ "'"
  | unknownOption word => "unexpected argument '" ++ word ++ "'"
  | missingValue option => "a value is required for '" ++ option ++ "'"
  | repeatedOption option => "'" ++ option ++ "' cannot be used more than once"
  | badValue option value => "invalid value '" ++ value ++ "' for '" ++ option ++ "'"
  | extraInput path => "unexpected input '" ++ path ++ "'"

structure Arguments where
  inputs : List String
  /-- Options with their values, by long name. -/
  options : List (String × String)
deriving DecidableEq, Repr

namespace Arguments

inductive Form where
  | switch
  | input (path : String)
  /-- An option with its value. -/
  | option (name value : String)
  /-- An option whose value is the next argument. -/
  | awaiting (name : String)
  /-- From here on, all arguments are inputs. -/
  | inputsOnly
  | unknown
deriving DecidableEq, Repr

def longForm (allowed : List String) (text : List Char) : Form :=
  let name := String.ofList (text.takeWhile (· != '='))
  match text.dropWhile (· != '=') with
  | [] =>
    if name = "verbose" then .switch
    else if allowed.contains name then .awaiting name
    else .unknown
  | _ :: value => if allowed.contains name then .option name (String.ofList value) else .unknown

def shortForm (allowed : List String) : List Char → Form
  | ['v'] => .switch
  | 'v' :: more => shortForm allowed more
  | 'o' :: value =>
    match allowed.contains "output", value with
    | true, [] => .awaiting "output"
    | true, '=' :: value => .option "output" (String.ofList value)
    | true, value => .option "output" (String.ofList value)
    | false, _ => .unknown
  | _ => .unknown

def form (allowed : List String) (argument : String) : Form :=
  match argument.toList with
  | ['-', '-'] => .inputsOnly
  | ['-'] => .input argument
  | '-' :: '-' :: text => longForm allowed text
  | '-' :: text => shortForm allowed text
  | _ => .input argument

def withOption (arguments : Arguments) (name value : String) : Except UsageError Arguments :=
  if (arguments.options.lookup name).isSome then .error (.repeatedOption name)
  else .ok { arguments with options := arguments.options ++ [(name, value)] }

def sort (allowed : List String) : List String → Arguments → Except UsageError Arguments
  | [], sorted => .ok sorted
  | argument :: rest, sorted =>
    match form allowed argument with
    | .switch => sort allowed rest sorted
    | .input path => sort allowed rest { sorted with inputs := sorted.inputs ++ [path] }
    | .option name value => do sort allowed rest (← sorted.withOption name value)
    | .awaiting name =>
      match rest with
      | [] => .error (.missingValue name)
      | value :: more => do sort allowed more (← sorted.withOption name value)
    | .inputsOnly => .ok { sorted with inputs := sorted.inputs ++ rest }
    | .unknown => .error (.unknownOption argument)

def input (arguments : Arguments) : Except UsageError Input :=
  match arguments.inputs with
  | [] => .ok (.ofArgument none)
  | [path] => .ok (.ofArgument (some path))
  | _ :: path :: _ => .error (.extraInput path)

/-- A number below `2 ^ 64` in decimal digits, with an optional plus sign. -/
def number? (text : String) : Option Nat :=
  let digits :=
    match text.toList with
    | '+' :: digits => digits
    | digits => digits
  let value := digits.foldl (fun value digit => 10 * value + (digit.toNat - '0'.toNat)) 0
  if digits ≠ [] ∧ digits.all Char.isDigit then (some value).filter (· ≤ 0xFFFFFFFFFFFFFFFF) else none

def layout (arguments : Arguments) : Except UsageError Layout :=
  match arguments.options.lookup "indent" with
  | none => .ok .standard
  | some text =>
    match number? text with
    | some width => .ok ⟨width⟩
    | none => .error (.badValue "indent" text)

def format (arguments : Arguments) : Except UsageError Format :=
  match arguments.options.lookup "format" with
  | none => .ok .text
  | some text =>
    if text = "text" then .ok .text
    else if text = "json" then .ok .json
    else .error (.badValue "format" text)

def output? (arguments : Arguments) : Option String := arguments.options.lookup "output"

end Arguments

def Command.ofAction (word : String) (rest : List String) : Except UsageError Command :=
  if word = "expand" then do
    let arguments ← Arguments.sort ["output", "indent", "format"] rest ⟨[], []⟩
    let action := Action.expand arguments.output? (← arguments.layout) (← arguments.format)
    return ⟨action, ← arguments.input⟩
  else if word = "check" then do
    let arguments ← Arguments.sort ["format"] rest ⟨[], []⟩
    return ⟨.check (← arguments.format), ← arguments.input⟩
  else if word = "fix" then do
    let arguments ← Arguments.sort ["output"] rest ⟨[], []⟩
    return ⟨.fix arguments.output?, ← arguments.input⟩
  else .error (.unknownAction word)

def Command.ofArguments : List String → Except UsageError Command
  | [] => .error .noAction
  | word :: rest =>
    match Arguments.form [] word with
    | .switch => Command.ofArguments rest
    | .input _ => Command.ofAction word rest
    | _ => .error (.unknownOption word)

end Memberwise
