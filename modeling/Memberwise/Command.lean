/-
  Memberwise/Command.lean
  =======================
  **The commands of the command line.**

  A command reads one source text, from a file or from standard input, and answers
  with text for standard output or for a file, with reports for standard error, and
  with an exit code: 0 for success, 1 if a request was rejected, 2 if the command
  failed.  What a command does is a function of its surroundings; carrying it out
  is left to the program.

  The surroundings say of every place that is written to how much it takes
  (`Sink`).  A file is emptied when it is opened, so one that does not take all of
  its text is left with a first part of it.  Standard output and standard error are
  not waited for in this way: if they do not take what is printed, the program
  breaks off with an exit code of its own, and so it does if an indentation is
  longer than a text can be.
-/
import Memberwise.Expansion
import Memberwise.Text.Terminal

namespace Memberwise

inductive Format where
  | text
  | json
deriving DecidableEq, Repr

inductive Input where
  | standard
  | file (path : String)
deriving DecidableEq, Repr

inductive Action where
  /-- Answer the requests and deliver the source. -/
  | expand (output? : Option String) (layout : Layout) (format : Format)
  /-- Report rejected requests. -/
  | check (format : Format)
  /-- Apply the fix-its and deliver the source. -/
  | fix (output? : Option String)
deriving DecidableEq, Repr

structure Command where
  action : Action
  input : Input
deriving DecidableEq, Repr

def Action.layout : Action → Layout
  | expand _ layout _ => layout
  | check _ | fix _ => .standard

/-! ### Surroundings -/

/-- How much a place takes of what is written to it, once it is open. -/
inductive Sink where
  | endless
  /-- It takes a number of bytes, and fails for a reason at the next one. -/
  | bounded (room : Nat) (cause : String)
deriving DecidableEq, Repr

namespace Sink

def taken (bytes : ByteArray) : Sink → ByteArray
  | endless => bytes
  | bounded room _ => bytes.extract 0 room

/-- Why a place does not take all of some bytes, if it does not. -/
def failure? (bytes : ByteArray) : Sink → Option String
  | endless => none
  | bounded room cause => if bytes.size ≤ room then none else some cause

end Sink

/-- What a command finds around it. -/
structure Surroundings where
  /-- What standard input holds, or why it cannot be read. -/
  standardInput : Except String ByteArray
  standardOutput : Sink
  standardError : Sink
  /-- What a path gives when it is read, or why it cannot be. -/
  contents : String → Except String ByteArray
  /-- How a path takes what is written to it, or why it cannot be opened. -/
  opened : String → Except String Sink
  /-- The file that a path leads to.  Two paths can lead to one file. -/
  file : String → String
  /-- Whether a file keeps what it takes, as a device does not. -/
  keeps : String → Bool

structure Outcome where
  exitCode : Nat
  output : ByteArray
  errors : ByteArray
  /-- A path opened for writing, and what it took. -/
  written? : Option (String × ByteArray)

namespace Input

/-- The steps of a path, from one slash to the next. -/
def steps : List Char → List (List Char)
  | [] => [[]]
  | '/' :: rest => [] :: steps rest
  | c :: rest =>
    match steps rest with
    | [] => [[c]]
    | first :: more => (c :: first) :: more

/-- Whether a step of a path goes nowhere. -/
def isIdle (step : List Char) : Bool := step.isEmpty || step == ['.']

/-- Whether a path is `-`, which stands for standard input; idle steps behind it do
    not matter.  With a step in front it is a path like any other. -/
def isDash (path : String) : Bool :=
  match steps path.toList with
  | first :: more => first == ['-'] && more.all isIdle
  | [] => false

/-- The input that an argument names.  Without one it is standard input. -/
def ofArgument : Option String → Input
  | none => standard
  | some path => if isDash path then standard else file path

/-- An input as failures name it. -/
def title : Input → String
  | standard => "stdin"
  | file path => path

/-- An input as reports name it. -/
def reportName : Input → String
  | standard => "<stdin>"
  | file path => path

end Input

def Surroundings.read (around : Surroundings) (input : Input) : Except String String := do
  let bytes ←
    match input with
    | .standard => around.standardInput
    | .file path => around.contents path
  match String.fromUTF8? bytes with
  | some text => .ok text
  | none => .error "stream did not contain valid UTF-8"

/-! ### What a command delivers -/

structure Delivery where
  /-- Lines for standard error. -/
  reports : List String
  /-- The text delivered, if any. -/
  text? : Option String
  /-- The file it goes to; without one it goes to standard output. -/
  output? : Option String
  /-- Whether a request was rejected. -/
  rejected : Bool
deriving DecidableEq, Repr

def reportLine (input : Input) (diagnostic : Diagnostic) : String :=
  input.reportName ++ ":" ++ diagnostic.text ++ " [" ++ diagnostic.id ++ "]"

def Expansion.json (expansion : Expansion) : Json :=
  .object [("source", .text expansion.source),
    ("diagnostics", .list (expansion.diagnostics.map Diagnostic.json))]

def Command.deliver (command : Command) (source : String) : Except ReadError Delivery := do
  let expansion ← Memberwise.expand command.action.layout source
  let reports := expansion.diagnostics.map (reportLine command.input)
  match command.action with
  | .expand output? _ .text =>
    return ⟨reports, some expansion.source, output?, expansion.hasErrors⟩
  | .expand output? _ .json =>
    return ⟨[], some expansion.json.pretty, output?, expansion.hasErrors⟩
  | .check .text => return ⟨reports, none, none, expansion.hasErrors⟩
  | .check .json =>
    let report := Json.list (expansion.diagnostics.map Diagnostic.json)
    return ⟨[], some report.pretty, none, expansion.hasErrors⟩
  | .fix output? =>
    return ⟨[], some (applyFixIts source expansion.diagnostics), output?, false⟩

/-! ### Outcomes -/

def linesText (lines : List String) : String := String.join (lines.map (· ++ "\n"))

/-- The outcome of a failure, given the reports made before it, its causes, the outermost
    first, and what was written before it.  The line that names the causes goes to a log,
    which is taken to arrive. -/
def Outcome.failure (reports causes : List String) (written? : Option (String × ByteArray)) :
    Outcome :=
  let cause := "ERROR member_synth: " ++ Text.tamed (String.intercalate ": " causes)
  ⟨2, .empty, (linesText (reports ++ [cause])).toUTF8, written?⟩

/-- The outcome where the program breaks off, given what it has printed by then.  What it says
    about breaking off is left out. -/
def Outcome.breakdown (output errors : ByteArray) : Outcome := ⟨101, output, errors, none⟩

def Outcome.printing (around : Surroundings) (exitCode : Nat) (errors : ByteArray)
    (text : String) : Outcome :=
  let bytes := (text ++ "\n").toUTF8
  match around.standardOutput.failure? bytes with
  | some _ => .breakdown (around.standardOutput.taken bytes) errors
  | none => ⟨exitCode, bytes, errors, none⟩

/-- The outcome of writing a text to a file, which is opened first. -/
def Outcome.writing (around : Surroundings) (exitCode : Nat) (reports : List String)
    (path text : String) : Outcome :=
  match around.opened path with
  | .error cause => .failure reports ["failed to write " ++ path, cause] none
  | .ok sink =>
    match sink.failure? text.toUTF8 with
    | some cause =>
      .failure reports ["failed to write " ++ path, cause] (some (path, sink.taken text.toUTF8))
    | none => ⟨exitCode, .empty, (linesText reports).toUTF8, some (path, text.toUTF8)⟩

def Delivery.exitCode (delivery : Delivery) : Nat := if delivery.rejected then 1 else 0

def Delivery.outcome (around : Surroundings) (delivery : Delivery) : Outcome :=
  let errors := (linesText delivery.reports).toUTF8
  match around.standardError.failure? errors with
  | some _ => .breakdown .empty (around.standardError.taken errors)
  | none =>
    match delivery.text?, delivery.output? with
    | none, _ => ⟨delivery.exitCode, .empty, errors, none⟩
    | some text, none => .printing around delivery.exitCode errors text
    | some text, some path => .writing around delivery.exitCode delivery.reports path text

def Command.run (around : Surroundings) (command : Command) : Outcome :=
  match around.read command.input with
  | .error cause => .failure [] ["failed to read " ++ command.input.title, cause] none
  | .ok source =>
    if !command.action.layout.fits && generates source then .breakdown .empty .empty
    else
      match command.deliver source with
      | .error error =>
        .failure [] (("failed to parse " ++ command.input.title) :: error.chain) none
      | .ok delivery => delivery.outcome around

end Memberwise
