/-
  Memberwise/Diagnostic.lean
  ==========================
  **Diagnostics and their fix-its.**

  A request that cannot be answered is reported as a diagnostic, which points at
  a place and offers one edit that removes the cause.

  Edits are applied from the end of the text backwards, so that the offsets of
  those still to come stay valid.  An edit is accepted if its span lies in the
  text, between characters, and ends no later than the last accepted edit starts;
  any other edit is left out.  Equal edits that stand side by side in this order
  count once.
-/
import Memberwise.Member
import Memberwise.Sorting
import Memberwise.Text.Json

namespace Memberwise

inductive Severity where
  | error
deriving DecidableEq, Repr

inductive Diagnostic.Kind where
  /-- The declaration is of a kind that takes no initializer. -/
  | notApplicable
  /-- A member has no type and no initializer that shows one. -/
  | notInferableType
deriving DecidableEq, Repr

structure Edit where
  span : Span
  replacement : String
deriving DecidableEq, Repr

structure FixIt where
  message : String
  edit : Edit
deriving DecidableEq, Repr

structure Diagnostic where
  kind : Diagnostic.Kind
  message : String
  severity : Severity
  /-- The place that the report points at. -/
  anchor : Span
  fixIt? : Option FixIt
deriving DecidableEq, Repr

namespace Diagnostic

/-- An attribute stands on a declaration that it does not apply to; the fix-it
    removes it. -/
def notApplicable (name : String) (attachment : Span) : Diagnostic where
  kind := .notApplicable
  message := "'@" ++ name ++ "' can only be applied to a Struct or Class"
  severity := .error
  anchor := attachment
  fixIt? := some ⟨"Remove '@" ++ name ++ "'", attachment, ""⟩

/-- A bound name has no type; the fix-it leaves a placeholder for one. -/
def notInferableType (pattern : Pattern) : Diagnostic where
  kind := .notInferableType
  message := "Failed to infer the Type"
  severity := .error
  anchor := pattern.span
  fixIt? := some ⟨"Specify Type instead", pattern.span, pattern.name ++ ": <#Type#>"⟩

def Kind.id : Kind → String
  | notApplicable => "PublicInit.notApplicable"
  | notInferableType => "PublicInit.notInferableType"

def id (diagnostic : Diagnostic) : String := diagnostic.kind.id

def isError (diagnostic : Diagnostic) : Bool := diagnostic.severity == .error

def severityWord : Severity → String
  | .error => "error"

/-- A diagnostic on one line.  One without a place in the source shows none. -/
def text (diagnostic : Diagnostic) : String :=
  let place :=
    if diagnostic.anchor.isNowhere then "" else diagnostic.anchor.position.text ++ ": "
  let offer :=
    match diagnostic.fixIt? with
    | some fixIt => " (fix-it: " ++ fixIt.message ++ ")"
    | none => ""
  place ++ severityWord diagnostic.severity ++ ": " ++ diagnostic.message ++ offer

/-! ### Diagnostics in JSON -/

def Kind.word : Kind → String
  | notApplicable => "NotApplicable"
  | notInferableType => "NotInferableType"

def severityName : Severity → String
  | .error => "Error"

def spanJson (span : Span) : Json :=
  .object [("start", .number span.start), ("end", .number span.stop),
    ("line", .number span.line), ("column", .number span.column)]

def editJson (edit : Edit) : Json :=
  .object [("span", spanJson edit.span), ("replacement", .text edit.replacement)]

def fixItJson (fixIt : FixIt) : Json :=
  .object [("message", .text fixIt.message), ("edit", editJson fixIt.edit)]

def json (diagnostic : Diagnostic) : Json :=
  .object [("kind", .text diagnostic.kind.word), ("message", .text diagnostic.message),
    ("severity", .text (severityName diagnostic.severity)),
    ("anchor", spanJson diagnostic.anchor),
    ("fix_it", (diagnostic.fixIt?.map fixItJson).getD .null)]

end Diagnostic

/-! ### Applying edits -/

namespace Edit

/-- Whether an edit comes before another one, or may: later starts first, and of
    equal starts later ends first. -/
def before (a b : Edit) : Bool :=
  b.span.start < a.span.start || (b.span.start == a.span.start && b.span.stop ≤ a.span.stop)

/-- A list with one of each run of equal neighbours. -/
def withoutRepeats : List Edit → List Edit
  | [] => []
  | [edit] => [edit]
  | edit :: next :: rest =>
    if edit = next then withoutRepeats (next :: rest) else edit :: withoutRepeats (next :: rest)

/-- Whether an edit can be applied to the part of a source in front of `limit`. -/
def fits (source : List Char) (limit : Nat) (edit : Edit) : Bool :=
  edit.span.start ≤ edit.span.stop && edit.span.stop ≤ limit &&
  Text.isBoundary edit.span.start source && Text.isBoundary edit.span.stop source

/-- The edits of a list that are applied one after another, when the text behind
    `limit` may no longer change. -/
def acceptedBelow (source : List Char) : Nat → List Edit → List Edit
  | _, [] => []
  | limit, edit :: rest =>
    if edit.fits source limit then edit :: acceptedBelow source edit.span.start rest
    else acceptedBelow source limit rest

/-- The edits that are applied to a source, last in the text first. -/
def accepted (source : List Char) (edits : List Edit) : List Edit :=
  acceptedBelow source (Text.width source) (withoutRepeats (inOrder before edits))

def replaceIn (text : List Char) (edit : Edit) : List Char :=
  Text.takeBytes edit.span.start text ++ edit.replacement.toList ++
  Text.dropBytes edit.span.stop text

/-- A source with all edits applied that can be. -/
def applyAll (source : List Char) (edits : List Edit) : List Char :=
  (accepted source edits).foldl replaceIn source

end Edit

end Memberwise
