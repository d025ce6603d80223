/-
  Memberwise/Expansion.lean
  =========================
  **Answering all requests of a source text in place.**

  Attributes that request something are removed, together with the blanks behind
  them.  What they request is inserted at the end of the body that they stand
  before, one level deeper than the body's brace, and what is rejected becomes a
  diagnostic.  Where the closing brace starts its line, whole lines are inserted
  in front of it; otherwise the brace moves to a line of its own.
-/
import Memberwise.Diagnostic
import Memberwise.Generated
import Memberwise.Reading.Outline
import Memberwise.Synthesis
import Memberwise.Text

namespace Memberwise

structure Expansion where
  source : String
  /-- Reports on the rejected requests, in source order. -/
  diagnostics : List Diagnostic
deriving DecidableEq, Repr

def Expansion.hasErrors (expansion : Expansion) : Bool :=
  expansion.diagnostics.any Diagnostic.isError

/-! ### Answers of one declaration -/

namespace Declaration

/-- What is generated for a declaration, in the order of its attachments. -/
def generated (declaration : Declaration) : List Generated :=
  declaration.attachments.flatMap fun attachment =>
    match declaration.answer attachment with
    | .ok answers => answers
    | .error _ => []

def rejections (declaration : Declaration) : List Diagnostic :=
  declaration.attachments.filterMap fun attachment =>
    match declaration.answer attachment with
    | .ok _ => none
    | .error diagnostic => some diagnostic

end Declaration

/-! ### Edits -/

def removal (source : List Char) (span : Span) : Edit :=
  let blanks := Text.leadingBlanks (Text.dropBytes span.stop source)
  ⟨span.upTo (span.stop + Text.width blanks), ""⟩

def lineEnding (source : List Char) : List Char :=
  if Text.hasReturnedLine source then ['\r', '\n'] else ['\n']

/-- The spaces and tabs that a line starts with. -/
def lineMargin (line : List Char) : List Char := line.takeWhile fun c => c == ' ' || c == '\t'

def marginAt (source : List Char) (offset : Nat) : List Char :=
  lineMargin (Text.lastLine (Text.takeBytes offset source) ++ Text.dropBytes offset source)

/-- Lines inserted in front of a brace that starts its line at a margin: each
    declaration with an empty line before it. -/
def blockText (layout : Layout) (margin : List Char) (generated : List Generated) : List Char :=
  generated.flatMap fun one =>
    '\n' :: one.indented layout (margin ++ layout.indent.toList) ++ ['\n']

/-- Text that takes a brace to a line of its own, at a margin: the declarations
    with an empty line between them. -/
def inlineText (layout : Layout) (margin : List Char) (generated : List Generated) : List Char :=
  '\n' :: ['\n', '\n'].intercalate
    (generated.map (·.indented layout (margin ++ layout.indent.toList))) ++
  '\n' :: margin

/-- The edit that inserts generated declarations in front of the closing brace of
    a declaration. -/
def insertion (layout : Layout) (source : List Char) (declaration : Declaration)
    (generated : List Generated) : Edit :=
  let close := declaration.body.stop - 1
  let before := Text.takeBytes close source
  let margin := Text.lastLine before
  let ended := fun text => String.ofList (Text.withLineEnding (lineEnding source) text)
  if margin.all Text.isBlank then
    let start := close - Text.width margin
    ⟨⟨start, start, 0, 0⟩, ended (blockText layout margin generated)⟩
  else
    -- blanks in front of the brace give way, but the opening brace stays
    let start := max (Text.width (Text.trimEnd before)) (declaration.body.start + 1)
    ⟨⟨start, close, 0, 0⟩,
      ended (inlineText layout (marginAt source declaration.span.start) generated)⟩

namespace Outline

/-- All declarations of an outline, each before those inside it. -/
def allDeclarations (outline : Outline) : List Declaration :=
  outline.declarations.flatMap Declaration.withNested

def edits (layout : Layout) (source : List Char) (outline : Outline) : List Edit :=
  outline.requests.map (removal source) ++
  outline.allDeclarations.filterMap fun declaration =>
    match declaration.generated with
    | [] => none
    | generated => some (insertion layout source declaration generated)

def generates (outline : Outline) : Bool :=
  outline.allDeclarations.any fun declaration => !declaration.generated.isEmpty

/-- The reports on rejected requests, by place. -/
def diagnostics (outline : Outline) : List Diagnostic :=
  inOrder (fun a b => a.anchor.start ≤ b.anchor.start)
    (outline.allDeclarations.flatMap Declaration.rejections)

end Outline

/-! ### Whole sources -/

def expand (layout : Layout) (source : String) : Except ReadError Expansion := do
  let outline ← Outline.ofSource source.toList
  let expanded := Edit.applyAll source.toList (outline.edits layout source.toList)
  return ⟨String.ofList expanded, outline.diagnostics⟩

def generates (source : String) : Bool :=
  match Outline.ofSource source.toList with
  | .ok outline => outline.generates
  | .error _ => false

def applyFixIts (source : String) (diagnostics : List Diagnostic) : String :=
  let edits := diagnostics.filterMap fun diagnostic => diagnostic.fixIt?.map (·.edit)
  String.ofList (Edit.applyAll source.toList edits)

end Memberwise
