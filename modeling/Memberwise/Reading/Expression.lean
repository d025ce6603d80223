/-
  Memberwise/Reading/Expression.lean
  ==================================
  **Reading expressions and types.**

  An expression is a literal if a literal is all there is of it; whatever goes on
  behind its first literal makes it an expression of no known shape.  Its text is
  the source from its first token to its last.  An expression may be empty, where
  one is asked for and none is there.

  Array literals hold expressions, so reading is recursive.  The recursion is
  bounded by a limit on the number of elements and brackets on the way to any one
  element, which is above what a source of the given length can hold.
-/
import Memberwise.Reading.Run
import Memberwise.Text

namespace Memberwise

/-- A limit that no count of tokens in a source reaches. -/
def readingLimit (source : List Char) : Nat := source.length + 1

def sourceText (source : List Char) (start stop : Nat) : String :=
  String.ofList (Text.slice source start stop)

namespace Reader

def type (source : List Char) : Reader WrittenType := do
  let first ← peek
  let taken ← take (typeRun true 0)
  match taken.getLast? with
  | some last =>
    return ⟨sourceText source first.span.start last.span.stop, first.span.upTo last.span.stop⟩
  | none => expected .type

def implicitName? (point member : Placed) : Option String :=
  match member.token with
  | .name name => if member.span.start = point.span.stop then some name else none
  | _ => none

/-- Takes the literal that an expression starts with, and gives its shape.  What
    follows an opening bracket is read by `elements`, which gives nothing for a
    dictionary. -/
def literal? (elements : Reader (Option (List Expr))) : Reader (Option Expr.Shape) := do
  let stream ← get
  match stream.head.token with
  | .name "true" => let _ ← next; return some (.bool true)
  | .name "false" => let _ ← next; return some (.bool false)
  | .name "nil" => let _ ← next; return some .nil
  | .integer _ => let _ ← next; return some .integer
  | .float _ => let _ ← next; return some .float
  | .string _ => let _ ← next; return some .string
  | .opening .square =>
    let _ ← next
    match ← elements with
    | some items => return some (.array items)
    | none => return some .other
  | .dot =>
    match implicitName? stream.head stream.second with
    | some name => let _ ← next; let _ ← next; return some (.implicitMember name)
    | none => return none
  | _ => return none

def atExprEnd (stopAtColon : Bool) : Reader Bool := do
  let stream ← get
  return endsExpr stopAtColon false stream.head stream.pending.tail.head?

/-- Takes what is left of an expression that starts with a literal, or with none,
    and gives the shape of the whole. -/
def exprShape (stopAtColon : Bool) (literal? : Option Expr.Shape) : Reader Expr.Shape := do
  match literal? with
  | some shape =>
    if ← atExprEnd stopAtColon then return shape
    else
      let _ ← take (exprRun stopAtColon false 0)
      return .other
  | none =>
    let _ ← take (exprRun stopAtColon true 0)
    return .other

/-- Reads an expression, with a reader for what follows an opening bracket. -/
def exprWith (source : List Char) (elements : Reader (Option (List Expr)))
    (stopAtColon : Bool) : Reader Expr := do
  let first ← peek
  let shape ← exprShape stopAtColon (← literal? elements)
  -- nothing may have been taken, and then the last token ended before this one
  let stop := max (← get).readTo first.span.start
  return ⟨shape, sourceText source first.span.start stop, first.span.upTo stop⟩

def dictionary : Reader (Option (List Expr)) := do
  let _ ← take (collectionRun 0)
  return none

/-- Reads the elements of an array and its closing bracket.  A colon shows that
    the collection is a dictionary, whose entries are not kept. -/
def elements (source : List Char) : Nat → Reader (Option (List Expr))
  | 0 => tooLong
  | limit + 1 => do
    match (← peek).token with
    | .closing .square => let _ ← next; return some []
    | .colon => dictionary
    | .endOfInput => expected .arrayEnd
    | _ =>
      let element ← exprWith source (elements source limit) true
      match (← peek).token with
      | .comma =>
        let _ ← next
        return (← elements source limit).map (element :: ·)
      | .closing .square => return (← elements source limit).map (element :: ·)
      | .colon => dictionary
      | _ => expected .elementEnd

def expr (source : List Char) (stopAtColon : Bool) : Reader Expr :=
  exprWith source (elements source (readingLimit source)) stopAtColon

end Reader

end Memberwise
