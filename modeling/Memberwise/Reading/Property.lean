/-
  Memberwise/Reading/Property.lean
  ================================
  **Reading members.**

  A `let` or `var` with its bindings, one after another with commas between.  A
  block behind a binding is told apart by its words: a block that lists accessors,
  and among them observers only, leaves the member stored; any other block makes
  it computed.
-/
import Memberwise.Declaration
import Memberwise.Reading.Attributes

namespace Memberwise

/-- The accessors that a block gives a binding, from its first token and its
    tokens. -/
def Accessors.ofBlock (first : Token) (block : List Placed) : Accessors :=
  let words := accessorsIn 0 0 block
  if listsAccessors first ∧ words ≠ [] ∧ words.all isObserverWord then .observed else .computed

namespace Reader

def accessorBlock : Reader Accessors := do
  let brace ← next
  let stream ← get
  match blockRun? 0 stream.pending with
  | some run =>
    let block ← take fun _ => run
    return .ofBlock stream.head.token block
  | none => failAt brace.span.position .openAccessors

def type? (source : List Char) : Reader (Option WrittenType) := do
  match (← peek).token with
  | .colon => let _ ← next; return some (← type source)
  | _ => return none

def initializer? (source : List Char) : Reader (Option Expr) := do
  match (← peek).token with
  | .equals => let _ ← next; return some (← expr source false)
  | _ => return none

def accessors : Reader Accessors := do
  match (← peek).token with
  | .opening .curly => accessorBlock
  | _ => return .stored

def binding (source : List Char) : Reader Binding := do
  let pattern ← name
  let type? ← type? source
  let initializer? ← initializer? source
  return ⟨pattern, type?, initializer?, ← accessors⟩

def bindings (source : List Char) : Nat → Reader (List Binding)
  | 0 => tooLong
  | limit + 1 => do
    let first ← binding source
    match (← peek).token with
    | .comma =>
      let _ ← next
      return first :: (← bindings source limit)
    | _ => return [first]

/-- Takes an item that is not taken apart and that began at `start`.  A semicolon
    is taken only if there is nothing else. -/
def other (start : Span) : Reader Span := do
  let taken ← take (otherRun true 0)
  match taken.getLast?, (← peek).token with
  | some last, _ => return start.upTo last.span.stop
  | none, .semicolon => return start.upTo (← next).span.stop
  | none, _ => return start.upTo start.start

/-- What the attributes of a member say; those that fix its key are noted. -/
def markers : List Attribute → Reader (List Marker)
  | [] => return []
  | first :: rest => do
    let marker ← typed first.span first.marker
    note (if marker.key?.isSome then [first.span] else [])
    return marker :: (← markers rest)

/-- Reads a member from its keyword on.  What binds no plain name, such as a tuple,
    is not taken apart. -/
def property (source : List Char) (start : Span) (attrs : List Attribute) (isStatic : Bool) :
    Reader BodyItem := do
  let keyword ← next
  match (← peek).token with
  | .name _ =>
    let markers ← markers attrs
    let bindings ← bindings source (readingLimit source)
    let mutability := if keyword.token = .name "let" then .immutable else .mutable
    return .property ⟨markers, isStatic, mutability, bindings, start.upTo (← get).readTo⟩
  | _ => return .other (← other start)

end Reader

end Memberwise
