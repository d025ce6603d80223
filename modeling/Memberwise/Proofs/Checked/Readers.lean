/-
  Memberwise/Proofs/Checked/Readers.lean
  ======================================
  **The readers of declarations over rows of tokens.**

  The readers of the library over again, for rows.  What they do with partial operations is
  to slice the texts of types and expressions off the source, and to look up the token
  passed last.  Where a limit is reached, they are undefined.
-/
import Memberwise.Proofs.Checked.Rows
import Memberwise.Reading.Outline

namespace Memberwise.Checked

/-! ### Readers -/

section Readers

variable {α : Type}

def note (spans : List Span) : RowReader Unit := fun row =>
  some (.ok ((), { row with requests := row.requests ++ spans }))

def typed (span : Span) (result : Except ArgumentError α) : RowReader α := fun row =>
  match result with
  | .ok value => some (.ok (value, row))
  | .error cause => some (.error (.argument span.position cause))

def name : RowReader Pattern := do
  match (← peek).token with
  | .name text => return ⟨text, (← next).span⟩
  | _ => expected .name

end Readers

def type (source : List Char) : RowReader WrittenType := do
  let first ← peek
  let start ← index
  typeRest start (readingLimit source) 0
  if (← index) = start then expected .type
  else
    let stop ← consumedEnd start first.span.start
    let text ← given (slice source first.span.start stop)
    return ⟨String.ofList text, first.span.upTo stop⟩

def shape? : Token → Option Expr.Shape
  | .name word =>
    if word = "true" ∨ word = "false" then some (.bool (word == "true"))
    else if word = "nil" then some .nil
    else none
  | .integer _ => some .integer
  | .float _ => some .float
  | .string _ => some .string
  | _ => none

/-- Passes what is left of an expression that began at index `start`, and gives its shape. -/
def exprShape (source : List Char) (stopAtColon : Bool) (start : Nat)
    (literal? : Option Expr.Shape) : RowReader Expr.Shape := do
  match literal? with
  | some shape =>
    if endsExpr stopAtColon false (← peek) (some (← ahead 1)) then return shape
    else
      exprRest stopAtColon start (readingLimit source) 0
      return .other
  | none =>
    exprRest stopAtColon start (readingLimit source) 0
    return .other

/-- Reads the literal that an expression starts with, with a reader for what follows an opening
    bracket. -/
def literal? (elements : RowReader (Option (List Expr))) : RowReader (Option Expr.Shape) := do
  let first ← peek
  match shape? first.token with
  | some shape =>
    let _ ← next
    return some shape
  | none =>
    match first.token with
    | .opening .square =>
      let _ ← next
      match ← elements with
      | some items => return some (.array items)
      | none => return some .other
    | .dot =>
      match Reader.implicitName? first (← ahead 1) with
      | some name =>
        let _ ← next
        let _ ← next
        return some (.implicitMember name)
      | none => return none
    | _ => return none

def exprWith (source : List Char) (elements : RowReader (Option (List Expr)))
    (stopAtColon : Bool) : RowReader Expr := do
  let first ← peek
  let start ← index
  let shape ← exprShape source stopAtColon start (← literal? elements)
  let stop ← consumedEnd start first.span.start
  let text ← given (slice source first.span.start stop)
  return ⟨shape, String.ofList text, first.span.upTo stop⟩

def dictionary (source : List Char) : RowReader (Option (List Expr)) := do
  collectionRest (readingLimit source) 1
  return none

def elementEnd (source : List Char) (more : RowReader (Option (List Expr))) (element : Expr) :
    RowReader (Option (List Expr)) := do
  match (← peek).token with
  | .comma =>
    let _ ← next
    return (← more).map (element :: ·)
  | .closing .square => return (← more).map (element :: ·)
  | .colon => dictionary source
  | _ => expected .elementEnd

def elements (source : List Char) : Nat → RowReader (Option (List Expr))
  | 0 => undefined
  | limit + 1 => do
    match (← peek).token with
    | .closing .square =>
      let _ ← next
      return some []
    | .colon => dictionary source
    | .endOfInput => expected .arrayEnd
    | _ =>
      let element ← exprWith source (elements source limit) true
      elementEnd source (elements source limit) element

def expr (source : List Char) (stopAtColon : Bool) : RowReader Expr :=
  exprWith source (elements source (readingLimit source)) stopAtColon

def label? : RowReader (Option String) := do
  match (← peek).token, (← ahead 1).token with
  | .name label, .colon =>
    let _ ← next
    let _ ← next
    return some label
  | _, _ => return none

def argumentEnd (more : RowReader (List Argument)) (argument : Argument) :
    RowReader (List Argument) := do
  match (← peek).token with
  | .comma =>
    let _ ← next
    return argument :: (← more)
  | .closing .round => return argument :: (← more)
  | _ => expected .argumentEnd

def arguments (source : List Char) : Nat → RowReader (List Argument)
  | 0 => undefined
  | limit + 1 => do
    match (← peek).token with
    | .closing .round => return []
    | _ =>
      let label? ← label?
      let value ← expr source false
      argumentEnd (arguments source limit) ⟨label?, value⟩

def attr (source : List Char) : RowReader Attribute := do
  let sign ← next
  let name ← name
  if opensArguments name.span (← peek) then
    let _ ← next
    let arguments ← arguments source (readingLimit source)
    let close ← next
    return ⟨name.name, arguments, sign.span.upTo close.span.stop⟩
  else
    return ⟨name.name, [], sign.span.upTo name.span.stop⟩

def attributes (source : List Char) : Nat → RowReader (List Attribute)
  | 0 => undefined
  | limit + 1 => do
    match (← peek).token with
    | .atSign =>
      let first ← attr source
      return first :: (← attributes source limit)
    | _ => return []

def accessorBlock (source : List Char) : RowReader Accessors := do
  let brace ← next
  let first ← peek
  let words ← accessorRest brace.span.position (readingLimit source) 1 0
  return if listsAccessors first.token ∧ words ≠ [] ∧ words.all isObserverWord then .observed
    else .computed

def type? (source : List Char) : RowReader (Option WrittenType) := do
  match (← peek).token with
  | .colon =>
    let _ ← next
    return some (← type source)
  | _ => return none

def initializer? (source : List Char) : RowReader (Option Expr) := do
  match (← peek).token with
  | .equals =>
    let _ ← next
    return some (← expr source false)
  | _ => return none

def accessors (source : List Char) : RowReader Accessors := do
  match (← peek).token with
  | .opening .curly => accessorBlock source
  | _ => return .stored

def binding (source : List Char) : RowReader Binding := do
  let pattern ← name
  let type? ← type? source
  let initializer? ← initializer? source
  return ⟨pattern, type?, initializer?, ← accessors source⟩

def bindings (source : List Char) : Nat → RowReader (List Binding)
  | 0 => undefined
  | limit + 1 => do
    let first ← binding source
    match (← peek).token with
    | .comma =>
      let _ ← next
      return first :: (← bindings source limit)
    | _ => return [first]

def other (source : List Char) (start : Span) : RowReader Span := do
  let begun ← index
  otherRest begun (readingLimit source) 0
  if (← index) = begun ∧ (← peek).token = .semicolon then
    let _ ← next
    return start.upTo (max (← consumedEnd begun start.start) start.start)
  else
    return start.upTo (max (← consumedEnd begun start.start) start.start)

def markers : List Attribute → RowReader (List Marker)
  | [] => return []
  | first :: rest => do
    let marker ← typed first.span first.marker
    note (if marker.key?.isSome then [first.span] else [])
    return marker :: (← markers rest)

def property (source : List Char) (start : Span) (attrs : List Attribute) (isStatic : Bool) :
    RowReader BodyItem := do
  let keyword ← next
  match (← peek).token with
  | .name _ =>
    let markers ← markers attrs
    let bindings ← bindings source (readingLimit source)
    let mutability := if keyword.token = .name "let" then .immutable else .mutable
    return .property ⟨markers, isStatic, mutability, bindings, start.upTo (← last).span.stop⟩
  | _ => return .other (← other source start)

def attachments : List Attribute → RowReader (List Attachment)
  | [] => return []
  | first :: rest => do
    match ← typed first.span first.request? with
    | some request =>
      note [first.span]
      return ⟨request, first.span⟩ :: (← attachments rest)
    | none => attachments rest

def qualifiers : Nat → String → RowReader String
  | 0, _ => undefined
  | turns + 1, known => do
    if (← peek).token = .dot ∧ (← ahead 1).token.isName then
      let _ ← next
      let part ← name
      qualifiers turns (known ++ "." ++ part.name)
    else return known

def qualifiedName (source : List Char) : RowReader String := do
  let first ← name
  qualifiers (readingLimit source) first.name

def genericClause (source : List Char) : RowReader Unit := do
  match (← peek).token with
  | .operator text =>
    if text.toList.head? = some '<' then
      genericRest (readingLimit source) 0
      return ()
    else return ()
  | _ => return ()

def types (source : List Char) : Nat → RowReader (List String)
  | 0 => undefined
  | limit + 1 => do
    let first ← type source
    match (← peek).token with
    | .comma =>
      let _ ← next
      return first.text :: (← types source limit)
    | _ => return [first.text]

def inheritance (source : List Char) : RowReader (List String) := do
  match (← peek).token with
  | .colon =>
    let _ ← next
    types source (readingLimit source)
  | _ => return []

def requirements (source : List Char) : RowReader Unit := do
  match (← peek).token with
  | .name word =>
    if word = "where" then
      requirementsRest (readingLimit source)
      return ()
    else return ()
  | _ => return ()

def openingBrace : RowReader Span := do
  match (← peek).token with
  | .opening .curly => return (← next).span
  | _ => expected .bodyStart

def closingBrace (owner : String) : RowReader Span := do
  match (← peek).token with
  | .closing .curly => return (← next).span
  | _ => expected (.bodyEnd owner)

def header (source : List Char) (kind : Declaration.Kind) (start : Span)
    (attrs : List Attribute) : RowReader Header := do
  let _ ← next
  let attachments ← attachments attrs
  let name ← qualifiedName source
  genericClause source
  let inherited ← inheritance source
  requirements source
  return ⟨kind, name, attachments, inherited, start, ← openingBrace⟩

def item (source : List Char) : RowReader Item := do
  let start ← peek
  let attrs ← attributes source (readingLimit source)
  let isStatic ← modifiers (readingLimit source) false
  match (← peek).token with
  | .semicolon =>
    let _ ← next
    return .separator
  | .name word =>
    let named := (← ahead 1).token.isName
    if word = "let" ∨ word = "var" then
      return .entry (← property source start.span attrs isStatic)
    else
      match Declaration.Kind.ofKeyword? word, named with
      | some kind, true => return .opened (← header source kind start.span attrs)
      | _, _ => return .entry (.other (← other source start.span))
  | _ => return .entry (.other (← other source start.span))

def itemEnd (more : RowReader (List BodyItem)) : Item → RowReader (List BodyItem)
  | .separator => more
  | .entry entry => return entry :: (← more)
  | .opened header => do
    let inner ← more
    let close ← closingBrace header.name
    return .nested (header.closed inner close) :: (← more)

def items (source : List Char) : Nat → RowReader (List BodyItem)
  | 0 => undefined
  | limit + 1 => do
    match (← peek).token with
    | .closing .curly | .endOfInput => return []
    | _ => itemEnd (items source limit) (← item source)

def wholeOutline (source : List Char) : RowReader Outline := do
  let items ← items source (readingLimit source)
  match (← peek).token with
  | .closing _ => expected .declaration
  | _ =>
    let declarations := items.filterMap fun
      | .nested declaration => some declaration
      | _ => none
    fun row => some (.ok (⟨declarations, row.requests⟩, row))

def outline (source : List Char) : Option (Except ReadError Outline) := do
  match ← tokenize source with
  | .error error => some (.error (.scan error))
  | .ok tokens =>
    let outcome ← wholeOutline source ⟨tokens.toList, 0, []⟩
    some (outcome.map Prod.fst)

end Memberwise.Checked
