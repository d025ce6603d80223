/-
  Memberwise/Reading/Outline.lean
  ===============================
  **Reading the declarations of a source text.**

  An outline holds the type declarations of a source, each with what is nested in
  it, and the spans of the attributes that request something.  The head of a
  declaration, up to the brace that opens its body, is read in one go; then come
  the items of the body, among which are further declarations.
-/
import Memberwise.Reading.Property

namespace Memberwise

structure Outline where
  /-- The declarations outside all others, in order. -/
  declarations : List Declaration
  /-- Spans of the attributes that request something, in order. -/
  requests : List Span

structure Header where
  kind : Declaration.Kind
  name : String
  attachments : List Attachment
  inherited : List String
  /-- Where the declaration starts. -/
  start : Span
  /-- The opening brace. -/
  brace : Span

def Header.closed (header : Header) (items : List BodyItem) (close : Span) : Declaration where
  kind := header.kind
  name := header.name
  attachments := header.attachments
  inherited := header.inherited
  items := items
  span := header.start.upTo close.stop
  body := header.brace.upTo close.stop

/-- An item, as far as it is read without reading further items. -/
inductive Item where
  /-- A semicolon. -/
  | separator
  | entry (item : BodyItem)
  | opened (header : Header)

namespace Reader

/-- What the attributes of a declaration request; those that request something are
    noted. -/
def attachments : List Attribute → Reader (List Attachment)
  | [] => return []
  | first :: rest => do
    match ← typed first.span first.request? with
    | some request =>
      note [first.span]
      return ⟨request, first.span⟩ :: (← attachments rest)
    | none => attachments rest

def qualifiedName : Reader String := do
  let first ← name
  let qualifiers ← take qualifierRun
  return first.name ++ String.join (qualifiers.map (·.token.text?.getD "."))

def genericClause : Reader Unit := do
  match (← peek).token with
  | .operator text =>
    if text.toList.head? = some '<' then
      let _ ← take (genericRun 0)
      return ()
    else return ()
  | _ => return ()

def types (source : List Char) : Nat → Reader (List String)
  | 0 => tooLong
  | limit + 1 => do
    let first ← type source
    match (← peek).token with
    | .comma =>
      let _ ← next
      return first.text :: (← types source limit)
    | _ => return [first.text]

def inheritance (source : List Char) : Reader (List String) := do
  match (← peek).token with
  | .colon => let _ ← next; types source (readingLimit source)
  | _ => return []

def requirements : Reader Unit := do
  match (← peek).token with
  | .name "where" =>
    let _ ← take (List.span (·.token != .opening .curly))
    return ()
  | _ => return ()

def openingBrace : Reader Span := do
  match (← peek).token with
  | .opening .curly => return (← next).span
  | _ => expected .bodyStart

def closingBrace (owner : String) : Reader Span := do
  match (← peek).token with
  | .closing .curly => return (← next).span
  | _ => expected (.bodyEnd owner)

def header (source : List Char) (kind : Declaration.Kind) (start : Span)
    (attrs : List Attribute) : Reader Header := do
  let _ ← next
  let attachments ← attachments attrs
  let name ← qualifiedName
  genericClause
  let inherited ← inheritance source
  requirements
  return ⟨kind, name, attachments, inherited, start, ← openingBrace⟩

/-- Reads an item, of a declaration the header only. -/
def item (source : List Char) : Reader Item := do
  let start ← peek
  let attrs ← attributes source (readingLimit source)
  let isStatic ← modifiers
  let stream ← get
  match stream.head.token with
  | .semicolon => let _ ← next; return .separator
  | .name word =>
    if word = "let" ∨ word = "var" then
      return .entry (← property source start.span attrs isStatic)
    else
      match Declaration.Kind.ofKeyword? word, stream.second.token.isName with
      | some kind, true => return .opened (← header source kind start.span attrs)
      | _, _ => return .entry (.other (← other start.span))
  | _ => return .entry (.other (← other start.span))

/-- Reads items up to a closing brace, which is left, or to the end of input. -/
def items (source : List Char) : Nat → Reader (List BodyItem)
  | 0 => tooLong
  | limit + 1 => do
    match (← peek).token with
    | .closing .curly | .endOfInput => return []
    | _ =>
      match ← item source with
      | .separator => items source limit
      | .entry entry => return entry :: (← items source limit)
      | .opened header =>
        let inner ← items source limit
        let close ← closingBrace header.name
        return .nested (header.closed inner close) :: (← items source limit)

/-- Reads a whole source text.  Outside declarations there is no closing brace. -/
def outline (source : List Char) : Reader Outline := do
  let items ← items source (readingLimit source)
  let stream ← get
  match stream.head.token with
  | .closing _ => expected .declaration
  | _ =>
    let declarations := items.filterMap fun
      | .nested declaration => some declaration
      | _ => none
    return ⟨declarations, stream.requests⟩

end Reader

def Outline.ofSource (source : List Char) : Except ReadError Outline := do
  let tokens ← (tokenize source).mapError .scan
  let (outline, _) ← Reader.outline source |>.run (.start tokens)
  return outline

end Memberwise
