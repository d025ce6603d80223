/-
  Memberwise/Reading/Run.lean
  ===========================
  **Runs of tokens that are taken whole.**

  Types, the parts of an expression behind its first literal, modifiers, accessor
  blocks, generic clauses and items that are of no interest are not taken apart.
  For each there is a rule for where it ends, and a run that parts the pending
  tokens there.  The rules differ in which brackets they count and in whether a
  new line ends them.  Depths are natural numbers, without a greatest one.
-/
import Memberwise.Reading.Stream

namespace Memberwise

def andTake (placed : Placed) (parts : List Placed × List Placed) : List Placed × List Placed :=
  (placed :: parts.1, parts.2)

/-! ### Expressions -/

def isObserverWord (word : String) : Bool := word == "willSet" || word == "didSet"

def isObserver (placed : Placed) : Bool :=
  match placed.token with
  | .name word => isObserverWord word
  | _ => false

/-- Whether an expression ends in front of a token, given what follows the token.
    A brace ends it if it opens a block of observers.  A new line ends it unless
    the line goes on with a point or an operator.  The first token of an
    expression is tested less strictly than the others. -/
def endsExpr (stopAtColon first : Bool) (placed : Placed) (following? : Option Placed) : Bool :=
  match placed.token with
  | .endOfInput | .comma | .semicolon | .closing _ => true
  | .colon => stopAtColon
  | .opening .curly => !first && following?.any isObserver
  | .dot | .operator _ | .equals => false
  | _ => placed.afterNewline && !first

def exprRun (stopAtColon : Bool) : Bool → Nat → Run
  | _, _, [] => ([], [])
  | first, depth, placed :: rest =>
    if depth = 0 ∧ endsExpr stopAtColon first placed rest.head? then ([], placed :: rest)
    else andTake placed (exprRun stopAtColon false (placed.token.depthAfter depth) rest)

/-- The rest of a collection up to its closing bracket, at a depth of brackets
    inside it. -/
def collectionRun : Nat → Run
  | _, [] => ([], [])
  | depth, placed :: rest =>
    match placed.token, depth with
    | .closing _, 0 => ([placed], rest)
    | token, _ => andTake placed (collectionRun (token.depthAfter depth) rest)

/-! ### Types -/

/-- Parts an operator such as `?=` into the sign that belongs to a type and the
    `=` behind it. -/
def splitEquals? (placed : Placed) : Option (Placed × Placed) :=
  match placed.token with
  | .operator text =>
    let sign := text.toList.dropLast
    if text.toList.getLast? = some '=' ∧ sign ≠ [] ∧
        sign.all (fun c => c == '?' || c == '!' || c == '>') then
      let middle := placed.span.stop - 1
      some (⟨.operator (String.ofList sign), placed.span.upTo middle, placed.afterNewline⟩,
        ⟨.equals, ⟨middle, placed.span.stop, placed.span.line,
          placed.span.column + (middle - placed.span.start)⟩, false⟩)
    else none
  | _ => none

def charCount (c : Char) (text : String) : Nat := text.toList.count c

/-- Depth of angle brackets behind an operator.  Here, in `typeDepth` and in `genericRun`
    a natural number stands for a signed word of 32 bits.  The two agree in a source with
    fewer than `2 ^ 31` brackets, beyond which the word is too short; the readers of
    `Proofs/Checked` count in words, and do what these do wherever the words suffice. -/
def angleDepth (text : String) (depth : Nat) : Nat :=
  depth + charCount '<' text - charCount '>' text

/-- Depth behind a token of a type.  Round, square and angle brackets count; the
    arrow of a function type holds no bracket. -/
def typeDepth : Token → Nat → Nat
  | .opening .round, depth | .opening .square, depth => depth + 1
  | .closing .round, depth | .closing .square, depth => depth - 1
  | .operator text, depth => if text = "->" then depth else angleDepth text depth
  | _, depth => depth

def endsType (first : Bool) (placed : Placed) : Bool :=
  (!first && placed.afterNewline) ||
  match placed.token with
  | .endOfInput | .equals | .opening .curly | .closing _ | .semicolon | .comma | .colon => true
  | .name word => word == "where"
  | _ => false

/-- The tokens of a type.  An operator that ends in `=` is parted on the way, and
    its parts stand in the stream from then on. -/
def typeRun : Bool → Nat → Run
  | _, _, [] => ([], [])
  | first, depth, placed :: rest =>
    match splitEquals? placed with
    | some (sign, equals) =>
      if depth = 0 ∧ endsType first sign then ([], sign :: equals :: rest)
      else
        match typeDepth sign.token depth with
        | 0 => ([sign], equals :: rest)
        | inside + 1 => andTake sign (andTake equals (typeRun false (inside + 1) rest))
    | none =>
      if depth = 0 ∧ endsType first placed then ([], placed :: rest)
      else andTake placed (typeRun false (typeDepth placed.token depth) rest)

/-- The tokens of a clause of generic parameters.  It ends with the operator that
    closes the last angle bracket; here the arrow counts as one. -/
def genericRun : Nat → Run
  | _, [] => ([], [])
  | depth, placed :: rest =>
    match placed.token with
    | .operator text =>
      match angleDepth text depth with
      | 0 => ([placed], rest)
      | inside + 1 => andTake placed (genericRun (inside + 1) rest)
    | _ => andTake placed (genericRun depth rest)

/-! ### Accessors -/

/-- The tokens up to the brace that closes a block, at a depth of braces inside
    it; nothing if the block is not closed. -/
def blockRun? : Nat → List Placed → Option (List Placed × List Placed)
  | _, [] => none
  | depth, placed :: rest =>
    match placed.token, depth with
    | .closing .curly, 0 => some ([placed], rest)
    | .closing .curly, depth + 1 => (blockRun? depth rest).map (andTake placed)
    | .opening .curly, depth => (blockRun? (depth + 1) rest).map (andTake placed)
    | _, depth => (blockRun? depth rest).map (andTake placed)

def accessorWords : List String :=
  ["get", "set", "willSet", "didSet", "_read", "_modify", "init", "unsafeAddress",
    "unsafeMutableAddress"]

/-- The accessor words among the tokens of a block that stand in no further
    braces, at a depth of braces and one of other brackets. -/
def accessorsIn : Nat → Nat → List Placed → List String
  | _, _, [] => []
  | braces, brackets, placed :: rest =>
    match placed.token with
    | .opening .curly => accessorsIn (braces + 1) brackets rest
    | .closing .curly => accessorsIn (braces - 1) brackets rest
    | .opening _ => accessorsIn braces (brackets + 1) rest
    | .closing _ => accessorsIn braces (brackets - 1) rest
    | .name word =>
      if braces = 0 ∧ brackets = 0 ∧ accessorWords.contains word then
        word :: accessorsIn braces brackets rest
      else accessorsIn braces brackets rest
    | _ => accessorsIn braces brackets rest

/-- Whether a block that starts with a token lists accessors; any other block is
    the body of a getter. -/
def listsAccessors (token : Token) : Bool :=
  match token with
  | .name word => accessorWords.contains word || word == "mutating" || word == "nonmutating"
  | .atSign => true
  | _ => false

/-! ### Modifiers -/

def modifierWords : List String :=
  ["public", "private", "fileprivate", "internal", "open", "package", "static", "final", "lazy",
    "weak", "unowned", "override", "mutating", "nonmutating", "dynamic", "optional", "required",
    "convenience", "indirect", "nonisolated", "isolated", "distributed", "prefix", "postfix",
    "infix", "consuming", "borrowing"]

/-- Words in front of which `class` is a modifier. -/
def classMemberWords : List String := ["var", "let", "func", "subscript", "override", "final"]

def takesClass (placed : Placed) : Bool :=
  match placed.token with
  | .name word => classMemberWords.contains word
  | _ => false

/-- Whether a token is a modifier, given the token behind it: `none` if not, and
    else whether it makes a member static. -/
def modifier? (placed : Placed) (following? : Option Placed) : Option Bool :=
  match placed.token with
  | .name word =>
    if word = "class" ∧ following?.any takesClass then some true
    else if modifierWords.contains word then some (word == "static")
    else none
  | _ => none

/-- Whether a token opens the argument of a modifier or an attribute, which follows
    without a gap. -/
def opensArguments (owner : Span) (placed : Placed) : Bool :=
  placed.token == .opening .round && placed.span.start == owner.stop

/-- The modifiers at the front of a list, at a depth of parentheses inside the
    argument of one.  The first part of the result is whether one of them makes a
    member static. -/
def modifierRun : Nat → List Placed → Bool × List Placed × List Placed
  | _, [] => (false, [], [])
  | 0, [placed] =>
    match modifier? placed none with
    | some isStatic => (isStatic, [placed], [])
    | none => (false, [], [placed])
  | 0, placed :: following :: rest =>
    match modifier? placed (some following) with
    | some isStatic =>
      if opensArguments placed.span following then
        let (others, parts) := modifierRun 1 rest
        (isStatic || others, andTake placed (andTake following parts))
      else
        let (others, parts) := modifierRun 0 (following :: rest)
        (isStatic || others, andTake placed parts)
    | none => (false, [], placed :: following :: rest)
  | depth + 1, placed :: rest =>
    let inside :=
      match placed.token with
      | .opening .round => depth + 2
      | .closing .round => depth
      | _ => depth + 1
    let (isStatic, parts) := modifierRun inside rest
    (isStatic, andTake placed parts)

/-! ### Other items -/

/-- Whether an item that is not taken apart ends in front of a token outside all
    brackets. -/
def endsOther (first : Bool) (placed : Placed) : Bool :=
  match placed.token with
  | .endOfInput | .closing .curly | .semicolon => true
  | .opening .curly | .dot | .operator _ => false
  | _ => !first && placed.afterNewline

/-- The tokens of an item that is not taken apart, at a depth of brackets. -/
def otherRun : Bool → Nat → Run
  | _, _, [] => ([], [])
  | first, depth, placed :: rest =>
    if depth = 0 ∧ endsOther first placed then ([], placed :: rest)
    else andTake placed (otherRun false (placed.token.depthAfter depth) rest)

/-- The parts of a name behind its first: a point and a name, as often as they
    follow each other. -/
def qualifierRun : Run
  | point :: part :: rest =>
    if point.token = .dot ∧ part.token.isName then
      andTake point (andTake part (qualifierRun rest))
    else ([], point :: part :: rest)
  | rest => ([], rest)

end Memberwise
