/-
  Memberwise/Declaration.lean
  ===========================
  **Declarations of types.**

  A declaration has a kind, a name, the requests attached to it, the names it
  inherits from and a body.  The body holds members, declarations nested in it,
  and everything else as bare spans.
-/
import Memberwise.Attribute

namespace Memberwise

inductive Declaration.Kind where
  | structType
  | classType
  | enumType
  | actorType
  | protocolType
  | extensionType
deriving DecidableEq, Repr

mutual

structure Declaration where
  kind : Declaration.Kind
  name : String
  /-- Requests attached to the declaration, in source order. -/
  attachments : List Attachment
  /-- The inherited types, as they are written. -/
  inherited : List String
  items : List BodyItem
  /-- From the first attribute or modifier to the closing brace. -/
  span : Span
  /-- The body, both braces included. -/
  body : Span

inductive BodyItem where
  | property (member : Member)
  | nested (declaration : Declaration)
  /-- Functions, initializers, cases and all else. -/
  | other (span : Span)

end

deriving instance Repr for Declaration, BodyItem

namespace Declaration

def Kind.ofKeyword? : String → Option Kind
  | "struct" => some structType
  | "class" => some classType
  | "enum" => some enumType
  | "actor" => some actorType
  | "protocol" => some protocolType
  | "extension" => some extensionType
  | _ => none

/-- Whether instances of the kind hold stored members that an initializer sets. -/
def Kind.takesInitializer : Kind → Bool
  | structType | classType => true
  | _ => false

/-! ### Building declarations -/

def empty (kind : Kind) (name : String) : Declaration :=
  ⟨kind, name, [], [], [], .nowhere, .nowhere⟩

def inherit (declaration : Declaration) (name : String) : Declaration :=
  { declaration with inherited := declaration.inherited ++ [name] }

def withItem (declaration : Declaration) (item : BodyItem) : Declaration :=
  { declaration with items := declaration.items ++ [item] }

/-! ### What a body holds -/

def members (declaration : Declaration) : List Member :=
  declaration.items.filterMap fun
    | .property member => some member
    | _ => none

def nested (declaration : Declaration) : List Declaration :=
  declaration.items.filterMap fun
    | .nested inner => some inner
    | _ => none

def stored (declaration : Declaration) : List StoredMember :=
  declaration.members.filterMap Member.stored?

mutual

/-- A declaration and all those inside it, each before what it holds. -/
def withNested : Declaration → List Declaration
  | ⟨kind, name, attachments, inherited, items, span, body⟩ =>
    ⟨kind, name, attachments, inherited, items, span, body⟩ :: nestedIn items

def nestedIn : List BodyItem → List Declaration
  | [] => []
  | .nested inner :: rest => withNested inner ++ nestedIn rest
  | .property _ :: rest => nestedIn rest
  | .other _ :: rest => nestedIn rest

end

end Declaration

end Memberwise
