/-
  Memberwise/Member.lean
  ======================
  **Members of a type.**

  A member is one `let` or `var` with its bindings.  It stores data of an instance
  if it is not static, binds exactly one name, and has no getter.  Observers watch
  a stored member and do not turn it into a computed one.
-/
import Memberwise.Expr

namespace Memberwise

inductive Mutability where
  | immutable
  | mutable
deriving DecidableEq, Repr

inductive Accessors where
  /-- No accessors. -/
  | stored
  /-- Observers of changes only. -/
  | observed
  /-- A getter, written out or implied. -/
  | computed
deriving DecidableEq, Repr

structure Pattern where
  name : String
  span : Span
deriving DecidableEq, Repr

structure WrittenType where
  text : String
  span : Span
deriving DecidableEq, Repr

/-- One `name: Type = initializer { accessors }`, of which only the name must be
    there. -/
structure Binding where
  pattern : Pattern
  type? : Option WrittenType
  initializer? : Option Expr
  accessors : Accessors
deriving Repr

inductive Marker where
  /-- The key under which the member is serialized. -/
  | codingKey (key : StringLiteral)
  /-- Any other attribute, by name. -/
  | other (name : String)
deriving DecidableEq, Repr

structure Member where
  markers : List Marker
  isStatic : Bool
  mutability : Mutability
  bindings : List Binding
  span : Span
deriving Repr

def Marker.key? : Marker → Option StringLiteral
  | codingKey key => some key
  | other _ => none

/-- The binding of a name, with nothing else said. -/
def Binding.ofName (name : String) : Binding := ⟨⟨name, .nowhere⟩, none, none, .stored⟩

namespace Member

/-! ### Building members -/

def single (mutability : Mutability) (name : String) : Member :=
  ⟨[], false, mutability, [.ofName name], .nowhere⟩

def constant (name : String) : Member := single .immutable name

def changeable (name : String) : Member := single .mutable name

def mapLast (change : Binding → Binding) (member : Member) : Member :=
  match member.bindings.getLast? with
  | some last => { member with bindings := member.bindings.dropLast ++ [change last] }
  | none => member

def withType (member : Member) (text : String) : Member :=
  member.mapLast fun binding => { binding with type? := some ⟨text, .nowhere⟩ }

def withInitializer (member : Member) (value : Expr) : Member :=
  member.mapLast fun binding => { binding with initializer? := some value }

def withAccessors (member : Member) (accessors : Accessors) : Member :=
  member.mapLast fun binding => { binding with accessors := accessors }

def withBinding (member : Member) (binding : Binding) : Member :=
  { member with bindings := member.bindings ++ [binding] }

def withoutBindings (member : Member) : Member := { member with bindings := [] }

def asStatic (member : Member) : Member := { member with isStatic := true }

def mark (member : Member) (marker : Marker) : Member :=
  { member with markers := member.markers ++ [marker] }

/-! ### What a member says -/

/-- The key that a member asks for; of several, the first. -/
def codingKey? (member : Member) : Option StringLiteral :=
  member.markers.findSome? Marker.key?

/-- The binding of a member that stores data of an instance. -/
def storedBinding? (member : Member) : Option Binding :=
  match member.isStatic, member.bindings with
  | false, [binding] => if binding.accessors = .computed then none else some binding
  | _, _ => none

end Member

structure StoredMember where
  member : Member
  binding : Binding
deriving Repr

def Member.stored? (member : Member) : Option StoredMember :=
  member.storedBinding?.map fun binding => ⟨member, binding⟩

namespace StoredMember

def name (stored : StoredMember) : String := stored.binding.pattern.name

/-- Whether the type itself fixes the value: a `let` with an initializer. -/
def isInitializedConstant (stored : StoredMember) : Bool :=
  stored.member.mutability == .immutable && stored.binding.initializer?.isSome

end StoredMember

end Memberwise
