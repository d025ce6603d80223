/-
  Memberwise/Synthesis.lean
  =========================
  **Answering requests.**

  A memberwise initializer takes one parameter for each stored member, in order;
  a `let` that already has a value takes none.  The type of a parameter is the one
  that is written or else the one that the initializer shows, and the initializer
  becomes the default value.  The first member without a type rejects the whole
  request, as does a declaration of a kind that takes no initializer.

  An enumeration of keys has one case for each stored member, in order, and is
  never rejected.  A raw value is written only where it differs from the name, or
  where the member asks for it.
-/
import Memberwise.Declaration
import Memberwise.Diagnostic
import Memberwise.Generated

namespace Memberwise

def StoredMember.parameter (stored : StoredMember) : Except Diagnostic Parameter :=
  let default? := stored.binding.initializer?.map (·.text)
  let type? :=
    match stored.binding.type? with
    | some written => some (.explicit written.text)
    | none => stored.binding.initializer?.bind Expr.literalType?
  match type? with
  | some type => .ok ⟨stored.name, type, default?⟩
  | none => .error (.notInferableType stored.binding.pattern)

def StoredMember.keyCase (naming : Naming) (stored : StoredMember) : KeyCase :=
  match stored.member.codingKey? with
  | some key => ⟨stored.name, some key⟩
  | none =>
    let name := unquotedName stored.name
    let key := naming.apply name
    ⟨stored.name, if key = name then none else some (.quoted key)⟩

namespace Declaration

/-- The stored members that an initializer has to set. -/
def eligible (declaration : Declaration) : List StoredMember :=
  declaration.stored.filter (!·.isInitializedConstant)

/-- The public memberwise initializer of a declaration, requested at `attachment`. -/
def memberwiseInit (declaration : Declaration) (attachment : Span) :
    Except Diagnostic Initializer :=
  if declaration.kind.takesInitializer then
    (declaration.eligible.mapM StoredMember.parameter).map .storing
  else .error (.notApplicable Request.publicInitName attachment)

def codingKeys (declaration : Declaration) (naming : Naming) : KeyEnum :=
  .codingKeys (declaration.stored.map (·.keyCase naming))

/-- What a request attached to a declaration is answered with.  The key of a
    member asks for no declaration. -/
def answer (declaration : Declaration) (attachment : Attachment) :
    Except Diagnostic (List Generated) :=
  match attachment.request with
  | .publicInit => (declaration.memberwiseInit attachment.span).map fun init => [.initializer init]
  | .codingKeys naming => .ok [.keyEnum (declaration.codingKeys naming)]
  | .codingKey _ => .ok []

end Declaration

end Memberwise
