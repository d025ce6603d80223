/-
  Memberwise/Proofs/Initializers.lean
  ===================================
  **What a memberwise initializer is made of.**

  The initializer of a declaration is described here without the functions that make
  it: which types a literal shows (`Shows`), which parameter sets a member (`SetBy`),
  and which parameters set the members of a body, one for each that has to be set and
  in their order (`SetInOrder`).  A request for an initializer has one outcome, and it
  is the one that this description gives (`Initializes`).
-/
import Memberwise.Proofs.Rejections

namespace Memberwise

/-! ### Types that literals show -/

/-- The type that an expression shows by its shape.  Of an array the first element
    alone counts. -/
inductive Expr.Shows : Expr → ValueType → Prop where
  | bool {value : Bool} {text : String} {span : Span} : Shows ⟨.bool value, text, span⟩ .bool
  | integer {text : String} {span : Span} : Shows ⟨.integer, text, span⟩ .int
  | float {text : String} {span : Span} : Shows ⟨.float, text, span⟩ .double
  | string {text : String} {span : Span} : Shows ⟨.string, text, span⟩ .string
  | array {first : Expr} {rest : List Expr} {type : ValueType} {text : String} {span : Span}
      (hfirst : Shows first type) : Shows ⟨.array (first :: rest), text, span⟩ (.array type)

theorem Expr.Shows.literalType?_eq {value : Expr} {type : ValueType} (h : value.Shows type) :
    value.literalType? = some type := by
  induction h with
  | bool | integer | float | string => rfl
  | array _ ih => simp only [literalType?, shapeType?, ih, Option.map_some]

theorem Expr.shows_of_literalType? :
    ∀ {value : Expr} {type : ValueType}, value.literalType? = some type → value.Shows type
  | ⟨.bool _, _, _⟩, _, rfl => .bool
  | ⟨.integer, _, _⟩, _, rfl => .integer
  | ⟨.float, _, _⟩, _, rfl => .float
  | ⟨.string, _, _⟩, _, rfl => .string
  | ⟨.array (first :: _), _, _⟩, _, h => by
    rw [literalType?, shapeType?, Option.map_eq_some_iff] at h
    obtain ⟨type, hfirst, rfl⟩ := h
    exact .array (shows_of_literalType? hfirst)

theorem Expr.literalType?_eq_some_iff {value : Expr} {type : ValueType} :
    value.literalType? = some type ↔ value.Shows type :=
  ⟨shows_of_literalType?, Shows.literalType?_eq⟩

/-- The type of a binding is not known: none is written, and no initializer shows one. -/
theorem Binding.untyped_iff {binding : Binding} :
    binding.Untyped ↔
      binding.type? = none ∧ ∀ value ∈ binding.initializer?, ∀ type, ¬ value.Shows type := by
  simp only [Untyped, Option.eq_none_iff_forall_ne_some, ne_eq, Expr.literalType?_eq_some_iff]

theorem Binding.not_untyped_iff {binding : Binding} :
    ¬ binding.Untyped ↔
      binding.type? ≠ none ∨ ∃ value ∈ binding.initializer?, ∃ type, value.Shows type := by
  rw [untyped_iff, not_and_or]
  push Not
  rfl

/-! ### Parameters -/

/-- The parameter sets the member that a binding makes: it has its name, the type that is
    written or else the one that the initializer shows, and the initializer, if there is
    one, as its default. -/
structure Binding.SetBy (binding : Binding) (parameter : Parameter) : Prop where
  name : parameter.name = binding.pattern.name
  written : ∀ written ∈ binding.type?, parameter.type = .explicit written.text
  shown : binding.type? = none → ∃ value ∈ binding.initializer?, value.Shows parameter.type
  default? : parameter.default? = binding.initializer?.map (·.text)

theorem StoredMember.parameter_eq_ok_iff {stored : StoredMember} {parameter : Parameter} :
    stored.parameter = .ok parameter ↔ stored.binding.SetBy parameter := by
  unfold StoredMember.parameter
  cases htype : stored.binding.type? with
  | some written =>
    constructor
    · rintro ⟨⟩
      exact ⟨rfl, by rintro _ hmem; cases htype.symm.trans hmem; rfl, by simp [htype], rfl⟩
    · rintro ⟨hname, hwritten, -, hdefault⟩
      simp only [name, ← hname, ← hdefault, ← hwritten written htype]
  | none =>
    constructor
    · intro h
      cases hshown : stored.binding.initializer?.bind Expr.literalType? with
      | none =>
        rw [hshown] at h
        cases h
      | some type =>
        rw [hshown] at h
        cases h
        obtain ⟨value, hvalue, hliteral⟩ := Option.bind_eq_some_iff.1 hshown
        exact ⟨rfl, by simp [htype], fun _ => ⟨value, hvalue, Expr.shows_of_literalType? hliteral⟩,
          rfl⟩
    · rintro ⟨hname, -, hshown, hdefault⟩
      obtain ⟨value, hvalue, hshows⟩ := hshown htype
      have hliteral : stored.binding.initializer?.bind Expr.literalType? = some parameter.type :=
        Option.bind_eq_some_iff.2 ⟨value, hvalue, hshows.literalType?_eq⟩
      simp only [hliteral, name, ← hname, ← hdefault]

/-- The parameters set the members that an initializer has to set, one each, in the order of
    the members. -/
inductive SetInOrder : List Member → List Parameter → Prop where
  | nil : SetInOrder [] []
  | set {member : Member} {binding : Binding} {parameter : Parameter} {members : List Member}
      {parameters : List Parameter} (heligible : member.Eligible binding)
      (hset : binding.SetBy parameter) (hrest : SetInOrder members parameters) :
      SetInOrder (member :: members) (parameter :: parameters)
  | skip {member : Member} {members : List Member} {parameters : List Parameter}
      (hskip : ∀ binding, ¬ member.Eligible binding) (hrest : SetInOrder members parameters) :
      SetInOrder (member :: members) parameters

theorem Member.eligible?_eq_none_iff {member : Member} :
    member.eligible? = none ↔ ∀ binding, ¬ member.Eligible binding := by
  constructor
  · intro h binding heligible
    have hsome : member.eligible? = some ⟨member, binding⟩ :=
      eligible?_eq_some_iff.2 ⟨rfl, heligible⟩
    cases h.symm.trans hsome
  · intro h
    cases hsome : member.eligible? with
    | none => rfl
    | some stored => exact absurd (eligible?_eq_some_iff.1 hsome).2 (h stored.binding)

theorem mapM_cons_eq_ok_iff {α β ε : Type} {f : α → Except ε β} {a : α} {list : List α}
    {values : List β} :
    (a :: list).mapM f = .ok values ↔
      ∃ b rest, values = b :: rest ∧ f a = .ok b ∧ list.mapM f = .ok rest := by
  rw [List.mapM_cons]
  cases f a with
  | error cause => exact ⟨by rintro ⟨⟩, by rintro ⟨_, _, -, ⟨⟩, -⟩⟩
  | ok b =>
    cases list.mapM f with
    | error cause => exact ⟨by rintro ⟨⟩, by rintro ⟨_, _, -, -, ⟨⟩⟩⟩
    | ok rest =>
      constructor
      · rintro ⟨⟩
        exact ⟨b, rest, rfl, rfl, rfl⟩
      · rintro ⟨_, _, rfl, ⟨⟩, ⟨⟩⟩
        rfl

theorem mapM_parameter_eq_ok_iff {members : List Member} {parameters : List Parameter} :
    (members.filterMap Member.eligible?).mapM StoredMember.parameter = .ok parameters ↔
      SetInOrder members parameters := by
  induction members generalizing parameters with
  | nil =>
    constructor
    · rintro ⟨⟩
      exact .nil
    · rintro ⟨⟩
      rfl
  | cons member members ih =>
    cases hstored : member.eligible? with
    | none =>
      rw [List.filterMap_cons_none hstored, ih]
      rw [Member.eligible?_eq_none_iff] at hstored
      constructor
      · exact .skip hstored
      · rintro (_ | ⟨heligible, -, -⟩ | ⟨-, hrest⟩)
        · exact absurd heligible (hstored _)
        · exact hrest
    | some stored =>
      rw [List.filterMap_cons_some hstored, mapM_cons_eq_ok_iff]
      obtain ⟨-, heligible⟩ := Member.eligible?_eq_some_iff.1 hstored
      constructor
      · rintro ⟨parameter, rest, rfl, hparameter, hrest⟩
        exact .set heligible (StoredMember.parameter_eq_ok_iff.1 hparameter) (ih.1 hrest)
      · rintro (_ | ⟨hother, hset, hrest⟩ | ⟨hskip, -⟩)
        · -- a member has one binding at most that makes it eligible
          have hsame := hother.single.symm.trans heligible.single
          cases hsame
          exact ⟨_, _, rfl, StoredMember.parameter_eq_ok_iff.2 hset, ih.2 hrest⟩
        · exact absurd heligible (hskip _)

/-! ### The first member that no parameter sets -/

/-- The first element that fails decides how a list of them fails. -/
theorem mapM_append_cons_eq_error {α β ε : Type} {f : α → Except ε β} {front back : List α}
    {a : α} {cause : ε} (hfront : ∀ earlier ∈ front, ∃ b, f earlier = .ok b)
    (ha : f a = .error cause) : (front ++ a :: back).mapM f = .error cause := by
  induction front with
  | nil =>
    rw [List.nil_append, List.mapM_cons, ha]
    rfl
  | cons first front ih =>
    rw [List.forall_mem_cons] at hfront
    obtain ⟨⟨b, hb⟩, hrest⟩ := hfront
    rw [List.cons_append, List.mapM_cons, hb, ih hrest]
    rfl

theorem Declaration.mapM_of_firstUntyped {declaration : Declaration} {binding : Binding}
    (h : declaration.FirstUntyped binding) :
    declaration.eligible.mapM StoredMember.parameter =
      .error (.notInferableType binding.pattern) := by
  obtain ⟨front, member, back, hmembers, heligible, huntyped, hfront⟩ := h
  have hmember : member.eligible? = some ⟨member, binding⟩ :=
    Member.eligible?_eq_some_iff.2 ⟨rfl, heligible⟩
  rw [eligible_eq, hmembers, List.filterMap_append, List.filterMap_cons_some hmember]
  refine mapM_append_cons_eq_error ?_ (StoredMember.parameter_eq_error_iff.2 ⟨huntyped, rfl⟩)
  intro stored hstored
  obtain ⟨earlier, hearlier, hsome⟩ := List.mem_filterMap.1 hstored
  obtain ⟨-, hbinding⟩ := Member.eligible?_eq_some_iff.1 hsome
  cases hparameter : stored.parameter with
  | ok parameter => exact ⟨parameter, rfl⟩
  | error diagnostic =>
    exact absurd (StoredMember.parameter_eq_error_iff.1 hparameter).1
      (hfront earlier hearlier stored.binding hbinding)

/-! ### Initializers -/

/-- How a request for an initializer, attached at a span, turns out. -/
inductive Declaration.Initializes (declaration : Declaration) (attachment : Span) :
    Except Diagnostic Initializer → Prop where
  /-- Only structs and classes take an initializer. -/
  | notApplicable (hkind : declaration.kind ≠ .structType ∧ declaration.kind ≠ .classType) :
      Initializes declaration attachment (.error (.notApplicable "PublicInit" attachment))
  /-- Of the members that have to be set, the first whose type is not known is reported. -/
  | notInferableType {front back : List Member} {member : Member} {binding : Binding}
      (hkind : declaration.kind = .structType ∨ declaration.kind = .classType)
      (hmembers : declaration.members = front ++ member :: back)
      (heligible : member.Eligible binding) (htype : binding.type? = none)
      (hvalue : ∀ value ∈ binding.initializer?, ∀ type, ¬ value.Shows type)
      (hfront : ∀ earlier ∈ front, ∀ other, earlier.Eligible other →
        other.type? ≠ none ∨ ∃ value ∈ other.initializer?, ∃ type, value.Shows type) :
      Initializes declaration attachment (.error (.notInferableType binding.pattern))
  /-- The body assigns each parameter to the member of its name. -/
  | initializer {init : Initializer}
      (hkind : declaration.kind = .structType ∨ declaration.kind = .classType)
      (hparameters : SetInOrder declaration.members init.parameters)
      (hbody : List.Forall₂ (fun parameter assignment =>
        assignment = ⟨parameter.name, parameter.name⟩) init.parameters init.body) :
      Initializes declaration attachment (.ok init)

theorem Initializer.eq_storing_iff {init : Initializer} {parameters : List Parameter} :
    init = .storing parameters ↔ init.parameters = parameters ∧
      List.Forall₂ (fun parameter assignment => assignment = ⟨parameter.name, parameter.name⟩)
        init.parameters init.body := by
  obtain ⟨own, body⟩ := init
  rw [storing, mk.injEq]
  refine and_congr_right ?_
  rintro rfl
  rw [eq_comm, ← List.forall₂_eq_eq_eq, List.forall₂_map_left_iff]
  simp only [eq_comm]

/-- **A request for an initializer turns out in one way.** -/
theorem Declaration.memberwiseInit_eq_iff {declaration : Declaration} {attachment : Span}
    {result : Except Diagnostic Initializer} :
    declaration.memberwiseInit attachment = result ↔
      declaration.Initializes attachment result := by
  unfold memberwiseInit
  constructor
  · rintro rfl
    split
    · next hkind =>
      rw [takesInitializer_iff] at hkind
      cases hmade : declaration.eligible.mapM StoredMember.parameter with
      | ok parameters =>
        rw [eligible_eq, mapM_parameter_eq_ok_iff] at hmade
        have hstoring : Initializer.storing parameters = .storing parameters := rfl
        exact .initializer hkind hmade (Initializer.eq_storing_iff.1 hstoring).2
      | error diagnostic =>
        obtain ⟨binding, hfirst, rfl⟩ := firstUntyped_of_mapM hmade
        obtain ⟨front, member, back, hmembers, heligible, huntyped, hfront⟩ := hfirst
        obtain ⟨htype, hvalue⟩ := Binding.untyped_iff.1 huntyped
        exact .notInferableType hkind hmembers heligible htype hvalue
          fun earlier hearlier other hother =>
            Binding.not_untyped_iff.1 (hfront earlier hearlier other hother)
    · next hkind =>
      rw [takesInitializer_iff, not_or] at hkind
      exact .notApplicable hkind
  · intro h
    cases h with
    | notApplicable hkind =>
      rw [if_neg (by rw [takesInitializer_iff, not_or]; exact hkind)]
      rfl
    | notInferableType hkind hmembers heligible htype hvalue hfront =>
      have hfirst : declaration.FirstUntyped _ :=
        ⟨_, _, _, hmembers, heligible, Binding.untyped_iff.2 ⟨htype, hvalue⟩,
          fun earlier hearlier other hother =>
            Binding.not_untyped_iff.2 (hfront earlier hearlier other hother)⟩
      rw [if_pos (takesInitializer_iff.2 hkind), mapM_of_firstUntyped hfirst]
      rfl
    | initializer hkind hparameters hbody =>
      have hstoring := Initializer.eq_storing_iff.2 ⟨rfl, hbody⟩
      rw [if_pos (takesInitializer_iff.2 hkind), eligible_eq,
        mapM_parameter_eq_ok_iff.2 hparameters]
      exact congrArg Except.ok hstoring.symm

end Memberwise
