/-
  Memberwise/Proofs/Keys.lean
  ===========================
  **What an enumeration of keys is made of.**

  The cases of an enumeration of keys are described here without the functions that make
  them: what a name is without the backticks around it (`BareName`), which raw value the
  case of a member has (`KeyedBy`), and which cases a body has, one for each member that
  stores data and in the order of the members (`KeyedInOrder`).  A raw value is left out
  only where the key is the name itself, and a name in snake case is the same name only if
  no capital stands behind its first character: each such capital makes the name longer.

  The description also tells the enumeration from an initializer of the same declaration.
  The parameters have the names of the cases, in the same order, less those of the
  constants that have a value already.
-/
import Memberwise.Proofs.Initializers

namespace Memberwise

/-! ### Names in snake case -/

theorem Text.small_ne_nil (c : Char) : Text.small c ≠ [] := by
  unfold Text.small
  split
  · exact List.cons_ne_nil _ _
  · split
    · exact List.cons_ne_nil _ _
    · exact List.cons_ne_nil _ _

namespace Naming

theorem snakePart_of_not_capital {c : Char} (h : Text.isCapital c = false) :
    snakePart c = [c] := by
  simp [snakePart, h]

/-- A capital gives way to an underscore and at least one small character. -/
theorem two_le_length_snakePart {c : Char} (h : Text.isCapital c = true) :
    2 ≤ (snakePart c).length := by
  have hsmall := List.length_pos_iff.2 (Text.small_ne_nil c)
  simp only [snakePart, h, if_true, List.length_cons]
  omega

/-- Each capital makes a text longer. -/
theorem length_add_countP_le (text : List Char) :
    text.length + text.countP Text.isCapital ≤ (text.flatMap snakePart).length := by
  induction text with
  | nil => simp
  | cons c text ih =>
    rw [List.flatMap_cons, List.length_append, List.length_cons]
    cases hcapital : Text.isCapital c with
    | true =>
      have hpart := two_le_length_snakePart hcapital
      rw [List.countP_cons_of_pos hcapital]
      omega
    | false =>
      rw [snakePart_of_not_capital hcapital, List.length_singleton,
        List.countP_cons_of_neg (by simp [hcapital])]
      omega

theorem flatMap_snakePart_eq_self_iff {text : List Char} :
    text.flatMap snakePart = text ↔ ∀ c ∈ text, Text.isCapital c = false := by
  constructor
  · intro hsame
    have hlength := length_add_countP_le text
    rw [hsame] at hlength
    have hnone : text.countP Text.isCapital = 0 := by omega
    intro c hc
    have hnot := List.countP_eq_zero.1 hnone c hc
    exact Bool.eq_false_iff.2 hnot
  · intro hnone
    have hparts : text.flatMap snakePart = text.flatMap fun c => [c] := by
      apply List.flatMap_congr
      intro c hc
      exact snakePart_of_not_capital (hnone c hc)
    rw [hparts, List.flatMap_singleton']

/-- The key is the name itself: either names are taken over as they are, or the name has no
    capital behind its first character. -/
theorem apply_eq_self_iff {naming : Naming} {name : String} :
    naming.apply name = name ↔
      naming = .identity ∨ ∀ c ∈ name.toList.tail, Text.isCapital c = false := by
  cases naming with
  | identity => simp [apply]
  | snakeCase =>
    rw [apply, ← String.toList_inj, String.toList_ofList]
    cases name.toList with
    | nil => simp [snake]
    | cons first rest =>
      rw [snake, List.cons.injEq, List.tail_cons, flatMap_snakePart_eq_self_iff]
      simp

theorem apply_ne_self_iff {naming : Naming} {name : String} :
    naming.apply name ≠ name ↔
      naming = .snakeCase ∧ ∃ c ∈ name.toList.tail, Text.isCapital c = true := by
  rw [ne_eq, apply_eq_self_iff, not_or]
  push Not
  cases naming <;> simp

end Naming

/-! ### Names without backticks -/

/-- What a name is without the backticks around it.  A name that has none on one of its two
    sides is taken as it is. -/
def BareName (name bare : String) : Prop :=
  name = "`" ++ bare ++ "`" ∨ bare = name ∧ ∀ inner, name ≠ "`" ++ inner ++ "`"

theorem eq_backticked_iff {name inner : String} :
    name = "`" ++ inner ++ "`" ↔ name.toList = '\x60' :: (inner.toList ++ ['\x60']) := by
  rw [← String.toList_inj, String.toList_append, String.toList_append]
  rfl

theorem unquotedName_of_backticked {name inner : String} (h : name = "`" ++ inner ++ "`") :
    unquotedName name = inner := by
  rw [eq_backticked_iff] at h
  simp [unquotedName, h]

theorem unquotedName_of_not_backticked {name : String}
    (h : ∀ inner, name ≠ "`" ++ inner ++ "`") : unquotedName name = name := by
  unfold unquotedName
  split
  · next rest hname =>
    apply if_neg
    intro hlast
    obtain ⟨inner, rfl⟩ := List.getLast?_eq_some_iff.1 hlast
    apply h (String.ofList inner)
    rw [eq_backticked_iff, hname, String.toList_ofList]
  · rfl

theorem unquotedName_eq_iff {name bare : String} :
    unquotedName name = bare ↔ BareName name bare := by
  constructor
  · rintro rfl
    by_cases hticks : ∃ inner, name = "`" ++ inner ++ "`"
    · obtain ⟨inner, hname⟩ := hticks
      rw [unquotedName_of_backticked hname]
      exact .inl hname
    · rw [not_exists] at hticks
      exact .inr ⟨unquotedName_of_not_backticked hticks, hticks⟩
  · rintro (hname | ⟨rfl, hticks⟩)
    · exact unquotedName_of_backticked hname
    · exact unquotedName_of_not_backticked hticks

/-! ### Keys that members ask for -/

/-- The key that a member asks for: that of the first of its markers which fixes one. -/
def Member.AsksFor (member : Member) (key : StringLiteral) : Prop :=
  ∃ front back, member.markers = front ++ .codingKey key :: back ∧
    ∀ marker ∈ front, ∀ other, marker ≠ .codingKey other

theorem Marker.key?_eq_some_iff {marker : Marker} {key : StringLiteral} :
    marker.key? = some key ↔ marker = .codingKey key := by
  cases marker <;> simp [key?]

theorem Marker.key?_eq_none_iff {marker : Marker} :
    marker.key? = none ↔ ∀ key, marker ≠ .codingKey key := by
  cases marker <;> simp [key?]

theorem Member.codingKey?_eq_some_iff {member : Member} {key : StringLiteral} :
    member.codingKey? = some key ↔ member.AsksFor key := by
  unfold codingKey? AsksFor
  rw [List.findSome?_eq_some_iff]
  constructor
  · rintro ⟨front, marker, back, hmarkers, hkey, hfront⟩
    rw [Marker.key?_eq_some_iff] at hkey
    subst hkey
    refine ⟨front, back, hmarkers, ?_⟩
    intro earlier hearlier
    exact Marker.key?_eq_none_iff.1 (hfront earlier hearlier)
  · rintro ⟨front, back, hmarkers, hfront⟩
    refine ⟨front, .codingKey key, back, hmarkers, rfl, ?_⟩
    intro earlier hearlier
    exact Marker.key?_eq_none_iff.2 (hfront earlier hearlier)

theorem Member.codingKey?_eq_none_iff {member : Member} :
    member.codingKey? = none ↔ ∀ key, ¬ member.AsksFor key := by
  simp only [Option.eq_none_iff_forall_ne_some, ne_eq, codingKey?_eq_some_iff]

/-! ### Cases -/

/-- The member stores data of an instance: it is not static, and it binds one name without a
    getter. -/
structure Member.Stores (member : Member) (binding : Binding) : Prop where
  ofInstance : member.isStatic = false
  single : member.bindings = [binding]
  notComputed : binding.accessors ≠ .computed

/-- The case for a member that stores data, which has the name of the member. -/
inductive Member.KeyedBy (member : Member) (binding : Binding) (naming : Naming) :
    KeyCase → Prop where
  /-- A key that the member asks for is taken over as it is written. -/
  | asked {key : StringLiteral} (hkey : member.AsksFor key) :
      KeyedBy member binding naming ⟨binding.pattern.name, some key⟩
  /-- A key that is the name itself is not written. -/
  | plain {bare : String} (hkey : ∀ key, ¬ member.AsksFor key)
      (hbare : BareName binding.pattern.name bare)
      (hplain : naming = .identity ∨ ∀ c ∈ bare.toList.tail, Text.isCapital c = false) :
      KeyedBy member binding naming ⟨binding.pattern.name, none⟩
  /-- Any other key is the name in snake case. -/
  | snake {bare : String} (hkey : ∀ key, ¬ member.AsksFor key)
      (hbare : BareName binding.pattern.name bare) (hnaming : naming = .snakeCase)
      (hcapital : ∃ c ∈ bare.toList.tail, Text.isCapital c = true) :
      KeyedBy member binding naming
        ⟨binding.pattern.name, some (.quoted (Naming.snakeCase.apply bare))⟩

theorem Member.stored?_eq_some_iff {member : Member} {stored : StoredMember} :
    member.stored? = some stored ↔ stored.member = member ∧ member.Stores stored.binding := by
  rw [stored?, Option.map_eq_some_iff]
  constructor
  · rintro ⟨binding, hbinding, rfl⟩
    obtain ⟨hstatic, hsingle, hcomputed⟩ := storedBinding?_eq_some_iff.1 hbinding
    exact ⟨rfl, hstatic, hsingle, hcomputed⟩
  · rintro ⟨rfl, hstatic, hsingle, hcomputed⟩
    exact ⟨stored.binding, storedBinding?_eq_some_iff.2 ⟨hstatic, hsingle, hcomputed⟩, rfl⟩

theorem Member.Stores.stored?_eq {member : Member} {binding : Binding}
    (h : member.Stores binding) : member.stored? = some ⟨member, binding⟩ :=
  stored?_eq_some_iff.2 ⟨rfl, h⟩

theorem Member.stored?_eq_none_iff {member : Member} :
    member.stored? = none ↔ ∀ binding, ¬ member.Stores binding := by
  constructor
  · intro hnone binding hstores
    cases hnone.symm.trans hstores.stored?_eq
  · intro hnot
    cases hstored : member.stored? with
    | none => rfl
    | some stored => exact absurd (stored?_eq_some_iff.1 hstored).2 (hnot stored.binding)

theorem StoredMember.keyCase_eq_iff {stored : StoredMember} {naming : Naming}
    {keyCase : KeyCase} :
    stored.keyCase naming = keyCase ↔ stored.member.KeyedBy stored.binding naming keyCase := by
  unfold StoredMember.keyCase
  cases hasked : stored.member.codingKey? with
  | some key =>
    have hkey := Member.codingKey?_eq_some_iff.1 hasked
    constructor
    · rintro rfl
      exact .asked hkey
    · intro hkeyed
      cases hkeyed with
      | asked hother =>
        -- the first marker with a key is one marker
        cases hasked.symm.trans (Member.codingKey?_eq_some_iff.2 hother)
        rfl
      | plain hnone => exact absurd hkey (hnone key)
      | snake hnone => exact absurd hkey (hnone key)
  | none =>
    have hnone := Member.codingKey?_eq_none_iff.1 hasked
    constructor
    · rintro rfl
      have hbare : BareName stored.name (unquotedName stored.name) := unquotedName_eq_iff.1 rfl
      by_cases hsame : naming.apply (unquotedName stored.name) = unquotedName stored.name
      · simp only [hsame, if_true]
        exact .plain hnone hbare (Naming.apply_eq_self_iff.1 hsame)
      · obtain ⟨rfl, hcapital⟩ := Naming.apply_ne_self_iff.1 hsame
        simp only [hsame, if_false]
        exact .snake hnone hbare rfl hcapital
    · intro hkeyed
      cases hkeyed with
      | asked hkey => exact absurd hkey (hnone _)
      | plain _ hbare hplain =>
        have hname : unquotedName stored.name = _ := unquotedName_eq_iff.2 hbare
        simp only [hname, Naming.apply_eq_self_iff.2 hplain, if_true]
        rfl
      | snake _ hbare hnaming hcapital =>
        have hname : unquotedName stored.name = _ := unquotedName_eq_iff.2 hbare
        have hother := Naming.apply_ne_self_iff.2 ⟨hnaming, hcapital⟩
        subst hnaming
        simp only [hname, hother, if_false]
        rfl

/-- The cases for the members of a body that store data, one each, in the order of the
    members.  The last row has the names of these cases again, but for the constants that
    have a value already. -/
inductive KeyedInOrder (naming : Naming) :
    List Member → List KeyCase → List String → Prop where
  | nil : KeyedInOrder naming [] [] []
  | unset {member : Member} {binding : Binding} {keyCase : KeyCase} {members : List Member}
      {cases : List KeyCase} {names : List String} (hstores : member.Stores binding)
      (hkeyed : member.KeyedBy binding naming keyCase)
      (hunset : ¬ (member.mutability = .immutable ∧ binding.initializer? ≠ none))
      (hrest : KeyedInOrder naming members cases names) :
      KeyedInOrder naming (member :: members) (keyCase :: cases) (keyCase.name :: names)
  | constant {member : Member} {binding : Binding} {keyCase : KeyCase} {members : List Member}
      {cases : List KeyCase} {names : List String} (hstores : member.Stores binding)
      (hkeyed : member.KeyedBy binding naming keyCase)
      (hconstant : member.mutability = .immutable ∧ binding.initializer? ≠ none)
      (hrest : KeyedInOrder naming members cases names) :
      KeyedInOrder naming (member :: members) (keyCase :: cases) names
  | skip {member : Member} {members : List Member} {cases : List KeyCase} {names : List String}
      (hskip : ∀ binding, ¬ member.Stores binding)
      (hrest : KeyedInOrder naming members cases names) :
      KeyedInOrder naming (member :: members) cases names

theorem keyedInOrder_of_stored (naming : Naming) (members : List Member) :
    ∃ names, KeyedInOrder naming members
      ((members.filterMap Member.stored?).map (·.keyCase naming)) names := by
  induction members with
  | nil => exact ⟨[], .nil⟩
  | cons member members ih =>
    obtain ⟨names, hrest⟩ := ih
    cases hstored : member.stored? with
    | none =>
      rw [List.filterMap_cons_none hstored]
      exact ⟨names, .skip (Member.stored?_eq_none_iff.1 hstored) hrest⟩
    | some stored =>
      obtain ⟨rfl, hstores⟩ := Member.stored?_eq_some_iff.1 hstored
      have hkeyed : stored.member.KeyedBy stored.binding naming (stored.keyCase naming) :=
        StoredMember.keyCase_eq_iff.1 rfl
      rw [List.filterMap_cons_some hstored, List.map_cons]
      by_cases hconstant :
          stored.member.mutability = .immutable ∧ stored.binding.initializer? ≠ none
      · exact ⟨names, .constant hstores hkeyed hconstant hrest⟩
      · exact ⟨_, .unset hstores hkeyed hconstant hrest⟩

theorem KeyedInOrder.cases_eq {naming : Naming} {members : List Member} {cases : List KeyCase}
    {names : List String} (h : KeyedInOrder naming members cases names) :
    (members.filterMap Member.stored?).map (·.keyCase naming) = cases := by
  induction h with
  | nil => rfl
  | unset hstores hkeyed _ _ ih | constant hstores hkeyed _ _ ih =>
    rw [List.filterMap_cons_some hstores.stored?_eq, List.map_cons, ih,
      StoredMember.keyCase_eq_iff.2 hkeyed]
  | skip hskip _ ih => rw [List.filterMap_cons_none (Member.stored?_eq_none_iff.2 hskip), ih]

theorem Member.KeyedBy.name_eq {member : Member} {binding : Binding} {naming : Naming}
    {keyCase : KeyCase} (h : member.KeyedBy binding naming keyCase) :
    keyCase.name = binding.pattern.name := by
  cases h with
  | asked | plain | snake => rfl

/-- A member has to be set by an initializer if it stores data and is no constant that has a
    value already. -/
theorem Member.Stores.eligible_iff {member : Member} {binding : Binding}
    (h : member.Stores binding) :
    member.Eligible binding ↔
      ¬ (member.mutability = .immutable ∧ binding.initializer? ≠ none) := by
  constructor
  · rintro heligible ⟨hmutability, hvalue⟩
    exact hvalue (heligible.unset hmutability)
  · intro hunset
    refine ⟨h.ofInstance, h.single, h.notComputed, ?_⟩
    intro hmutability
    by_contra hvalue
    exact hunset ⟨hmutability, hvalue⟩

theorem Member.Eligible.stores {member : Member} {binding : Binding}
    (h : member.Eligible binding) : member.Stores binding :=
  ⟨h.ofInstance, h.single, h.notComputed⟩

/-- Parameters that set the members of a body have the names of the cases that are left. -/
theorem KeyedInOrder.names_eq {naming : Naming} {members : List Member} {cases : List KeyCase}
    {names : List String} {parameters : List Parameter}
    (h : KeyedInOrder naming members cases names) (hset : SetInOrder members parameters) :
    parameters.map (·.name) = names := by
  induction h generalizing parameters with
  | nil =>
    cases hset
    rfl
  | unset hstores hkeyed hunset _ ih =>
    cases hset with
    | set heligible hset hrest =>
      cases heligible.single.symm.trans hstores.single
      rw [List.map_cons, ih hrest, hset.name, hkeyed.name_eq]
    | skip hskip => exact absurd (hstores.eligible_iff.2 hunset) (hskip _)
  | constant hstores _ hconstant _ ih =>
    cases hset with
    | set heligible =>
      cases heligible.single.symm.trans hstores.single
      exact absurd hconstant (hstores.eligible_iff.1 heligible)
    | skip _ hrest => exact ih hrest
  | skip hskip _ ih =>
    cases hset with
    | set heligible => exact absurd heligible.stores (hskip _)
    | skip _ hrest => exact ih hrest

/-! ### Enumerations of keys -/

/-- The enumeration of the keys of a declaration.  Where the declaration takes an initializer,
    its parameters have the names of the cases, in the same order, less those of the
    constants that have a value already. -/
structure Declaration.Keyed (declaration : Declaration) (naming : Naming) (keys : KeyEnum) :
    Prop where
  name : keys.name = "CodingKeys"
  rawType : keys.rawType = "String"
  conformances : keys.conformances = ["CodingKey"]
  cases : ∃ names, KeyedInOrder naming declaration.members keys.cases names ∧
    ∀ attachment init, declaration.memberwiseInit attachment = .ok init →
      init.parameters.map (·.name) = names

theorem Declaration.setInOrder_of_memberwiseInit {declaration : Declaration} {attachment : Span}
    {init : Initializer} (h : declaration.memberwiseInit attachment = .ok init) :
    SetInOrder declaration.members init.parameters := by
  unfold memberwiseInit at h
  split at h
  · cases hmade : declaration.eligible.mapM StoredMember.parameter with
    | error diagnostic =>
      rw [hmade] at h
      cases h
    | ok parameters =>
      rw [hmade] at h
      cases h
      rw [eligible_eq, mapM_parameter_eq_ok_iff] at hmade
      exact hmade
  · cases h

/-- **A request for keys is answered in one way**, and the keys agree with the parameters of
    an initializer on which members store data. -/
theorem Declaration.codingKeys_eq_iff {declaration : Declaration} {naming : Naming}
    {keys : KeyEnum} :
    declaration.codingKeys naming = keys ↔ declaration.Keyed naming keys := by
  constructor
  · rintro rfl
    obtain ⟨names, hkeyed⟩ := keyedInOrder_of_stored naming declaration.members
    refine ⟨rfl, rfl, rfl, names, hkeyed, ?_⟩
    intro attachment init hinit
    exact hkeyed.names_eq (setInOrder_of_memberwiseInit hinit)
  · rintro ⟨hname, hrawType, hconformances, names, hkeyed, -⟩
    obtain ⟨name, rawType, conformances, cases⟩ := keys
    subst hname hrawType hconformances
    rw [codingKeys, KeyEnum.codingKeys, stored, hkeyed.cases_eq]

example :
    ((Declaration.empty .structType "Visit")
      |>.withItem (.property ((Member.changeable "`inPlace`").withType "Bool"))
      |>.withItem (.property ((Member.constant "UUID").withInitializer ⟨.nil, "nil", .nowhere⟩))
      |>.withItem (.property ((Member.changeable "endsAt").mark (.codingKey ⟨"\"end\""⟩)))
      |>.codingKeys .snakeCase).cases =
      [⟨"`inPlace`", some ⟨"\"in_place\""⟩⟩, ⟨"UUID", some ⟨"\"U_u_i_d\""⟩⟩,
        ⟨"endsAt", some ⟨"\"end\""⟩⟩] := by
  decide +kernel

end Memberwise
