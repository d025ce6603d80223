/-
  Memberwise/Proofs/Rejections.lean
  =================================
  **What becomes of each request.**

  Every request that is attached to a declaration is settled by itself (`Settles`): it
  generates something, or it is rejected and reported.  Only the request for an
  initializer can be rejected, for one of two causes (`Rejects`), and these are stated
  here by the entries of the body and not by the synthesis of parameters.

  The reports of a source are those of its rejected requests, put in order by place.
  What is generated for a declaration is what its other requests generate, and all of it
  is put into the body.
-/
import Memberwise.Proofs.Answering

namespace Memberwise

/-! ### Causes of rejection -/

/-- The member has to be set by an initializer: it is one of the instance, it binds one name
    without a getter, and it is no constant that has a value already. -/
structure Member.Eligible (member : Member) (binding : Binding) : Prop where
  ofInstance : member.isStatic = false
  single : member.bindings = [binding]
  notComputed : binding.accessors ≠ .computed
  unset : member.mutability = .immutable → binding.initializer? = none

/-- No type is written, and no initializer shows one. -/
def Binding.Untyped (binding : Binding) : Prop :=
  binding.type? = none ∧ ∀ value ∈ binding.initializer?, value.literalType? = none

/-- Of the members that an initializer has to set, the first whose type is not known. -/
def Declaration.FirstUntyped (declaration : Declaration) (binding : Binding) : Prop :=
  ∃ front member back, declaration.members = front ++ member :: back ∧
    member.Eligible binding ∧ binding.Untyped ∧
    ∀ earlier ∈ front, ∀ other, earlier.Eligible other → ¬ other.Untyped

/-- Why an initializer that is requested at `attachment` is rejected, as a report. -/
inductive Declaration.Rejects (declaration : Declaration) (attachment : Span) :
    Diagnostic → Prop where
  | notApplicable (hkind : declaration.kind ≠ .structType ∧ declaration.kind ≠ .classType) :
      Rejects declaration attachment (.notApplicable "PublicInit" attachment)
  | notInferableType {binding : Binding}
      (hkind : declaration.kind = .structType ∨ declaration.kind = .classType)
      (hfirst : declaration.FirstUntyped binding) :
      Rejects declaration attachment (.notInferableType binding.pattern)

structure Verdict where
  generated : List Generated
  report? : Option Diagnostic

/-- How a request that is attached to a declaration is settled. -/
inductive Declaration.Settles (declaration : Declaration) : Attachment → Verdict → Prop where
  | initializer {span : Span} {init : Initializer}
      (hinit : declaration.memberwiseInit span = .ok init) :
      Settles declaration ⟨.publicInit, span⟩ ⟨[.initializer init], none⟩
  | rejected {span : Span} {diagnostic : Diagnostic}
      (hinit : declaration.memberwiseInit span = .error diagnostic)
      (hcause : declaration.Rejects span diagnostic) :
      Settles declaration ⟨.publicInit, span⟩ ⟨[], some diagnostic⟩
  | keyEnum {naming : Naming} {span : Span} :
      Settles declaration ⟨.codingKeys naming, span⟩
        ⟨[.keyEnum (declaration.codingKeys naming)], none⟩
  | key {key : StringLiteral} {span : Span} :
      Settles declaration ⟨.codingKey key, span⟩ ⟨[], none⟩

/-! ### The first member without a type -/

theorem mapM_eq_error {α β ε : Type} {f : α → Except ε β} {list : List α} {cause : ε}
    (h : list.mapM f = .error cause) :
    ∃ front a back, list = front ++ a :: back ∧ f a = .error cause ∧
      ∀ earlier ∈ front, ∃ b, f earlier = .ok b := by
  induction list with
  | nil => cases h
  | cons a rest ih =>
    rw [List.mapM_cons] at h
    cases ha : f a with
    | error other =>
      rw [ha] at h
      cases h
      exact ⟨[], a, rest, rfl, ha, by simp⟩
    | ok b =>
      cases hrest : rest.mapM f with
      | error other =>
        rw [ha, hrest] at h
        cases h
        obtain ⟨front, x, back, rfl, hx, hfront⟩ := ih hrest
        exact ⟨a :: front, x, back, rfl, hx, List.forall_mem_cons.2 ⟨⟨b, ha⟩, hfront⟩⟩
      | ok values =>
        rw [ha, hrest] at h
        cases h

/-- Where no parameter can be made, the member has no type, and that is reported. -/
theorem StoredMember.parameter_eq_error_iff {stored : StoredMember} {diagnostic : Diagnostic} :
    stored.parameter = .error diagnostic ↔
      stored.binding.Untyped ∧ diagnostic = .notInferableType stored.binding.pattern := by
  unfold parameter Binding.Untyped
  cases htype : stored.binding.type? with
  | some written => simp
  | none =>
    cases hvalue : stored.binding.initializer? with
    | none => simp [eq_comm]
    | some value => cases hshown : value.literalType? <;> simp [hshown, eq_comm]

def Member.eligible? (member : Member) : Option StoredMember :=
  member.stored?.filter (!·.isInitializedConstant)

theorem Member.storedBinding?_eq_some_iff {member : Member} {binding : Binding} :
    member.storedBinding? = some binding ↔ member.isStatic = false ∧
      member.bindings = [binding] ∧ binding.accessors ≠ .computed := by
  unfold storedBinding?
  split
  · next found hstatic hbindings =>
    rw [hstatic, hbindings]
    split
    · next hcomputed =>
      constructor
      · rintro ⟨⟩
      · rintro ⟨-, ⟨⟩, hstored⟩
        exact absurd hcomputed hstored
    · next hstored =>
      constructor
      · rintro ⟨⟩
        exact ⟨rfl, rfl, hstored⟩
      · rintro ⟨-, ⟨⟩, -⟩
        rfl
  · next hother =>
    constructor
    · rintro ⟨⟩
    · rintro ⟨hstatic, hbindings, -⟩
      exact absurd hbindings (hother binding hstatic)

theorem StoredMember.isInitializedConstant_eq_false_iff {stored : StoredMember} :
    stored.isInitializedConstant = false ↔
      (stored.member.mutability = .immutable → stored.binding.initializer? = none) := by
  unfold isInitializedConstant
  rw [Bool.and_eq_false_imp, beq_iff_eq, Option.isSome_eq_false_iff, Option.isNone_iff_eq_none]

theorem Member.eligible?_eq_some_iff {member : Member} {stored : StoredMember} :
    member.eligible? = some stored ↔
      stored.member = member ∧ member.Eligible stored.binding := by
  rw [eligible?, Option.filter_eq_some_iff, stored?, Option.map_eq_some_iff, Bool.not_eq_true',
    StoredMember.isInitializedConstant_eq_false_iff]
  constructor
  · rintro ⟨⟨binding, hbinding, rfl⟩, hunset⟩
    obtain ⟨hstatic, hsingle, hstored⟩ := storedBinding?_eq_some_iff.1 hbinding
    exact ⟨rfl, hstatic, hsingle, hstored, hunset⟩
  · rintro ⟨rfl, heligible⟩
    refine ⟨⟨stored.binding, ?_, rfl⟩, heligible.unset⟩
    exact storedBinding?_eq_some_iff.2
      ⟨heligible.ofInstance, heligible.single, heligible.notComputed⟩

theorem Declaration.eligible_eq (declaration : Declaration) :
    declaration.eligible = declaration.members.filterMap Member.eligible? := by
  rw [eligible, stored, List.filter_filterMap]
  rfl

theorem Declaration.firstUntyped_of_mapM {declaration : Declaration} {diagnostic : Diagnostic}
    (h : declaration.eligible.mapM StoredMember.parameter = .error diagnostic) :
    ∃ binding, declaration.FirstUntyped binding ∧
      diagnostic = .notInferableType binding.pattern := by
  obtain ⟨front, stored, back, hparts, hstored, hfront⟩ := mapM_eq_error h
  obtain ⟨huntyped, rfl⟩ := StoredMember.parameter_eq_error_iff.1 hstored
  rw [eligible_eq, List.filterMap_eq_append_iff] at hparts
  obtain ⟨early, late, hmembers, hearly, hlate⟩ := hparts
  obtain ⟨skipped, member, rest, rfl, hskipped, hmember, -⟩ := List.filterMap_eq_cons_iff.1 hlate
  obtain ⟨-, heligible⟩ := Member.eligible?_eq_some_iff.1 hmember
  refine ⟨stored.binding, ⟨early ++ skipped, member, rest, by simpa using hmembers, heligible,
    huntyped, ?_⟩, rfl⟩
  intro earlier hearlier other hother hnone
  have hsome : earlier.eligible? = some ⟨earlier, other⟩ :=
    Member.eligible?_eq_some_iff.2 ⟨rfl, hother⟩
  rcases List.mem_append.1 hearlier with hmem | hmem
  · -- it stands among the members whose parameters were made
    have hfound : (⟨earlier, other⟩ : StoredMember) ∈ front := by
      rw [← hearly]
      exact List.mem_filterMap.2 ⟨earlier, hmem, hsome⟩
    obtain ⟨parameter, hparameter⟩ := hfront _ hfound
    rw [StoredMember.parameter_eq_error_iff.2 ⟨hnone, rfl⟩] at hparameter
    cases hparameter
  · rw [hskipped earlier hmem] at hsome
    cases hsome

/-! ### Verdicts -/

namespace Declaration

theorem takesInitializer_iff {kind : Kind} :
    kind.takesInitializer = true ↔ kind = .structType ∨ kind = .classType := by
  cases kind <;> simp [Kind.takesInitializer]

theorem rejects_of_memberwiseInit {declaration : Declaration} {span : Span}
    {diagnostic : Diagnostic} (h : declaration.memberwiseInit span = .error diagnostic) :
    declaration.Rejects span diagnostic := by
  unfold memberwiseInit at h
  split at h
  · next hkind =>
    cases hparameters : declaration.eligible.mapM StoredMember.parameter with
    | ok parameters =>
      rw [hparameters] at h
      cases h
    | error cause =>
      rw [hparameters] at h
      cases h
      obtain ⟨binding, hfirst, rfl⟩ := firstUntyped_of_mapM hparameters
      exact .notInferableType (takesInitializer_iff.1 hkind) hfirst
  · next hkind =>
    cases h
    rw [takesInitializer_iff, not_or] at hkind
    exact .notApplicable hkind

def verdict (declaration : Declaration) (attachment : Attachment) : Verdict :=
  match declaration.answer attachment with
  | .ok generated => ⟨generated, none⟩
  | .error diagnostic => ⟨[], some diagnostic⟩

theorem settles_verdict (declaration : Declaration) (attachment : Attachment) :
    declaration.Settles attachment (declaration.verdict attachment) := by
  obtain ⟨request, span⟩ := attachment
  cases request with
  | publicInit =>
    cases hinit : declaration.memberwiseInit span with
    | ok init =>
      simp only [verdict, answer, hinit]
      exact .initializer hinit
    | error diagnostic =>
      simp only [verdict, answer, hinit]
      exact .rejected hinit (rejects_of_memberwiseInit hinit)
  | codingKeys naming => exact .keyEnum
  | codingKey key => exact .key

theorem generated_eq (declaration : Declaration) :
    declaration.generated =
      (declaration.attachments.map declaration.verdict).flatMap Verdict.generated := by
  rw [generated, List.flatMap_map]
  congr
  funext attachment
  rw [verdict]
  cases declaration.answer attachment <;> rfl

theorem rejections_eq (declaration : Declaration) :
    declaration.rejections =
      (declaration.attachments.map declaration.verdict).filterMap Verdict.report? := by
  rw [rejections, List.filterMap_map]
  congr
  funext attachment
  rw [Function.comp, verdict]
  cases declaration.answer attachment <;> rfl

end Declaration

/-! ### Whole sources -/

theorem Outline.diagnostics_perm (outline : Outline) :
    outline.diagnostics.Perm
      ((outline.allDeclarations.map fun declaration =>
        declaration.attachments.map declaration.verdict).flatten.filterMap Verdict.report?) := by
  refine (inOrder_perm _ _).trans (.of_eq ?_)
  rw [List.filterMap_flatten, List.map_map, List.flatMap_def]
  congr 1
  exact List.map_congr_left fun declaration _ => declaration.rejections_eq

theorem Outline.diagnostics_pairwise (outline : Outline) :
    outline.diagnostics.Pairwise fun a b => a.anchor.start ≤ b.anchor.start := by
  refine (inOrder_pairwise ?total ?trans _).imp of_decide_eq_true
  case total =>
    intro a b
    simp only [decide_eq_true_eq]
    omega
  case trans =>
    intro a b c
    simp only [decide_eq_true_eq]
    omega

/-- All edits that answer a source are applied, those of nested declarations included. -/
theorem Outline.applyAll_edits {source : List Char} {outline : Outline} (layout : Layout)
    (h : Outline.ofSource source = .ok outline) :
    ∃ insertions chain,
      List.Forall₂ (Inserts layout source) (outline.allDeclarations.filter (·.generated ≠ []))
        insertions ∧
      chain.Perm (outline.requests.map (removal source) ++ insertions) ∧
      Edit.Apart source chain ∧
      Edit.applyAll source (outline.edits layout source) = Edit.splice source 0 chain := by
  obtain ⟨tokens, taken, items, after, -, hread, -, hdeclarations⟩ := Outline.ofSource_read h
  obtain ⟨chain, hchain, hperm, -⟩ := hread.spaced layout
  have hdeep : outline.allDeclarations = Declaration.nestedIn items := by
    rw [Outline.allDeclarations, hdeclarations, Declaration.nestedIn_eq]
  have hnested := hread.located.2.2.2
  rw [← hdeep] at hperm hnested
  exact ⟨_, chain, insertion?_inserts layout hnested, hperm, hchain.apart.1,
    Edit.applyAll_eq_splice hperm hchain.apart.1⟩

/-- **Every request is settled by itself.**  The reports of an expansion are one for each
    rejected request, in the order of their places; what the other requests of a declaration
    generate is put into its body, in their order, and nothing else is. -/
theorem expand_settles {layout : Layout} {source : String} {expansion : Expansion}
    (h : expand layout source = .ok expansion) :
    ∃ outline verdicts insertions chain, Outline.ofSource source.toList = .ok outline ∧
      List.Forall₂ (fun declaration own =>
          List.Forall₂ declaration.Settles declaration.attachments own ∧
            declaration.generated = own.flatMap Verdict.generated)
        outline.allDeclarations verdicts ∧
      expansion.diagnostics.Pairwise (fun a b => a.anchor.start ≤ b.anchor.start) ∧
      expansion.diagnostics.Perm (verdicts.flatten.filterMap Verdict.report?) ∧
      List.Forall₂ (Inserts layout source.toList)
        (outline.allDeclarations.filter (·.generated ≠ [])) insertions ∧
      chain.Perm (outline.requests.map (removal source.toList) ++ insertions) ∧
      Edit.Apart source.toList chain ∧
      expansion.source.toList = Edit.splice source.toList 0 chain := by
  obtain ⟨outline, houtline, hsource, hdiagnostics⟩ := expand_eq_ok h
  obtain ⟨insertions, chain, hinserts, hperm, hapart, happly⟩ :=
    Outline.applyAll_edits layout houtline
  rw [hdiagnostics]
  refine ⟨outline, _, insertions, chain, houtline, ?_, outline.diagnostics_pairwise,
    outline.diagnostics_perm, hinserts, hperm, hapart, hsource.trans happly⟩
  rw [List.forall₂_map_right_iff, List.forall₂_same]
  intro declaration _
  refine ⟨?_, declaration.generated_eq⟩
  rw [List.forall₂_map_right_iff, List.forall₂_same]
  exact fun attachment _ => declaration.settles_verdict attachment

/-- An enumeration that asks for an initializer and for keys, in a struct that asks for an
    initializer and has a member without a type behind it. -/
def rejectedRequests : String :=
  "@PublicInit struct S \x7b\n" ++
  "    @PublicInit @CodingKeys enum E \x7b\n    \x7d\n" ++
  "    var a = f()\n\x7d"

def rejectedRequestsExpanded : Expansion where
  source :=
    "struct S \x7b\n    enum E \x7b\n\n        enum CodingKeys: String, CodingKey \x7b\n" ++
    "        \x7d\n    \x7d\n    var a = f()\n\x7d"
  diagnostics :=
    [.notApplicable "PublicInit" ⟨27, 38, 2, 5⟩, .notInferableType ⟨"a", ⟨74, 75, 4, 9⟩⟩]

theorem expand_settles_rejected :
    expand .standard rejectedRequests = .ok rejectedRequestsExpanded ∧
      ∃ outline verdicts, Outline.ofSource rejectedRequests.toList = .ok outline ∧
        List.Forall₂ (fun declaration own =>
            List.Forall₂ declaration.Settles declaration.attachments own ∧
              declaration.generated = own.flatMap Verdict.generated)
          outline.allDeclarations verdicts ∧
        rejectedRequestsExpanded.diagnostics.Perm
          (verdicts.flatten.filterMap Verdict.report?) := by
  have hexpand : expand .standard rejectedRequests = .ok rejectedRequestsExpanded := by
    decide +kernel
  obtain ⟨outline, verdicts, _, _, houtline, hsettled, -, hreports, -⟩ := expand_settles hexpand
  exact ⟨hexpand, outline, verdicts, houtline, hsettled, hreports⟩

end Memberwise
