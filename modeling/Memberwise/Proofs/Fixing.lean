/-
  Memberwise/Proofs/Fixing.lean
  =============================
  **What applying the fix-its of a source changes.**

  A fix-it of an expansion does one of two things (`FixedBy`): it takes out a request
  for an initializer, from its `@` to the end of its name or its parentheses, or it
  puts a placeholder for a type behind a name that stands directly behind `let` or
  `var`.  Requests stand in front of bodies, and names in them, so all places where a
  fix-it could go lie one behind another (`Spots`).  A declaration with several
  requests gives one fix-it several times; of the distinct ones no two meet, so all of
  them are applied, in whatever order the diagnostics come.
-/
import Memberwise.Proofs.Accounting
import Memberwise.Proofs.Rejections

namespace Memberwise

/-! ### What is fixed -/

/-- The span of a request for an initializer as it is written: the sign, the name and, if
    there are any, parentheses that hold nothing.  Behind it comes another attribute or a
    word that introduces the declaration. -/
def Span.AsksForInit (tokens : List Placed) (span : Span) : Prop :=
  ∃ front sign name list next back, tokens = front ++ sign :: name :: (list ++ next :: back) ∧
    sign.token = .atSign ∧ name.token = .name Request.publicInitName ∧
    (list = [] ∨ ∃ opening closing, list = [opening, closing] ∧
      opening.token = .opening .round ∧ closing.token = .closing .round) ∧
    (next.token = .atSign ∨ Introduces next) ∧
    span = sign.span.upTo (endOf name.span.stop list)

/-- A name that is bound directly behind `let` or `var`, and behind which no colon comes. -/
def Pattern.Bare (tokens : List Placed) (pattern : Pattern) : Prop :=
  ∃ front keyword name back, tokens = front ++ keyword :: name :: back ∧
    (keyword.token = .name "let" ∨ keyword.token = .name "var") ∧
    name.token = .name pattern.name ∧ pattern.span = name.span ∧
    ∀ next ∈ back.head?, next.token ≠ .colon

def Span.deletion (span : Span) : Edit := ⟨span, ""⟩

def Pattern.typing (pattern : Pattern) : Edit := ⟨pattern.span, pattern.name ++ ": <#Type#>"⟩

/-- What a rejected request is fixed by. -/
inductive Diagnostic.FixedBy (source : List Char) (tokens : List Placed) :
    Diagnostic → Edit → Prop where
  | deletion {request : Span} (hrequest : request.AsksForInit tokens) :
      FixedBy source tokens (.notApplicable Request.publicInitName request) request.deletion
  | typing {pattern : Pattern} (hlocated : pattern.Located source) (hbare : pattern.Bare tokens) :
      FixedBy source tokens (.notInferableType pattern) pattern.typing

def fixItEdits (diagnostics : List Diagnostic) : List Edit :=
  diagnostics.filterMap fun diagnostic => diagnostic.fixIt?.map (·.edit)

/-! ### Parted operators -/

theorem Span.AsksForInit.of_refines {tokens tokens' : List Placed} {span : Span}
    (h : span.AsksForInit tokens') (hrefines : Refines tokens tokens') :
    span.AsksForInit tokens := by
  obtain ⟨front, sign, name, list, next, back, rfl, hsign, hname, hlist, hnext, hspan⟩ := h
  obtain ⟨front', _, rfl, -, hbehindSign⟩ := hrefines.exists_append_cons (by rw [hsign]; rfl)
  obtain ⟨_, rfl, hbehindName⟩ := hbehindSign.exists_cons (by rw [hname]; rfl)
  rcases hlist with rfl | ⟨opening, closing, rfl, hopening, hclosing⟩
  · obtain ⟨back', rfl, -⟩ := hbehindName.uncons hnext
    exact ⟨front', sign, name, [], next, back', rfl, hsign, hname, .inl rfl, hnext, hspan⟩
  · obtain ⟨_, rfl, hinside⟩ := hbehindName.exists_cons (by rw [hopening]; rfl)
    obtain ⟨_, rfl, hbehind⟩ := hinside.exists_cons (by rw [hclosing]; rfl)
    obtain ⟨back', rfl, -⟩ := hbehind.uncons hnext
    exact ⟨front', sign, name, [opening, closing], next, back', rfl, hsign, hname,
      .inr ⟨opening, closing, rfl, hopening, hclosing⟩, hnext, hspan⟩

theorem Pattern.Bare.of_refines {tokens tokens' : List Placed} {pattern : Pattern}
    (h : pattern.Bare tokens') (hrefines : Refines tokens tokens') : pattern.Bare tokens := by
  obtain ⟨front, keyword, name, back, rfl, hkeyword, hname, hspan, hcolon⟩ := h
  have hwhole : keyword.token.isWhole = true := by
    rcases hkeyword with hword | hword <;> rw [hword] <;> rfl
  obtain ⟨front', _, rfl, -, hbehindKeyword⟩ := hrefines.exists_append_cons hwhole
  obtain ⟨back', rfl, hbehind⟩ := hbehindKeyword.exists_cons (by rw [hname]; rfl)
  refine ⟨front', keyword, name, back', rfl, hkeyword, hname, hspan, ?_⟩
  -- a colon would not have been parted
  intro next hnext htoken
  obtain ⟨rest, rfl⟩ := List.head?_eq_some_iff.1 hnext
  cases hbehind with
  | keep _ _ => exact hcolon next rfl htoken
  | part hpart _ =>
    obtain ⟨_, -, -, hoperator, -⟩ := splitEquals?_eq_some hpart
    rw [htoken] at hoperator
    cases hoperator

theorem Span.AsksForInit.prepend {tokens : List Placed} {span : Span}
    (h : span.AsksForInit tokens) (more : List Placed) : span.AsksForInit (more ++ tokens) := by
  obtain ⟨front, sign, name, list, next, back, rfl, hrest⟩ := h
  exact ⟨more ++ front, sign, name, list, next, back, by simp, hrest⟩

theorem Pattern.Bare.prepend {tokens : List Placed} {pattern : Pattern}
    (h : pattern.Bare tokens) (more : List Placed) : pattern.Bare (more ++ tokens) := by
  obtain ⟨front, keyword, name, back, rfl, hrest⟩ := h
  exact ⟨more ++ front, keyword, name, back, by simp, hrest⟩

/-- What stands in the tokens left stood in those that were there. -/
theorem Span.AsksForInit.of_takes {stream after : TokenStream} {taken : List Placed}
    {noted : List Span} {span : Span} (h : span.AsksForInit after.pending)
    (htakes : Takes stream taken noted after) : span.AsksForInit stream.pending :=
  (h.prepend taken).of_refines htakes.pending

theorem Pattern.Bare.of_takes {stream after : TokenStream} {taken : List Placed}
    {noted : List Span} {pattern : Pattern} (h : pattern.Bare after.pending)
    (htakes : Takes stream taken noted after) : pattern.Bare stream.pending :=
  (h.prepend taken).of_refines htakes.pending

/-! ### Requests as they are written -/

/-- A request for an initializer has no arguments. -/
theorem Attribute.eq_of_publicInit {attr : Attribute}
    (h : attr.request? = .ok (some .publicInit)) :
    attr.name = Request.publicInitName ∧ attr.arguments = [] := by
  unfold request? at h
  split at h
  · next hname =>
    refine ⟨hname, ?_⟩
    cases harguments : attr.arguments with
    | nil => rfl
    | cons first rest => simp [rejectUnknown, harguments, Except.map] at h
  · split at h
    · cases hnaming : attr.naming with
      | error cause => simp [hnaming, Except.map] at h
      | ok naming => simp [hnaming, Except.map] at h
    · split at h
      · cases hkey : attr.key with
        | error cause => simp [hkey, Except.map] at h
        | ok key => simp [hkey, Except.map] at h
      · cases h

theorem asksForInit_of_attributes {attrs : List Attribute} {segments : List (List Placed)}
    {lead : Placed} {attr : Attribute} (h : List.Forall₂ Attribute.WrittenAs attrs segments)
    (hlead : Introduces lead) (tail : List Placed) (hmem : attr ∈ attrs)
    (hrequest : attr.request? = .ok (some .publicInit)) :
    attr.span.AsksForInit (segments.flatten ++ lead :: tail) := by
  induction h with
  | nil => cases hmem
  | @cons first segment attrs segments hwritten hall ih =>
    rw [List.flatten_cons, List.append_assoc]
    rcases List.mem_cons.1 hmem with rfl | hmem
    · obtain ⟨hname, hnone⟩ := Attribute.eq_of_publicInit hrequest
      obtain ⟨next, back, hbehind, hnext⟩ := flatten_head hall hlead tail
      obtain ⟨sign, name, list, last, rfl, hsign, htoken, hlast, hends, hspan⟩ := hwritten
      rw [hname] at htoken
      refine ⟨[], sign, name, list, next, back, by rw [hbehind]; rfl, hsign, htoken, ?_, hnext, ?_⟩
      · rcases hends with ⟨hclosing, hempty⟩ | ⟨rfl, -⟩
        · obtain ⟨opening, rfl, hopening⟩ := hempty hnone
          exact .inr ⟨opening, last, rfl, hopening, hclosing⟩
        · exact .inl rfl
      · have hend : endOf 0 (sign :: name :: list) = last.span.stop := endOf_eq_of_getLast? hlast
        rw [hspan, ← hend, endOf_cons, endOf_cons]
    · exact (ih hmem).prepend segment

/-- An attachment is what one of the attributes requests. -/
theorem Attachment.exists_of_mem {attrs : List Attribute} {attached : List Attachment}
    {attachment : Attachment} (h : List.Forall₂ Attachment.Of attrs attached)
    (hmem : attachment ∈ attached) : ∃ attr ∈ attrs, attachment.Of attr := by
  induction h with
  | nil => cases hmem
  | cons hof _ ih =>
    rcases List.mem_cons.1 hmem with rfl | hmem
    · exact ⟨_, List.mem_cons_self, hof⟩
    · obtain ⟨attr, hattr, hof⟩ := ih hmem
      exact ⟨attr, List.mem_cons_of_mem _ hattr, hof⟩

namespace ItemTaken

variable {source : List Char} {stream after : TokenStream} {attrs : List Attribute}
  {segments : List (List Placed)} {tail : List Placed} {noted : List Span}

theorem asksForInit {header : Header} {attachment : Attachment}
    (h : ItemTaken source stream after (.opened header) attrs segments tail noted)
    (hmem : attachment ∈ header.attachments) (hrequest : attachment.request = .publicInit) :
    attachment.span.AsksForInit stream.pending := by
  cases h.read with
  | @opened lead brace rest _ hlead _ _ _ hattached =>
    obtain ⟨attr, hattr, hof, hspan⟩ := Attachment.exists_of_mem hattached hmem
    rw [hrequest] at hof
    rw [hspan]
    have hasks := asksForInit_of_attributes h.written hlead (rest ++ [brace] ++ after.pending)
      (List.mem_filter.1 hattr).1 hof
    exact hasks.of_refines (by simpa using h.takes.pending)

/-- The name that a member binds first stands directly behind its keyword. -/
theorem bare {member : Member} {binding : Binding}
    (h : ItemTaken source stream after (.entry (.property member)) attrs segments tail noted)
    (hfirst : binding ∈ member.bindings.head?) (huntyped : binding.type? = none) :
    binding.pattern.Bare stream.pending := by
  cases h.read with
  | property _ _ _ _ hled =>
    obtain ⟨front, keyword, behind, htail, hkeyword, hled⟩ := hled
    obtain ⟨name, rest, hbehind, hled⟩ := hled binding hfirst
    have hpending := h.takes.pending
    rw [htail] at hpending
    refine Pattern.Bare.of_refines ⟨segments.flatten ++ front, keyword, name, rest, ?_, hkeyword,
      hled.token, hled.span, hled.noColon huntyped⟩ hpending
    rw [← hbehind]
    simp

end ItemTaken

namespace ItemsRead

variable {source : List Char} {stream after : TokenStream} {taken : List Placed}
  {noted : List Span} {items : List BodyItem}

/-- All requests for initializers are written in the tokens that were there. -/
theorem asksForInit (h : ItemsRead source stream taken noted items after) :
    ∀ declaration ∈ Declaration.nestedIn items, ∀ attachment ∈ declaration.attachments,
      attachment.request = .publicInit → attachment.span.AsksForInit stream.pending := by
  induction h with
  | stop _ _ => simp [Declaration.nestedIn]
  | separator hitem _ ih =>
    intro declaration hmem attachment hattached hrequest
    exact (ih declaration hmem attachment hattached hrequest).of_takes hitem.takes
  | entry hitem _ ih =>
    intro declaration hmem attachment hattached hrequest
    rw [hitem.nestedIn_entry] at hmem
    exact (ih declaration hmem attachment hattached hrequest).of_takes hitem.takes
  | opened hitem hinner _ hclose _ ihInner ihRest =>
    intro declaration hmem attachment hattached hrequest
    rw [Declaration.nestedIn_nested, List.mem_cons, List.mem_append] at hmem
    rcases hmem with rfl | hmem | hmem
    · exact hitem.asksForInit hattached hrequest
    · exact (ihInner declaration hmem attachment hattached hrequest).of_takes hitem.takes
    · have hasks := ihRest declaration hmem attachment hattached hrequest
      exact hasks.of_takes ((hitem.takes.trans hinner.takes.2).trans hclose)

/-- All names that members bind first, and without a type, are bare in the tokens that were
    there. -/
theorem bare (h : ItemsRead source stream taken noted items after) {member : Member}
    (hmember : BodyItem.HaveMember items member) {binding : Binding}
    (hfirst : binding ∈ member.bindings.head?) (huntyped : binding.type? = none) :
    binding.pattern.Bare stream.pending := by
  induction h with
  | stop _ _ => simp [BodyItem.HaveMember, Declaration.nestedIn] at hmember
  | separator hitem _ ih => exact (ih hmember).of_takes hitem.takes
  | entry hitem hrest ih =>
    rw [BodyItem.HaveMember, hitem.nestedIn_entry, List.mem_cons, or_assoc] at hmember
    rcases hmember with rfl | hmember
    · exact hitem.bare hfirst huntyped
    · exact (ih hmember).of_takes hitem.takes
  | opened hitem hinner _ hclose _ ihInner ihRest =>
    rcases BodyItem.haveMember_nested.1 hmember with hmember | hmember
    · exact (ihInner hmember).of_takes hitem.takes
    · exact (ihRest hmember).of_takes ((hitem.takes.trans hinner.takes.2).trans hclose)

end ItemsRead

/-! ### Places of fix-its -/

/-- Edits at all places in some items where a fix-it could go, between two offsets.  They
    lie one behind another. -/
structure Spots (source : List Char) (items : List BodyItem) (low high : Nat)
    (spots : List Edit) : Prop where
  inOrder : Span.InOrder low (spots.map (·.span)) high
  lie : ∀ spot ∈ spots, spot.span.Lies source ∧ spot.span.start < spot.span.stop
  attached : ∀ declaration ∈ Declaration.nestedIn items,
    ∀ attachment ∈ declaration.attachments, attachment.span.deletion ∈ spots
  bound : ∀ member, BodyItem.HaveMember items member →
    ∀ binding ∈ member.bindings.head?, binding.pattern.typing ∈ spots

theorem Declaration.nestedIn_append (items more : List BodyItem) :
    nestedIn (items ++ more) = nestedIn items ++ nestedIn more := by
  rw [nestedIn_eq, nestedIn_eq, nestedIn_eq, List.filterMap_append, List.flatMap_append]

theorem BodyItem.haveMember_append {items more : List BodyItem} {member : Member} :
    HaveMember (items ++ more) member ↔ HaveMember items member ∨ HaveMember more member := by
  unfold HaveMember
  simp only [Declaration.nestedIn_append, List.mem_append, or_and_right, exists_or]
  exact or_or_or_comm

namespace Spots

variable {source : List Char} {items more : List BodyItem} {low middle high : Nat}
  {spots spots' : List Edit}

theorem nil : Spots source [] low low [] where
  inOrder := Nat.le_refl low
  lie := by simp
  attached := by simp [Declaration.nestedIn]
  bound := by simp [BodyItem.HaveMember, Declaration.nestedIn]

theorem mono {low' high' : Nat} (h : Spots source items low high spots) (hlow : low' ≤ low)
    (hhigh : high ≤ high') : Spots source items low' high' spots :=
  { h with inOrder := h.inOrder.mono hlow hhigh }

theorem append (h : Spots source items low middle spots)
    (hmore : Spots source more middle high spots') :
    Spots source (items ++ more) low high (spots ++ spots') := by
  constructor
  case inOrder =>
    rw [List.map_append]
    exact h.inOrder.append hmore.inOrder
  case lie => exact List.forall_mem_append.2 ⟨h.lie, hmore.lie⟩
  case attached =>
    rw [Declaration.nestedIn_append, List.forall_mem_append]
    constructor
    · intro declaration hmem attachment hattached
      exact List.mem_append_left _ (h.attached declaration hmem attachment hattached)
    · intro declaration hmem attachment hattached
      exact List.mem_append_right _ (hmore.attached declaration hmem attachment hattached)
  case bound =>
    intro member hmember binding hfirst
    rcases BodyItem.haveMember_append.1 hmember with hmember | hmember
    · exact List.mem_append_left _ (h.bound member hmember binding hfirst)
    · exact List.mem_append_right _ (hmore.bound member hmember binding hfirst)

/-- The requests of a declaration come in front of all places in its body. -/
theorem nested {declaration : Declaration} (hlocated : declaration.Located source)
    (h : Spots source declaration.items low high spots) (hlow : declaration.body.start ≤ low) :
    Spots source [.nested declaration] declaration.span.start high
      (declaration.attachments.map (·.span.deletion) ++ spots) := by
  have hnested : Declaration.nestedIn [.nested declaration] =
      declaration :: Declaration.nestedIn declaration.items := by
    rw [Declaration.nestedIn_nested, Declaration.nestedIn, List.append_nil]
  constructor
  case inOrder =>
    rw [List.map_append, List.map_map]
    exact (hlocated.attachments.mono (Nat.le_refl _) hlow).append h.inOrder
  case lie =>
    refine List.forall_mem_append.2 ⟨?_, h.lie⟩
    intro spot hspot
    obtain ⟨attachment, hattached, rfl⟩ := List.mem_map.1 hspot
    have hsigned := hlocated.attachments_signed attachment hattached
    exact ⟨hsigned.lies, hsigned.start_lt_stop⟩
  case attached =>
    rw [hnested, List.forall_mem_cons]
    constructor
    · intro attachment hattached
      exact List.mem_append_left _ (List.mem_map_of_mem hattached)
    · intro inner hmem attachment hattached
      exact List.mem_append_right _ (h.attached inner hmem attachment hattached)
  case bound =>
    intro member hmember binding hfirst
    rcases BodyItem.haveMember_nested.1 hmember with hmember | hmember
    · exact List.mem_append_right _ (h.bound member hmember binding hfirst)
    · simp [BodyItem.HaveMember, Declaration.nestedIn] at hmember

end Spots

/-- The first names that members bind lie in the members. -/
theorem Member.Located.first_inOrder {source : List Char} {member : Member}
    (h : member.Located source) :
    Span.InOrder member.span.start
      ((member.bindings.head?.toList.map (·.pattern.typing)).map (·.span)) member.span.stop := by
  refine h.inOrder.sublist ?_
  cases member.bindings with
  | nil => exact List.Sublist.refl _
  | cons first rest =>
    simp only [List.head?_cons, Option.toList_some, List.map_cons, List.map_nil,
      List.flatMap_cons]
    exact List.singleton_sublist.2 (by simp [Binding.spans, Pattern.typing])

namespace ItemTaken

variable {source : List Char} {stream after : TokenStream} {attrs : List Attribute}
  {segments : List (List Placed)} {tail : List Placed} {noted : List Span}

theorem first_lies {member : Member} {binding : Binding}
    (h : ItemTaken source stream after (.entry (.property member)) attrs segments tail noted)
    (hfirst : binding ∈ member.bindings.head?) :
    binding.pattern.span.Lies source ∧
      binding.pattern.span.start < binding.pattern.span.stop := by
  have hlaid := (h.takes.pending.laid h.ready.laid).1
  cases h.read with
  | property _ _ _ _ hled =>
    obtain ⟨front, keyword, behind, htail, -, hled⟩ := hled
    obtain ⟨name, rest, hbehind, hled⟩ := hled binding hfirst
    have hmem : name ∈ behind ++ after.pending := by
      rw [hbehind]
      exact List.mem_cons_self
    have hsits : name.Sits source := by
      apply hlaid.sits
      rw [htail]
      simp only [List.append_assoc, List.cons_append, List.mem_append, List.mem_cons] at hmem ⊢
      tauto
    rw [hled.span]
    exact ⟨hsits.lies, hsits.start_lt_stop⟩

theorem entry_spots {item : BodyItem}
    (h : ItemTaken source stream after (.entry item) attrs segments tail noted) :
    ∃ spots, Spots source [item] stream.head.span.start after.head.span.start spots := by
  obtain ⟨⟨hlow, -, hhigh⟩, -, hlocated⟩ := h.entry_located
  have hnested : Declaration.nestedIn [item] = [] := by
    rw [h.nestedIn_entry, Declaration.nestedIn]
  cases item with
  | property member =>
    have horder := (hlocated member rfl).first_inOrder
    refine ⟨_, horder.mono hlow hhigh, ?_, by rw [hnested]; simp, ?_⟩
    · intro spot hspot
      obtain ⟨binding, hfirst, rfl⟩ := List.mem_map.1 hspot
      exact h.first_lies (Option.mem_toList.1 hfirst)
    · intro other hother binding hfirst
      rw [BodyItem.HaveMember, hnested] at hother
      obtain rfl : other = member := by simpa using hother
      exact List.mem_map.2 ⟨binding, Option.mem_toList.2 hfirst, rfl⟩
  | other span =>
    refine ⟨[], h.ready.head_start_le h.takes, by simp, by rw [hnested]; simp, ?_⟩
    intro member hmember
    rw [BodyItem.HaveMember, hnested] at hmember
    simp at hmember
  | nested declaration =>
    rw [Declaration.nestedIn_nested] at hnested
    cases hnested

end ItemTaken

/-- The places of fix-its in the items of a body. -/
theorem ItemsRead.exists_spots {source : List Char} {stream after : TokenStream}
    {taken : List Placed} {noted : List Span} {items : List BodyItem}
    (h : ItemsRead source stream taken noted items after) :
    ∃ spots, Spots source items stream.head.span.start after.head.span.start spots := by
  induction h with
  | stop _ _ => exact ⟨[], .nil⟩
  | separator hitem _ ih =>
    obtain ⟨spots, hspots⟩ := ih
    exact ⟨spots, hspots.mono (hitem.ready.head_start_le hitem.takes) (Nat.le_refl _)⟩
  | entry hitem _ ih =>
    obtain ⟨own, hown⟩ := hitem.entry_spots
    obtain ⟨spots, hspots⟩ := ih
    exact ⟨own ++ spots, hown.append hspots⟩
  | @opened stream _ closing _ _ _ _ _ _ _ _ _ _ header inner items hitem hinner hbrace hclose _
      ihInner ihRest =>
    obtain ⟨spotsIn, hspotsIn⟩ := ihInner
    obtain ⟨spots, hspots⟩ := ihRest
    obtain ⟨horderIn, hliesIn, hmembersIn, -⟩ := hinner.located
    have hlocated := hitem.closed_located hinner.ready_after hbrace horderIn hliesIn hmembersIn
    have hhead := (hitem.ready.taken hitem.takes).2.readTo_le_head
    have hbody : (header.closed inner closing.head.span).body.start ≤ _ :=
      Nat.le_trans (Nat.le_succ _) (Nat.le_trans (Nat.le_of_eq hitem.readTo_header.symm) hhead)
    have hown := hspotsIn.nested hlocated hbody
    have hforward := hinner.ready_after.head_start_le hclose
    have hstart : (header.closed inner closing.head.span).span.start =
        stream.head.span.start := by
      simp only [Header.closed, Span.upTo, hitem.header_start]
    exact ⟨_, (hown.mono (Nat.le_of_eq hstart.symm) hforward).append hspots⟩

theorem Span.Lies.stop_le {source : List Char} {span : Span} (h : span.Lies source) :
    span.stop ≤ Text.width source := by
  obtain ⟨text, before, after, rfl, rfl⟩ := h
  simp only [across, Text.width_append]
  omega

/-- Edits at some of the places keep apart. -/
theorem Spots.apart {source : List Char} {items : List BodyItem} {low high : Nat}
    {spots chain : List Edit} (h : Spots source items low high spots)
    (hsub : chain.Sublist spots) : Edit.Apart source chain := by
  constructor
  case fits =>
    intro edit hedit
    obtain ⟨hlies, hlt⟩ := h.lie edit (hsub.mem hedit)
    obtain ⟨hstart, hstop⟩ := hlies.boundary
    exact Edit.fits_iff.2 ⟨Nat.le_of_lt hlt, hlies.stop_le, hstart, hstop⟩
  case inOrder =>
    have hsolid : ∀ span ∈ spots.map (·.span), span.start < span.stop := by
      intro span hspan
      obtain ⟨spot, hspot, rfl⟩ := List.mem_map.1 hspan
      exact (h.lie spot hspot).2
    have hpairwise := List.pairwise_map.1 (h.inOrder.pairwise hsolid)
    exact (hpairwise.sublist hsub).imp And.symm

/-! ### Fix-its of diagnostics -/

/-- Only requests for initializers are rejected. -/
theorem Declaration.rejects_of_answer {declaration : Declaration} {attachment : Attachment}
    {diagnostic : Diagnostic} (h : declaration.answer attachment = .error diagnostic) :
    attachment.request = .publicInit ∧ declaration.Rejects attachment.span diagnostic := by
  obtain ⟨request, span⟩ := attachment
  cases request with
  | publicInit =>
    refine ⟨rfl, rejects_of_memberwiseInit ?_⟩
    cases hinit : declaration.memberwiseInit span with
    | error cause =>
      rw [answer, hinit] at h
      cases h
      rfl
    | ok init =>
      rw [answer, hinit] at h
      cases h
  | codingKeys naming => cases h
  | codingKey key => cases h

theorem Outline.mem_diagnostics {outline : Outline} {diagnostic : Diagnostic}
    (h : diagnostic ∈ outline.diagnostics) :
    ∃ declaration ∈ outline.allDeclarations, ∃ attachment ∈ declaration.attachments,
      attachment.request = .publicInit ∧ declaration.Rejects attachment.span diagnostic := by
  have hmem := (inOrder_perm _ _).mem_iff.1 h
  obtain ⟨declaration, hdeclaration, hrejected⟩ := List.mem_flatMap.1 hmem
  obtain ⟨attachment, hattached, hanswer⟩ := List.mem_filterMap.1 hrejected
  refine ⟨declaration, hdeclaration, attachment, hattached, ?_⟩
  cases hgiven : declaration.answer attachment with
  | ok generated =>
    rw [hgiven] at hanswer
    cases hanswer
  | error cause =>
    rw [hgiven] at hanswer
    cases hanswer
    exact Declaration.rejects_of_answer hgiven

theorem Declaration.FirstUntyped.exists_member {declaration : Declaration} {binding : Binding}
    (h : declaration.FirstUntyped binding) :
    ∃ member ∈ declaration.members, binding ∈ member.bindings.head? ∧ binding.type? = none := by
  obtain ⟨front, member, back, hmembers, heligible, huntyped, -⟩ := h
  refine ⟨member, ?_, ?_, huntyped.1⟩
  · rw [hmembers]
    exact List.mem_append_right _ List.mem_cons_self
  · rw [heligible.single]
    rfl

/-- The edits that the diagnostics of an outline offer, in order of their places.  Each
    diagnostic offers one. -/
theorem Outline.exists_fixes {source : List Char} {outline : Outline}
    (h : Outline.ofSource source = .ok outline) :
    ∃ tokens chain, tokenize source = .ok tokens ∧ Edit.Apart source chain ∧
      (∀ edit, edit ∈ chain ↔ edit ∈ fixItEdits outline.diagnostics) ∧
      ∀ diagnostic ∈ outline.diagnostics, ∃ edit,
        diagnostic.fixIt?.map (·.edit) = some edit ∧
        diagnostic.FixedBy source tokens.body edit := by
  obtain ⟨tokens, taken, items, after, htokens, hread, -, hdeclarations⟩ :=
    Outline.ofSource_read h
  have hdeep : outline.allDeclarations = Declaration.nestedIn items := by
    rw [Outline.allDeclarations, hdeclarations, Declaration.nestedIn_eq]
  obtain ⟨spots, hspots⟩ := hread.exists_spots
  have hfixed : ∀ diagnostic ∈ outline.diagnostics, ∃ edit ∈ spots,
      diagnostic.fixIt?.map (·.edit) = some edit ∧
        diagnostic.FixedBy source tokens.body edit := by
    intro diagnostic hdiagnostic
    obtain ⟨declaration, hmem, attachment, hattached, hrequest, hrejects⟩ :=
      Outline.mem_diagnostics hdiagnostic
    rw [hdeep] at hmem
    cases hrejects with
    | notApplicable _ =>
      have hasks := hread.asksForInit declaration hmem attachment hattached hrequest
      exact ⟨_, hspots.attached declaration hmem attachment hattached, rfl, .deletion hasks⟩
    | notInferableType _ hfirst =>
      obtain ⟨member, hmember, hbinding, huntyped⟩ := hfirst.exists_member
      have hhave : BodyItem.HaveMember items member := .inr ⟨declaration, hmem, hmember⟩
      have hlocated := (hread.located.2.2.2 declaration hmem).members member hmember
      have hpattern := (hlocated.bindings _ (List.mem_of_mem_head? hbinding)).pattern
      exact ⟨_, hspots.bound member hhave _ hbinding, rfl,
        .typing hpattern (hread.bare hhave hbinding huntyped)⟩
  refine ⟨tokens, spots.filter (· ∈ fixItEdits outline.diagnostics), htokens,
    hspots.apart List.filter_sublist, ?_, ?_⟩
  · intro edit
    rw [List.mem_filter, decide_eq_true_eq]
    refine and_iff_right_of_imp ?_
    intro hedit
    obtain ⟨diagnostic, hdiagnostic, hoffer⟩ := List.mem_filterMap.1 hedit
    obtain ⟨spot, hspot, hfix, -⟩ := hfixed diagnostic hdiagnostic
    rw [hfix] at hoffer
    cases hoffer
    exact hspot
  · intro diagnostic hdiagnostic
    obtain ⟨edit, -, hfix⟩ := hfixed diagnostic hdiagnostic
    exact ⟨edit, hfix⟩

/-! ### Whole sources -/

/-- Diagnostics in whatever order offer the same edits, and all of them are applied. -/
theorem applyFixIts_eq_splice {source : String} {chain : List Edit}
    {diagnostics diagnostics' : List Diagnostic} (hapart : Edit.Apart source.toList chain)
    (hmem : ∀ edit, edit ∈ chain ↔ edit ∈ fixItEdits diagnostics)
    (hperm : diagnostics'.Perm diagnostics) :
    Edit.accepted source.toList (fixItEdits diagnostics') = chain.reverse ∧
      (applyFixIts source diagnostics').toList = Edit.splice source.toList 0 chain := by
  have hmem' : ∀ edit, edit ∈ chain ↔ edit ∈ fixItEdits diagnostics' := by
    intro edit
    rw [hmem]
    exact (hperm.filterMap _).mem_iff.symm
  refine ⟨Edit.accepted_eq_reverse_of_mem hmem' hapart, ?_⟩
  rw [applyFixIts, String.toList_ofList]
  exact Edit.applyAll_eq_splice_of_mem hmem' hapart

/-- **Applying the fix-its of an expansion changes what they say, and nothing else.**
    Requests that do not apply are taken out, and reported names get a placeholder for a
    type; no fix-it is left out, all other text stays in place, and the order of the
    diagnostics does not matter. -/
theorem applyFixIts_splices {layout : Layout} {source : String} {expansion : Expansion}
    (h : expand layout source = .ok expansion) :
    ∃ tokens chain, tokenize source.toList = .ok tokens ∧ Edit.Apart source.toList chain ∧
      (∀ diagnostic ∈ expansion.diagnostics, ∃ edit,
        diagnostic.fixIt?.map (·.edit) = some edit ∧
        diagnostic.FixedBy source.toList tokens.body edit) ∧
      (∀ edit, edit ∈ chain ↔ edit ∈ fixItEdits expansion.diagnostics) ∧
      ∀ diagnostics, diagnostics.Perm expansion.diagnostics →
        Edit.accepted source.toList (fixItEdits diagnostics) = chain.reverse ∧
        (applyFixIts source diagnostics).toList = Edit.splice source.toList 0 chain := by
  obtain ⟨outline, houtline, -, hdiagnostics⟩ := expand_eq_ok h
  obtain ⟨tokens, chain, htokens, hapart, hmem, hfixed⟩ := Outline.exists_fixes houtline
  rw [← hdiagnostics] at hmem hfixed
  exact ⟨tokens, chain, htokens, hapart, hfixed, hmem, fun _ => applyFixIts_eq_splice hapart hmem⟩

/-- A struct that asks twice for an initializer and has a member without a type, and in it
    an enumeration that asks for one too. -/
def repeatedRequests : String :=
  "@PublicInit @PublicInit\nstruct S \x7b\n    var a\n    @PublicInit() enum E \x7b\x7d\n\x7d"

def repeatedRequestsExpanded : Expansion where
  source := "struct S \x7b\n    var a\n    enum E \x7b\x7d\n\x7d"
  diagnostics :=
    [.notInferableType ⟨"a", ⟨43, 44, 3, 9⟩⟩, .notInferableType ⟨"a", ⟨43, 44, 3, 9⟩⟩,
      .notApplicable "PublicInit" ⟨49, 62, 4, 5⟩]

def repeatedRequestsFixed : String :=
  "@PublicInit @PublicInit\nstruct S \x7b\n    var a: <#Type#>\n     enum E \x7b\x7d\n\x7d"

theorem applyFixIts_splices_repeated :
    expand .standard repeatedRequests = .ok repeatedRequestsExpanded ∧
    applyFixIts repeatedRequests repeatedRequestsExpanded.diagnostics.reverse =
      repeatedRequestsFixed ∧
    ∃ chain, Edit.Apart repeatedRequests.toList chain ∧
      repeatedRequestsFixed.toList = Edit.splice repeatedRequests.toList 0 chain := by
  have hexpand : expand .standard repeatedRequests = .ok repeatedRequestsExpanded := by
    decide +kernel
  have hfixed : applyFixIts repeatedRequests repeatedRequestsExpanded.diagnostics.reverse =
      repeatedRequestsFixed := by decide +kernel
  obtain ⟨_, chain, -, hapart, -, -, happly⟩ := applyFixIts_splices hexpand
  refine ⟨hexpand, hfixed, chain, hapart, ?_⟩
  rw [← hfixed]
  exact (happly _ (List.reverse_perm _)).2

end Memberwise
