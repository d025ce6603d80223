/-
  Memberwise/Proofs/Accounting.lean
  =================================
  **Every request is accounted for.**

  The spans of requests are noted on the side while items are read, and the tree
  of declarations is built elsewhere.  That the two agree is one induction on the
  steps in which items are read: each step notes the attachments of a declaration
  or the keys of a member, in the place where these stand, and what the other
  steps note stands in front of it or behind it.

  The tree holds no members that stand outside all declarations, so a key of such
  a member is noted with nothing in the tree to show for it.  These are the only
  such requests.
-/
import Memberwise.Proofs.Stability

namespace Memberwise

/-! ### Spans inside spans -/

namespace Span

def holds (outer inner : Span) : Bool :=
  decide (outer.start ≤ inner.start) && decide (inner.stop ≤ outer.stop)

theorem holds_iff {outer inner : Span} :
    outer.holds inner = true ↔ outer.start ≤ inner.start ∧ inner.stop ≤ outer.stop := by
  simp [holds]

/-- The attribute at a span has a name: of the tokens inside the span the first is an `@`,
    at its start, and the second is the name. -/
def Names (tokens : List Placed) (span : Span) (word : String) : Prop :=
  ∃ sign name rest, tokens.filter (fun placed => span.holds placed.span) = sign :: name :: rest ∧
    sign.token = .atSign ∧ sign.span.start = span.start ∧ name.token = .name word

theorem Signed.start_lt_stop {source : List Char} {span : Span} (h : span.Signed source) :
    span.start < span.stop := by
  obtain ⟨text, before, after, -, rfl⟩ := h
  have := Text.width_pos (List.cons_ne_nil '@' text)
  simp only [across]
  omega

theorem InOrder.mem {low high : Nat} {spans : List Span} {span : Span}
    (h : InOrder low spans high) (hmem : span ∈ spans) :
    low ≤ span.start ∧ span.stop ≤ high := by
  obtain ⟨hlow, -, hhigh⟩ := h.sublist (List.singleton_sublist.2 hmem)
  exact ⟨hlow, hhigh⟩

/-- Spans that are not empty are strictly in order. -/
theorem InOrder.pairwise {low high : Nat} {spans : List Span} (h : InOrder low spans high)
    (hsolid : ∀ span ∈ spans, span.start < span.stop) :
    spans.Pairwise fun a b => a.start < b.start ∧ a.stop ≤ b.start := by
  induction spans generalizing low with
  | nil => exact .nil
  | cons span rest ih =>
    rw [List.forall_mem_cons] at hsolid
    obtain ⟨-, -, hrest⟩ := h
    refine .cons ?_ (ih hrest hsolid.2)
    intro other hother
    have hle := (hrest.mem hother).1
    exact ⟨by omega, hle⟩

/-- A span holds none of the spans in front of it or behind it. -/
theorem InOrder.countP_holds {low high : Nat} {spans : List Span} {span : Span}
    (h : InOrder low spans high) (hsolid : ∀ other ∈ spans, other.start < other.stop)
    (hapart : high ≤ span.start ∨ span.stop ≤ low) : spans.countP span.holds = 0 := by
  rw [List.countP_eq_zero]
  intro other hother hholds
  have hbounds := h.mem hother
  have hlt := hsolid other hother
  rw [holds_iff] at hholds
  omega

end Span

/-! ### Keys of members -/

def Member.keyCount (member : Member) : Nat := member.markers.countP (·.key?.isSome)

/-- Between two offsets stands a member, and of the spans noted there it holds as many as it
    fixes keys. -/
structure Member.Keyed (noted : List Span) (low high : Nat) (member : Member) : Prop where
  low_le : low ≤ member.span.start
  le_high : member.span.stop ≤ high
  count : noted.countP member.span.holds = member.keyCount

namespace Member.Keyed

variable {noted : List Span} {low high : Nat} {member : Member}

theorem prepend {front : List Span} {low' : Nat} (h : member.Keyed noted low high)
    (hfront : Span.InOrder low' front low) (hsolid : ∀ span ∈ front, span.start < span.stop) :
    member.Keyed (front ++ noted) low' high := by
  refine ⟨hfront.le.trans h.low_le, h.le_high, ?_⟩
  rw [List.countP_append, h.count, hfront.countP_holds hsolid (.inl h.low_le), Nat.zero_add]

theorem append {back : List Span} {high' : Nat} (h : member.Keyed noted low high)
    (hback : Span.InOrder high back high') (hsolid : ∀ span ∈ back, span.start < span.stop) :
    member.Keyed (noted ++ back) low high' := by
  refine ⟨h.low_le, h.le_high.trans hback.le, ?_⟩
  rw [List.countP_append, h.count, hback.countP_holds hsolid (.inr h.le_high), Nat.add_zero]

end Member.Keyed

theorem Declaration.mem_nestedIn_cons {declaration : Declaration} {items : List BodyItem}
    (h : declaration ∈ nestedIn items) (item : BodyItem) :
    declaration ∈ nestedIn (item :: items) := by
  cases item with
  | nested inner =>
    rw [nestedIn_nested]
    exact List.mem_cons_of_mem _ (List.mem_append_right _ h)
  | property _ => rwa [nestedIn]
  | other _ => rwa [nestedIn]

/-- A member stands in some items, be it one of them or a member of a declaration in
    them. -/
def BodyItem.HaveMember (items : List BodyItem) (member : Member) : Prop :=
  .property member ∈ items ∨
    ∃ declaration ∈ Declaration.nestedIn items, member ∈ declaration.members

theorem BodyItem.HaveMember.cons {items : List BodyItem} {member : Member}
    (h : HaveMember items member) (item : BodyItem) : HaveMember (item :: items) member := by
  rcases h with hitem | ⟨declaration, hmem, hmember⟩
  · exact .inl (List.mem_cons_of_mem _ hitem)
  · exact .inr ⟨declaration, Declaration.mem_nestedIn_cons hmem item, hmember⟩

theorem BodyItem.haveMember_nested {declaration : Declaration} {items : List BodyItem}
    {member : Member} :
    HaveMember (.nested declaration :: items) member ↔
      HaveMember declaration.items member ∨ HaveMember items member := by
  unfold HaveMember
  simp only [Declaration.nestedIn_nested, List.mem_cons, List.mem_append, or_and_right, exists_or,
    exists_eq_left, Declaration.mem_members, reduceCtorEq, false_or, or_assoc, or_left_comm]

theorem keyCount_eq {attrs : List Attribute} {markers : List Marker}
    (h : List.Forall₂ (fun attr marker => attr.marker = .ok marker) attrs markers) :
    (keyAttributes attrs).length = markers.countP (·.key?.isSome) := by
  unfold keyAttributes
  rw [← List.countP_eq_length_filter]
  induction h with
  | nil => rfl
  | cons hmarker _ ih =>
    rw [List.countP_cons, List.countP_cons, ih, isSome_key?_of_marker hmarker]

/-! ### Requests and what they belong to -/

/-- A request with a name belongs to a declaration in some items, as an attachment, or it is
    a key in a member in them. -/
def BelongsIn (items : List BodyItem) (request : Span) (word : String) : Prop :=
  (∃ declaration ∈ Declaration.nestedIn items, ∃ attachment ∈ declaration.attachments,
      attachment.span = request) ∨
    word = Request.codingKeyName ∧
      ∃ member, BodyItem.HaveMember items member ∧ member.span.holds request = true

theorem BelongsIn.cons {items : List BodyItem} {request : Span} {word : String}
    (h : BelongsIn items request word) (item : BodyItem) :
    BelongsIn (item :: items) request word := by
  rcases h with ⟨declaration, hmem, hattached⟩ | ⟨hword, member, hmember, hholds⟩
  · exact .inl ⟨declaration, Declaration.mem_nestedIn_cons hmem item, hattached⟩
  · exact .inr ⟨hword, member, hmember.cons item, hholds⟩

/-- What belongs in the items of a declaration belongs to it or in it. -/
theorem BelongsIn.nested {declaration : Declaration} {items : List BodyItem} {request : Span}
    {word : String} (h : BelongsIn declaration.items request word) :
    BelongsIn (.nested declaration :: items) request word := by
  rcases h with ⟨inner, hmem, hattached⟩ | ⟨hword, member, hmember, hholds⟩
  · refine .inl ⟨inner, ?_, hattached⟩
    rw [Declaration.nestedIn_nested]
    exact List.mem_cons_of_mem _ (List.mem_append_left _ hmem)
  · exact .inr ⟨hword, member, BodyItem.haveMember_nested.2 (.inl hmember), hholds⟩

/-- A request is written with some of the tokens, as an attribute with a name. -/
def Span.WrittenIn (tokens : List Placed) (request : Span) (word : String) : Prop :=
  ∃ (attr : Attribute) (segment : List Placed), attr.WrittenAs segment ∧ attr.span = request ∧
    attr.name = word ∧ segment <:+: tokens

theorem Span.WrittenIn.mono {tokens more : List Placed} {request : Span} {word : String}
    (h : request.WrittenIn tokens word) (hwithin : tokens <:+: more) :
    request.WrittenIn more word := by
  obtain ⟨attr, segment, hwritten, hspan, hname, hsegment⟩ := h
  exact ⟨attr, segment, hwritten, hspan, hname, hsegment.trans hwithin⟩

theorem attributes_written {attrs : List Attribute} {segments : List (List Placed)}
    (h : List.Forall₂ Attribute.WrittenAs attrs segments) :
    ∀ attr ∈ attrs, attr.span.WrittenIn segments.flatten attr.name := by
  induction h with
  | nil => exact fun _ hmem => absurd hmem List.not_mem_nil
  | @cons attr segment attrs segments hwritten _ ih =>
    refine List.forall_mem_cons.2 ⟨⟨attr, segment, hwritten, rfl, rfl, ?_⟩, ?_⟩
    · exact (List.prefix_append segment segments.flatten).isInfix
    · intro other hother
      exact (ih other hother).mono (List.suffix_append segment segments.flatten).isInfix

/-! ### Steps -/

namespace ItemTaken

variable {source : List Char} {stream after : TokenStream} {found : Item}
  {attrs : List Attribute} {segments : List (List Placed)} {tail : List Placed}
  {noted : List Span}

theorem noted_solid (h : ItemTaken source stream after found attrs segments tail noted) :
    ∀ span ∈ noted, span.start < span.stop :=
  fun span hmem => (h.noted_inOrder.2 span hmem).start_lt_stop

/-- All that is noted of a member lies in it. -/
theorem noted_in_member {member : Member}
    (h : ItemTaken source stream after (.entry (.property member)) attrs segments tail noted) :
    ∀ span ∈ noted, member.span.holds span = true := by
  intro span hmem
  have hsub := h.noted_sublist.mem hmem
  cases h.read with
  | property _ _ hspan _ =>
    obtain ⟨middle, horder, -, hlaid⟩ := h.attributes_laid (by simp)
    have hbounds := horder.mem hsub
    have hle := hlaid.le
    rw [Span.holds_iff, hspan]
    exact ⟨hbounds.1, by simp only [Span.upTo]; omega⟩

theorem keyed {member : Member}
    (h : ItemTaken source stream after (.entry (.property member)) attrs segments tail noted) :
    member.Keyed noted stream.head.span.start after.head.span.start := by
  obtain ⟨⟨hlow, -, hhigh⟩, -⟩ := h.entry_located
  have hall := h.noted_in_member
  refine ⟨hlow, hhigh, ?_⟩
  rw [List.countP_eq_length.2 hall]
  cases h.read with
  | property _ hmarkers _ _ => rw [List.length_map, keyCount_eq hmarkers, Member.keyCount]

/-- The attribute that an item notes a request for. -/
theorem noted_written (h : ItemTaken source stream after found attrs segments tail noted)
    {span : Span} (hmem : span ∈ noted) :
    ∃ word ∈ requestNames, span.WrittenIn (segments.flatten ++ tail) word ∧
      ((∃ header, found = .opened header) ∨ word = Request.codingKeyName) := by
  have hwrites : ∀ attr ∈ attrs, attr.span.WrittenIn (segments.flatten ++ tail) attr.name := by
    intro attr hattr
    exact (attributes_written h.written attr hattr).mono (List.prefix_append _ tail).isInfix
  cases h.read with
  | separator => cases hmem
  | other _ => cases hmem
  | property _ _ _ _ =>
    obtain ⟨attr, hattr, rfl⟩ := List.mem_map.1 hmem
    obtain ⟨hattr, hname⟩ := List.mem_filter.1 hattr
    rw [beq_iff_eq] at hname
    exact ⟨attr.name, by rw [hname]; decide, hwrites attr hattr, .inr hname⟩
  | opened _ _ _ _ hattached =>
    rw [attachment_spans hattached] at hmem
    obtain ⟨attr, hattr, rfl⟩ := List.mem_map.1 hmem
    obtain ⟨hattr, hname⟩ := List.mem_filter.1 hattr
    exact ⟨attr.name, List.contains_iff_mem.1 hname, hwrites attr hattr, .inl ⟨_, rfl⟩⟩

end ItemTaken

/-! ### Bodies -/

namespace ItemsRead

variable {source : List Char} {stream after : TokenStream} {taken : List Placed}
  {noted : List Span} {items : List BodyItem}

theorem noted_solid (h : ItemsRead source stream taken noted items after) :
    ∀ span ∈ noted, span.start < span.stop :=
  fun span hmem => (h.noted_inOrder.2 span hmem).start_lt_stop

/-- Every member, at any depth, holds as many of the spans noted as it fixes keys. -/
theorem keyed (h : ItemsRead source stream taken noted items after) {member : Member}
    (hmember : BodyItem.HaveMember items member) :
    member.Keyed noted stream.head.span.start after.head.span.start := by
  induction h with
  | stop _ _ => simp [BodyItem.HaveMember, Declaration.nestedIn] at hmember
  | separator hitem _ ih =>
    exact (ih hmember).prepend hitem.noted_inOrder.1 hitem.noted_solid
  | entry hitem hrest ih =>
    rw [BodyItem.HaveMember, hitem.nestedIn_entry, List.mem_cons, or_assoc] at hmember
    rcases hmember with rfl | hmember
    · exact hitem.keyed.append hrest.noted_inOrder.1 hrest.noted_solid
    · exact (ih hmember).prepend hitem.noted_inOrder.1 hitem.noted_solid
  | opened hitem hinner _ hclose hrest ihInner ihRest =>
    have hforward := hinner.ready_after.head_start_le hclose
    rcases BodyItem.haveMember_nested.1 hmember with hmember | hmember
    · -- what is noted behind the brace stands behind the member
      have hbehind := hrest.noted_inOrder.1.mono hforward (Nat.le_refl _)
      exact ((ihInner hmember).append hbehind hrest.noted_solid).prepend hitem.noted_inOrder.1
        hitem.noted_solid
    · have hfront := hinner.noted_inOrder.1.mono (Nat.le_refl _) hforward
      exact ((ihRest hmember).prepend hfront hinner.noted_solid).prepend hitem.noted_inOrder.1
        hitem.noted_solid

/-- Every span noted is that of an attribute, and belongs to something that was read. -/
theorem accounted (h : ItemsRead source stream taken noted items after) {span : Span}
    (hspan : span ∈ noted) :
    ∃ word ∈ requestNames, span.WrittenIn taken word ∧ BelongsIn items span word := by
  induction h with
  | stop _ _ => cases hspan
  | separator hitem _ ih =>
    rcases List.mem_append.1 hspan with hspan | hspan
    · cases hitem.read
      cases hspan
    · obtain ⟨word, hword, hwritten, hbelongs⟩ := ih hspan
      exact ⟨word, hword, hwritten.mono (List.suffix_append _ _).isInfix, hbelongs⟩
  | @entry _ _ _ _ _ _ _ _ _ entry items hitem _ ih =>
    rcases List.mem_append.1 hspan with hspan | hspan
    · obtain ⟨word, hword, hwritten, hkind⟩ := hitem.noted_written hspan
      refine ⟨word, hword, hwritten.mono (List.prefix_append _ _).isInfix, .inr ⟨?_, ?_⟩⟩
      · obtain ⟨header, hfound⟩ | hkey := hkind
        · cases hfound
        · exact hkey
      · cases entry with
        | property member =>
          exact ⟨member, .inl List.mem_cons_self, hitem.noted_in_member span hspan⟩
        | other _ => cases hitem.read; cases hspan
        | nested _ => cases hitem.read
    · obtain ⟨word, hword, hwritten, hbelongs⟩ := ih hspan
      exact ⟨word, hword, hwritten.mono (List.suffix_append _ _).isInfix, hbelongs.cons entry⟩
  | @opened _ _ closing _ _ _ _ _ takenIn takenOut _ _ _ header inner items hitem _ _ _ _ ihInner
      ihRest =>
    rcases List.mem_append.1 hspan with hspan | hspan
    · obtain ⟨word, hword, hwritten, -⟩ := hitem.noted_written hspan
      refine ⟨word, hword, hwritten.mono (List.prefix_append _ _).isInfix, .inl ?_⟩
      cases hitem.read with
      | opened _ _ _ _ _ =>
        obtain ⟨attachment, hattached, rfl⟩ := List.mem_map.1 hspan
        refine ⟨header.closed inner closing.head.span, ?_, attachment, hattached, rfl⟩
        rw [Declaration.nestedIn_nested]
        exact List.mem_cons_self
    · rcases List.mem_append.1 hspan with hspan | hspan
      · obtain ⟨word, hword, hwritten, hbelongs⟩ := ihInner hspan
        have hwithin : takenIn <:+: takenIn ++ ([closing.head] ++ takenOut) :=
          (List.prefix_append _ _).isInfix
        exact ⟨word, hword, hwritten.mono (hwithin.trans (List.suffix_append _ _).isInfix),
          BelongsIn.nested hbelongs⟩
      · obtain ⟨word, hword, hwritten, hbelongs⟩ := ihRest hspan
        have hwithin : takenOut <:+: takenIn ++ ([closing.head] ++ takenOut) := by
          rw [← List.append_assoc]
          exact (List.suffix_append _ _).isInfix
        exact ⟨word, hword, hwritten.mono (hwithin.trans (List.suffix_append _ _).isInfix),
          hbelongs.cons _⟩

end ItemsRead

/-! ### Whole sources -/

/-- None of the tokens in front of a span or behind it lie inside it. -/
theorem Laid.filter_holds_eq_nil {source : List Char} {low high : Nat} {tokens : List Placed}
    {span : Span} (h : Laid source low tokens high)
    (hapart : high ≤ span.start ∨ span.stop ≤ low) :
    tokens.filter (fun placed => span.holds placed.span) = [] := by
  rw [List.filter_eq_nil_iff]
  intro placed hmem hholds
  have hlt := (h.sits hmem).start_lt_stop
  have hle := h.le_start hmem
  have hstop := h.stop_le hmem
  rw [Span.holds_iff] at hholds
  omega

/-- The tokens inside the span from one token to another are those from the one to the
    other. -/
theorem Laid.filter_holds {source : List Char} {low high : Nat} {front rest back : List Placed}
    {first last : Placed} {span : Span}
    (h : Laid source low (front ++ (first :: rest ++ back)) high)
    (hlast : (first :: rest).getLast? = some last) (hspan : span = first.span.upTo last.span.stop) :
    (front ++ (first :: rest ++ back)).filter (fun placed => span.holds placed.span) =
      first :: rest := by
  rw [Laid.append_iff, Laid.append_iff, endOf_eq_of_getLast? hlast] at h
  obtain ⟨hfront, hmiddle, hback⟩ := h
  have hinside : Laid source first.span.start (first :: rest) last.span.stop :=
    ⟨Nat.le_refl _, hmiddle.2⟩
  have hall : (first :: rest).filter (fun placed => span.holds placed.span) = first :: rest := by
    rw [List.filter_eq_self]
    intro placed hmem
    rw [Span.holds_iff, hspan]
    exact ⟨hinside.le_start hmem, hinside.stop_le hmem⟩
  have hfront : front.filter (fun placed => span.holds placed.span) = [] :=
    hfront.filter_holds_eq_nil (.inl (by rw [hspan]; exact hmiddle.1))
  have hback : back.filter (fun placed => span.holds placed.span) = [] :=
    hback.filter_holds_eq_nil (.inr (by rw [hspan]; exact Nat.le_refl _))
  rw [List.filter_append, List.filter_append, hfront, hall, hback, List.nil_append,
    List.append_nil]

/-- An attribute is written with its first two tokens and its last one also where operators
    inside it are not parted yet. -/
theorem Attribute.WrittenAs.of_refines {attr : Attribute} {segment back tokens : List Placed}
    (h : attr.WrittenAs segment) (hrefines : Refines tokens (segment ++ back)) :
    ∃ segment' back', attr.WrittenAs segment' ∧ tokens = segment' ++ back' := by
  obtain ⟨sign, name, rest, last, rfl, hsign, hname, hlast, hends, hspan⟩ := h
  obtain ⟨afterSign, rfl, hbehindSign⟩ := hrefines.exists_cons (by rw [hsign]; rfl)
  obtain ⟨afterName, rfl, hbehind⟩ := hbehindSign.exists_cons (by rw [hname]; rfl)
  rcases hends with ⟨hclose, hempty⟩ | ⟨rfl, rfl⟩
  · -- the last token is a parenthesis, and so neither of the first two
    rw [List.getLast?_cons_cons] at hlast
    obtain rfl | ⟨others, final, rfl⟩ := rest.eq_nil_or_concat
    · rw [List.getLast?_singleton, Option.some.injEq] at hlast
      rw [← hlast, hname] at hclose
      cases hclose
    · rw [List.concat_eq_append] at *
      rw [← List.cons_append, List.getLast?_concat, Option.some.injEq] at hlast
      subst hlast
      change Refines afterName (others ++ [final] ++ back) at hbehind
      rw [List.append_assoc] at hbehind
      obtain ⟨others', back', rfl, hothers, -⟩ :=
        hbehind.exists_append_cons (by rw [hclose]; rfl)
      refine ⟨sign :: name :: (others' ++ [final]), back', ?_, by simp⟩
      refine ⟨sign, name, others' ++ [final], final, rfl, hsign, hname,
        by rw [← List.cons_append, ← List.cons_append, List.getLast?_concat],
        .inl ⟨hclose, fun hnone => ?_⟩, hspan⟩
      obtain ⟨opening, hparts, hopening⟩ := hempty hnone
      obtain rfl : others = [opening] := List.append_inj_left' hparts rfl
      obtain ⟨rest', rfl, hrest⟩ := hothers.exists_cons (by rw [hopening]; rfl)
      cases hrest
      exact ⟨opening, rfl, hopening⟩
  · refine ⟨[sign, last], afterName, ?_, rfl⟩
    exact ⟨sign, last, [], last, rfl, hsign, hname, hlast, .inr ⟨rfl, rfl⟩, hspan⟩

theorem Span.WrittenIn.names {source : List Char} {low high : Nat} {tokens taken : List Placed}
    {request : Span} {word : String} (h : request.WrittenIn taken word)
    (hrefines : Refines tokens taken) (hlaid : Laid source low tokens high) :
    request.Names tokens word := by
  obtain ⟨attr, segment, hwritten, rfl, rfl, front, back, rfl⟩ := h
  obtain ⟨sign, rest, hsegment, hwhole⟩ : ∃ sign rest, segment = sign :: rest ∧
      sign.token.isWhole = true := by
    obtain ⟨sign, name, rest, -, hsegment, hsign, -⟩ := hwritten
    exact ⟨sign, name :: rest, hsegment, by rw [hsign]; rfl⟩
  rw [List.append_assoc, hsegment, List.cons_append] at hrefines
  obtain ⟨front', tokens', rfl, -, hrest⟩ := hrefines.exists_append_cons hwhole
  -- from the sign on, the tokens are those of the attribute and what follows it
  have hfrom : Refines (sign :: tokens') (segment ++ back) := by
    rw [hsegment]
    exact .keep sign hrest
  obtain ⟨segment', back', hwritten', htokens⟩ := hwritten.of_refines hfrom
  obtain ⟨sign', name', rest', last', rfl, hsign', hname', hlast', -, hspan⟩ := hwritten'
  rw [htokens] at hlaid ⊢
  exact ⟨sign', name', rest', hlaid.filter_holds hlast' hspan, hsign', by rw [hspan]; rfl, hname'⟩

/-- What the requests of an outline have to do with its tokens, with the items outside all
    declarations, and with its declarations. -/
structure Outline.Accounted (tokens : List Placed) (items : List BodyItem) (outline : Outline) :
    Prop where
  /-- The requests are strictly in order, and no two overlap. -/
  apart : outline.requests.Pairwise fun a b => a.start < b.start ∧ a.stop ≤ b.start
  named : ∀ request ∈ outline.requests, ∃ word ∈ requestNames, request.Names tokens word
  /-- The attachments of all declarations are among the requests, in order. -/
  attached : ((outline.allDeclarations.flatMap (·.attachments)).map (·.span)).Sublist
    outline.requests
  attached_once : ∀ declaration ∈ outline.allDeclarations,
    ∀ attachment ∈ declaration.attachments, outline.requests.count attachment.span = 1
  /-- A member holds as many requests as it fixes keys. -/
  keyed : ∀ declaration ∈ outline.allDeclarations, ∀ member ∈ declaration.members,
    outline.requests.countP member.span.holds = member.keyCount
  /-- A request that is no attachment and lies in no member of a declaration is a key, and lies
      in a member outside all declarations. -/
  remaining : ∀ request ∈ outline.requests,
    (∀ declaration ∈ outline.allDeclarations, ∀ attachment ∈ declaration.attachments,
      attachment.span ≠ request) →
    (∀ declaration ∈ outline.allDeclarations, ∀ member ∈ declaration.members,
      member.span.holds request = false) →
    request.Names tokens Request.codingKeyName ∧
      ∃ member, .property member ∈ items ∧ member.span.holds request = true
  /-- Such a member, too, holds as many requests as it fixes keys. -/
  remaining_keyed : ∀ member, .property member ∈ items →
    outline.requests.countP member.span.holds = member.keyCount

/-- **Every request of an outline is accounted for.**  Where there is none, expanding the
    source changes nothing. -/
theorem Outline.accounted_of_ofSource {source : String} {outline : Outline}
    (h : Outline.ofSource source.toList = .ok outline) :
    (∃ tokens items after, tokenize source.toList = .ok tokens ∧
      Reader.items source.toList (readingLimit source.toList) (.start tokens) =
        .ok (items, after) ∧
      outline.declarations = items.filterMap BodyItem.nested? ∧
      outline.Accounted tokens.body items) ∧
    (outline.requests = [] → ∀ layout, expand layout source = .ok ⟨source, []⟩) := by
  refine ⟨?_, fun hnone layout => expand_of_requests_eq_nil layout h hnone⟩
  obtain ⟨tokens, items, after, htokens, hitems, hpending, hdeclarations, hrequests⟩ :=
    Outline.ofSource_eq_ok h
  obtain ⟨taken, noted, hread⟩ := Reader.items_read (.start htokens) hitems
  obtain rfl : outline.requests = noted := hrequests.trans hread.takes.2.requests
  refine ⟨tokens, items, after, htokens, hitems, hdeclarations, ?_⟩
  have hdeep : outline.allDeclarations = Declaration.nestedIn items := by
    rw [Outline.allDeclarations, hdeclarations, Declaration.nestedIn_eq]
  have hrefines := hread.takes.2.pending
  rw [hpending, List.append_nil] at hrefines
  have hlaid := (tokenize_scanned htokens).laid
  have hapart := hread.noted_inOrder.1.pairwise hread.noted_solid
  have hdistinct : outline.requests.Nodup := hapart.imp fun hlt heq => by
    rw [heq] at hlt
    omega
  constructor
  case apart => exact hapart
  case named =>
    intro request hmem
    obtain ⟨word, hword, hwritten, -⟩ := hread.accounted hmem
    exact ⟨word, hword, hwritten.names hrefines hlaid⟩
  case attached =>
    rw [hdeep]
    exact hread.attachment_spans_sublist
  case attached_once =>
    intro declaration hmem attachment hattached
    rw [hdeep] at hmem
    exact List.count_eq_one_of_mem hdistinct
      (hread.attachments_noted declaration hmem attachment hattached)
  case keyed =>
    intro declaration hmem member hmember
    rw [hdeep] at hmem
    exact (hread.keyed (.inr ⟨declaration, hmem, hmember⟩)).count
  case remaining =>
    intro request hmem hattached hmembers
    obtain ⟨word, -, hwritten, hbelongs⟩ := hread.accounted hmem
    rw [hdeep] at hattached hmembers
    rcases hbelongs with ⟨declaration, hin, attachment, hattachment, hspan⟩ |
      ⟨rfl, member, houtside | ⟨declaration, hin, hmember⟩, hholds⟩
    · exact absurd hspan (hattached declaration hin attachment hattachment)
    · exact ⟨hwritten.names hrefines hlaid, member, houtside, hholds⟩
    · rw [hmembers declaration hin member hmember] at hholds
      cases hholds
  case remaining_keyed =>
    intro member hmember
    exact (hread.keyed (.inl hmember)).count

def keyedMembers : String :=
  "@CodingKey(name: \"a\") let a = 1\n@PublicInit @CodingKeys\n" ++
    "struct S \x7b @objc @CodingKey(name: \"k\") var b: Int \x7d"

theorem Outline.accounted_keyed_members :
    ∃ outline, Outline.ofSource keyedMembers.toList = .ok outline ∧
      outline.requests.length = 4 ∧
      ∃ tokens items after, tokenize keyedMembers.toList = .ok tokens ∧
        Reader.items keyedMembers.toList (readingLimit keyedMembers.toList) (.start tokens) =
          .ok (items, after) ∧
        outline.Accounted tokens.body items := by
  have hread : (Outline.ofSource keyedMembers.toList).toOption.map (·.requests.length) =
      some 4 := by decide +kernel
  cases h : Outline.ofSource keyedMembers.toList with
  | error cause =>
    rw [h] at hread
    cases hread
  | ok outline =>
    rw [h] at hread
    obtain ⟨⟨tokens, items, after, htokens, hitems, -, haccounted⟩, -⟩ :=
      Outline.accounted_of_ofSource h
    exact ⟨outline, rfl, Option.some.inj hread, tokens, items, after, htokens, hitems, haccounted⟩

end Memberwise
