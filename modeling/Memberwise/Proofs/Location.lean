/-
  Memberwise/Proofs/Location.lean
  ===============================
  **Every node of an outline lies where its span says.**

  A declaration is located if its body starts and ends with a brace and everything
  else lies where it belongs: the attachments before the body, the items between
  the braces, in order, and what a member is made of in the member.  Items that
  are read one after another lie one behind another, so one induction on the steps
  in which they are read gives the places at all depths.
-/
import Memberwise.Expansion
import Memberwise.Proofs.Declarations

namespace Memberwise

/-! ### Located declarations -/

def BodyItem.span : BodyItem → Span
  | .property member => member.span
  | .nested declaration => declaration.span
  | .other span => span

/-- The span covers a text that starts with an `@`. -/
def Span.Signed (source : List Char) (span : Span) : Prop :=
  ∃ text, span.Covers source ('@' :: text)

theorem Span.Signed.lies {source : List Char} {span : Span} (h : span.Signed source) :
    span.Lies source := by
  obtain ⟨text, hcovers⟩ := h
  exact ⟨_, hcovers⟩

structure Declaration.Located (source : List Char) (declaration : Declaration) : Prop where
  lies : declaration.span.Lies source
  /-- The body starts and ends with a brace. -/
  body : ∃ text, declaration.body.Covers source ('\x7b' :: text ++ ['\x7d'])
  /-- The body lies in the declaration and ends with it. -/
  within : declaration.span.start ≤ declaration.body.start ∧
    declaration.body.stop = declaration.span.stop
  /-- The attachments lie in front of the body, in order. -/
  attachments : Span.InOrder declaration.span.start (declaration.attachments.map (·.span))
    declaration.body.start
  attachments_signed : ∀ attachment ∈ declaration.attachments, attachment.span.Signed source
  /-- The items lie between the two braces, in order. -/
  items : Span.InOrder (declaration.body.start + 1) (declaration.items.map BodyItem.span)
    (declaration.body.stop - 1)
  items_lie : ∀ item ∈ declaration.items, item.span.Lies source
  members : ∀ member ∈ declaration.members, member.Located source

structure Outline.Located (source : List Char) (outline : Outline) : Prop where
  /-- All declarations are located, at any depth. -/
  declarations : ∀ declaration ∈ outline.allDeclarations, declaration.Located source
  inOrder : Span.InOrder 0 (outline.declarations.map (·.span)) (Text.width source)
  requests : Span.InOrder 0 outline.requests (Text.width source)
  requests_signed : ∀ request ∈ outline.requests, request.Signed source

/-! ### Declarations at any depth -/

namespace Declaration

theorem withNested_eq (declaration : Declaration) :
    declaration.withNested = declaration :: nestedIn declaration.items := by
  cases declaration
  rw [withNested]

theorem nestedIn_nested (declaration : Declaration) (items : List BodyItem) :
    nestedIn (.nested declaration :: items) =
      declaration :: (nestedIn declaration.items ++ nestedIn items) := by
  rw [nestedIn, withNested_eq, List.cons_append]

theorem nestedIn_eq (items : List BodyItem) :
    nestedIn items = (items.filterMap BodyItem.nested?).flatMap withNested := by
  induction items with
  | nil => rw [nestedIn]; rfl
  | cons item rest ih =>
    cases item with
    | property _ => rw [nestedIn, ih]; rfl
    | nested inner => rw [nestedIn, ih]; rfl
    | other _ => rw [nestedIn, ih]; rfl

theorem nested_spans_sublist (items : List BodyItem) :
    ((items.filterMap BodyItem.nested?).map (·.span)).Sublist (items.map BodyItem.span) := by
  induction items with
  | nil => exact List.Sublist.refl _
  | cons item rest ih =>
    cases item with
    | property _ => exact ih.cons _
    | nested inner => exact ih.cons_cons _
    | other _ => exact ih.cons _

theorem mem_members {declaration : Declaration} {member : Member} :
    member ∈ declaration.members ↔ .property member ∈ declaration.items := by
  unfold members
  rw [List.mem_filterMap]
  constructor
  · rintro ⟨item, hitem, hsome⟩
    cases item <;> cases hsome
    exact hitem
  · intro hitem
    exact ⟨_, hitem, rfl⟩

end Declaration

/-! ### Attributes -/

section Attributes

variable {source : List Char} {attrs : List Attribute} {segments : List (List Placed)}
  {low high : Nat}

theorem Attribute.WrittenAs.laid {attr : Attribute} {tokens : List Placed}
    (h : attr.WrittenAs tokens) (hlaid : Laid source low tokens high) :
    low ≤ attr.span.start ∧ attr.span.stop = endOf low tokens ∧
      attr.span.Signed source := by
  obtain ⟨sign, name, rest, last, rfl, hsign, -, hlast, -, hspan⟩ := h
  have hend : endOf low (sign :: name :: rest) = last.span.stop := endOf_eq_of_getLast? hlast
  have hlastSits := hlaid.sits (List.mem_of_getLast? hlast)
  have hwhole := Laid.append_iff.1 (by simpa using hlaid :
    Laid source low (sign :: name :: rest ++ []) high)
  obtain ⟨hlow, ⟨-, hsignCovers⟩, hrest⟩ := hwhole.1
  have hle := hrest.le
  rw [hspan]
  refine ⟨hlow, hend.symm, ?_⟩
  rw [hsign] at hsignCovers
  exact hsignCovers.extend hlastSits.lies.boundary.2 (by omega)

theorem attributes_inOrder (h : List.Forall₂ Attribute.WrittenAs attrs segments)
    (hlaid : Laid source low segments.flatten high) :
    Span.InOrder low (attrs.map (·.span)) high ∧ ∀ attr ∈ attrs, attr.span.Signed source := by
  induction h generalizing low with
  | nil => exact ⟨hlaid, by simp⟩
  | cons hwritten _ ih =>
    rw [List.flatten_cons, Laid.append_iff] at hlaid
    obtain ⟨hstart, hstop, text, hcovers⟩ := hwritten.laid hlaid.1
    obtain ⟨horder, hall⟩ := ih hlaid.2
    refine ⟨⟨hstart, hcovers.start_le_stop, by rw [hstop]; exact horder⟩, ?_⟩
    rintro attr (_ | ⟨_, hmem⟩)
    · exact ⟨text, hcovers⟩
    · exact hall attr hmem

theorem attachment_spans {attached : List Attachment}
    (h : List.Forall₂ Attachment.Of attrs attached) :
    attached.map (·.span) = attrs.map (·.span) := by
  induction h with
  | nil => rfl
  | cons hof _ ih => rw [List.map_cons, List.map_cons, hof.2, ih]

end Attributes

/-! ### Items -/

theorem Ready.closingBrace_stop {source : List Char} {stream : TokenStream}
    (hready : Ready source stream) (hbrace : stream.head.token = .closing .curly) :
    stream.head.span.stop = stream.head.span.start + 1 := by
  obtain ⟨_, -, hsits⟩ := hready.pending_eq (by rw [hbrace]; simp)
  exact hsits.stop_eq (c := '\x7d') (by rw [hbrace]; rfl) rfl

namespace ItemTaken

variable {source : List Char} {stream after : TokenStream} {found : Item}
  {attrs : List Attribute} {segments : List (List Placed)} {tail : List Placed}
  {noted : List Span}

/-- The attributes of an item lie one behind another, and the item goes on behind
    them. -/
theorem attributes_laid (h : ItemTaken source stream after found attrs segments tail noted)
    (hne : tail ≠ []) :
    ∃ middle, Span.InOrder stream.head.span.start (attrs.map (·.span)) middle ∧
      (∀ attr ∈ attrs, attr.span.Signed source) ∧ Laid source middle tail after.readTo := by
  have hlaid := h.ready.laid_from_head h.takes (by simp [hne])
  rw [Laid.append_iff] at hlaid
  obtain ⟨horder, hall⟩ := attributes_inOrder h.written hlaid.1
  exact ⟨_, horder, hall, hlaid.2⟩

theorem noted_sublist (h : ItemTaken source stream after found attrs segments tail noted) :
    noted.Sublist (attrs.map (·.span)) := by
  cases h.read with
  | separator => exact List.nil_sublist _
  | other _ => exact List.nil_sublist _
  | property _ _ _ _ => exact List.filter_sublist.map _
  | opened _ _ _ _ hattached =>
    rw [attachment_spans hattached]
    exact List.filter_sublist.map _

theorem noted_inOrder (h : ItemTaken source stream after found attrs segments tail noted) :
    Span.InOrder stream.head.span.start noted after.head.span.start ∧
      ∀ span ∈ noted, span.Signed source := by
  have hafter := (h.ready.taken h.takes).2
  by_cases hne : tail = []
  · -- then nothing is noted
    have hnil : noted = [] := by
      cases h.read with
      | separator => rfl
      | other _ => rfl
      | property _ _ _ _ => cases hne
      | opened _ _ _ _ _ => cases hne
    subst hnil
    exact ⟨h.ready.head_start_le h.takes, by simp⟩
  · obtain ⟨middle, horder, hsigned, hlaid⟩ := h.attributes_laid hne
    have hle := hlaid.le
    have hhead := hafter.readTo_le_head
    refine ⟨(horder.sublist h.noted_sublist).mono (Nat.le_refl _) (by omega), ?_⟩
    intro span hspan
    obtain ⟨attr, hattr, rfl⟩ := List.mem_map.1 (h.noted_sublist.mem hspan)
    exact hsigned attr hattr

theorem header_start {header : Header}
    (h : ItemTaken source stream after (.opened header) attrs segments tail noted) :
    header.start = stream.head.span := by
  cases h.read with
  | opened _ _ _ hstart _ => exact hstart

theorem readTo_header {header : Header}
    (h : ItemTaken source stream after (.opened header) attrs segments tail noted) :
    after.readTo = header.brace.start + 1 := by
  have hlaid := (h.ready.taken h.takes).1
  have hreadTo := h.takes.readTo
  cases h.read with
  | @opened lead brace rest _ _ hbrace hspan _ _ =>
    have hsits : brace.Sits source := hlaid.sits (by simp)
    have hstop := hsits.stop_eq (c := '\x7b') (by rw [hbrace]; rfl) rfl
    rw [hreadTo, hspan, ← hstop]
    simp

/-- An item that is read whole lies between where it began and where the next item
    begins. -/
theorem entry_located {item : BodyItem}
    (h : ItemTaken source stream after (.entry item) attrs segments tail noted) :
    Span.InOrder stream.head.span.start [item.span] after.head.span.start ∧
      item.span.Lies source ∧ ∀ member, item = .property member → member.Located source := by
  have hlies := h.ready.head_lies
  have hforward := h.ready.head_start_le h.takes
  have hhead := (h.ready.taken h.takes).2.readTo_le_head
  generalize hfound : Item.entry item = found at h
  cases h.read with
  | separator => cases hfound
  | opened _ _ _ _ _ => cases hfound
  | other hspan =>
    cases hfound
    rcases hspan with rfl | ⟨hne, rfl⟩
    · exact ⟨⟨Nat.le_refl _, Nat.le_refl _, hforward⟩, hlies.empty, by simp⟩
    · have hlt := h.ready.head_lt_readTo h.takes (by simp [hne])
      exact ⟨⟨Nat.le_refl _, Nat.le_of_lt hlt, hhead⟩, h.ready.upTo_lies h.takes (by simp [hne]),
        by simp⟩
  | property hlead hmarkers hspan hlocated =>
    cases hfound
    have hlt := h.ready.head_lt_readTo h.takes (by simp)
    simp only [BodyItem.span, hspan]
    refine ⟨⟨Nat.le_refl _, Nat.le_of_lt hlt, hhead⟩, h.ready.upTo_lies h.takes (by simp), ?_⟩
    rintro _ ⟨⟩
    exact hlocated

theorem nestedIn_entry {item : BodyItem}
    (h : ItemTaken source stream after (.entry item) attrs segments tail noted)
    (items : List BodyItem) :
    Declaration.nestedIn (item :: items) = Declaration.nestedIn items := by
  cases h.read with
  | other _ => rw [Declaration.nestedIn]
  | property _ _ _ _ => rw [Declaration.nestedIn]

/-- A declaration is located if its items lie between its braces. -/
theorem closed_located {closing : TokenStream} {header : Header} {inner : List BodyItem}
    (h : ItemTaken source stream after (.opened header) attrs segments tail noted)
    (hclosing : Ready source closing) (hbrace : closing.head.token = .closing .curly)
    (hitems : Span.InOrder after.head.span.start (inner.map BodyItem.span)
      closing.head.span.start)
    (hlies : ∀ item ∈ inner, item.span.Lies source)
    (hmembers : ∀ member, .property member ∈ inner → member.Located source) :
    (header.closed inner closing.head.span).Located source := by
  have hhead := (h.ready.taken h.takes).2.readTo_le_head
  obtain ⟨_, -, hclose⟩ := hclosing.pending_eq (by rw [hbrace]; simp)
  have hcloseStop := hclosing.closingBrace_stop hbrace
  have hcloseCovers := hclose.2
  rw [hbrace] at hcloseCovers
  generalize hfound : Item.opened header = found at h
  cases h.read with
  | separator => cases hfound
  | other _ => cases hfound
  | property _ _ _ _ => cases hfound
  | @opened lead brace rest _ hlead hopen hspan hstart hattached =>
    cases hfound
    obtain ⟨middle, horder, hattrs, hlaid⟩ := h.attributes_laid (by simp)
    rw [Laid.append_iff] at hlaid
    obtain ⟨hfront, hbraceStart, hbraceSits, -⟩ := hlaid
    have hreadTo := h.readTo_header
    rw [hspan] at hreadTo
    have hbraceStop := hbraceSits.stop_eq (c := '\x7b') (by rw [hopen]; rfl) rfl
    have hbraceCovers := hbraceSits.2
    rw [hopen] at hbraceCovers
    have hfrontLe := hfront.le
    have horderLe := horder.le
    have hspans := attachment_spans hattached
    have hstop : closing.head.span.stop - 1 = closing.head.span.start := by omega
    have hitemsLe := hitems.le
    constructor
    case lies =>
      simp only [Header.closed, hstart]
      exact h.ready.head_lies.upTo hclose.lies.boundary.2 (by omega)
    case body =>
      simp only [Header.closed, hspan]
      exact hbraceCovers.join hcloseCovers (by omega)
    case within =>
      simp only [Header.closed, hstart, hspan, Span.upTo]
      exact ⟨by omega, trivial⟩
    case attachments =>
      simp only [Header.closed, hstart, hspan, Span.upTo, hspans]
      exact (horder.sublist (List.filter_sublist.map _)).mono (Nat.le_refl _) (by omega)
    case attachments_signed =>
      intro attachment hmem
      have hmap := List.mem_map_of_mem (f := (·.span)) hmem
      rw [show (header.closed inner closing.head.span).attachments = header.attachments from rfl,
        hspans] at hmap
      obtain ⟨attr, hattr, heq⟩ := List.mem_map.1 hmap
      rw [← heq]
      exact hattrs attr (List.mem_filter.1 hattr).1
    case items =>
      simp only [Header.closed, hspan, Span.upTo, hstop]
      exact hitems.mono (by omega) (Nat.le_refl _)
    case items_lie => exact hlies
    case members =>
      intro member hmember
      exact hmembers member (Declaration.mem_members.1 hmember)

end ItemTaken

/-! ### Bodies -/

namespace ItemsRead

variable {source : List Char} {stream after : TokenStream} {taken : List Placed}
  {noted : List Span} {items : List BodyItem}

theorem noted_inOrder (h : ItemsRead source stream taken noted items after) :
    Span.InOrder stream.head.span.start noted after.head.span.start ∧
      ∀ span ∈ noted, span.Signed source := by
  induction h with
  | stop _ _ => exact ⟨Nat.le_refl _, by simp⟩
  | separator hitem _ ih =>
    obtain ⟨horder, hsigned⟩ := hitem.noted_inOrder
    exact ⟨horder.append ih.1, List.forall_mem_append.2 ⟨hsigned, ih.2⟩⟩
  | entry hitem _ ih =>
    obtain ⟨horder, hsigned⟩ := hitem.noted_inOrder
    exact ⟨horder.append ih.1, List.forall_mem_append.2 ⟨hsigned, ih.2⟩⟩
  | opened hitem hinner _ hclose _ ihInner ihRest =>
    obtain ⟨horder, hsigned⟩ := hitem.noted_inOrder
    have hclosing := hinner.ready_after.head_start_le hclose
    refine ⟨horder.append (ihInner.1.append (ihRest.1.mono hclosing (Nat.le_refl _))), ?_⟩
    exact List.forall_mem_append.2 ⟨hsigned, List.forall_mem_append.2 ⟨ihInner.2, ihRest.2⟩⟩

/-- Items that are read one after another lie one behind another, and all
    declarations in them are located. -/
theorem located (h : ItemsRead source stream taken noted items after) :
    Span.InOrder stream.head.span.start (items.map BodyItem.span) after.head.span.start ∧
      (∀ item ∈ items, item.span.Lies source) ∧
      (∀ member, .property member ∈ items → member.Located source) ∧
      ∀ declaration ∈ Declaration.nestedIn items, declaration.Located source := by
  induction h with
  | stop _ _ => exact ⟨Nat.le_refl _, by simp, by simp, by simp [Declaration.nestedIn]⟩
  | separator hitem _ ih =>
    obtain ⟨horder, hlies, hmembers, hnested⟩ := ih
    have hforward := hitem.ready.head_start_le hitem.takes
    exact ⟨horder.mono hforward (Nat.le_refl _), hlies, hmembers, hnested⟩
  | entry hitem _ ih =>
    obtain ⟨horder, hlies, hmembers, hnested⟩ := ih
    obtain ⟨hfirst, hfirstLies, hfirstMember⟩ := hitem.entry_located
    refine ⟨hfirst.append horder, List.forall_mem_cons.2 ⟨hfirstLies, hlies⟩, ?_, ?_⟩
    · intro member hmem
      rcases List.mem_cons.1 hmem with heq | hmem
      · exact hfirstMember member heq.symm
      · exact hmembers member hmem
    · rwa [hitem.nestedIn_entry]
  | @opened _ _ closing _ _ _ _ _ _ _ _ _ _ header inner items hitem hinner hbrace hclose _
      ihInner ihRest =>
    obtain ⟨horderIn, hliesIn, hmembersIn, hnestedIn⟩ := ihInner
    obtain ⟨horder, hlies, hmembers, hnested⟩ := ihRest
    have hlocated := hitem.closed_located hinner.ready_after hbrace horderIn hliesIn hmembersIn
    have hstart : header.start = _ := hitem.header_start
    have hwithin := hlocated.within
    have hitems := hlocated.items.le
    have hreadTo := (hinner.ready_after.taken hclose).2.readTo_le_head
    rw [hclose.readTo] at hreadTo
    refine ⟨⟨?_, ?_, ?_⟩, List.forall_mem_cons.2 ⟨hlocated.lies, hlies⟩, ?_, ?_⟩
    · simp only [BodyItem.span, Header.closed, hstart]
      exact Nat.le_refl _
    · simp only [BodyItem.span]
      omega
    · exact horder.mono hreadTo (Nat.le_refl _)
    · intro member hmem
      rcases List.mem_cons.1 hmem with heq | hmem
      · cases heq
      · exact hmembers member hmem
    · rw [Declaration.nestedIn_nested, List.forall_mem_cons, List.forall_mem_append]
      exact ⟨hlocated, hnestedIn, hnested⟩

end ItemsRead

/-! ### Whole sources -/

/-- **Every outline that is read is located.** -/
theorem Outline.located_of_ofSource {source : List Char} {outline : Outline}
    (h : Outline.ofSource source = .ok outline) : outline.Located source := by
  obtain ⟨tokens, taken, items, after, htokens, hread, hpending, hdeclarations⟩ :=
    Outline.ofSource_read h
  obtain ⟨horder, -, -, hnested⟩ := hread.located
  obtain ⟨hrequests, hsigned⟩ := hread.noted_inOrder
  have hend : after.head.span.start = Text.width source := by
    rw [TokenStream.head, hpending, List.headD_nil, hread.ready_after.finish_span]
    rfl
  rw [hend] at horder hrequests
  constructor
  case declarations =>
    rw [Outline.allDeclarations, hdeclarations, ← Declaration.nestedIn_eq]
    exact hnested
  case inOrder =>
    have hsub : (outline.declarations.map (·.span)).Sublist (items.map BodyItem.span) := by
      rw [hdeclarations]
      exact Declaration.nested_spans_sublist items
    exact (horder.sublist hsub).mono (Nat.zero_le _) (Nat.le_refl _)
  case requests => exact hrequests.mono (Nat.zero_le _) (Nat.le_refl _)
  case requests_signed => exact hsigned

/-- A declaration with a member, whose type is parted from an `=` and whose
    initializer is an array, and with a declaration inside. -/
def nestedStruct : String :=
  "@PublicInit\nstruct S \x7b let a: [Int]?= [1, 2]; enum E \x7b\x7d \x7d"

theorem Outline.located_array_and_nested :
    ∃ outline, Outline.ofSource nestedStruct.toList = .ok outline ∧
      outline.allDeclarations.length = 2 ∧ outline.Located nestedStruct.toList := by
  have hread : (Outline.ofSource nestedStruct.toList).toOption.map (·.allDeclarations.length) =
      some 2 := by decide +kernel
  cases h : Outline.ofSource nestedStruct.toList with
  | error cause =>
    rw [h] at hread
    cases hread
  | ok outline =>
    rw [h] at hread
    exact ⟨outline, rfl, Option.some.inj hread, Outline.located_of_ofSource h⟩

end Memberwise
