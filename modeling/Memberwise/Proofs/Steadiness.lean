/-
  Memberwise/Proofs/Steadiness.lean
  =================================
  **Expanding a steady source once is expanding it for good.**

  An expanded text is stable if it can be read and requests nothing, but that is said of
  the text.  A source is steady if each of its changes keeps to itself: no token in front
  of one asks for more, no item without tokens ends a body that something is put into,
  and what is put in reads as items.  This can be decided of the source, and its expanded
  text is stable then.
-/
import Memberwise.Proofs.Accounting
import Memberwise.Proofs.Replacing

namespace Memberwise

/-! ### The marks of a source -/

/-- The characters of a source that stand for a mark: an attribute, or a closing brace. -/
def Mark.span : Mark → Span
  | request span => span
  | answer declaration => ⟨declaration.body.stop - 1, declaration.body.stop - 1 + 1, 0, 0⟩

theorem ItemFound.noted_inOrder {source : List Char} {stream after : TokenStream} {found : Item}
    {taken : List Placed} {noted : List Span}
    (h : ItemFound source stream after found taken noted) :
    Span.InOrder stream.head.span.start ((noted.map Mark.request).map Mark.span)
      after.head.span.start := by
  obtain ⟨attrs, segments, tail, rfl, htaken⟩ := h.taken
  rw [List.map_map]
  simpa [Mark.span, Function.comp_def] using htaken.noted_inOrder.1

namespace ItemsMarked

variable {source : List Char} {stream after : TokenStream} {taken : List Placed}
  {marks : List Mark} {items : List BodyItem}

/-- Marks stand one behind another. -/
theorem inOrder (h : ItemsMarked source stream taken marks items after) :
    Span.InOrder stream.head.span.start (marks.map Mark.span) after.head.span.start := by
  induction h with
  | stop _ _ => exact Nat.le_refl _
  | separator hitem _ ih | entry hitem _ ih =>
    rw [List.map_append]
    exact hitem.noted_inOrder.append ih
  | @opened _ inside closing outside _ _ _ _ _ _ _ header inner _ hitem hinner hbrace hclose hrest
      ihInner ihRest =>
    obtain ⟨-, -, hcloses⟩ := Reader.next_takes hinner.ready_after (by rw [hbrace]; simp) hclose
    have hstop := hinner.ready_after.closingBrace_stop hbrace
    have hle := hrest.ready.readTo_le_head
    rw [hcloses.readTo, endOf_cons, endOf_nil, hstop] at hle
    have hown : Span.InOrder closing.head.span.start
        ((header.closed inner closing.head.span).marks.map Mark.span) outside.head.span.start := by
      unfold Declaration.marks
      split
      · show closing.head.span.start ≤ outside.head.span.start
        omega
      · simp only [List.map_cons, List.map_nil, Mark.span, Header.closed, Span.upTo, hstop,
          Nat.add_sub_cancel]
        exact ⟨Nat.le_refl _, Nat.le_succ _, hle⟩
    rw [List.map_append, List.map_append, List.map_append]
    exact hitem.noted_inOrder.append (ihInner.append (hown.append ihRest))

/-- The closing brace at a mark is among the tokens. -/
theorem exists_brace (h : ItemsMarked source stream taken marks items after)
    {declaration : Declaration} (hmem : .answer declaration ∈ marks) :
    ∃ brace ∈ taken, brace.token = .closing .curly ∧
      brace.span.start = declaration.body.stop - 1 := by
  have hrequests : ∀ {noted : List Span}, Mark.answer declaration ∉ noted.map .request := by
    simp
  induction h with
  | stop _ _ => cases hmem
  | separator _ _ ih | entry _ _ ih =>
    obtain ⟨brace, hbrace, hkind⟩ := ih ((List.mem_append.1 hmem).resolve_left hrequests)
    exact ⟨brace, List.mem_append_right _ hbrace, hkind⟩
  | @opened _ _ closing _ _ _ _ _ _ _ _ header inner _ _ hinner hbrace _ _ ihInner ihRest =>
    rcases List.mem_append.1 ((List.mem_append.1 hmem).resolve_left hrequests) with hin | hmem
    · obtain ⟨brace, hbrace, hkind⟩ := ihInner hin
      exact ⟨brace, by simp [hbrace], hkind⟩
    rcases List.mem_append.1 hmem with hown | hout
    · obtain ⟨heq, -⟩ := Declaration.mem_marks hown
      cases heq
      have hstop := hinner.ready_after.closingBrace_stop hbrace
      refine ⟨closing.head, by simp, hbrace, ?_⟩
      simp only [Header.closed, Span.upTo]
      omega
    · obtain ⟨brace, hbrace, hkind⟩ := ihRest hout
      exact ⟨brace, by simp [hbrace], hkind⟩

end ItemsMarked

/-! ### Marks among the tokens -/

/-- No mark of a source stands between two neighbouring tokens of which the first is not clear
    of what is changed there. -/
def Abut (layout : Layout) (source : List Char) (marks : List Mark) (p q : Placed) : Prop :=
  ∀ mark ∈ marks, mark.place = q.span.start → (mark.edit layout source).Clears p

instance (layout : Layout) (source : List Char) (marks : List Mark) (p q : Placed) :
    Decidable (Abut layout source marks p q) :=
  inferInstanceAs (Decidable (∀ mark ∈ marks, mark.place = q.span.start →
    (mark.edit layout source).Clears p))

/-- What the marks behind a place have to do with the tokens there.  The first token is no
    closing brace unless there is a token in front of it. -/
structure Mark.Placeable (layout : Layout) (source : List Char) (all : List Mark)
    (previous? : Option Placed) (tokens : List Placed) (marks : List Mark) : Prop where
  inOrder : (marks.map Mark.span).Pairwise fun a b => a.start < b.start ∧ a.stop ≤ b.start
  braces : ∀ declaration, .answer declaration ∈ marks → ∃ brace ∈ tokens,
    brace.token = .closing .curly ∧ brace.span.start = declaration.body.stop - 1
  answers : ∀ declaration, .answer declaration ∈ marks → declaration.Located source ∧
    declaration.generated ≠ [] ∧ legible (declaration.filling layout source) = true
  mem : ∀ mark ∈ marks, mark ∈ all
  abut : (previous?.toList ++ tokens).IsChain (Abut layout source all)
  opens : previous? = none → ∀ first ∈ tokens.head?, first.token ≠ .closing .curly
  settled : ∀ last ∈ (previous?.toList ++ tokens).getLast?, last.token.asksForMore = false

section

variable {layout : Layout} {source : List Char} {all marks : List Mark}
  {before? previous? : Option Placed} {tokens kept : List Placed} {spans : List Span}
  {low high : Nat}

/-- Marks whose places are not in front of some tokens, with the token in front of them. -/
theorem Mark.Placeable.behind {back : List Placed} {later : List Mark} (front : List Placed)
    (previous'? : Option Placed)
    (h : Mark.Placeable layout source all previous? (front ++ back) marks)
    (hlater : later.Sublist marks)
    (hplace : ∀ declaration, .answer declaration ∈ later → ∀ placed ∈ front,
      placed.span.start ≠ declaration.body.stop - 1)
    (hparts : (previous'?.toList ++ back) <:+ (previous?.toList ++ (front ++ back)))
    (hne : previous'?.toList ++ back ≠ [])
    (hopens : previous'? = none → ∀ first ∈ back.head?, first.token ≠ .closing .curly) :
    Mark.Placeable layout source all previous'? back later where
  inOrder := h.inOrder.sublist (hlater.map _)
  braces := by
    intro declaration hmem
    obtain ⟨brace, hbrace, htoken, hstart⟩ := h.braces declaration (hlater.mem hmem)
    rcases List.mem_append.1 hbrace with hfront | hback
    · exact absurd hstart (hplace declaration hmem brace hfront)
    · exact ⟨brace, hback, htoken, hstart⟩
  answers := fun declaration hmem => h.answers declaration (hlater.mem hmem)
  mem := fun mark hmem => h.mem mark (hlater.mem hmem)
  abut := h.abut.suffix hparts
  opens := hopens
  settled := by
    obtain ⟨more, hmore⟩ := hparts
    intro last hlast
    refine h.settled last ?_
    rwa [← hmore, List.getLast?_append_of_ne_nil _ hne]

/-- No mark stands in front of the first token. -/
theorem Cut.le_place_head {first : Placed} (h : Cut before? (first :: tokens) spans kept)
    (hlaid : Laid source low (first :: tokens) high) (hspans : spansOf marks = spans)
    (hplaceable : Mark.Placeable layout source all previous? (first :: tokens) marks) :
    ∀ mark ∈ marks, first.span.start ≤ mark.place := by
  have hfrom : Laid source first.span.start (first :: tokens) high := ⟨Nat.le_refl _, hlaid.2⟩
  intro mark hmark
  cases mark with
  | request span =>
    exact h.le_start hfrom span (hspans ▸ List.mem_filterMap.2 ⟨_, hmark, rfl⟩)
  | answer declaration =>
    obtain ⟨brace, hbrace, -, hstart⟩ := hplaceable.braces declaration hmark
    exact (hfrom.le_start hbrace).trans (Nat.le_of_eq hstart)

@[simp] theorem Mark.span_start (mark : Mark) : mark.span.start = mark.place := by
  cases mark <;> rfl

/-- The marks behind the first one are at other places. -/
theorem Mark.Placeable.place_lt {mark : Mark} {later : List Mark}
    (h : Mark.Placeable layout source all previous? tokens (mark :: later)) :
    ∀ other ∈ later, mark.place < other.place ∧ mark.span.stop ≤ other.place := by
  intro other hother
  simpa using (List.pairwise_cons.1 h.inOrder).1 _ (List.mem_map_of_mem hother)

/-- A request is cut out at the first mark. -/
theorem Cut.head_mark {sign : Placed} {span : Span}
    (hspans : spansOf marks = span :: spans) (hspan : span.start = sign.span.start)
    (hplaces : ∀ mark ∈ marks, sign.span.start ≤ mark.place)
    (hplaceable : Mark.Placeable layout source all previous? tokens marks) :
    ∃ later, marks = .request span :: later ∧ spansOf later = spans := by
  cases marks with
  | nil => cases hspans
  | cons mark later =>
    cases mark with
    | request first =>
      obtain ⟨rfl, hlater⟩ := List.cons.inj hspans
      exact ⟨later, rfl, hlater⟩
    | answer declaration =>
      have hin : span ∈ spansOf later := by
        rw [show spansOf later = span :: spans from hspans]
        exact List.mem_cons_self
      obtain ⟨mark, hmark, hspan'⟩ := List.mem_filterMap.1 hin
      cases mark with
      | answer _ => cases hspan'
      | request first =>
        cases hspan'
        have hlt := (hplaceable.place_lt _ hmark).1
        have hle := hplaces _ List.mem_cons_self
        rw [show (Mark.request span).place = span.start from rfl] at hlt
        omega

/-- Without tokens, there are no marks. -/
theorem Mark.Placeable.eq_nil (h : Mark.Placeable layout source all previous? [] marks)
    (hspans : spansOf marks = []) : marks = [] := by
  refine List.eq_nil_iff_forall_not_mem.2 fun mark hmark => ?_
  cases mark with
  | request span =>
    have hin : span ∈ spansOf marks := List.mem_filterMap.2 ⟨_, hmark, rfl⟩
    rw [hspans] at hin
    cases hin
  | answer declaration =>
    obtain ⟨brace, hbrace, -⟩ := h.braces declaration hmark
    cases hbrace

/-- A closing brace that something is put in front of has a token in front of it. -/
theorem Mark.Placeable.fills {placed : Placed} {declaration : Declaration} {later : List Mark}
    (h : Mark.Placeable layout source all previous? (placed :: tokens)
      (.answer declaration :: later))
    (hlaid : Laid source low (placed :: tokens) high)
    (hplace : declaration.body.stop - 1 = placed.span.start) :
    ∃ previous, previous? = some previous ∧ declaration.Fills layout source previous placed := by
  obtain ⟨brace, hbrace, htoken, hstart⟩ := h.braces declaration List.mem_cons_self
  have heq : brace = placed := by
    rcases List.mem_cons.1 hbrace with rfl | hbrace
    · rfl
    · have hle := hlaid.2.2.le_start hbrace
      have hlt := hlaid.2.1.start_lt_stop
      omega
  subst heq
  cases previous? with
  | none => exact absurd htoken (h.opens rfl brace rfl)
  | some previous =>
    obtain ⟨hlocated, hgenerated, hlegible⟩ := h.answers declaration List.mem_cons_self
    have hclear := (List.isChain_cons_cons.1 h.abut).1 _ (h.mem _ List.mem_cons_self) hplace
    exact ⟨previous, rfl, htoken, hplace.symm, hlocated, hgenerated, hlegible, hclear⟩

/-- The requests are cut out at their marks, and the other marks stand at closing braces. -/
theorem Cut.marked (h : Cut before? tokens spans kept) (hlaid : Laid source low tokens high)
    (hspans : spansOf marks = spans)
    (hplaceable : Mark.Placeable layout source all previous? tokens marks) :
    Marked layout source previous? tokens marks := by
  induction h generalizing low marks previous? with
  | nil =>
    obtain rfl := hplaceable.eq_nil hspans
    refine .nil fun previous hprevious => hplaceable.settled previous ?_
    rw [Option.mem_def.1 hprevious]
    rfl
  | @keep outer? placed tokens kept spans h ih =>
    have hcut : Cut outer? (placed :: tokens) spans (placed :: kept) := .keep h
    have hplaces := hcut.le_place_head hlaid hspans hplaceable
    by_cases hput : ∃ declaration later, marks = .answer declaration :: later ∧
        declaration.body.stop - 1 = placed.span.start
    · obtain ⟨declaration, later, rfl, hplace⟩ := hput
      obtain ⟨previous, rfl, hfills⟩ := hplaceable.fills hlaid hplace
      refine .put hfills (ih hlaid.2.2 hspans (Mark.Placeable.behind [placed] (some placed)
        hplaceable (List.sublist_cons_self _ _) ?_ (by simp) (by simp) (by simp)))
      intro other hother
      have hlt := (hplaceable.place_lt _ hother).1
      simp only [Mark.place] at hlt
      rw [List.forall_mem_singleton]
      omega
    · refine .keep (ih hlaid.2.2 hspans (Mark.Placeable.behind [placed] (some placed) hplaceable
        (List.Sublist.refl _) ?_ (by simp) (by simp) (by simp)))
      intro declaration hmem
      rw [List.forall_mem_singleton]
      intro hplace
      cases marks with
      | nil => cases hmem
      | cons mark later =>
        rcases List.mem_cons.1 hmem with rfl | hlater
        · exact hput ⟨declaration, later, rfl, hplace.symm⟩
        · have hlt := (hplaceable.place_lt _ hlater).1
          have hle := hplaces mark List.mem_cons_self
          rw [show (Mark.answer declaration).place = declaration.body.stop - 1 from rfl] at hlt
          omega
  | @drop outer? sign last next rest tokens kept span spans hsign hlast hends hspan hloose hnext h
      ih =>
    have hcut : Cut outer? (sign :: (rest ++ next :: tokens)) (span :: spans) kept :=
      .drop hsign hlast hends hspan hloose hnext h
    have hplaces := hcut.le_place_head hlaid hspans hplaceable
    obtain ⟨later, rfl, hlater⟩ := Cut.head_mark hspans hspan.1 hplaces hplaceable
    obtain ⟨hfront, hback⟩ := Laid.append_iff.1 hlaid
    refine .drop hsign hlast hspan hnext ?_ (ih hback hlater (Mark.Placeable.behind
      (sign :: rest) none hplaceable (List.sublist_cons_self _ _) ?_ ?_ (by simp) ?_))
    · intro previous hprevious
      have habut := hplaceable.abut
      rw [Option.mem_def.1 hprevious] at habut
      exact (List.isChain_cons_cons.1 habut).1 _ (hplaceable.mem _ List.mem_cons_self) hspan.1
    · intro declaration hmem placed hplaced
      have hle := (hplaceable.place_lt _ hmem).2
      have hlt := (hfront.sits hplaced).start_lt_stop
      have hstop := hfront.stop_le hplaced
      rw [endOf_eq_of_getLast? hlast] at hstop
      simp only [Mark.place, Mark.span] at hle
      omega
    · exact ⟨previous?.toList ++ (sign :: rest), by simp⟩
    · intro _ first hfirst htoken
      obtain rfl := Option.some.inj hfirst
      rcases hnext with hat | ⟨word, -, hword⟩
      · rw [hat] at htoken
        cases htoken
      · rw [hword] at htoken
        cases htoken

end

/-! ### Steady sources -/

def Outline.marks (outline : Outline) : List Mark :=
  outline.requests.map .request ++ outline.allDeclarations.flatMap Declaration.marks

instance (declaration : Declaration) : Decidable declaration.Filled :=
  inferInstanceAs (Decidable (declaration.generated ≠ [] →
    ∀ last ∈ declaration.items.getLast?, last.isBare = false))

/-- What is changed in a source keeps to itself: the tokens in front of the changes are clear
    of them, the last token asks for no other one, and what is put into a body can be read by
    itself, behind an item that has tokens. -/
structure Outline.Steady (layout : Layout) (source : List Char) (outline : Outline)
    (tokens : List Placed) : Prop where
  abut : tokens.IsChain (Abut layout source outline.marks)
  settled : ∀ last ∈ tokens.getLast?, last.token.asksForMore = false
  filled : ∀ declaration ∈ outline.allDeclarations, declaration.Filled
  legible : ∀ declaration ∈ outline.allDeclarations, declaration.generated ≠ [] →
    legible (declaration.filling layout source) = true

instance (layout : Layout) (source : List Char) (outline : Outline) (tokens : List Placed) :
    Decidable (outline.Steady layout source tokens) :=
  decidable_of_iff (tokens.IsChain (Abut layout source outline.marks) ∧
      (∀ last ∈ tokens.getLast?, last.token.asksForMore = false) ∧
      (∀ declaration ∈ outline.allDeclarations, declaration.Filled) ∧
      ∀ declaration ∈ outline.allDeclarations, declaration.generated ≠ [] →
        legible (declaration.filling layout source) = true)
    ⟨fun ⟨habut, hsettled, hfilled, hlegible⟩ => ⟨habut, hsettled, hfilled, hlegible⟩,
      fun ⟨habut, hsettled, hfilled, hlegible⟩ => ⟨habut, hsettled, hfilled, hlegible⟩⟩

/-- A source that can be read, and in which each change keeps to itself. -/
def Steady (layout : Layout) (source : List Char) : Prop :=
  ∃ tokens outline, tokenize source = .ok tokens ∧ Outline.ofSource source = .ok outline ∧
    outline.Steady layout source tokens.body

theorem steady_iff {layout : Layout} {source : List Char} {tokens : Tokens} {outline : Outline}
    (htokens : tokenize source = .ok tokens) (houtline : Outline.ofSource source = .ok outline) :
    Steady layout source ↔ outline.Steady layout source tokens.body := by
  constructor
  · rintro ⟨_, _, htokens', houtline', h⟩
    cases htokens.symm.trans htokens'
    cases houtline.symm.trans houtline'
    exact h
  · intro h
    exact ⟨tokens, outline, htokens, houtline, h⟩

instance (layout : Layout) (source : List Char) : Decidable (Steady layout source) :=
  match htokens : tokenize source, houtline : Outline.ofSource source with
  | .ok tokens, .ok outline =>
    decidable_of_iff (outline.Steady layout source tokens.body)
      (steady_iff htokens houtline).symm
  | .error _, _ => .isFalse fun ⟨_, _, h, _⟩ => nomatch htokens.symm.trans h
  | _, .error _ => .isFalse fun ⟨_, _, _, h, _⟩ => nomatch houtline.symm.trans h

section

variable {layout : Layout} {source source' : List Char} {outline : Outline} {tokens : Tokens}
  {items : List BodyItem} {taken : List Placed} {marks : List Mark} {after : TokenStream}

/-- The marks that are found where the items of a source are read. -/
theorem Outline.exists_marks (h : Outline.ofSource source = .ok outline)
    (htokens : tokenize source = .ok tokens) :
    ∃ taken marks items after, ItemsMarked source (.start tokens) taken marks items after ∧
      after.pending = [] ∧ outline.requests = spansOf marks ∧
      outline.allDeclarations = Declaration.nestedIn items := by
  obtain ⟨_, items, after, htokens', hitems, hpending, hdeclarations, hrequests⟩ :=
    Outline.ofSource_eq_ok h
  cases htokens.symm.trans htokens'
  obtain ⟨taken, marks, hmarked, -⟩ := Reader.items_marked (.start htokens) hitems
  refine ⟨taken, marks, items, after, hmarked, hpending,
    hrequests.trans hmarked.read.takes.2.requests, ?_⟩
  rw [Outline.allDeclarations, hdeclarations, Declaration.nestedIn_eq]

theorem Outline.mem_marks {mark : Mark} (hrequests : outline.requests = spansOf marks)
    (hdeep : outline.allDeclarations = Declaration.nestedIn items)
    (hmarked : ItemsMarked source (.start tokens) taken marks items after) (hmem : mark ∈ marks) :
    mark ∈ outline.marks := by
  cases mark with
  | request span =>
    refine List.mem_append_left _ (List.mem_map_of_mem ?_)
    rw [hrequests]
    exact List.mem_filterMap.2 ⟨_, hmem, rfl⟩
  | answer declaration =>
    obtain ⟨hnested, hgenerated⟩ := hmarked.mem_answers hmem
    refine List.mem_append_right _ (List.mem_flatMap.2 ⟨declaration, hdeep ▸ hnested, ?_⟩)
    unfold Declaration.marks
    split
    · contradiction
    · exact List.mem_singleton_self _

/-- The marks of a steady source can be found among its tokens. -/
theorem Outline.Steady.placeable (h : outline.Steady layout source tokens.body)
    (hmarked : ItemsMarked source (.start tokens) taken marks items after)
    (hpending : after.pending = []) (hrequests : outline.requests = spansOf marks)
    (hdeep : outline.allDeclarations = Declaration.nestedIn items) :
    Mark.Placeable layout source outline.marks none tokens.body marks where
  inOrder := by
    refine hmarked.inOrder.pairwise ?_
    intro span hspan
    obtain ⟨mark, hmark, rfl⟩ := List.mem_map.1 hspan
    cases mark with
    | request span =>
      exact (hmarked.read.noted_inOrder.2 span
        (List.mem_filterMap.2 ⟨_, hmark, rfl⟩)).start_lt_stop
    | answer declaration => exact Nat.lt_succ_self _
  braces := by
    intro declaration hmem
    obtain ⟨brace, hbrace, htoken, hstart⟩ := hmarked.exists_brace hmem
    have hrefines := hmarked.read.takes.2.pending
    rw [hpending, List.append_nil] at hrefines
    obtain ⟨front, back, rfl⟩ := List.append_of_mem hbrace
    obtain ⟨front', back', hparts, -⟩ := hrefines.exists_append_cons (by rw [htoken]; rfl)
    change tokens.body = _ at hparts
    exact ⟨brace, by simp [hparts], htoken, hstart⟩
  answers := by
    intro declaration hmem
    obtain ⟨hnested, hgenerated⟩ := hmarked.mem_answers hmem
    exact ⟨hmarked.read.located.2.2.2 declaration hnested, hgenerated,
      h.legible declaration (hdeep ▸ hnested) hgenerated⟩
  mem := fun mark hmem => Outline.mem_marks hrequests hdeep hmarked hmem
  abut := h.abut
  opens := by
    intro _ first hfirst htoken
    have hbody : tokens.body.head? = some first := hfirst
    have hhead : (TokenStream.start tokens).head = first := by
      rw [TokenStream.head, TokenStream.start, List.headD_eq_head?_getD, hbody]
      rfl
    obtain ⟨-, -, rfl⟩ := hmarked.eq_of_head (.inl (by rw [hhead]; exact htoken))
    rw [show tokens.body = [] from hpending] at hbody
    cases hbody
  settled := h.settled

/-- Where the marks of a source are changed, items that request nothing are left. -/
theorem ItemsMarked.ofSource_recast {finish' : Placed} {tokens' : List Placed}
    (hmarked : ItemsMarked source (.start tokens) taken marks items after)
    (hpending : after.pending = []) (htokens : tokenize source = .ok tokens)
    (htokens' : tokenize source' = .ok ⟨tokens', finish'⟩)
    (hrewritten : Rewritten source' none tokens.body marks 0 0 tokens' finish')
    (hfilled : ∀ declaration ∈ Declaration.nestedIn items, declaration.Filled) :
    ∃ outline', Outline.ofSource source' = .ok outline' ∧ outline'.requests = [] := by
  have hready := Ready.start htokens
  have hready' := Ready.start htokens'
  have hfinish : tokens.finish.token = .endOfInput := hready.finish_token
  have hfinish' : finish'.token = .endOfInput := hready'.finish_token
  -- the seam is the end of both sources
  have hseam : ∃ seam : Seam, seam.finish = tokens.finish ∧ seam.finish' = finish' ∧
      seam.behind = [] ∧ seam.behind' = [] :=
    ⟨⟨tokens.finish, finish', [], [], ⟨.inr (.inr hfinish), .inr (.inr (.inl hfinish')),
      fun _ => .inr (.inl hfinish')⟩, by simp, by simp, hfinish, hfinish'⟩, rfl, rfl, rfl, rfl⟩
  obtain ⟨seam, hseamFinish, hseamFinish', hbehind, hbehind'⟩ := hseam
  have hmeets : seam.Meets source source' (marks ++ []) (.start tokens)
      (.start ⟨tokens', finish'⟩) := by
    rw [List.append_nil]
    exact ⟨hready, hready', hseamFinish.symm, hseamFinish'.symm,
      hrewritten.recast seam hbehind hbehind' hseamFinish'⟩
  have hcalm : seam.Calm := .inr (by rw [hbehind', hseamFinish']; exact hfinish')
  obtain ⟨after', hafter, hrequests, hgoes⟩ := hmarked.recast hmeets (by simp)
    (by rw [hbehind]; exact Nat.zero_le _) hfilled (fun _ => .inr ⟨rfl, hcalm⟩)
  have hend : after'.head.token = .endOfInput := by
    rw [TokenStream.head, hafter.recast.eq_behind' (hpending.trans hbehind.symm), hbehind']
    exact hafter.ready'.finish_token
  obtain ⟨items', hitems⟩ :=
    hgoes after' (.stop (.inr hend)) _ hready'.weight_lt_readingLimit
  exact ⟨_, Outline.ofSource_of_items htokens' hitems hend, hrequests⟩

/-- The text that a steady source is expanded to can be read, and requests nothing. -/
theorem Steady.requests_eq_nil {source : String} {expansion : Expansion}
    (hsteady : Steady layout source.toList) (h : expand layout source = .ok expansion) :
    ∃ outline, Outline.ofSource expansion.source.toList = .ok outline ∧
      outline.requests = [] := by
  obtain ⟨tokens, outline, htokens, houtline, hsteady⟩ := hsteady
  obtain ⟨_, houtline', hsource, -⟩ := expand_eq_ok h
  cases houtline.symm.trans houtline'
  obtain ⟨taken, marks, items, after, hmarked, hpending, hrequests, hdeep⟩ :=
    Outline.exists_marks houtline htokens
  obtain ⟨_, kept, htokens', hcut, -⟩ := Outline.cut houtline
  cases htokens.symm.trans htokens'
  have hscanned := tokenize_scanned htokens
  have hplaced := hcut.marked hscanned.laid hrequests.symm
    (hsteady.placeable hmarked hpending hrequests hdeep)
  have hperm := hmarked.edits_perm layout
  rw [← hrequests, ← hdeep, ← Outline.edits_eq] at hperm
  rw [Edit.applyAll_eq_splice hperm (hmarked.spaced layout).apart.1] at hsource
  obtain ⟨tokens', finish', hscanned', hrewritten⟩ :=
    hplaced.rewrites _ [] [] _ true hscanned (by simp) (by simp) hsource
  exact hmarked.ofSource_recast hpending htokens (tokenize_iff_scanned.2 hscanned') hrewritten
    (fun declaration hmem => hsteady.filled declaration (hdeep ▸ hmem))

end

/-- **When an expanded text is stable**: if and only if it can be read and requests nothing.
    It is stable if the source was steady, and if the source requested nothing it is the source
    itself. -/
theorem expand_expanded_of_steady {layout : Layout} {source : String} {expansion : Expansion}
    (h : expand layout source = .ok expansion) :
    (expand layout expansion.source = .ok ⟨expansion.source, []⟩ ↔
      ∃ outline, Outline.ofSource expansion.source.toList = .ok outline ∧
        outline.requests = []) ∧
    (Steady layout source.toList →
      expand layout expansion.source = .ok ⟨expansion.source, []⟩) ∧
    ∀ outline, Outline.ofSource source.toList = .ok outline → outline.requests = [] →
      expansion = ⟨source, []⟩ := by
  obtain ⟨hiff, hsame⟩ := expand_expanded_iff h
  refine ⟨hiff, fun hsteady => hiff.2 (hsteady.requests_eq_nil h), hsame⟩

theorem expand_expanded_struct :
    expand .standard keyedStruct = .ok ⟨keyedStructExpanded, []⟩ ∧
    Steady .standard keyedStruct.toList ∧
    expand .standard keyedStructExpanded = .ok ⟨keyedStructExpanded, []⟩ ∧
    ¬ Steady .standard wordBeforeRequest.toList := by
  have hexpand : expand .standard keyedStruct = .ok ⟨keyedStructExpanded, []⟩ := by decide +kernel
  have hsteady : Steady .standard keyedStruct.toList := by decide +kernel
  refine ⟨hexpand, hsteady, (expand_expanded_of_steady hexpand).2.1 hsteady, ?_⟩
  intro hword
  obtain ⟨hfirst, hagain⟩ := expand_expanded_unreadable
  exact hagain ((expand_expanded_of_steady hfirst).2.1 hword)

end Memberwise
