/-
  Memberwise/Proofs/Marking.lean
  ==============================
  **The items of a body are read again, whatever is put in or taken out between them.**

  `ItemsMarked` is the run over the items of a body with the marks along the way.  Items
  that come in front of a closing brace in the second source only are read by `Passes`:
  they request nothing and end at the brace.  The limits of the two runs need not be the
  same, so the second one is told for every limit that is large enough (`ItemsGo`).
-/
import Memberwise.Proofs.Recasting

namespace Memberwise

/-! ### Items and their marks -/

/-- The mark at the closing brace of a declaration, if something is generated for it. -/
def Declaration.marks (declaration : Declaration) : List Mark :=
  match declaration.generated with
  | [] => []
  | _ :: _ => [.answer declaration]

theorem Declaration.mem_marks {declaration : Declaration} {mark : Mark}
    (h : mark ∈ declaration.marks) :
    mark = .answer declaration ∧ declaration.generated ≠ [] := by
  unfold marks at h
  split at h
  · cases h
  · next hgenerated => exact ⟨List.mem_singleton.1 h, by simp [hgenerated]⟩

def Mark.span? : Mark → Option Span
  | request span => some span
  | answer _ => none

def Mark.edit (layout : Layout) (source : List Char) : Mark → Edit
  | request span => removal source span
  | answer declaration => insertion layout source declaration declaration.generated

theorem Declaration.map_marks (layout : Layout) (source : List Char) (declaration : Declaration) :
    declaration.marks.map (Mark.edit layout source) =
      (declaration.insertion? layout source).toList := by
  unfold marks insertion?
  split
  · next hnil => rw [hnil]; rfl
  · next hcons => rw [hcons]; simp [Mark.edit, hcons]

structure ItemFound (source : List Char) (stream after : TokenStream) (found : Item)
    (taken : List Placed) (noted : List Span) : Prop where
  begins : stream.head.token ≠ .closing .curly ∧ stream.head.token ≠ .endOfInput
  read : Reader.item source stream = .ok (found, after)
  taken : ∃ attrs segments tail, taken = segments.flatten ++ tail ∧
    ItemTaken source stream after found attrs segments tail noted

/-- The steps in which the items of a body are read, with the places at which expanding the
    source changes them. -/
inductive ItemsMarked (source : List Char) :
    TokenStream → List Placed → List Mark → List BodyItem → TokenStream → Prop where
  | stop {stream : TokenStream} (hready : Ready source stream)
      (hhead : stream.head.token = .closing .curly ∨ stream.head.token = .endOfInput) :
      ItemsMarked source stream [] [] [] stream
  | separator {stream between after : TokenStream} {taken taken' : List Placed}
      {noted : List Span} {marks : List Mark} {items : List BodyItem}
      (hitem : ItemFound source stream between .separator taken noted)
      (hrest : ItemsMarked source between taken' marks items after) :
      ItemsMarked source stream (taken ++ taken') (noted.map .request ++ marks) items after
  | entry {stream between after : TokenStream} {taken taken' : List Placed}
      {noted : List Span} {marks : List Mark} {entry : BodyItem} {items : List BodyItem}
      (hitem : ItemFound source stream between (.entry entry) taken noted)
      (hrest : ItemsMarked source between taken' marks items after) :
      ItemsMarked source stream (taken ++ taken') (noted.map .request ++ marks)
        (entry :: items) after
  | opened {stream inside closing outside after : TokenStream}
      {taken takenIn takenOut : List Placed} {noted : List Span} {marksIn marksOut : List Mark}
      {header : Header} {inner items : List BodyItem}
      (hitem : ItemFound source stream inside (.opened header) taken noted)
      (hinner : ItemsMarked source inside takenIn marksIn inner closing)
      (hbrace : closing.head.token = .closing .curly)
      (hclose : Reader.next closing = .ok (closing.head, outside))
      (hrest : ItemsMarked source outside takenOut marksOut items after) :
      ItemsMarked source stream (taken ++ (takenIn ++ ([closing.head] ++ takenOut)))
        (noted.map .request ++
          (marksIn ++ ((header.closed inner closing.head.span).marks ++ marksOut)))
        (.nested (header.closed inner closing.head.span) :: items) after

namespace ItemFound

variable {source : List Char} {stream after : TokenStream} {found : Item} {taken : List Placed}
  {noted : List Span}

theorem of_read (hready : Ready source stream)
    (hbegins : stream.head.token ≠ .closing .curly ∧ stream.head.token ≠ .endOfInput)
    (h : Reader.item source stream = .ok (found, after)) :
    ∃ taken noted, ItemFound source stream after found taken noted := by
  obtain ⟨attrs, segments, tail, noted, hitem⟩ := Reader.item_takes hready h
  exact ⟨_, noted, hbegins, h, attrs, segments, tail, rfl, hitem⟩

theorem takes (h : ItemFound source stream after found taken noted) :
    Ready source stream ∧ Takes stream taken noted after := by
  obtain ⟨attrs, segments, tail, rfl, hitem⟩ := h.taken
  exact ⟨hitem.ready, hitem.takes⟩

theorem ready_after (h : ItemFound source stream after found taken noted) : Ready source after :=
  (h.takes.1.taken h.takes.2).2

theorem weight_lt (h : ItemFound source stream after found taken noted) :
    weight after.pending < weight stream.pending :=
  Checked.weight_lt_of_item h.takes.1 h.begins.1 h.begins.2 h.read

theorem removals_spaced (h : ItemFound source stream after found taken noted) :
    Edit.Spaced source stream.readTo (noted.map (removal source)) after.readTo := by
  obtain ⟨attrs, segments, tail, rfl, hitem⟩ := h.taken
  exact hitem.removals_spaced

end ItemFound

theorem Reader.items_marked {source : List Char} {limit : Nat} {stream after : TokenStream}
    {items : List BodyItem} (hready : Ready source stream)
    (h : Reader.items source limit stream = .ok (items, after)) :
    ∃ taken marks, ItemsMarked source stream taken marks items after ∧ Ready source after := by
  induction limit generalizing stream items after with
  | zero => exact absurd h tooLong_ne_ok
  | succ limit ih =>
    rw [Reader.items, peek_bind_eq_ok] at h
    generalize htoken : stream.head.token = token at h
    split at h
    · obtain ⟨rfl, rfl⟩ := pure_eq_ok.1 h
      exact ⟨_, _, .stop hready (.inl htoken), hready⟩
    · obtain ⟨rfl, rfl⟩ := pure_eq_ok.1 h
      exact ⟨_, _, .stop hready (.inr htoken), hready⟩
    · next hbrace hend =>
      obtain ⟨found, between, hitem, h⟩ := bind_eq_ok.1 h
      obtain ⟨taken, noted, hfound⟩ :=
        ItemFound.of_read hready ⟨by rw [htoken]; exact hbrace, by rw [htoken]; exact hend⟩ hitem
      cases found with
      | separator =>
        obtain ⟨_, _, hrest, hafter⟩ := ih hfound.ready_after h
        exact ⟨_, _, .separator hfound hrest, hafter⟩
      | entry entry =>
        simp only [bind_eq_ok, pure_eq_ok] at h
        obtain ⟨more, _, hmore, rfl, rfl⟩ := h
        obtain ⟨_, _, hrest, hafter⟩ := ih hfound.ready_after hmore
        exact ⟨_, _, .entry hfound hrest, hafter⟩
      | opened header =>
        simp only [bind_eq_ok, pure_eq_ok] at h
        obtain ⟨inner, closing, hinner, close, outside, hclose, more, _, hmore, rfl, rfl⟩ := h
        obtain ⟨_, _, hinner, hclosing⟩ := ih hfound.ready_after hinner
        obtain ⟨hbrace, rfl, hcloses⟩ := closingBrace_takes hclosing hclose
        have hnext : Reader.next closing = .ok (closing.head, outside) := by
          rw [closingBrace, peek_bind_eq_ok, hbrace] at hclose
          obtain ⟨placed, _, hnext, hclose⟩ := bind_eq_ok.1 hclose
          obtain ⟨-, rfl⟩ := pure_eq_ok.1 hclose
          obtain ⟨rfl, -, -⟩ := next_takes hclosing (by rw [hbrace]; simp) hnext
          exact hnext
        obtain ⟨_, _, hrest, hafter⟩ := ih (hclosing.taken hcloses).2 hmore
        exact ⟨_, _, .opened hfound hinner hbrace hnext hrest, hafter⟩

def spansOf (marks : List Mark) : List Span := marks.filterMap Mark.span?

@[simp] theorem spansOf_append (front back : List Mark) :
    spansOf (front ++ back) = spansOf front ++ spansOf back := List.filterMap_append

@[simp] theorem spansOf_requests (spans : List Span) : spansOf (spans.map .request) = spans := by
  rw [spansOf, List.filterMap_map]
  exact List.filterMap_some

@[simp] theorem spansOf_marks (declaration : Declaration) : spansOf declaration.marks = [] := by
  unfold Declaration.marks
  split <;> rfl

namespace ItemsMarked

variable {source : List Char} {stream after : TokenStream} {taken : List Placed}
  {marks : List Mark} {items : List BodyItem}

theorem read (h : ItemsMarked source stream taken marks items after) :
    ItemsRead source stream taken (spansOf marks) items after := by
  induction h with
  | stop hready hhead => exact .stop hready hhead
  | separator hitem _ ih =>
    obtain ⟨attrs, segments, tail, rfl, htaken⟩ := hitem.taken
    rw [spansOf_append, spansOf_requests]
    exact .separator htaken ih
  | entry hitem _ ih =>
    obtain ⟨attrs, segments, tail, rfl, htaken⟩ := hitem.taken
    rw [spansOf_append, spansOf_requests]
    exact .entry htaken ih
  | opened hitem _ hbrace hclose _ ihInner ihRest =>
    obtain ⟨attrs, segments, tail, rfl, htaken⟩ := hitem.taken
    obtain ⟨-, -, hcloses⟩ := Reader.next_takes ihInner.ready_after (by rw [hbrace]; simp) hclose
    simp only [spansOf_append, spansOf_requests, spansOf_marks, List.nil_append]
    exact .opened htaken ihInner hbrace hcloses ihRest

theorem ready (h : ItemsMarked source stream taken marks items after) : Ready source stream :=
  h.read.takes.1

theorem ready_after (h : ItemsMarked source stream taken marks items after) : Ready source after :=
  h.read.ready_after

theorem readTo_le (h : ItemsMarked source stream taken marks items after) :
    stream.readTo ≤ after.readTo :=
  h.ready.readTo_le h.read.takes.2

theorem weight_le (h : ItemsMarked source stream taken marks items after) :
    weight after.pending ≤ weight stream.pending := by
  rw [weight_of_takes h.read.takes.2]
  exact Nat.le_add_left _ _

theorem mem_answers (h : ItemsMarked source stream taken marks items after)
    {declaration : Declaration} (hmem : .answer declaration ∈ marks) :
    declaration ∈ Declaration.nestedIn items ∧ declaration.generated ≠ [] := by
  have hrequests : ∀ {noted : List Span}, Mark.answer declaration ∉ noted.map .request := by
    simp
  induction h with
  | stop _ _ => cases hmem
  | separator _ _ ih => exact ih ((List.mem_append.1 hmem).resolve_left hrequests)
  | entry hitem _ ih =>
    obtain ⟨attrs, segments, tail, rfl, htaken⟩ := hitem.taken
    rw [htaken.nestedIn_entry]
    exact ih ((List.mem_append.1 hmem).resolve_left hrequests)
  | opened _ _ _ _ _ ihInner ihRest =>
    rw [Declaration.nestedIn_nested, List.mem_cons, List.mem_append]
    rcases List.mem_append.1 ((List.mem_append.1 hmem).resolve_left hrequests) with hin | hmem
    · exact ⟨.inr (.inl (ihInner hin).1), (ihInner hin).2⟩
    rcases List.mem_append.1 hmem with hown | hout
    · obtain ⟨heq, hgenerated⟩ := Declaration.mem_marks hown
      cases heq
      exact ⟨.inl rfl, hgenerated⟩
    · exact ⟨.inr (.inr (ihRest hout).1), (ihRest hout).2⟩

/-- What is changed along the items of a body, in a row. -/
theorem spaced (layout : Layout) (h : ItemsMarked source stream taken marks items after) :
    Edit.Spaced source stream.readTo (marks.map (Mark.edit layout source)) after.readTo := by
  induction h with
  | stop _ _ => exact Nat.le_refl _
  | separator hitem _ ih | entry hitem _ ih =>
    rw [List.map_append, List.map_map]
    exact hitem.removals_spaced.append ih
  | @opened _ inside closing outside _ _ _ _ noted marksIn marksOut header inner items hitem hinner
      hbrace hclose hrest ihInner ihRest =>
    obtain ⟨attrs, segments, tail, rfl, htaken⟩ := hitem.taken
    obtain ⟨-, -, hcloses⟩ := Reader.next_takes hinner.ready_after (by rw [hbrace]; simp) hclose
    obtain ⟨horder, hlies, hmembers, -⟩ := hinner.read.located
    have hlocated := htaken.closed_located hinner.ready_after hbrace horder hlies hmembers
    have hclosing := hinner.ready_after.readTo_le_head
    have hstop := hinner.ready_after.closingBrace_stop hbrace
    have hbody := (Edit.Spaced.withInsertion layout hlocated
      (ihInner.mono (Nat.le_refl _) (by simp only [Header.closed, Span.upTo]; omega))
      (Nat.le_of_eq htaken.readTo_header)).1
    have hrow := (hbody.mono (Nat.le_refl _) (Nat.le_of_eq hcloses.readTo.symm)).append ihRest
    rw [List.map_append, List.map_map, List.map_append, List.map_append, Declaration.map_marks,
      ← List.append_assoc (marksIn.map _)]
    exact hitem.removals_spaced.append hrow

/-- The removals and the insertions along the items of a body. -/
theorem edits_perm (layout : Layout) (h : ItemsMarked source stream taken marks items after) :
    (marks.map (Mark.edit layout source)).Perm ((spansOf marks).map (removal source) ++
      (Declaration.nestedIn items).filterMap (Declaration.insertion? layout source)) := by
  induction h with
  | stop _ _ => simp [spansOf, Declaration.nestedIn]
  | separator hitem _ ih =>
    rw [List.map_append, List.map_map, spansOf_append, spansOf_requests, List.map_append,
      List.append_assoc]
    exact ih.append_left _
  | entry hitem _ ih =>
    obtain ⟨attrs, segments, tail, rfl, htaken⟩ := hitem.taken
    rw [List.map_append, List.map_map, spansOf_append, spansOf_requests, List.map_append,
      List.append_assoc, htaken.nestedIn_entry]
    exact ih.append_left _
  | opened hitem hinner hbrace hclose hrest ihInner ihRest =>
    rw [Declaration.nestedIn_nested, List.filterMap_eq_flatMap_toList, List.flatMap_cons,
      List.flatMap_append, ← List.filterMap_eq_flatMap_toList, ← List.filterMap_eq_flatMap_toList]
    simp only [List.map_append, List.map_map, spansOf_append, spansOf_requests, spansOf_marks,
      Declaration.map_marks, List.nil_append]
    rw [← List.append_assoc (List.map _ _) (Option.toList _)]
    exact perm_of_parts ihInner ihRest

/-- No mark stands in front of the items. -/
theorem le_place (h : ItemsMarked source stream taken marks items after) :
    ∀ mark ∈ marks, stream.readTo ≤ mark.place := by
  intro mark hmem
  have hstart := (h.spaced .standard).apart.2 _ (List.mem_map_of_mem hmem)
  refine hstart.trans ?_
  cases mark with
  | request span => exact Nat.le_refl _
  | answer declaration =>
    obtain ⟨hnested, hgenerated⟩ := h.mem_answers hmem
    have hlocated := h.read.located.2.2.2 declaration hnested
    obtain ⟨-, hle, hlt⟩ := (insertion_inserts .standard hlocated hgenerated).1.inside
    simp only [Mark.edit, Mark.place]
    omega

theorem le_place_head (h : ItemsMarked source stream taken marks items after) {more : List Mark}
    (hmore : ∀ mark ∈ more.head?, after.readTo ≤ mark.place) :
    ∀ mark ∈ (marks ++ more).head?, stream.readTo ≤ mark.place := by
  intro mark hmark
  cases marks with
  | nil => exact h.readTo_le.trans (hmore mark hmark)
  | cons first marks => exact h.le_place mark (List.mem_of_mem_head? hmark)

theorem eq_of_head (h : ItemsMarked source stream taken marks items after)
    (hhead : stream.head.token = .closing .curly ∨ stream.head.token = .endOfInput) :
    marks = [] ∧ items = [] ∧ after = stream := by
  have hnot : ∀ {between : TokenStream} {found : Item} {taken : List Placed} {noted : List Span},
      ¬ ItemFound source stream between found taken noted :=
    fun hitem => hhead.elim hitem.begins.1 hitem.begins.2
  cases h with
  | stop _ _ => exact ⟨rfl, rfl, rfl⟩
  | separator hitem _ | entry hitem _ | opened hitem _ _ _ _ => exact absurd hitem hnot

end ItemsMarked

/-! ### Reading on -/

def Reader.itemsBehind (source : List Char) (limit : Nat) : Item → Reader (List BodyItem)
  | .separator => items source limit
  | .entry entry => do return entry :: (← items source limit)
  | .opened header => do
    let inner ← items source limit
    let close ← closingBrace header.name
    return .nested (header.closed inner close) :: (← items source limit)

theorem Reader.items_of_item {source : List Char} {limit : Nat} {stream between : TokenStream}
    {found : Item} {result : List BodyItem × TokenStream}
    (hbegins : stream.head.token ≠ .closing .curly ∧ stream.head.token ≠ .endOfInput)
    (hitem : item source stream = .ok (found, between))
    (h : itemsBehind source limit found between = .ok result) :
    items source (limit + 1) stream = .ok result := by
  have hread : (item source >>= itemsBehind source limit) stream = .ok result :=
    bind_eq_ok.2 ⟨found, between, hitem, h⟩
  rw [items, peek_bind_eq_ok]
  obtain ⟨hbrace, hend⟩ := hbegins
  generalize stream.head.token = token at hbrace hend
  split
  · exact absurd rfl hbrace
  · exact absurd rfl hend
  · refine Eq.trans (congrFun (congrArg _ (funext fun found => ?_)) stream) hread
    cases found <;> rfl

namespace ItemsGo

variable {source : List Char} {stream between inside closing outside after : TokenStream}

theorem stop (hhead : stream.head.token = .closing .curly ∨ stream.head.token = .endOfInput) :
    ItemsGo source stream stream := by
  intro limit hlimit
  obtain ⟨limit, rfl⟩ : ∃ k, limit = k + 1 := ⟨limit - 1, by omega⟩
  refine ⟨[], ?_⟩
  rw [Reader.items, Reader.peek_bind_eq_ok]
  rcases hhead with hhead | hhead <;> rw [hhead] <;> rfl

theorem separator (hbegins : stream.head.token ≠ .closing .curly ∧ stream.head.token ≠ .endOfInput)
    (hitem : Reader.item source stream = .ok (.separator, between))
    (hlt : weight between.pending < weight stream.pending) (h : ItemsGo source between after) :
    ItemsGo source stream after := by
  intro limit hlimit
  obtain ⟨limit, rfl⟩ : ∃ k, limit = k + 1 := ⟨limit - 1, by omega⟩
  obtain ⟨items, hitems⟩ := h limit (by omega)
  exact ⟨items, Reader.items_of_item hbegins hitem hitems⟩

theorem entry {entry : BodyItem}
    (hbegins : stream.head.token ≠ .closing .curly ∧ stream.head.token ≠ .endOfInput)
    (hitem : Reader.item source stream = .ok (.entry entry, between))
    (hlt : weight between.pending < weight stream.pending) (h : ItemsGo source between after) :
    ItemsGo source stream after := by
  intro limit hlimit
  obtain ⟨limit, rfl⟩ : ∃ k, limit = k + 1 := ⟨limit - 1, by omega⟩
  obtain ⟨items, hitems⟩ := h limit (by omega)
  exact ⟨entry :: items, Reader.items_of_item hbegins hitem
    (Reader.bind_eq_ok.2 ⟨items, after, hitems, rfl⟩)⟩

theorem opened {header : Header} {brace : Placed}
    (hbegins : stream.head.token ≠ .closing .curly ∧ stream.head.token ≠ .endOfInput)
    (hitem : Reader.item source stream = .ok (.opened header, inside))
    (hlt : weight inside.pending < weight stream.pending) (hinner : ItemsGo source inside closing)
    (hbrace : closing.head.token = .closing .curly)
    (hclose : Reader.next closing = .ok (brace, outside))
    (hle : weight outside.pending ≤ weight inside.pending) (h : ItemsGo source outside after) :
    ItemsGo source stream after := by
  intro limit hlimit
  obtain ⟨limit, rfl⟩ : ∃ k, limit = k + 1 := ⟨limit - 1, by omega⟩
  obtain ⟨inner, hinner⟩ := hinner limit (by omega)
  obtain ⟨items, hitems⟩ := h limit (by omega)
  have hclosing : Reader.closingBrace header.name closing = .ok (brace.span, outside) := by
    rw [Reader.closingBrace, Reader.peek_bind_eq_ok, hbrace]
    exact Reader.bind_eq_ok.2 ⟨brace, outside, hclose, rfl⟩
  exact ⟨_, Reader.items_of_item hbegins hitem (Reader.bind_eq_ok.2 ⟨inner, closing, hinner,
    Reader.bind_eq_ok.2 ⟨brace.span, outside, hclosing,
      Reader.bind_eq_ok.2 ⟨items, after, hitems, rfl⟩⟩⟩)⟩

/-- Reading items leaves a stream ready and does not take it back. -/
theorem ready (h : ItemsGo source stream after) (hready : Ready source stream) :
    Ready source after ∧ weight after.pending ≤ weight stream.pending := by
  obtain ⟨items, hitems⟩ := h _ (Nat.lt_succ_self _)
  obtain ⟨taken, marks, hmarked, hafter⟩ := Reader.items_marked hready hitems
  exact ⟨hafter, hmarked.weight_le⟩

end ItemsGo

/-! ### The second source -/

section

variable {source source' : List Char} {seam : Seam} {marks more : List Mark}
  {stream stream' after closing outside : TokenStream}

/-- Where an item begins in the first source, one begins in the second source. -/
theorem Seam.Meets.begins (h : seam.Meets source source' marks stream stream')
    (hbegins : stream.head.token ≠ .closing .curly ∧ stream.head.token ≠ .endOfInput)
    (hne : stream.pending ≠ seam.behind) :
    stream'.head.token ≠ .closing .curly ∧ stream'.head.token ≠ .endOfInput := by
  obtain ⟨rest, hpending, -⟩ := h.ready.pending_eq hbegins.2
  have hrecast := h.recast
  unfold TokenStream.head at hbegins ⊢
  generalize stream.pending = tokens at *
  generalize stream'.pending = tokens' at *
  cases hrecast with
  | behind => exact absurd rfl hne
  | keep hechoes _ _ _ =>
    simp only [List.headD_cons, hechoes.token]
    exact hbegins
  | drop _ _ _ hgoes _ _ =>
    simp only [List.headD_cons]
    rcases hgoes with hsign | ⟨word, -, hword⟩
    · simp [hsign]
    · simp [hword]
  | put hbrace _ _ _ _ => exact absurd hbrace hbegins.1

/-- Where no mark stands, the next token is the same. -/
theorem Seam.Meets.head_eq (h : seam.Meets source source' marks stream stream')
    (hnot : ¬ seam.Stands marks stream.pending) :
    stream'.head.token = stream.head.token := by
  obtain ⟨seam', -, hstep, -, hinside⟩ := h.next hnot
  exact (hstep.head hinside).token

/-- What is put in front of a closing brace is read up to the brace. -/
theorem Seam.Meets.fill {declaration : Declaration}
    (h : seam.Meets source source' (declaration.marks ++ more) closing stream')
    (hbrace : closing.head.token = .closing .curly)
    (hplace : declaration.body.stop - 1 = closing.head.span.start)
    (hnot : ¬ seam.Stands more closing.pending) :
    ∃ closing', ItemsGo source' stream' closing' ∧ seam.Meets source source' more closing closing' ∧
      closing'.requests = stream'.requests := by
  unfold Declaration.marks at h
  split at h
  · refine ⟨stream', .stop (.inl ?_), h, rfl⟩
    rw [h.head_eq hnot, hbrace]
  · obtain ⟨rest, hpending, hsits⟩ := h.ready.pending_eq (by rw [hbrace]; simp)
    have hrecast := h.recast
    have hpasses : ∀ {tokens' left : List Placed}, stream'.pending = tokens' →
        Passes source' seam.finish' tokens' left →
        ∃ closing', ItemsGo source' stream' closing' ∧ closing'.pending = left ∧
          closing'.finish = seam.finish' ∧ closing'.requests = stream'.requests :=
      fun htokens hpasses => hpasses stream' h.ready' htokens h.finish'
    generalize stream'.pending = tokens' at *
    generalize htokens : closing.pending = tokens at hrecast
    cases hrecast with
    | keep _ hapart _ _ =>
      -- the mark is at the brace already
      cases hpending.symm.trans htokens
      have hle := hapart _ rfl
      have hlt := hsits.start_lt_stop
      simp only [Mark.place] at hle
      omega
    | put _ _ _ hgoes hrest =>
      obtain ⟨closing', hread, hleft, hfinish, hrequests⟩ := hpasses rfl hgoes
      refine ⟨closing', hread, ⟨h.ready, (hread.ready h.ready').1, h.finish, hfinish, ?_⟩,
        hrequests⟩
      rw [htokens, hleft]
      exact hrest

/-- A closing brace is taken in both sources. -/
theorem Seam.Meets.closingBrace (h : seam.Meets source source' more closing stream')
    (hbrace : closing.head.token = .closing .curly)
    (hclose : Reader.next closing = .ok (closing.head, outside))
    (hnot : ¬ seam.Stands more closing.pending)
    (hmore : ∀ mark ∈ more.head?, outside.readTo ≤ mark.place)
    (hseam : weight seam.behind ≤ weight outside.pending) :
    ∃ brace' outside', stream'.head.token = .closing .curly ∧
      Reader.next stream' = .ok (brace', outside') ∧
      seam.Meets source source' more outside outside' ∧ outside'.requests = stream'.requests ∧
      weight outside'.pending ≤ weight stream'.pending := by
  obtain ⟨-, -, htakes⟩ := Reader.next_takes h.ready (by rw [hbrace]; simp) hclose
  have hbrace' : stream'.head.token = .closing .curly := (h.head_eq hnot).trans hbrace
  obtain ⟨seam', hnext, hstep, -, -⟩ := h.next hnot
  have hkeeps := hnext.keeps h.ready hstep.pending htakes hmore hseam
  obtain ⟨brace', outside', hclose', -, hafter, hrequests⟩ := hstep.next hclose hkeeps
  obtain ⟨-, -, htakes'⟩ := Reader.next_takes h.ready' (by rw [hbrace']; simp) hclose'
  refine ⟨brace', outside', hbrace', hclose', hafter.meets hnext (h.ready.taken htakes).2
    (h.ready'.taken htakes').2, hrequests, ?_⟩
  rw [weight_of_takes htakes']
  exact Nat.le_add_left _ _

end

/-- A body that something is put into does not end in an item without tokens. -/
def Declaration.Filled (declaration : Declaration) : Prop :=
  declaration.generated ≠ [] → ∀ last ∈ declaration.items.getLast?, last.isBare = false

theorem Declaration.marks_eq_nil_or (declaration : Declaration) :
    declaration.marks = [] ∨ declaration.generated ≠ [] := by
  unfold marks
  split
  · exact .inl rfl
  · next hgenerated => exact .inr (by simp [hgenerated])

/-- The marks from a closing brace on. -/
theorem Declaration.le_place_marks {source : List Char} {closing : TokenStream}
    {declaration : Declaration} {more : List Mark} (hready : Ready source closing)
    (hplace : declaration.body.stop - 1 = closing.head.span.start)
    (hmore : ∀ mark ∈ more.head?, closing.readTo ≤ mark.place) :
    ∀ mark ∈ (declaration.marks ++ more).head?, closing.readTo ≤ mark.place := by
  intro mark hmark
  unfold marks at hmark
  split at hmark
  · exact hmore mark hmark
  · cases hmark
    rw [Mark.place, hplace]
    exact hready.readTo_le_head

theorem solid_of_cons {item : BodyItem} {items : List BodyItem}
    (h : ∀ last ∈ (item :: items).getLast?, last.isBare = false) :
    ∀ last ∈ items.getLast?, last.isBare = false := by
  intro last hlast
  apply h
  rw [List.getLast?_cons, Option.mem_def.1 hlast]
  rfl

section

variable {source source' : List Char} {seam : Seam} {marks more : List Mark}
  {stream stream' between after : TokenStream} {taken : List Placed} {noted : List Span}
  {items : List BodyItem} {found : Item}

/-- An item is read in both sources, and behind it there are the marks of the next items. -/
theorem ItemFound.recast (h : ItemFound source stream between found taken noted)
    (hmeets : seam.Meets source source' (noted.map .request ++ more) stream stream')
    (hmore : ∀ mark ∈ more.head?, between.readTo ≤ mark.place)
    (hseam : weight seam.behind ≤ weight between.pending)
    (hcalm : seam.Stands more between.pending →
      (between.head.token = .closing .curly ∨ between.head.token = .endOfInput) →
      (∃ entry : BodyItem, found = .entry entry ∧ entry.isBare = true) → more = [] ∧ seam.Calm) :
    ∃ found' between', found.Like found' ∧
      (stream'.head.token ≠ .closing .curly ∧ stream'.head.token ≠ .endOfInput) ∧
      Reader.item source' stream' = .ok (found', between') ∧
      weight between'.pending < weight stream'.pending ∧
      seam.Meets source source' more between between' ∧ between'.requests = stream'.requests := by
  have hlt := h.weight_lt
  have hbegins := hmeets.begins h.begins fun hbehind => by
    rw [hbehind] at hlt
    omega
  obtain ⟨found', between', hread, hlike, hbetween, hrequests⟩ :=
    hmeets.item h.read h.takes.2 hmore hseam hcalm
  exact ⟨found', between', hlike, hbegins, hread,
    Checked.weight_lt_of_item hmeets.ready' hbegins.1 hbegins.2 hread, hbetween, hrequests⟩

/-- **The items of a body are read in both sources.** -/
theorem ItemsMarked.recast (h : ItemsMarked source stream taken marks items after)
    (hmeets : seam.Meets source source' (marks ++ more) stream stream')
    (hmore : ∀ mark ∈ more.head?, after.readTo ≤ mark.place)
    (hseam : weight seam.behind ≤ weight after.pending)
    (hfilled : ∀ declaration ∈ Declaration.nestedIn items, declaration.Filled)
    (hcalm : seam.Stands more after.pending →
      (∀ last ∈ items.getLast?, last.isBare = false) ∨ more = [] ∧ seam.Calm) :
    ∃ after', seam.Meets source source' more after after' ∧ after'.requests = stream'.requests ∧
      ∀ end', ItemsGo source' after' end' → ItemsGo source' stream' end' := by
  induction h generalizing stream' more with
  | stop _ _ => exact ⟨stream', hmeets, rfl, fun _ => id⟩
  | separator hitem hrest ih =>
    rw [List.append_assoc] at hmeets
    obtain ⟨found', between', hlike, hbegins, hread, hlt, hbetween, hquiet⟩ :=
      hitem.recast hmeets (hrest.le_place_head hmore) (hseam.trans hrest.weight_le) (by simp)
    obtain ⟨after', hafter, hrequests, hgo⟩ := ih hbetween hmore hseam hfilled hcalm
    cases hlike
    exact ⟨after', hafter, hrequests.trans hquiet, fun end' h => .separator hbegins hread hlt
      (hgo end' h)⟩
  | entry hitem hrest ih =>
    rw [List.append_assoc] at hmeets
    obtain ⟨attrs, segments, tail, -, htaken⟩ := hitem.taken
    rw [htaken.nestedIn_entry] at hfilled
    obtain ⟨found', between', hlike, hbegins, hread, hlt, hbetween, hquiet⟩ :=
      hitem.recast hmeets (hrest.le_place_head hmore) (hseam.trans hrest.weight_le) <| by
        rintro hstands hhead ⟨entry, heq, hbare⟩
        cases heq
        obtain ⟨rfl, rfl, rfl⟩ := hrest.eq_of_head hhead
        exact (hcalm hstands).resolve_left fun hsolid =>
          Bool.false_ne_true ((hsolid _ rfl).symm.trans hbare)
    obtain ⟨after', hafter, hrequests, hgo⟩ := ih hbetween hmore hseam hfilled fun hstands =>
      (hcalm hstands).imp_left (solid_of_cons ·)
    cases hlike
    exact ⟨after', hafter, hrequests.trans hquiet, fun end' h => .entry hbegins hread hlt
      (hgo end' h)⟩
  | @opened _ inside closing outside _ _ _ _ _ _ marksOut header inner items hitem hinner hbrace
      hclose hrest ihInner ihRest =>
    simp only [List.append_assoc] at hmeets
    rw [Declaration.nestedIn_nested, List.forall_mem_cons, List.forall_mem_append] at hfilled
    obtain ⟨hown, hfilledIn, hfilledOut⟩ := hfilled
    have hclosing := hinner.ready_after
    obtain ⟨-, -, htakes⟩ := Reader.next_takes hclosing (by rw [hbrace]; simp) hclose
    have hplace : (header.closed inner closing.head.span).body.stop - 1 =
        closing.head.span.start := by
      have hstop := hclosing.closingBrace_stop hbrace
      simp only [Header.closed, Span.upTo]
      omega
    -- the marks behind the closing brace, and from it on
    have hout := hrest.le_place_head hmore
    have hseamOut := hseam.trans hrest.weight_le
    have hnot : ¬ seam.Stands (marksOut ++ more) closing.pending := fun hstands =>
      List.cons_ne_nil _ _ (hstands.taken_eq_nil hclosing htakes hout hseamOut)
    have hback := Declaration.le_place_marks hclosing hplace fun mark hmark =>
      (hclosing.readTo_le htakes).trans (hout mark hmark)
    have hseamIn : weight seam.behind ≤ weight closing.pending := by
      rw [weight_of_takes htakes]
      omega
    obtain ⟨found', inside', hlike, hbegins, hread, hlt, hinside, hquiet⟩ :=
      hitem.recast hmeets (hinner.le_place_head hback) (hseamIn.trans hinner.weight_le) (by simp)
    obtain ⟨between', hbetween, hquietIn, hgoIn⟩ :=
      ihInner hinside hback hseamIn hfilledIn fun hstands => by
        rcases Declaration.marks_eq_nil_or (header.closed inner closing.head.span) with hnil | hgen
        · rw [hnil] at hstands
          exact absurd hstands hnot
        · exact .inl (hown hgen)
    obtain ⟨closing', hfill, hmeetsClosing, hquietFill⟩ := hbetween.fill hbrace hplace hnot
    obtain ⟨brace', outside', hbrace', hclose', houtside, hquietOut, hle⟩ :=
      hmeetsClosing.closingBrace hbrace hclose hnot hout hseamOut
    obtain ⟨after', hafter, hrequests, hgo⟩ :=
      ihRest houtside hmore hseam hfilledOut fun hstands =>
        (hcalm hstands).imp_left (solid_of_cons ·)
    cases hlike
    refine ⟨after', hafter, ?_, fun end' h => ?_⟩
    · rw [hrequests, hquietOut, hquietFill, hquietIn, hquiet]
    · have hinner' := hgoIn _ hfill
      exact .opened hbegins hread hlt hinner' hbrace' hclose'
        (hle.trans (hinner'.ready hinside.ready').2) (hgo end' h)

/-- Items that request nothing have no marks. -/
theorem ItemsMarked.marks_eq_nil (h : ItemsMarked source stream taken marks items after)
    (hquiet : after.requests = stream.requests) :
    marks = [] ∧ ∀ declaration ∈ Declaration.nestedIn items, declaration.generated = [] := by
  have hspans : spansOf marks = [] := by
    have hrequests := h.read.takes.2.requests
    rw [hquiet] at hrequests
    exact List.self_eq_append_right.1 hrequests
  have hnone : ∀ declaration ∈ Declaration.nestedIn items, declaration.generated = [] :=
    fun declaration hmem =>
      (Declaration.generated_of_nil (h.read.attachments_of_nil hspans declaration hmem)).1
  refine ⟨List.eq_nil_iff_forall_not_mem.2 fun mark hmem => ?_, hnone⟩
  cases mark with
  | request span =>
    have hin : span ∈ spansOf marks := List.mem_filterMap.2 ⟨_, hmem, rfl⟩
    rw [hspans] at hin
    cases hin
  | answer declaration =>
    obtain ⟨hnested, hgenerated⟩ := h.mem_answers hmem
    exact hgenerated (hnone declaration hnested)

/-- Items of a text of its own that request nothing are read in the second source, if they are
    read up to a brace. -/
theorem Seam.Echo.passes {limit : Nat} {tokens' : List Placed}
    (h : seam.Echo true stream.readTo 0 stream.pending tokens') (hready : Ready source stream)
    (hread : Reader.items source limit stream = .ok (items, after))
    (hquiet : after.requests = stream.requests) (hfinish : stream.finish = seam.finish)
    (hbehind : after.pending = seam.behind)
    (hbrace : (seam.behind'.headD seam.finish').token = .closing .curly) :
    Passes source' seam.finish' tokens' seam.behind' := by
  intro stream' hready' hpending hfinish'
  obtain ⟨taken, marks, hmarked, hafter⟩ := Reader.items_marked hready hread
  obtain ⟨rfl, hnone⟩ := hmarked.marks_eq_nil hquiet
  have hnext : seam.Next source' seam [] :=
    ⟨rfl, rfl, rfl, fun _ => rfl, fun _ _ _ => .behind⟩
  have hstep : seam.InStep true stream stream' :=
    ⟨hfinish, hfinish', by rw [hpending]; exact h.anywhere _ _⟩
  have hmeets : seam.Meets source source' ([] ++ []) stream stream' :=
    hstep.meets hnext hready hready'
  obtain ⟨after', hmeets, hrequests, hgo⟩ :=
    hmarked.recast hmeets (by simp) (by rw [hbehind])
      (fun declaration hmem hgenerated => absurd (hnone declaration hmem) hgenerated)
      fun _ => .inr ⟨rfl, .inl hbrace⟩
  have hleft : after'.pending = seam.behind' := hmeets.recast.eq_behind' hbehind
  refine ⟨after', hgo after' (.stop (.inl ?_)), hleft, hmeets.finish', hrequests⟩
  rw [TokenStream.head, hleft, hmeets.finish']
  exact hbrace

end

end Memberwise
