/-
  Memberwise/Proofs/Rereading.lean
  ================================
  **Sources are read as before when names get a type.**

  A source in which placeholders stand behind some names is read item by item as the
  one without them.  An item that keeps to a stretch between two placeholders is read
  as it was.  An item that does not is the member whose name got the type: up to the
  name it is read in one stretch, behind the placeholder in the next, and in between
  stands the type.

  So no declaration is lost or comes about, what is requested of it stays, and names
  that left room for a type and did not get one still do.
-/
import Memberwise.Proofs.Placeholders
import Memberwise.Proofs.Retracing

namespace Memberwise

/-! ### Reading past a name -/

theorem Refines.of_append {a b c : List Placed} (h : Refines (a ++ b) c) :
    ∃ front back, c = front ++ back ∧ Refines a front ∧ Refines b back := by
  induction a generalizing c with
  | nil => exact ⟨[], c, rfl, .nil, h⟩
  | cons placed a ih =>
    cases h with
    | keep _ h =>
      obtain ⟨front, back, rfl, hfront, hback⟩ := ih h
      exact ⟨placed :: front, back, rfl, .keep placed hfront, hback⟩
    | part hpart h =>
      obtain ⟨front, back, rfl, hfront, hback⟩ := ih h
      exact ⟨_ :: _ :: front, back, rfl, .part hpart hfront, hback⟩

theorem Refines.uncons_whole {placed : Placed} {a b : List Placed} (h : Refines (placed :: a) b)
    (hwhole : splitEquals? placed = none) : ∃ rest, b = placed :: rest ∧ Refines a rest := by
  cases h with
  | keep _ h => exact ⟨_, rfl, h⟩
  | part hpart _ =>
    rw [hwhole] at hpart
    cases hpart

/-- What is left of some tokens still holds a token that was among them, or that token has
    been taken. -/
theorem Refines.keeps_or_passes {front rest taken left : List Placed} {placed : Placed}
    (h : Refines (front ++ placed :: rest) (taken ++ left)) (hwhole : splitEquals? placed = none) :
    weight (placed :: rest) ≤ weight left ∨ ∃ past, Refines rest (past ++ left) := by
  obtain ⟨before, behind, hparts, -, hbehind⟩ := h.of_append
  rcases List.append_eq_append_iff.1 hparts with ⟨more, -, rfl⟩ | ⟨more, -, rfl⟩
  · left
    rw [weight_append, weight_of_refines hbehind]
    exact Nat.le_add_left _ _
  · obtain ⟨rest', hrest', hrefines⟩ := hbehind.uncons_whole hwhole
    cases more with
    | nil =>
      left
      rw [List.nil_append] at hbehind
      rw [weight_of_refines hbehind]
    | cons first past =>
      cases hrest'
      exact .inr ⟨past, hrefines⟩

def Past (source : List Char) (placed : Placed) (stream : TokenStream) : Prop :=
  ∃ past rest, Laid source placed.span.start (placed :: rest) (Text.width source) ∧
    Refines (placed :: rest) (past ++ stream.pending)

namespace Past

variable {source : List Char} {placed : Placed} {stream after : TokenStream}

theorem takes {taken : List Placed} {noted : List Span} (h : Past source placed stream)
    (htakes : Takes stream taken noted after) : Past source placed after := by
  obtain ⟨past, rest, hlaid, hrefines⟩ := h
  refine ⟨past ++ taken, rest, hlaid, ?_⟩
  rw [List.append_assoc]
  exact hrefines.trans ((Refines.refl past).append htakes.pending)

/-- A name that is still to be bound comes behind. -/
theorem lt_bare {pattern : Pattern} (h : Past source placed stream)
    (hbare : pattern.Bare stream.pending) : placed.span.start < pattern.span.start := by
  obtain ⟨past, rest, hlaid, hrefines⟩ := h
  obtain ⟨front, keyword, name, back, hparts, -, -, hspan, -⟩ := hbare.prepend past
  have hlaid' := (hrefines.laid hlaid).1
  rw [hparts, Laid.append_iff] at hlaid'
  obtain ⟨hfront, hkeyword, hsits, hname, -⟩ := hlaid'
  have hle := hfront.le
  have hlt := hsits.start_lt_stop
  rw [hspan]
  omega

/-- A name that reading has come to has been taken, if what comes next is no name. -/
theorem lt_head (h : Past source placed stream) (hready : Ready source stream)
    (hname : placed.token.isName = true) (hhead : stream.head.token.isName = false) :
    placed.span.start < stream.head.span.start := by
  obtain ⟨past, rest, hlaid, hrefines⟩ := h
  have hwhole : splitEquals? placed = none := by
    unfold splitEquals?
    split
    · next htoken =>
      rw [htoken] at hname
      cases hname
    · rfl
  obtain ⟨rest', hrest', hrefines'⟩ := hrefines.uncons_whole hwhole
  cases past with
  | nil =>
    rw [List.nil_append] at hrest'
    rw [TokenStream.head, hrest', List.headD_cons, hname] at hhead
    cases hhead
  | cons first past =>
    cases hrest'
    obtain ⟨-, hsits, hbehind⟩ := hlaid
    have hlt := hsits.start_lt_stop
    have hlaid' := (hrefines'.laid hbehind).1
    cases hpending : stream.pending with
    | nil =>
      rw [TokenStream.head, hpending, List.headD_nil, hready.finish_span]
      exact Nat.lt_of_lt_of_le hlt hlaid'.le
    | cons next more =>
      rw [TokenStream.head, hpending, List.headD_cons]
      rw [hpending] at hlaid'
      exact Nat.lt_of_lt_of_le hlt (hlaid'.le_start (by simp))

end Past

/-! ### Marked names and the members that bind them -/

/-- Every marked name between two places is bound by a member that some items have, which
    binds it only and gives it no type. -/
def Owned (marked : Span → Prop) (stream : TokenStream) (items : List BodyItem)
    (after : TokenStream) : Prop :=
  ∀ span, marked span → stream.head.span.start ≤ span.start →
    span.start < after.head.span.start → ∃ member binding, BodyItem.HaveMember items member ∧
      member.bindings = [binding] ∧ binding.type? = none ∧ binding.pattern.span = span

/-- An item is the member that binds a name and gives it no type. -/
def Item.Binds (found : Item) (span : Span) : Prop :=
  ∃ member binding, found = .entry (.property member) ∧ member.bindings = [binding] ∧
    binding.type? = none ∧ binding.pattern.span = span

namespace ItemsRead

variable {source : List Char} {stream between after : TokenStream} {taken : List Placed}
  {noted : List Span} {items : List BodyItem} {marked : Span → Prop} {name : Placed}

/-- No name that has been passed is bound by what is still to be read. -/
theorem not_bound (h : ItemsRead source stream taken noted items after)
    (hpast : Past source name stream) {member : Member} {binding : Binding}
    (hmember : BodyItem.HaveMember items member) (hsingle : member.bindings = [binding])
    (huntyped : binding.type? = none) : binding.pattern.span ≠ name.span := by
  intro hspan
  have hbare := h.bare hmember (by rw [hsingle]; rfl) huntyped
  have hlt := hpast.lt_bare hbare
  rw [hspan] at hlt
  exact Nat.lt_irrefl _ hlt

/-- The names that members bind alone lie between the places where reading starts and
    stops. -/
theorem bound_between (h : ItemsRead source stream taken noted items after) {member : Member}
    {binding : Binding} (hmember : BodyItem.HaveMember items member)
    (hsingle : member.bindings = [binding]) :
    stream.head.span.start ≤ binding.pattern.span.start ∧
      binding.pattern.span.start < after.head.span.start := by
  obtain ⟨spots, hspots⟩ := h.exists_spots
  have hmem := hspots.bound member hmember binding (by rw [hsingle]; rfl)
  have hlt : binding.pattern.span.start < binding.pattern.span.stop := (hspots.lie _ hmem).2
  have hbounds := hspots.inOrder.mem (List.mem_map_of_mem hmem)
  exact ⟨hbounds.1, Nat.lt_of_lt_of_le hlt hbounds.2⟩

/-- All names that have been passed are passed before reading stops. -/
theorem past_lt (h : ItemsRead source stream taken noted items after)
    (hpast : Past source name stream) (hname : name.token.isName = true) :
    name.span.start < after.head.span.start := by
  refine (hpast.takes h.takes.2).lt_head h.ready_after hname ?_
  rcases h.head_after with hhead | hhead <;> rw [hhead] <;> rfl

end ItemsRead

namespace Owned

variable {source : List Char} {stream between after : TokenStream} {attrs : List Attribute}
  {segments : List (List Placed)} {tail taken : List Placed} {noted noted' : List Span}
  {items : List BodyItem} {marked : Span → Prop} {name : Placed}

theorem mono (h : Owned marked stream items after)
    (hle : stream.head.span.start ≤ between.head.span.start) : Owned marked between items after :=
  fun span hmarked hstart hstop => h span hmarked (Nat.le_trans hle hstart) hstop

/-- No marked name is passed in front of all items. -/
theorem not_past (h : Owned marked stream items after)
    (hrest : ItemsRead source between taken noted items after)
    (hname : name.token.isName = true) (hmarked : marked name.span)
    (hstart : stream.head.span.start ≤ name.span.start) : ¬ Past source name between := by
  intro hpast
  obtain ⟨member, binding, hmember, hsingle, huntyped, hspan⟩ :=
    h name.span hmarked hstart (hrest.past_lt hpast hname)
  exact hrest.not_bound hpast hmember hsingle huntyped hspan

/-- Who binds a marked name that has been passed with the first item. -/
theorem entry_binds {entry : BodyItem} (h : Owned marked stream (entry :: items) after)
    (hitem : ItemTaken source stream between (.entry entry) attrs segments tail noted)
    (hrest : ItemsRead source between taken noted' items after) (hpast : Past source name between)
    (hname : name.token.isName = true) (hmarked : marked name.span)
    (hstart : stream.head.span.start ≤ name.span.start) : (Item.entry entry).Binds name.span := by
  obtain ⟨member, binding, hmember, hsingle, huntyped, hspan⟩ :=
    h name.span hmarked hstart (hrest.past_lt hpast hname)
  rw [BodyItem.HaveMember, hitem.nestedIn_entry, List.mem_cons, or_assoc] at hmember
  rcases hmember with rfl | hmember
  · exact ⟨member, binding, rfl, hsingle, huntyped, hspan⟩
  · exact absurd hspan (hrest.not_bound hpast hmember hsingle huntyped)

theorem entry_rest {entry : BodyItem} (h : Owned marked stream (entry :: items) after)
    (hitem : ItemTaken source stream between (.entry entry) attrs segments tail noted) :
    Owned marked between items after := by
  intro span hmarked hstart hstop
  have hle := hitem.ready.head_start_le hitem.takes
  obtain ⟨member, binding, hmember, hsingle, huntyped, hspan⟩ :=
    h span hmarked (Nat.le_trans hle hstart) hstop
  refine ⟨member, binding, ?_, hsingle, huntyped, hspan⟩
  rw [BodyItem.HaveMember, hitem.nestedIn_entry, List.mem_cons, or_assoc] at hmember
  rcases hmember with rfl | hmember
  · -- the names that the first item binds come in front
    obtain ⟨spots, hspots⟩ := hitem.entry_spots
    have hmem := hspots.bound member (.inl List.mem_cons_self) binding (by rw [hsingle]; rfl)
    have hlt : binding.pattern.span.start < binding.pattern.span.stop := (hspots.lie _ hmem).2
    have hbound : binding.pattern.span.stop ≤ between.head.span.start :=
      (hspots.inOrder.mem (List.mem_map_of_mem hmem)).2
    rw [hspan] at hlt hbound
    omega
  · exact hmember

section Nested

variable {inside closing outside : TokenStream} {header : Header} {inner : List BodyItem}
  {takenIn takenOut : List Placed} {notedIn notedOut : List Span} {close : Span}

theorem nested_inner (h : Owned marked stream (.nested (header.closed inner close) :: items) after)
    (hle : stream.head.span.start ≤ inside.head.span.start)
    (hclose : closing.head.span.start ≤ outside.head.span.start)
    (hrest : ItemsRead source outside takenOut notedOut items after) :
    Owned marked inside inner closing := by
  intro span hmarked hstart hstop
  have hend := hrest.takes.1.head_start_le hrest.takes.2
  obtain ⟨member, binding, hmember, hsingle, huntyped, hspan⟩ :=
    h span hmarked (Nat.le_trans hle hstart)
      (Nat.lt_of_lt_of_le hstop (Nat.le_trans hclose hend))
  refine ⟨member, binding, ?_, hsingle, huntyped, hspan⟩
  rcases BodyItem.haveMember_nested.1 hmember with hmember | hmember
  · exact hmember
  · have hbound := (hrest.bound_between hmember hsingle).1
    rw [hspan] at hbound
    omega

theorem nested_rest (h : Owned marked stream (.nested (header.closed inner close) :: items) after)
    (hle : stream.head.span.start ≤ outside.head.span.start)
    (hinner : ItemsRead source inside takenIn notedIn inner closing)
    (hclose : closing.head.span.start ≤ outside.head.span.start) :
    Owned marked outside items after := by
  intro span hmarked hstart hstop
  obtain ⟨member, binding, hmember, hsingle, huntyped, hspan⟩ :=
    h span hmarked (Nat.le_trans hle hstart) hstop
  refine ⟨member, binding, ?_, hsingle, huntyped, hspan⟩
  rcases BodyItem.haveMember_nested.1 hmember with hmember | hmember
  · have hbound := (hinner.bound_between hmember hsingle).2
    rw [hspan] at hbound
    omega
  · exact hmember

/-- No marked name is passed with a header. -/
theorem header_not_past
    (h : Owned marked stream (.nested (header.closed inner close) :: items) after)
    (hinner : ItemsRead source inside takenIn notedIn inner closing)
    (hclose : Takes closing [closing.head] [] outside)
    (hrest : ItemsRead source outside takenOut notedOut items after)
    (hname : name.token.isName = true) (hmarked : marked name.span)
    (hstart : stream.head.span.start ≤ name.span.start) : ¬ Past source name inside := by
  intro hpast
  have hpast' := (hpast.takes hinner.takes.2).takes hclose
  obtain ⟨member, binding, hmember, hsingle, huntyped, hspan⟩ :=
    h name.span hmarked hstart (hrest.past_lt hpast' hname)
  rcases BodyItem.haveMember_nested.1 hmember with hmember | hmember
  · exact hinner.not_bound hpast hmember hsingle huntyped hspan
  · exact hrest.not_bound hpast' hmember hsingle huntyped hspan

end Nested

end Owned

/-! ### Items in stretches -/

namespace Stretch

variable {source source' : List Char} {finish finish' : Placed}
  {stretch : Stretch source source' finish finish'} {stream stream' after : TokenStream}
  {marked : Span → Prop} {all all' taken : List Placed} {noted : List Span}

theorem Alike.exists_append {pending pending' : List Placed}
    (h : stretch.Alike pending pending') :
    ∃ front front', pending = front ++ stretch.behind ∧ pending' = front' ++ stretch.behind' ∧
      List.Forall₂ (Placed.Moved stretch.shift) front front' := by
  induction h with
  | behind => exact ⟨[], [], rfl, rfl, .nil⟩
  | cons hmoved _ ih =>
    obtain ⟨front, front', rfl, rfl, hfront⟩ := ih
    exact ⟨_ :: front, _ :: front', rfl, rfl, .cons hmoved hfront⟩

/-- The place in front of the name that a stretch ends at. -/
theorem InStep.laid_mark (h : stretch.InStep stream stream') {keyword name : Placed}
    {rest : List Placed} (hbehind : stretch.behind = keyword :: name :: rest) :
    stream.head.span.start < name.span.start ∧
      Laid source name.span.start (name :: rest) (Text.width source) := by
  obtain ⟨front, -, hpending, -, -⟩ := h.pending.exists_append
  have hlaid := h.ready.laid
  rw [hpending, hbehind, Laid.append_iff] at hlaid
  obtain ⟨-, -, hsits, hstart, hlaid⟩ := hlaid
  have hlt := hsits.start_lt_stop
  have hle := h.head_le
  rw [hbehind, List.headD_cons] at hle
  exact ⟨by omega, Nat.le_refl _, hlaid⟩

/-- Reading keeps to a stretch, or it passes the name that the stretch ends at. -/
theorem InStep.keeps_or_past (h : stretch.InStep stream stream')
    (hends : stretch.Ends marked all all') (htakes : Takes stream taken noted after) :
    weight stretch.behind ≤ weight after.pending ∨
      ∃ keyword name rest, stretch.behind = keyword :: name :: rest ∧ name.token.isName = true ∧
        marked name.span ∧ stream.head.span.start ≤ name.span.start ∧ Past source name after := by
  cases hends with
  | finish hbehind =>
    left
    rw [hbehind]
    exact Nat.zero_le _
  | @mark keyword _ name _ _ rest _ _ _ _ _ hbehind _ _ hname hmarked _ _ _ _ _ _ _ =>
    obtain ⟨front, -, hpending, -, -⟩ := h.pending.exists_append
    have hrefines := htakes.pending
    rw [hpending, hbehind] at hrefines
    have hwhole := stretch.whole keyword (by rw [hbehind]; rfl)
    rcases hrefines.keeps_or_passes hwhole with hkeeps | ⟨past, hpast⟩
    · rw [hbehind]
      exact .inl hkeeps
    · obtain ⟨hlt, hlaid⟩ := h.laid_mark hbehind
      exact .inr ⟨keyword, name, rest, hbehind, hname, hmarked, Nat.le_of_lt hlt, past, rest,
        hlaid, hpast⟩

/-- Streams that come to the name a stretch ends at have come to the end of the stretch. -/
theorem Alike.eq_behind {first second keyword name : Placed} {rest more pending' : List Placed}
    {low high : Nat} (h : stretch.Alike (first :: second :: more) pending')
    (hbehind : stretch.behind = keyword :: name :: rest)
    (hlaid : Laid source low (first :: second :: more) high) (hspan : second.span = name.span) :
    first :: second :: more = stretch.behind ∧ pending' = stretch.behind' := by
  obtain ⟨front, front', hparts, rfl, hfront⟩ := h.exists_append
  cases hfront with
  | nil => exact ⟨hparts, rfl⟩
  | @cons placed _ front _ _ _ =>
    -- the name would come behind itself
    rw [hbehind, List.cons_append, List.cons.injEq] at hparts
    obtain ⟨-, -, -, hsits, hlaid⟩ := hlaid
    have hmem : name ∈ more := by
      cases front with
      | nil =>
        cases hparts.2
        exact List.mem_cons_self
      | cons _ front =>
        cases hparts.2
        simp
    have hle := hlaid.le_start hmem
    have hlt := hsits.start_lt_stop
    rw [hspan] at hle hlt
    omega

end Stretch

namespace Reader

variable {source source' : List Char} {stream stream' after : TokenStream}

/-! ### Reading a placeholder -/

/-- What comes behind a placeholder is no part of the type. -/
theorem ends_of_leavesRoom {shift : Nat} {name next next' : Placed}
    (h : leavesRoom name next = true) (hmoved : next.Moved shift next') :
    splitEquals? next' = none ∧ endsType false next' = true := by
  simp only [leavesRoom, Bool.and_eq_true] at h
  obtain ⟨⟨⟨hends, -⟩, -⟩, hroom⟩ := h
  refine ⟨?_, by rw [endsType_moved hmoved, hends]⟩
  rw [splitEquals?, hmoved.token]
  split
  · next htoken =>
    rw [htoken] at hroom
    cases hroom
  · rfl

theorem typeRun_cons {first : Bool} {depth inside : Nat} {placed : Placed} {rest : List Placed}
    (hwhole : splitEquals? placed = none) (hgoes : depth = 0 → endsType first placed = false)
    (hdepth : typeDepth placed.token depth = inside) :
    typeRun first depth (placed :: rest) = andTake placed (typeRun false inside rest) := by
  have hnot : ¬ (depth = 0 ∧ endsType first placed = true) := by
    rintro ⟨hzero, hends⟩
    rw [hgoes hzero] at hends
    cases hends
  rw [typeRun, hwhole]
  simp only [if_neg hnot, hdepth]

theorem typeRun_placeholder {start : Nat} {typing rest : List Placed} {colon : Placed}
    (h : IsPlaceholder start (colon :: typing))
    (hrest : ∀ next ∈ rest.head?, splitEquals? next = none ∧ endsType false next = true) :
    typeRun true 0 (typing ++ rest) = (typing, rest) := by
  have htokens := h.tokens
  simp only [List.map_cons, List.cons.injEq, List.map_eq_cons_iff, List.map_eq_nil_iff] at htokens
  obtain ⟨-, less, _, rfl, hless, type, _, rfl, htype, sign, _, rfl, hsign, more, _, rfl, hmore,
    rfl⟩ := htokens
  have hstop : typeRun false 0 rest = ([], rest) := by
    cases rest with
    | nil => rfl
    | cons next rest =>
      obtain ⟨hwhole, hends⟩ := hrest next rfl
      simp [typeRun, hwhole, hends]
  have hwhole : ∀ placed ∈ [less, type, sign, more], splitEquals? placed = none := by
    simp [splitEquals?, hless, htype, hsign, hmore]
  simp only [List.forall_mem_cons] at hwhole
  obtain ⟨hless', htype', hsign', hmore', -⟩ := hwhole
  have hbegin : endsType true less = false := by simp [endsType, hless]
  have hopen : typeDepth less.token 0 = 1 := by rw [hless]; rfl
  have hinside : typeDepth type.token 1 = 1 := by rw [htype]; rfl
  have hinside' : typeDepth sign.token 1 = 1 := by rw [hsign]; rfl
  have hclose : typeDepth more.token 1 = 0 := by rw [hmore]; rfl
  simp only [List.cons_append, List.nil_append]
  rw [typeRun_cons hless' (fun _ => hbegin) hopen, typeRun_cons htype' (by simp) hinside,
    typeRun_cons hsign' (by simp) hinside', typeRun_cons hmore' (by simp) hclose, hstop]
  rfl

/-- A placeholder is read as a type. -/
theorem type?_placeholder {start : Nat} {typing rest : List Placed}
    (h : IsPlaceholder start typing) (hpending : stream.pending = typing ++ rest)
    (hrest : ∀ next ∈ rest.head?, splitEquals? next = none ∧ endsType false next = true) :
    ∃ written, type? source stream = .ok (some written,
      { stream with pending := rest, readTo := start + 10 }) := by
  have hstop := h.stop
  cases typing with
  | nil =>
    have := h.tokens
    simp at this
  | cons colon typing =>
    have hcolon : stream.head.token = .colon := by
      have := h.tokens
      rw [TokenStream.head, hpending]
      simp only [List.map_cons, List.cons.injEq] at this
      exact this.1
    have hrun := typeRun_placeholder h hrest
    have hlast : ∃ last, typing.getLast? = some last := by
      have htokens := congrArg List.length h.tokens
      cases typing with
      | nil => simp at htokens
      | cons second typing => exact ⟨_, List.getLast?_eq_some_getLast (List.cons_ne_nil _ _)⟩
    obtain ⟨last, hlast⟩ := hlast
    rw [endOf_cons, endOf_eq_of_getLast? hlast] at hstop
    let behind : TokenStream := { stream with pending := typing ++ rest, readTo := colon.span.stop }
    have hnext : next stream = .ok (colon, behind) := by
      rw [next, hpending]
      rfl
    have htake : take (typeRun true 0) behind =
        .ok (typing, { stream with pending := rest, readTo := start + 10 }) := by
      simp only [take, behind, hrun, hlast, Option.map_some, Option.getD_some, hstop]
    refine ⟨⟨sourceText source behind.head.span.start last.span.stop,
      behind.head.span.upTo last.span.stop⟩, ?_⟩
    rw [type?, peek_bind_eq_ok, hcolon]
    simp only [bind_eq_ok, pure_eq_ok]
    refine ⟨colon, behind, hnext, _, _, ?_, rfl, rfl⟩
    rw [type, peek_bind_eq_ok, bind_eq_ok]
    refine ⟨typing, _, htake, ?_⟩
    rw [hlast]
    exact pure_eq_ok.2 ⟨rfl, rfl⟩

/-! ### Members that bind one name -/

theorem bindings_ne_nil {limit : Nat} {bindings : List Binding}
    (h : Reader.bindings source limit stream = .ok (bindings, after)) : bindings ≠ [] := by
  cases limit with
  | zero => exact absurd h tooLong_ne_ok
  | succ limit =>
    rw [Reader.bindings, bind_eq_ok] at h
    obtain ⟨first, between, -, h⟩ := h
    rw [peek_bind_eq_ok] at h
    generalize between.head.token = token at h
    split at h
    · simp only [bind_eq_ok, pure_eq_ok] at h
      obtain ⟨_, _, -, _, _, -, rfl, -⟩ := h
      exact List.cons_ne_nil _ _
    · obtain ⟨rfl, -⟩ := pure_eq_ok.1 h
      exact List.cons_ne_nil _ _

/-- The parts of a member that binds one name are read one after another. -/
theorem property_eq_single {start : Span} {attrs : List Attribute} {isStatic : Bool}
    {member : Member} {binding : Binding} (hsingle : member.bindings = [binding])
    (h : property source start attrs isStatic stream = .ok (.property member, after)) :
    ∃ keyword behind found noted named typed valued, next stream = .ok (keyword, behind) ∧
      markers attrs behind = .ok (found, noted) ∧ name noted = .ok (binding.pattern, named) ∧
      type? source named = .ok (binding.type?, typed) ∧
      initializer? source typed = .ok (binding.initializer?, valued) ∧
      accessors valued = .ok (binding.accessors, after) ∧ after.head.token ≠ .comma := by
  rw [property, bind_eq_ok] at h
  obtain ⟨keyword, behind, hnext, h⟩ := h
  rw [peek_bind_eq_ok] at h
  generalize behind.head.token = token at h
  split at h
  · rw [bind_eq_ok] at h
    obtain ⟨found, noted, hmarkers, h⟩ := h
    rw [bind_eq_ok] at h
    obtain ⟨bindings, _, hbindings, h⟩ := h
    rw [get_bind_eq_ok, pure_eq_ok] at h
    obtain ⟨heq, rfl⟩ := h
    cases heq
    obtain rfl : bindings = [binding] := hsingle
    rw [readingLimit, Reader.bindings, bind_eq_ok] at hbindings
    obtain ⟨first, between, hfirst, hbindings⟩ := hbindings
    rw [peek_bind_eq_ok] at hbindings
    generalize htoken : between.head.token = token at hbindings
    split at hbindings
    · -- there would be a second name
      simp only [bind_eq_ok, pure_eq_ok] at hbindings
      obtain ⟨_, _, -, more, _, hmore, heq, -⟩ := hbindings
      cases heq
      exact absurd rfl (bindings_ne_nil hmore)
    · next hcomma =>
      obtain ⟨heq, rfl⟩ := pure_eq_ok.1 hbindings
      cases heq
      simp only [Reader.binding, bind_eq_ok, pure_eq_ok] at hfirst
      obtain ⟨pattern, named, hname, type?, typed, htype, initializer?, valued, hvalue, accessors,
        _, haccessors, rfl, rfl⟩ := hfirst
      exact ⟨keyword, behind, found, noted, named, typed, valued, hnext, hmarkers, hname, htype,
        hvalue, haccessors, htoken ▸ hcomma⟩
  · simp only [bind_eq_ok, pure_eq_ok] at h
    obtain ⟨_, _, -, heq, -⟩ := h
    cases heq

theorem property_of_single (binding : Binding) (start : Span) {attrs : List Attribute}
    (isStatic : Bool) {keyword : Placed} {found : List Marker}
    {behind noted named typed valued : TokenStream} (hnext : next stream = .ok (keyword, behind))
    (hname : behind.head.token.isName = true) (hmarkers : markers attrs behind = .ok (found, noted))
    (hnamed : name noted = .ok (binding.pattern, named))
    (htyped : type? source named = .ok (binding.type?, typed))
    (hvalued : initializer? source typed = .ok (binding.initializer?, valued))
    (haccessors : accessors valued = .ok (binding.accessors, after))
    (hcomma : after.head.token ≠ .comma) :
    property source start attrs isStatic stream = .ok (.property ⟨found, isStatic,
      if keyword.token = .name "let" then .immutable else .mutable, [binding],
      start.upTo after.readTo⟩, after) := by
  have hbinding : Reader.binding source noted = .ok (binding, after) := by
    simp only [Reader.binding, bind_eq_ok, pure_eq_ok]
    exact ⟨_, named, hnamed, _, typed, htyped, _, valued, hvalued, _, after, haccessors, rfl, rfl⟩
  have hbindings : bindings source (readingLimit source) noted = .ok ([binding], after) := by
    rw [readingLimit, bindings, bind_eq_ok]
    refine ⟨binding, after, hbinding, ?_⟩
    rw [peek_bind_eq_ok]
    generalize after.head.token = token at hcomma
    split
    · exact absurd rfl hcomma
    · exact pure_eq_ok.2 ⟨rfl, rfl⟩
  rw [property, bind_eq_ok]
  refine ⟨keyword, behind, hnext, ?_⟩
  rw [peek_bind_eq_ok]
  generalize behind.head.token = token at hname
  split
  · rw [bind_eq_ok]
    refine ⟨found, noted, hmarkers, ?_⟩
    rw [bind_eq_ok]
    refine ⟨[binding], after, hbindings, ?_⟩
    rw [get_bind_eq_ok]
    exact pure_eq_ok.2 ⟨rfl, rfl⟩
  · next hother =>
    cases token with
    | name text => exact absurd rfl (hother text)
    | _ => cases hname

/-- What the attributes of a member say does not depend on the tokens that come next. -/
theorem markers_again {attrs attrs' : List Attribute} {found : List Marker}
    (h : List.Forall₂ Attribute.Alike attrs attrs')
    (hread : markers attrs stream = .ok (found, after)) (stream' : TokenStream) :
    ∃ after', markers attrs' stream' = .ok (found, after') := by
  induction h generalizing stream stream' found after with
  | nil =>
    obtain ⟨rfl, -⟩ := pure_eq_ok.1 hread
    exact ⟨stream', rfl⟩
  | @cons first first' rest rest' hfirst _ ih =>
    simp only [markers, bind_eq_ok, pure_eq_ok] at hread
    obtain ⟨marker, _, htyped, _, _, -, more, _, hmore, rfl, -⟩ := hread
    obtain ⟨hmarker, -⟩ := typed_eq_ok.1 htyped
    obtain ⟨after', hmore'⟩ := ih hmore
      { stream' with requests := stream'.requests ++
        if marker.key?.isSome then [first'.span] else [] }
    refine ⟨after', ?_⟩
    simp only [markers, bind_eq_ok, pure_eq_ok]
    exact ⟨marker, stream', typed_eq_ok.2 ⟨hfirst.marker_eq.trans hmarker, rfl⟩, (), _, rfl, more,
      after', hmore', rfl, rfl⟩

theorem item_eq_property {member : Member}
    (h : item source stream = .ok (.entry (.property member), after)) :
    ∃ attrs between isStatic here,
      attributes source (readingLimit source) stream = .ok (attrs, between) ∧
      modifiers between = .ok (isStatic, here) ∧
      (here.head.token = .name "let" ∨ here.head.token = .name "var") ∧
      property source stream.head.span attrs isStatic here = .ok (.property member, after) := by
  rw [item, peek_bind_eq_ok, bind_eq_ok] at h
  obtain ⟨attrs, between, hattrs, h⟩ := h
  rw [bind_eq_ok] at h
  obtain ⟨isStatic, here, hmodifiers, h⟩ := h
  refine ⟨attrs, between, isStatic, here, hattrs, hmodifiers, ?_⟩
  rw [get_bind_eq_ok] at h
  generalize here.head.token = token at h ⊢
  split at h
  · simp only [bind_eq_ok, pure_eq_ok] at h
    obtain ⟨_, _, -, heq, -⟩ := h
    cases heq
  · split at h
    · next hword =>
      simp only [bind_eq_ok, pure_eq_ok] at h
      obtain ⟨_, _, hproperty, heq, rfl⟩ := h
      cases heq
      exact ⟨by simpa using hword, hproperty⟩
    · generalize Declaration.Kind.ofKeyword? _ = kind? at h
      generalize here.second.token.isName = named at h
      split at h
      · simp only [bind_eq_ok, pure_eq_ok] at h
        obtain ⟨_, _, -, heq, -⟩ := h
        cases heq
      · simp only [bind_eq_ok, pure_eq_ok] at h
        obtain ⟨_, _, -, heq, -⟩ := h
        cases heq
  · simp only [bind_eq_ok, pure_eq_ok] at h
    obtain ⟨_, _, -, heq, -⟩ := h
    cases heq

theorem item_of_property {attrs : List Attribute} {isStatic : Bool} {found : BodyItem}
    {between here : TokenStream}
    (hattrs : attributes source (readingLimit source) stream = .ok (attrs, between))
    (hmodifiers : modifiers between = .ok (isStatic, here))
    (hkeyword : here.head.token = .name "let" ∨ here.head.token = .name "var")
    (hproperty : property source stream.head.span attrs isStatic here = .ok (found, after)) :
    item source stream = .ok (.entry found, after) := by
  rw [item, peek_bind_eq_ok, bind_eq_ok]
  refine ⟨attrs, between, hattrs, ?_⟩
  rw [bind_eq_ok]
  refine ⟨isStatic, here, hmodifiers, ?_⟩
  rw [get_bind_eq_ok]
  have hentry : (property source stream.head.span attrs isStatic >>= fun found =>
      pure (Item.entry found)) here = .ok (.entry found, after) := by
    simp only [bind_eq_ok, pure_eq_ok]
    exact ⟨found, after, hproperty, rfl, rfl⟩
  rcases hkeyword with hword | hword
  · simpa [hword] using hentry
  · simpa [hword] using hentry

theorem name_of_cons {placed : Placed} {rest : List Placed} {text : String}
    (hpending : stream.pending = placed :: rest) (htoken : placed.token = .name text) :
    name stream = .ok (⟨text, placed.span⟩,
      { stream with pending := rest, readTo := placed.span.stop }) := by
  have hhead : stream.head.token = .name text := by
    rw [TokenStream.head, hpending]
    exact htoken
  rw [name, peek_bind_eq_ok, hhead]
  simp only [bind_eq_ok, pure_eq_ok]
  exact ⟨placed, _, by rw [next, hpending], rfl, rfl⟩

theorem type?_eq_none {named typed : TokenStream} (h : type? source named = .ok (none, typed)) :
    typed = named ∧ named.head.token ≠ .colon := by
  rw [type?, peek_bind_eq_ok] at h
  generalize named.head.token = token at h ⊢
  split at h
  · simp only [bind_eq_ok, pure_eq_ok] at h
    obtain ⟨_, _, -, _, _, -, heq, -⟩ := h
    cases heq
  · next hcolon =>
    obtain ⟨-, rfl⟩ := pure_eq_ok.1 h
    exact ⟨rfl, hcolon⟩

/-! ### The member whose name gets a type -/

/-- How a member is read that binds one name and gives it no type: up to the keyword, over the
    keyword and the name, and on behind the name. -/
structure UntypedRead (source : List Char) (stream after : TokenStream) (binding : Binding) where
  attrs : List Attribute
  found : List Marker
  isStatic : Bool
  keyword : Placed
  named : Placed
  (between here behind noted rest valued : TokenStream)
  attributes_eq : attributes source (readingLimit source) stream = .ok (attrs, between)
  modifiers_eq : modifiers between = .ok (isStatic, here)
  pending_eq : here.pending = keyword :: named :: rest.pending
  keyword_token : keyword.token = .name "let" ∨ keyword.token = .name "var"
  markers_eq : markers attrs behind = .ok (found, noted)
  name_token : named.token = .name binding.pattern.name
  name_span : binding.pattern.span = named.span
  not_colon : rest.head.token ≠ .colon
  initializer_eq : initializer? source rest = .ok (binding.initializer?, valued)
  accessors_eq : accessors valued = .ok (binding.accessors, after)
  not_comma : after.head.token ≠ .comma
  ready : Ready source rest
  finish_eq : rest.finish = here.finish
  readTo_eq : rest.readTo = named.span.stop
  start_le : stream.head.span.start ≤ rest.head.span.start
  passed : named.span.start < rest.head.span.start

theorem exists_untypedRead {member : Member} {binding : Binding} (hready : Ready source stream)
    (hitem : item source stream = .ok (.entry (.property member), after))
    (hsingle : member.bindings = [binding]) (huntyped : binding.type? = none) :
    Nonempty (UntypedRead source stream after binding) := by
  obtain ⟨attrs, between, isStatic, here, hattrs, hmodifiers, hkeyword, hproperty⟩ :=
    item_eq_property hitem
  obtain ⟨first, behind, found, noted, rest, typed, valued, hnext, hmarkers, hname, htype,
    hvalue, haccessors, hcomma⟩ := property_eq_single hsingle hproperty
  rw [huntyped] at htype
  obtain ⟨rfl, hcolon⟩ := type?_eq_none htype
  obtain ⟨_, hattrsTakes, -⟩ := attributes_takes hready hattrs
  obtain ⟨_, hmodifiersTakes, -⟩ := modifiers_takes hmodifiers
  have hfront := hattrsTakes.trans hmodifiersTakes
  have hhere := (hready.taken hfront).2
  have hnotEnd : here.head.token ≠ .endOfInput := by
    rcases hkeyword with hword | hword <;> rw [hword] <;> simp
  obtain ⟨rfl, hpending, hnextTakes⟩ := next_takes hhere hnotEnd hnext
  obtain ⟨hmarkersTakes, hnoted, -⟩ := markers_takes hmarkers
  have hnotedReady := ((hhere.taken hnextTakes).2.taken hmarkersTakes).2
  obtain ⟨htoken, hspan, hnamed, hnameTakes⟩ := name_takes hnotedReady hname
  have htyped := (hnotedReady.taken hnameTakes).2
  have hreadTo : typed.readTo = noted.head.span.stop := hnameTakes.readTo
  have hpassed : noted.head.span.start < typed.head.span.start := by
    have hlaid := hnotedReady.laid
    rw [hnamed] at hlaid
    have hle := htyped.readTo_le_head
    rw [hreadTo] at hle
    exact Nat.lt_of_lt_of_le hlaid.2.1.start_lt_stop hle
  exact ⟨{
    attrs, found, isStatic, between, here, behind, noted, valued
    keyword := here.head
    named := noted.head
    rest := typed
    attributes_eq := hattrs
    modifiers_eq := hmodifiers
    pending_eq := by rw [hpending, ← hnoted, hnamed]
    keyword_token := hkeyword
    markers_eq := hmarkers
    name_token := htoken
    name_span := hspan
    not_colon := hcolon
    initializer_eq := hvalue
    accessors_eq := haccessors
    not_comma := hcomma
    ready := htyped
    finish_eq := by rw [hnameTakes.finish, hmarkersTakes.finish, hnextTakes.finish]
    readTo_eq := hreadTo
    start_le := hready.head_start_le
      (((hfront.trans hnextTakes).trans hmarkersTakes).trans hnameTakes)
    passed := hpassed }⟩

theorem UntypedRead.bare {binding : Binding} (steps : UntypedRead source stream after binding) :
    binding.pattern.Bare steps.here.pending := by
  refine ⟨[], steps.keyword, steps.named, steps.rest.pending, steps.pending_eq,
    steps.keyword_token, steps.name_token, steps.name_span, ?_⟩
  intro next hnext
  have hcolon := steps.not_colon
  rwa [TokenStream.head, List.headD_eq_head?_getD, Option.mem_def.1 hnext] at hcolon

/-- A keyword, a name and a placeholder are read one after another. -/
theorem typed_name_of_pending (source : List Char) {here before noted : TokenStream}
    {keyword named : Placed} {typing rest : List Placed} {text : String}
    {attrs attrs' : List Attribute} {found : List Marker}
    (hpending : here.pending = keyword :: named :: (typing ++ rest))
    (htoken : named.token = .name text) (htyping : IsPlaceholder named.span.stop typing)
    (hrest : ∀ next ∈ rest.head?, splitEquals? next = none ∧ endsType false next = true)
    (halike : List.Forall₂ Attribute.Alike attrs attrs')
    (hmarkers : markers attrs before = .ok (found, noted)) :
    ∃ behind' noted' named' typed' written, next here = .ok (keyword, behind') ∧
      behind'.head.token.isName = true ∧ markers attrs' behind' = .ok (found, noted') ∧
      name noted' = .ok (⟨text, named.span⟩, named') ∧
      type? source named' = .ok (some written, typed') ∧ typed'.pending = rest ∧
      typed'.readTo = named.span.stop + 10 ∧ typed'.finish = here.finish := by
  let behind' : TokenStream :=
    { here with pending := named :: (typing ++ rest), readTo := keyword.span.stop }
  have hnext : next here = .ok (keyword, behind') := by rw [next, hpending]
  obtain ⟨noted', hmarkers'⟩ := markers_again halike hmarkers behind'
  obtain ⟨htakes, hnoted, -⟩ := markers_takes hmarkers'
  let named' : TokenStream := { noted' with pending := typing ++ rest, readTo := named.span.stop }
  have hnamed : name noted' = .ok (⟨text, named.span⟩, named') := name_of_cons hnoted htoken
  have htyped : ∃ written, type? source named' = .ok (some written,
      { named' with pending := rest, readTo := named.span.stop + 10 }) :=
    type?_placeholder htyping rfl hrest
  obtain ⟨written, htyped⟩ := htyped
  exact ⟨behind', noted', named', _, written, hnext, congrArg Token.isName htoken, hmarkers',
    hnamed, htyped, rfl, rfl, htakes.finish⟩

section Mark

variable {finish finish' : Placed} {stretch : Stretch source source' finish finish'}
  {marked : Span → Prop} {all all' : List Placed}

/-- Up to its keyword, the member is read in the stretch that ends there. -/
theorem reaches_mark (hstep : stretch.InStep stream stream')
    (hends : stretch.Ends marked all all') {keyword name : Placed} {rest : List Placed}
    (hbehind : stretch.behind = keyword :: name :: rest) {attrs : List Attribute}
    {isStatic : Bool} {between here : TokenStream}
    (hattrs : attributes source (readingLimit source) stream = .ok (attrs, between))
    (hmodifiers : modifiers between = .ok (isStatic, here)) {pattern : Pattern}
    (hbare : pattern.Bare here.pending) {first second : Placed} {more : List Placed}
    (hpending : here.pending = first :: second :: more) (hsecond : second.span = name.span)
    (hpattern : pattern.span = name.span) :
    ∃ attrs' between' isStatic' here',
      attributes source' (readingLimit source') stream' = .ok (attrs', between') ∧
      modifiers between' = .ok (isStatic', here') ∧
      List.Forall₂ Attribute.Alike attrs attrs' ∧ stretch.InStep here here' ∧
      here.pending = stretch.behind ∧ here'.pending = stretch.behind' := by
  obtain ⟨segments, hattrsTakes, -⟩ := attributes_takes hstep.ready hattrs
  obtain ⟨_, hmodifiersTakes, -⟩ := modifiers_takes hmodifiers
  have htakes := hattrsTakes.trans hmodifiersTakes
  -- the name has not been passed yet
  have hkeeps : weight stretch.behind ≤ weight here.pending := by
    rcases hstep.keeps_or_past hends htakes with hkeeps | ⟨_, _, _, hbehind', -, -, -, hpast⟩
    · exact hkeeps
    · cases hbehind.symm.trans hbehind'
      have hlt := hpast.lt_bare hbare
      rw [hpattern] at hlt
      exact absurd hlt (Nat.lt_irrefl _)
  have hfollows : Follows stretch modifiers modifiers fun _ _ => True := modifiers_follows
  obtain ⟨attrs', between', hattrs', hstep', halike⟩ :=
    (attributes_follows (readingLimit_le stretch)).follows hstep hattrs
      (Nat.le_trans hkeeps (hfollows.shrinks hmodifiers))
  obtain ⟨isStatic', here', hmodifiers', hhere, -⟩ := hfollows.follows hstep' hmodifiers hkeeps
  have hlaid := hhere.ready.laid
  have hpending' := hhere.pending
  rw [hpending] at hlaid hpending'
  obtain ⟨heq, heq'⟩ := hpending'.eq_behind hbehind hlaid hsecond
  exact ⟨attrs', between', isStatic', here', hattrs', hmodifiers', halike, hhere,
    hpending.trans heq, heq'⟩

/-- Behind its type, the member is read in the next stretch. -/
theorem rest_of_member (hstep : stretch.InStep stream stream')
    (hends : stretch.Ends marked all all') {value? : Option Expr} {valued : TokenStream}
    {block : Accessors} (hvalue : initializer? source stream = .ok (value?, valued))
    (hblock : accessors valued = .ok (block, after))
    (hnone : ∀ name : Placed, name.token.isName = true → marked name.span →
      stream.head.span.start ≤ name.span.start → ¬ Past source name after) :
    ∃ value?' valued' block' after', initializer? source' stream' = .ok (value?', valued') ∧
      accessors valued' = .ok (block', after') ∧ stretch.InStep after after' := by
  obtain ⟨_, hvalueTakes, -⟩ := initializer?_takes hstep.ready hvalue
  obtain ⟨_, hblockTakes, -⟩ := accessors_takes (hstep.ready.taken hvalueTakes).2 hblock
  have hkeeps : weight stretch.behind ≤ weight after.pending := by
    rcases hstep.keeps_or_past hends (hvalueTakes.trans hblockTakes) with
      hkeeps | ⟨_, name, _, -, hname, hmarked, hstart, hpast⟩
    · exact hkeeps
    · exact absurd hpast (hnone name hname hmarked hstart)
  have hfollows : Follows stretch accessors accessors fun _ _ => True := accessors_follows
  obtain ⟨value?', valued', hvalue', hstep', -⟩ :=
    initializer?_follows.follows hstep hvalue (Nat.le_trans hkeeps (hfollows.shrinks hblock))
  obtain ⟨block', after', hblock', hstep'', -⟩ := hfollows.follows hstep' hblock hkeeps
  exact ⟨value?', valued', block', after', hvalue', hblock', hstep''⟩

end Mark

end Reader

/-! ### What stays as it was -/

/-- If a member binds one name and gives it no type, there is room for one. -/
def Member.Roomy (tokens : Tokens) (member : Member) : Prop :=
  ∀ binding, member.bindings = [binding] → binding.type? = none → binding.pattern.HasRoom tokens

instance (tokens : Tokens) (member : Member) : Decidable (member.Roomy tokens) :=
  match hbindings : member.bindings with
  | [] => .isTrue (by simp [Member.Roomy, hbindings])
  | [binding] =>
    decidable_of_iff (binding.type? = none → binding.pattern.HasRoom tokens)
      (by simp [Member.Roomy, hbindings])
  | _ :: _ :: _ => .isTrue (by simp [Member.Roomy, hbindings])

/-- Of a declaration an initializer is requested only if it takes one, and its members have
    room for types. -/
structure Declaration.Roomy (tokens : Tokens) (declaration : Declaration) : Prop where
  applies : ∀ attachment ∈ declaration.attachments, attachment.request = .publicInit →
    declaration.kind.takesInitializer = true
  members : ∀ member ∈ declaration.members, member.Roomy tokens

instance (tokens : Tokens) (declaration : Declaration) : Decidable (declaration.Roomy tokens) :=
  decidable_of_iff
    ((∀ attachment ∈ declaration.attachments, attachment.request = .publicInit →
      declaration.kind.takesInitializer = true) ∧
      ∀ member ∈ declaration.members, member.Roomy tokens)
    ⟨fun h => ⟨h.1, h.2⟩, fun h => ⟨h.applies, h.members⟩⟩

/-- An item that holds no declaration, and whose names have room if those of another have. -/
structure BodyItem.Outgrows (tokens tokens' : Tokens) (item item' : BodyItem) : Prop where
  nested? : item'.nested? = none
  members : ∀ member', item' = .property member' → ∃ member, item = .property member ∧
    (member.Roomy tokens → member'.Roomy tokens')

/-- What becomes of an item when names get types. -/
inductive Item.Outgrows (tokens tokens' : Tokens) : Item → Item → Prop where
  | separator : Item.Outgrows tokens tokens' .separator .separator
  | entry {item item' : BodyItem} (h : item.Outgrows tokens tokens' item') :
      Item.Outgrows tokens tokens' (.entry item) (.entry item')
  | opened {header header' : Header} (h : header.Alike header') :
      Item.Outgrows tokens tokens' (.opened header) (.opened header')

/-- Two streams are in step in some stretch between two placeholders. -/
def Meets (source source' : List Char) (tokens tokens' : Tokens) (marked : Span → Prop)
    (stream stream' : TokenStream) : Prop :=
  ∃ stretch : Stretch source source' tokens.finish tokens'.finish,
    stretch.InStep stream stream' ∧ stretch.Ends marked tokens.body tokens'.body ∧
      stretch.Pairs tokens.body tokens'.body

def LeftOf (tokens : Tokens) (stream : TokenStream) : Prop :=
  ∃ taken, Refines tokens.body (taken ++ stream.pending)

theorem LeftOf.takes {tokens : Tokens} {stream after : TokenStream} {taken : List Placed}
    {noted : List Span} (h : LeftOf tokens stream) (htakes : Takes stream taken noted after) :
    LeftOf tokens after := by
  obtain ⟨front, hfront⟩ := h
  refine ⟨front ++ taken, ?_⟩
  rw [List.append_assoc]
  exact hfront.trans ((Refines.refl front).append htakes.pending)

theorem LeftOf.bare {tokens : Tokens} {stream : TokenStream} {pattern : Pattern}
    (h : LeftOf tokens stream) (hbare : pattern.Bare stream.pending) :
    pattern.Bare tokens.body := by
  obtain ⟨front, hfront⟩ := h
  exact (hbare.prepend front).of_refines hfront

/-- Of tokens that stand one behind another, no two end at the same place. -/
theorem Laid.eq_of_stop {source : List Char} {low high : Nat}
    {front front' back back' : List Placed} {placed placed' : Placed}
    (h : Laid source low (front ++ placed :: back) high)
    (heq : front ++ placed :: back = front' ++ placed' :: back')
    (hstop : placed.span.stop = placed'.span.stop) : placed = placed' ∧ back = back' := by
  -- a token behind another one ends behind it
  have hbehind : ∀ {low : Nat} {first second : Placed} {rest : List Placed},
      Laid source low (first :: rest) high → second ∈ rest →
        first.span.stop < second.span.stop := by
    intro low first second rest hlaid hmem
    have hle := hlaid.2.2.le_start hmem
    have hlt := (hlaid.2.2.sits hmem).start_lt_stop
    omega
  induction front generalizing front' low with
  | nil =>
    cases front' with
    | nil =>
      cases heq
      exact ⟨rfl, rfl⟩
    | cons first front' =>
      cases heq
      have hlt := hbehind h (List.mem_append_right _ List.mem_cons_self)
      omega
  | cons first front ih =>
    cases front' with
    | nil =>
      cases heq
      have hlt := hbehind h (List.mem_append_right _ List.mem_cons_self)
      omega
    | cons _ front' =>
      rw [List.cons_append, List.cons_append, List.cons.injEq] at heq
      exact ih h.2.2 heq.2

/-- A name that is read in a stretch has room in the second source if it has in the first. -/
theorem Stretch.Pairs.hasRoom {source source' : List Char} {tokens tokens' : Tokens}
    {stretch : Stretch source source' tokens.finish tokens'.finish} {pattern pattern' : Pattern}
    (h : stretch.Pairs tokens.body tokens'.body)
    (hlaid' : Laid source' 0 tokens'.body (Text.width source'))
    (hbare : pattern.Bare tokens.body) (hlow : stretch.low < pattern.span.stop)
    (hstop : pattern.span.stop ≤ (stretch.behind.headD tokens.finish).span.start)
    (halike : pattern.Alike stretch.shift pattern') (hroom : pattern.HasRoom tokens) :
    pattern'.HasRoom tokens' := by
  intro front' name' back' hbody' hspan'
  obtain ⟨front, keyword, name, back, hbody, -, -, hspan, -⟩ := hbare
  rw [List.append_cons] at hbody
  rw [hspan] at hlow hstop
  obtain ⟨_, moved, following, hbody'', hmoved, hfollowing⟩ := h _ name back hbody hlow hstop
  have hsame : name'.span.stop = moved.span.stop := by
    rw [hspan', halike.stop, hmoved.stop, hspan]
  rw [hbody'] at hlaid'
  obtain ⟨rfl, rfl⟩ := hlaid'.eq_of_stop (hbody'.symm.trans hbody'') hsame
  rw [leavesRoom_moved hmoved hfollowing]
  exact hroom _ name back hbody hspan.symm

namespace Reader

variable {source source' : List Char} {tokens tokens' : Tokens} {marked : Span → Prop}
  {stream stream' after : TokenStream}

/-- The member whose name a stretch ends at is read as before, and its name has a type. -/
theorem item_at_mark (htokens : tokenize source = .ok tokens)
    {stretch : Stretch source source' tokens.finish tokens'.finish}
    (hstep : stretch.InStep stream stream')
    (hends : stretch.Ends marked tokens.body tokens'.body) {keyword name : Placed}
    {rest : List Placed} (hbehind : stretch.behind = keyword :: name :: rest) {found : Item}
    (hitem : item source stream = .ok (found, after)) (hbinds : found.Binds name.span)
    (howns : ∀ name : Placed, name.token.isName = true → marked name.span →
      stream.head.span.start ≤ name.span.start → Past source name after → found.Binds name.span) :
    ∃ found' after', item source' stream' = .ok (found', after') ∧
      Meets source source' tokens tokens' marked after after' ∧
      found.Outgrows tokens tokens' found' := by
  obtain ⟨member, binding, rfl, hsingle, huntyped, hspan⟩ := hbinds
  obtain ⟨steps⟩ := exists_untypedRead hstep.ready hitem hsingle huntyped
  obtain ⟨attrs', between', isStatic', here', hattrs', hmodifiers', halike, hhereStep, heq, heq'⟩ :=
    reaches_mark hstep hends hbehind steps.attributes_eq steps.modifiers_eq steps.bare
      steps.pending_eq (steps.name_span.symm.trans hspan) hspan
  cases hends with
  | finish hnone =>
    rw [hnone] at hbehind
    cases hbehind
  | @mark _ _ _ name' typing _ rest' front _ _ _ hsame hbehind' _ _ _ hname' htyping hroom hstop
      hrest hall hall' =>
    cases hbehind.symm.trans hsame
    rw [steps.pending_eq, hbehind] at heq
    injection heq with _ heq
    injection heq with hsecond hrestEq
    -- the stretch behind the placeholder
    have hscanned := tokenize_scanned htokens
    have hfinish : tokens.finish.span.start = Text.width source := by
      rw [hscanned.finish_eq.2]
      rfl
    obtain ⟨next, hshift, hlow, hrestAlike, hends', hpairs⟩ := hrest.exists_stretch hscanned.laid
      hfinish (hall.trans (List.append_cons front name rest)) (by simp [hstop]) hall'
    -- the keyword, the name and the type are read in the second source
    have htoken' : name'.token = .name binding.pattern.name := by
      rw [hname'.token, ← hsecond, steps.name_token]
    have hfollowing : ∀ following ∈ rest'.head?,
        splitEquals? following = none ∧ endsType false following = true := by
      intro following hfollowing
      obtain ⟨more, rfl⟩ := List.head?_eq_some_iff.1 hfollowing
      exact ends_of_leavesRoom hroom hrestAlike.ahead.headD
    obtain ⟨behind', noted', named', typed', written, hnext', hword', hmarkers', hnamed', htyped',
      hpending', hreadTo', hfinish'⟩ := typed_name_of_pending source'
        (heq'.trans hbehind') htoken' htyping hfollowing halike steps.markers_eq
    -- and the rest of the member behind the placeholder
    have hreadTo : steps.rest.readTo = name.span.stop := by rw [steps.readTo_eq, hsecond]
    have hbehindStep : next.InStep steps.rest typed' := by
      refine ⟨steps.ready, ?_, ?_, ?_, ?_, ?_⟩
      · rw [steps.finish_eq, hhereStep.finish_eq]
      · rw [hfinish', hhereStep.finish_eq']
      · rw [hlow, hreadTo, hstop]
      · rw [hreadTo', hreadTo, hshift, hname'.stop, Nat.add_assoc]
      · rw [hrestEq, hpending']
        exact hrestAlike
    have hnone : ∀ other : Placed, other.token.isName = true → marked other.span →
        steps.rest.head.span.start ≤ other.span.start → ¬ Past source other after := by
      intro other hother hotherMarked hotherStart hpast
      obtain ⟨_, _, heq, hsingle', -, hspan'⟩ :=
        howns other hother hotherMarked (Nat.le_trans steps.start_le hotherStart) hpast
      cases heq
      rw [hsingle] at hsingle'
      cases hsingle'
      -- the name has been passed
      rw [← hspan', steps.name_span] at hotherStart
      exact absurd steps.passed (Nat.not_lt.2 hotherStart)
    obtain ⟨value?', valued', block', after', hvalue', hblock', hafterStep⟩ :=
      rest_of_member hbehindStep hends' steps.initializer_eq steps.accessors_eq hnone
    have hcomma' : after'.head.token ≠ .comma := by
      rw [hafterStep.sees.head.token]
      exact steps.not_comma
    have hkeyword' : here'.head.token = .name "let" ∨ here'.head.token = .name "var" := by
      rw [hhereStep.sees.head.token, TokenStream.head, steps.pending_eq]
      exact steps.keyword_token
    have hproperty' := property_of_single
      ⟨⟨binding.pattern.name, name'.span⟩, some written, value?', block'⟩ stream'.head.span
      isStatic' hnext' hword' hmarkers' hnamed' htyped' hvalue' hblock' hcomma'
    refine ⟨.entry (.property _), after',
      item_of_property hattrs' hmodifiers' hkeyword' hproperty', ⟨next, hafterStep, hends', hpairs⟩,
      .entry ⟨rfl, ?_⟩⟩
    rintro _ ⟨⟩
    refine ⟨member, rfl, ?_⟩
    intro _ typedBinding htypedBinding hnone
    cases htypedBinding
    cases hnone

/-- An item that keeps to a stretch has the names of the other one, with the same room. -/
theorem outgrows_of_alike (htokens' : tokenize source' = .ok tokens')
    {stretch : Stretch source source' tokens.finish tokens'.finish}
    (hstep : stretch.InStep stream stream') (hpairs : stretch.Pairs tokens.body tokens'.body)
    (hleft : LeftOf tokens stream) {after' : TokenStream} {entry entry' : BodyItem}
    (hafter : stretch.InStep after after') {attrs : List Attribute}
    {segments : List (List Placed)} {tail : List Placed} {noted : List Span}
    (htaken : ItemTaken source stream after (.entry entry) attrs segments tail noted)
    (halike : entry.Alike stretch.shift entry') : entry.Outgrows tokens tokens' entry' := by
  refine ⟨halike.nested?, ?_⟩
  intro member' hentry'
  obtain ⟨member, rfl, hbindings⟩ := halike.members member' hentry'
  refine ⟨member, rfl, ?_⟩
  intro hroomy binding' hsingle' huntyped'
  rw [hsingle'] at hbindings
  generalize hsingle : member.bindings = bindings at hbindings
  obtain _ | @⟨binding, _, _, _, hbinding, hnil⟩ := hbindings
  cases hnil
  have huntyped : binding.type? = none := by
    have hsame := hbinding.type?
    rw [huntyped'] at hsame
    simpa using hsame.symm
  have hfirst : binding ∈ member.bindings.head? := by rw [hsingle]; rfl
  have hbare := hleft.bare (htaken.bare hfirst huntyped)
  obtain ⟨spots, hspots⟩ := htaken.entry_spots
  have hmem := hspots.bound member (.inl List.mem_cons_self) binding hfirst
  have hlt : binding.pattern.span.start < binding.pattern.span.stop := (hspots.lie _ hmem).2
  have hbounds : stream.head.span.start ≤ binding.pattern.span.start ∧
      binding.pattern.span.stop ≤ after.head.span.start :=
    hspots.inOrder.mem (List.mem_map_of_mem hmem)
  have hlow := hstep.low
  have hhead := hstep.ready.readTo_le_head
  exact hpairs.hasRoom (tokenize_scanned htokens').laid hbare (by omega)
    (Nat.le_trans hbounds.2 hafter.head_le) hbinding.pattern (hroomy binding hsingle huntyped)

/-- **One item.**  It keeps to a stretch, or it is the member whose name the stretch ends
    at. -/
theorem item_meets (htokens : tokenize source = .ok tokens)
    (htokens' : tokenize source' = .ok tokens')
    (hmeets : Meets source source' tokens tokens' marked stream stream')
    (hleft : LeftOf tokens stream) {found : Item}
    (hitem : item source stream = .ok (found, after))
    (howns : ∀ name : Placed, name.token.isName = true → marked name.span →
      stream.head.span.start ≤ name.span.start → Past source name after → found.Binds name.span) :
    ∃ found' after', item source' stream' = .ok (found', after') ∧
      Meets source source' tokens tokens' marked after after' ∧
      found.Outgrows tokens tokens' found' := by
  obtain ⟨stretch, hstep, hends, hpairs⟩ := hmeets
  obtain ⟨attrs, segments, tail, noted, htaken⟩ := item_takes hstep.ready hitem
  rcases hstep.keeps_or_past hends htaken.takes with
    hkeeps | ⟨keyword, name, rest, hbehind, hname, hmarked, hstart, hpast⟩
  · obtain ⟨found', after', hitem', hafter, halike⟩ :=
      item_follows.follows hstep hitem hkeeps
    refine ⟨found', after', hitem', ⟨stretch, hafter, hends, hpairs⟩, ?_⟩
    cases halike with
    | separator => exact .separator
    | entry halike =>
      exact .entry (outgrows_of_alike htokens' hstep hpairs hleft hafter htaken halike)
    | opened halike => exact .opened halike
  · exact item_at_mark htokens hstep hends hbehind hitem (howns name hname hmarked hstart hpast)
      howns

theorem closingBrace_meets (hmeets : Meets source source' tokens tokens' marked stream stream')
    {owner : String} {close : Span} (h : closingBrace owner stream = .ok (close, after))
    (owner' : String) :
    ∃ close' after', closingBrace owner' stream' = .ok (close', after') ∧
      Meets source source' tokens tokens' marked after after' := by
  obtain ⟨stretch, hstep, hends, hpairs⟩ := hmeets
  have hfollows : Follows stretch (closingBrace owner) (closingBrace owner') fun _ _ => True := by
    refine .peek fun placed placed' hmoved => ?_
    rw [hmoved.token]
    split
    · exact .nextThen fun _ _ _ => .pure trivial
    · exact .expected _ _
  obtain ⟨hbrace, -, htakes⟩ := closingBrace_takes hstep.ready h
  -- the brace is no keyword, so it belongs to the stretch
  have hkeeps : weight stretch.behind ≤ weight after.pending := by
    obtain ⟨front, -, hpending, -, -⟩ := hstep.pending.exists_append
    have hweight := weight_of_takes htakes
    cases front with
    | nil =>
      rw [TokenStream.head, hpending, List.nil_append] at hbrace
      cases hends with
      | finish hbehind =>
        rw [hbehind]
        exact Nat.zero_le _
      | mark hbehind _ hkeyword _ _ _ _ _ _ _ _ _ =>
        rw [hbehind, List.headD_cons] at hbrace
        rcases hkeyword with hword | hword <;> rw [hbrace] at hword <;> cases hword
    | cons first front =>
      have hhead : stream.head = first := by rw [TokenStream.head, hpending]; rfl
      rw [hpending, hhead, List.cons_append] at hweight
      simp only [weight_cons, weight_append, weight_nil] at hweight
      omega
  obtain ⟨close', after', hclose', hafter, -⟩ := hfollows.follows hstep h hkeeps
  exact ⟨close', after', hclose', stretch, hafter, hends, hpairs⟩

end Reader

/-! ### Bodies and sources -/

/-- What becomes of the items of a body when names get types: if the declarations among them
    are in order, then they still are. -/
structure Outgrown (tokens tokens' : Tokens) (items items' : List BodyItem) : Prop where
  declarations : (∀ declaration ∈ Declaration.nestedIn items, declaration.Roomy tokens) →
    ∀ declaration' ∈ Declaration.nestedIn items', declaration'.Roomy tokens'
  members : (∀ member, .property member ∈ items → member.Roomy tokens) →
    ∀ member', .property member' ∈ items' → member'.Roomy tokens'

namespace Outgrown

variable {tokens tokens' : Tokens} {items items' inner inner' : List BodyItem}

theorem nil : Outgrown tokens tokens' [] [] where
  declarations := by simp [Declaration.nestedIn]
  members := by simp

theorem entry {item item' : BodyItem} (h : item.Outgrows tokens tokens' item')
    (hrest : Outgrown tokens tokens' items items') :
    Outgrown tokens tokens' (item :: items) (item' :: items') where
  declarations := by
    intro hroomy declaration' hmem
    have hnested : Declaration.nestedIn (item' :: items') = Declaration.nestedIn items' := by
      rw [Declaration.nestedIn_eq, Declaration.nestedIn_eq, List.filterMap_cons_none h.nested?]
    rw [hnested] at hmem
    exact hrest.declarations
      (fun declaration hdeclaration => hroomy _ (Declaration.mem_nestedIn_cons hdeclaration item))
      declaration' hmem
  members := by
    intro hroomy member' hmem
    rcases List.mem_cons.1 hmem with heq | hmem
    · obtain ⟨member, rfl, hmember⟩ := h.members member' heq.symm
      exact hmember (hroomy member List.mem_cons_self)
    · exact hrest.members (fun member hmember => hroomy _ (List.mem_cons_of_mem _ hmember))
        member' hmem

theorem nested {header header' : Header} (h : header.Alike header') (close close' : Span)
    (hinner : Outgrown tokens tokens' inner inner') (hrest : Outgrown tokens tokens' items items') :
    Outgrown tokens tokens' (.nested (header.closed inner close) :: items)
      (.nested (header'.closed inner' close') :: items') where
  declarations := by
    intro hroomy declaration' hmem
    rw [Declaration.nestedIn_nested, List.forall_mem_cons, List.forall_mem_append] at hroomy
    obtain ⟨hown, hinnerRoomy, hrestRoomy⟩ := hroomy
    rw [Declaration.nestedIn_nested, List.mem_cons, List.mem_append] at hmem
    rcases hmem with rfl | hmem | hmem
    · constructor
      · intro attachment' hattached' hrequest'
        have hrequest : attachment'.request ∈ header.attachments.map (·.request) := by
          rw [← h.requests]
          exact List.mem_map_of_mem hattached'
        obtain ⟨attachment, hattached, hsame⟩ := List.mem_map.1 hrequest
        have happlies := hown.applies attachment hattached (hsame.trans hrequest')
        simpa [Header.closed, h.kind] using happlies
      · intro member' hmember'
        rw [Declaration.mem_members] at hmember'
        refine hinner.members ?_ member' hmember'
        exact fun member hmember => hown.members member (Declaration.mem_members.2 hmember)
    · exact hinner.declarations hinnerRoomy declaration' hmem
    · exact hrest.declarations hrestRoomy declaration' hmem
  members := by
    intro hroomy member' hmem
    rcases List.mem_cons.1 hmem with heq | hmem
    · cases heq
    · exact hrest.members (fun member hmember => hroomy _ (List.mem_cons_of_mem _ hmember))
        member' hmem

end Outgrown

namespace Meets

variable {source source' : List Char} {tokens tokens' : Tokens} {marked : Span → Prop}
  {stream stream' : TokenStream}

theorem head_token (h : Meets source source' tokens tokens' marked stream stream') :
    stream'.head.token = stream.head.token := by
  obtain ⟨stretch, hstep, -, -⟩ := h
  exact hstep.sees.head.token

theorem ready (h : Meets source source' tokens tokens' marked stream stream') :
    Ready source stream := by
  obtain ⟨stretch, hstep, -, -⟩ := h
  exact hstep.ready

end Meets

namespace Reader

variable {source source' : List Char} {tokens tokens' : Tokens} {marked : Span → Prop}
  {stream stream' after : TokenStream} {items : List BodyItem} {limit : Nat}

/-- Reading goes on with an item unless a brace closes or the input ends. -/
theorem items_succ_eq (hhead : ¬ (stream.head.token = .closing .curly ∨
      stream.head.token = .endOfInput)) :
    Reader.items source (limit + 1) stream = (item source >>= fun
      | .separator => Reader.items source limit
      | .entry entry => do return entry :: (← Reader.items source limit)
      | .opened header => do
        let inner ← Reader.items source limit
        let close ← closingBrace header.name
        return .nested (header.closed inner close) :: (← Reader.items source limit)) stream := by
  have hpeek : ∀ f : Placed → Reader (List BodyItem),
      (peek >>= f) stream = f stream.head stream := fun _ => rfl
  rw [Reader.items, hpeek]
  generalize stream.head.token = token at hhead
  split
  · exact absurd (.inl rfl) hhead
  · exact absurd (.inr rfl) hhead
  · rfl

theorem items_of_stop
    (hhead : stream.head.token = .closing .curly ∨ stream.head.token = .endOfInput) :
    Reader.items source (limit + 1) stream = .ok ([], stream) := by
  rw [Reader.items, peek_bind_eq_ok]
  rcases hhead with hhead | hhead <;> rw [hhead] <;> rfl

theorem items_of_entry {between : TokenStream} {entry : BodyItem} {entries : List BodyItem}
    (hhead : ¬ (stream.head.token = .closing .curly ∨ stream.head.token = .endOfInput))
    (hitem : item source stream = .ok (.entry entry, between))
    (hmore : Reader.items source limit between = .ok (entries, after)) :
    Reader.items source (limit + 1) stream = .ok (entry :: entries, after) := by
  rw [items_succ_eq hhead]
  exact bind_eq_ok.2 ⟨_, _, hitem, bind_eq_ok.2 ⟨_, _, hmore, rfl⟩⟩

theorem items_of_opened {between closing outside : TokenStream} {header : Header} {close : Span}
    {inner entries : List BodyItem}
    (hhead : ¬ (stream.head.token = .closing .curly ∨ stream.head.token = .endOfInput))
    (hitem : item source stream = .ok (.opened header, between))
    (hinner : Reader.items source limit between = .ok (inner, closing))
    (hclose : closingBrace header.name closing = .ok (close, outside))
    (hmore : Reader.items source limit outside = .ok (entries, after)) :
    Reader.items source (limit + 1) stream =
      .ok (.nested (header.closed inner close) :: entries, after) := by
  rw [items_succ_eq hhead]
  exact bind_eq_ok.2 ⟨_, _, hitem, bind_eq_ok.2 ⟨_, _, hinner, bind_eq_ok.2 ⟨_, _, hclose,
    bind_eq_ok.2 ⟨_, _, hmore, rfl⟩⟩⟩⟩

/-- **All items of a body.** -/
theorem items_meets (htokens : tokenize source = .ok tokens)
    (htokens' : tokenize source' = .ok tokens') {limit' : Nat} (hlimit : limit ≤ limit')
    (hmeets : Meets source source' tokens tokens' marked stream stream')
    (hleft : LeftOf tokens stream) (h : Reader.items source limit stream = .ok (items, after))
    (howned : Owned marked stream items after) :
    ∃ items' after', Reader.items source' limit' stream' = .ok (items', after') ∧
      Meets source source' tokens tokens' marked after after' ∧
      Outgrown tokens tokens' items items' := by
  induction limit generalizing limit' stream stream' items after with
  | zero => exact absurd h tooLong_ne_ok
  | succ limit ih =>
    obtain ⟨limit', rfl⟩ : ∃ k, limit' = k + 1 := ⟨limit' - 1, by omega⟩
    have hlimit := Nat.le_of_succ_le_succ hlimit
    have hready := hmeets.ready
    by_cases hhead : stream.head.token = .closing .curly ∨ stream.head.token = .endOfInput
    · rw [items_of_stop hhead] at h
      cases h
      exact ⟨[], stream', items_of_stop (hmeets.head_token ▸ hhead), hmeets, .nil⟩
    · rw [items_succ_eq hhead, bind_eq_ok] at h
      rw [← hmeets.head_token] at hhead
      obtain ⟨found, between, hitem, h⟩ := h
      obtain ⟨attrs, segments, tail, noted, htaken⟩ := item_takes hready hitem
      have hle := hready.head_start_le htaken.takes
      have hleftBetween := hleft.takes htaken.takes
      have hbetween := (hready.taken htaken.takes).2
      cases found with
      | separator =>
        obtain ⟨_, _, hrest⟩ := items_read hbetween h
        obtain ⟨_, between', hitem', hmeets', houtgrows⟩ :=
          item_meets htokens htokens' hmeets hleft hitem fun name hname hmarked hstart hpast =>
            absurd hpast (howned.not_past hrest hname hmarked hstart)
        cases houtgrows
        obtain ⟨items', after', hitems', hafter, houtgrown⟩ :=
          ih hlimit hmeets' hleftBetween h (howned.mono hle)
        refine ⟨items', after', ?_, hafter, houtgrown⟩
        rw [items_succ_eq hhead, bind_eq_ok]
        exact ⟨_, between', hitem', hitems'⟩
      | entry entry =>
        simp only [bind_eq_ok, pure_eq_ok] at h
        obtain ⟨more, _, hmore, rfl, rfl⟩ := h
        obtain ⟨_, _, hrest⟩ := items_read hbetween hmore
        obtain ⟨_, between', hitem', hmeets', houtgrows⟩ :=
          item_meets htokens htokens' hmeets hleft hitem fun name hname hmarked hstart hpast =>
            howned.entry_binds htaken hrest hpast hname hmarked hstart
        cases houtgrows with
        | @entry _ entry' houtgrows =>
          obtain ⟨more', after', hmore', hafter, houtgrown⟩ :=
            ih hlimit hmeets' hleftBetween hmore (howned.entry_rest htaken)
          exact ⟨entry' :: more', after', items_of_entry hhead hitem' hmore', hafter,
            .entry houtgrows houtgrown⟩
      | opened header =>
        simp only [bind_eq_ok, pure_eq_ok] at h
        obtain ⟨inner, closing, hinner, close, outside, hclose, more, _, hmore, rfl, rfl⟩ := h
        obtain ⟨_, _, hinnerRead⟩ := items_read hbetween hinner
        have hclosing := hinnerRead.ready_after
        obtain ⟨-, -, hcloses⟩ := closingBrace_takes hclosing hclose
        obtain ⟨_, _, hrest⟩ := items_read (hclosing.taken hcloses).2 hmore
        have hforward := hclosing.head_start_le hcloses
        obtain ⟨_, between', hitem', hmeets', houtgrows⟩ :=
          item_meets htokens htokens' hmeets hleft hitem fun name hname hmarked hstart hpast =>
            absurd hpast (howned.header_not_past hinnerRead hcloses hrest hname hmarked hstart)
        cases houtgrows with
        | @opened _ header' hheader =>
          obtain ⟨inner', closing', hinner', hmeetsClosing, hinnerGrown⟩ :=
            ih hlimit hmeets' hleftBetween hinner (howned.nested_inner hle hforward hrest)
          obtain ⟨close', outside', hclose', hmeetsOutside⟩ :=
            closingBrace_meets hmeetsClosing hclose header'.name
          have hleftOutside := (hleftBetween.takes hinnerRead.takes.2).takes hcloses
          have hleOutside : stream.head.span.start ≤ outside.head.span.start := by
            have hinside := hbetween.head_start_le hinnerRead.takes.2
            omega
          obtain ⟨more', after', hmore', hafter, hrestGrown⟩ :=
            ih hlimit hmeetsOutside hleftOutside hmore
              (howned.nested_rest hleOutside hinnerRead hforward)
          exact ⟨.nested (header'.closed inner' close') :: more', after',
            items_of_opened hhead hitem' hinner' hclose' hmore', hafter,
            .nested hheader close close' hinnerGrown hrestGrown⟩

end Reader

/-- An outline comes from items that are read up to the end of the source. -/
theorem Outline.ofSource_of_items {source : List Char} {tokens : Tokens} {items : List BodyItem}
    {after : TokenStream} (htokens : tokenize source = .ok tokens)
    (hitems : Reader.items source (readingLimit source) (.start tokens) = .ok (items, after))
    (hend : after.head.token = .endOfInput) :
    Outline.ofSource source = .ok ⟨items.filterMap BodyItem.nested?, after.requests⟩ := by
  have hread : Reader.outline source (.start tokens) =
      .ok (⟨items.filterMap BodyItem.nested?, after.requests⟩, after) := by
    rw [Reader.outline, Reader.bind_eq_ok]
    refine ⟨items, after, hitems, ?_⟩
    rw [Reader.get_bind_eq_ok, hend]
    rfl
  unfold Outline.ofSource
  rw [htokens]
  change ((Reader.outline source).run (.start tokens) >>= fun p => .ok p.1) = _
  rw [StateT.run, hread]
  rfl

/-- A source that can be read, in which initializers are requested only of declarations that
    take them, and members have room for types. -/
def Roomy (source : List Char) : Prop :=
  ∃ tokens outline, tokenize source = .ok tokens ∧ Outline.ofSource source = .ok outline ∧
    ∀ declaration ∈ outline.allDeclarations, declaration.Roomy tokens

theorem roomy_iff {source : List Char} {tokens : Tokens} {outline : Outline}
    (htokens : tokenize source = .ok tokens) (houtline : Outline.ofSource source = .ok outline) :
    Roomy source ↔ ∀ declaration ∈ outline.allDeclarations, declaration.Roomy tokens := by
  constructor
  · rintro ⟨_, _, htokens', houtline', h⟩
    cases htokens.symm.trans htokens'
    cases houtline.symm.trans houtline'
    exact h
  · intro h
    exact ⟨tokens, outline, htokens, houtline, h⟩

instance (source : List Char) : Decidable (Roomy source) :=
  match htokens : tokenize source, houtline : Outline.ofSource source with
  | .ok tokens, .ok outline =>
    decidable_of_iff (∀ declaration ∈ outline.allDeclarations, declaration.Roomy tokens)
      (roomy_iff htokens houtline).symm
  | .error _, _ => .isFalse fun ⟨_, _, h, _⟩ => nomatch htokens.symm.trans h
  | _, .error _ => .isFalse fun ⟨_, _, _, h, _⟩ => nomatch houtline.symm.trans h

/-- What is reported of a source in which members have room for types. -/
theorem Outline.reports_of_roomy {tokens : Tokens} {outline : Outline} {diagnostic : Diagnostic}
    (h : ∀ declaration ∈ outline.allDeclarations, declaration.Roomy tokens)
    (hmem : diagnostic ∈ outline.diagnostics) :
    ∃ declaration ∈ outline.allDeclarations, ∃ member ∈ declaration.members, ∃ binding,
      diagnostic = .notInferableType binding.pattern ∧ member.bindings = [binding] ∧
      binding.type? = none ∧ binding.pattern.HasRoom tokens := by
  obtain ⟨declaration, hdeclaration, attachment, hattached, hrequest, hrejects⟩ :=
    Outline.mem_diagnostics hmem
  have hroomy := h declaration hdeclaration
  cases hrejects with
  | notApplicable hkind =>
    have happlies := hroomy.applies attachment hattached hrequest
    rcases Declaration.takesInitializer_iff.1 happlies with heq | heq
    · exact absurd heq hkind.1
    · exact absurd heq hkind.2
  | @notInferableType binding _ hfirst =>
    obtain ⟨front, member, back, hmembers, heligible, huntyped, -⟩ := hfirst
    have hmember : member ∈ declaration.members := by
      rw [hmembers]
      simp
    exact ⟨declaration, hdeclaration, member, hmember, binding, rfl, heligible.single, huntyped.1,
      hroomy.members member hmember binding heligible.single huntyped.1⟩

/-- **A source in which members have room for types is read as before when all reported names
    have got one**, and members still have room then. -/
theorem Roomy.splice {source : List Char} {tokens : Tokens} {outline : Outline}
    {chain : List Edit} (htokens : tokenize source = .ok tokens)
    (houtline : Outline.ofSource source = .ok outline)
    (hroomy : ∀ declaration ∈ outline.allDeclarations, declaration.Roomy tokens)
    (hapart : Edit.Apart source chain)
    (hmem : ∀ edit, edit ∈ chain ↔ edit ∈ fixItEdits outline.diagnostics) :
    Roomy (Edit.splice source 0 chain) := by
  obtain ⟨_, items, after, hsame, hitems, hend, hdeclarations, -⟩ :=
    Outline.ofSource_eq_ok houtline
  cases htokens.symm.trans hsame
  obtain ⟨taken, noted, hread⟩ := Reader.items_read (.start htokens) hitems
  have hdeep : outline.allDeclarations = Declaration.nestedIn items := by
    rw [Outline.allDeclarations, hdeclarations, Declaration.nestedIn_eq]
  -- every edit gives a type to a name that a member binds
  have htypes : ∀ edit ∈ chain, ∃ member binding, BodyItem.HaveMember items member ∧
      edit = binding.pattern.typing ∧ member.bindings = [binding] ∧ binding.type? = none ∧
      binding.pattern.HasRoom tokens := by
    intro edit hedit
    obtain ⟨diagnostic, hdiagnostic, hoffer⟩ := List.mem_filterMap.1 ((hmem edit).1 hedit)
    obtain ⟨declaration, hdeclaration, member, hmember, binding, rfl, hsingle, huntyped, hroom⟩ :=
      Outline.reports_of_roomy hroomy hdiagnostic
    cases hoffer
    rw [hdeep] at hdeclaration
    exact ⟨member, binding, .inr ⟨declaration, hdeclaration, hmember⟩, rfl, hsingle, huntyped,
      hroom⟩
  let marked : Span → Prop := fun span => ∃ edit ∈ chain, edit.span = span
  have hchain : TypesAmong marked tokens.finish chain tokens.body := by
    intro edit hedit
    obtain ⟨member, binding, hmember, rfl, hsingle, huntyped, hroom⟩ := htypes edit hedit
    refine ⟨⟨_, hedit, rfl⟩, binding.pattern, rfl, ?_⟩
    obtain ⟨front, keyword, name, back, hbody, hkeyword, htoken, hspan, -⟩ :=
      hread.bare hmember (by rw [hsingle]; rfl) huntyped
    refine ⟨front, keyword, name, back, hbody, hkeyword, htoken, hspan, ?_⟩
    exact hroom (front ++ [keyword]) name back (hbody.trans (List.append_cons ..)) hspan.symm
  have howned : Owned marked (.start tokens) items after := by
    rintro span ⟨edit, hedit, rfl⟩ - -
    obtain ⟨member, binding, hmember, rfl, hsingle, huntyped, -⟩ := htypes edit hedit
    exact ⟨member, binding, hmember, hsingle, huntyped, rfl⟩
  -- the tokens of the new source
  have hscanned := tokenize_scanned htokens
  have hgrows : Grows source (Edit.splice source 0 chain) tokens.finish marked true 0 [] [] source
      (Edit.splice source 0 chain) tokens.body :=
    hscanned.grows rfl hapart hchain rfl (Nat.le_refl _) rfl
  obtain ⟨⟨body', finish', hscanned', hgrown⟩, -⟩ := hgrows
  have htokens' : tokenize (Edit.splice source 0 chain) = .ok ⟨body', finish'⟩ :=
    tokenize_iff_scanned.2 hscanned'
  have hfinish : tokens.finish.span.start = Text.width source := by
    rw [hscanned.finish_eq.2]
    rfl
  obtain ⟨stretch, hshift, hlow, halike, hends, hpairs⟩ := hgrown.exists_stretch hscanned.laid
    hfinish (List.nil_append _).symm (Nat.le_refl _) (List.nil_append _).symm
  have hstep : stretch.InStep (.start tokens) (.start ⟨body', finish'⟩) :=
    ⟨.start htokens, rfl, rfl, hlow.le, by rw [hshift]; rfl, halike⟩
  -- reading it
  obtain ⟨items', after', hitems', hmeets, houtgrown⟩ := Reader.items_meets htokens htokens'
    (Reader.readingLimit_le stretch) ⟨stretch, hstep, hends, hpairs⟩ ⟨[], .refl _⟩ hitems howned
  have hafter : after.head.token = .endOfInput := by
    rw [TokenStream.head, hend]
    exact hread.ready_after.finish_token
  refine ⟨_, _, htokens',
    Outline.ofSource_of_items htokens' hitems' (hmeets.head_token.trans hafter), ?_⟩
  intro declaration' hdeclaration'
  refine houtgrown.declarations (hdeep ▸ hroomy) declaration' ?_
  rwa [Outline.allDeclarations, ← Declaration.nestedIn_eq] at hdeclaration'

end Memberwise
