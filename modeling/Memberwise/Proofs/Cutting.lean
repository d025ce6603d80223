/-
  Memberwise/Proofs/Cutting.lean
  ==============================
  **Requests among the tokens of a source.**

  The attributes that request something are runs of tokens, and what is left when
  they are cut out are the other tokens, in order (`Cut`).  Two things matter for
  what becomes of their neighbours.  In front of a request stands the end of an
  item or of another attribute, so it is on a new line or behind a token of a few
  kinds (`Loose`).  Behind it stands another attribute or a word that introduces
  an item.

  The reader parts some operators on its way, but no request begins or ends at
  such a place, so the same requests are cut out of the tokens as they were read.
-/
import Memberwise.Proofs.Location

namespace Memberwise

/-! ### Cuts -/

/-- An `@` that may start a request behind a token: it is on a new line, or the token
    ends an item or an attribute. -/
def Loose (previous? : Option Placed) (sign : Placed) : Prop :=
  sign.afterNewline = true ∨ ∃ previous, previous? = some previous ∧
    (previous.token.closesItem = true ∨ previous.token = .closing .round)

/-- Tokens behind a token, the spans of the requests among them, and the tokens that are
    left when the requests are cut out. -/
inductive Cut : Option Placed → List Placed → List Span → List Placed → Prop where
  | nil {previous? : Option Placed} : Cut previous? [] [] []
  | keep {previous? : Option Placed} {placed : Placed} {tokens kept : List Placed}
      {spans : List Span} (h : Cut (some placed) tokens spans kept) :
      Cut previous? (placed :: tokens) spans (placed :: kept)
  | drop {previous? : Option Placed} {sign last next : Placed} {rest tokens kept : List Placed}
      {span : Span} {spans : List Span}
      (hsign : sign.token = .atSign)
      (hlast : (sign :: rest).getLast? = some last)
      (hends : last.token.isName = true ∨ last.token = .closing .round)
      (hspan : span.start = sign.span.start ∧ span.stop = last.span.stop)
      (hloose : Loose previous? sign)
      (hnext : next.token = .atSign ∨ Introduces next)
      (h : Cut (some last) (next :: tokens) spans kept) :
      Cut previous? (sign :: rest ++ next :: tokens) (span :: spans) kept

def lastOf : Option Placed → List Placed → Option Placed
  | previous?, [] => previous?
  | _, placed :: rest => lastOf (some placed) rest

theorem lastOf_append (previous? : Option Placed) (front back : List Placed) :
    lastOf previous? (front ++ back) = lastOf (lastOf previous? front) back := by
  induction front generalizing previous? with
  | nil => rfl
  | cons placed rest ih => exact ih (some placed)

theorem lastOf_eq_of_getLast? {previous? : Option Placed} {tokens : List Placed} {last : Placed}
    (h : tokens.getLast? = some last) : lastOf previous? tokens = some last := by
  obtain ⟨front, rfl⟩ := List.getLast?_eq_some_iff.1 h
  rw [lastOf_append]
  rfl

theorem loose_of_ends {last sign : Placed}
    (h : last.token.isName = true ∨ last.token = .closing .round) : Loose (some last) sign := by
  refine .inr ⟨last, rfl, h.imp_left ?_⟩
  intro hname
  cases htoken : last.token <;> rw [htoken] at hname <;> first | rfl | cases hname

theorem Cut.keep_all {previous? : Option Placed} {front tokens kept : List Placed}
    {spans : List Span} (h : Cut (lastOf previous? front) tokens spans kept) :
    Cut previous? (front ++ tokens) spans (front ++ kept) := by
  induction front generalizing previous? with
  | nil => exact h
  | cons placed rest ih => exact .keep (ih h)

/-! ### The requests of an item -/

theorem flatten_head {attrs : List Attribute} {segments : List (List Placed)}
    {lead : Placed} (h : List.Forall₂ Attribute.WrittenAs attrs segments)
    (hlead : Introduces lead) (tail : List Placed) :
    ∃ next tokens, segments.flatten ++ lead :: tail = next :: tokens ∧
      (next.token = .atSign ∨ Introduces next) := by
  cases h with
  | nil => exact ⟨lead, tail, rfl, .inr hlead⟩
  | cons hwritten _ =>
    obtain ⟨sign, name, rest, last, rfl, hsign, -⟩ := hwritten
    exact ⟨sign, _, rfl, .inl hsign⟩

/-- Some of the attributes of an item are cut out, in front of the word that introduces
    the item. -/
theorem cut_attributes {attrs : List Attribute} {segments : List (List Placed)} {lead : Placed}
    {tail kept : List Placed} {spans : List Span} (drop : Attribute → Bool)
    (h : List.Forall₂ Attribute.WrittenAs attrs segments) (hlead : Introduces lead)
    (hcut : Cut (some lead) tail spans kept) {previous? : Option Placed}
    (hloose : ∀ sign rest, segments.flatten = sign :: rest → Loose previous? sign) :
    ∃ kept', Cut previous? (segments.flatten ++ lead :: tail)
      ((attrs.filter drop).map (·.span) ++ spans) kept' := by
  induction h generalizing previous? with
  | nil => exact ⟨_, .keep hcut⟩
  | @cons attr segment attrs segments hwritten hall ih =>
    obtain ⟨sign, name, rest, last, rfl, hsign, hname, hlast, hends, hspan⟩ := hwritten
    have hlastEnds : last.token.isName = true ∨ last.token = .closing .round := by
      rcases hends with ⟨hclose, -⟩ | ⟨rfl, rfl⟩
      · exact .inr hclose
      · rw [hname]
        exact .inl rfl
    have hbehind : ∀ sign rest, segments.flatten = sign :: rest → Loose (some last) sign :=
      fun _ _ _ => loose_of_ends hlastEnds
    obtain ⟨kept', hkept⟩ := ih hbehind
    rw [List.filter_cons]
    split
    · obtain ⟨next, tokens, hnext, hkind⟩ := flatten_head hall hlead tail
      rw [hnext] at hkept
      refine ⟨kept', ?_⟩
      rw [List.flatten_cons, List.append_assoc, hnext]
      exact .drop hsign hlast hlastEnds (by simp only [hspan]; exact ⟨rfl, rfl⟩)
        (hloose sign _ rfl) hkind hkept
    · refine ⟨sign :: name :: rest ++ kept', ?_⟩
      rw [List.flatten_cons, List.append_assoc]
      exact .keep_all (by rw [lastOf_eq_of_getLast? hlast]; exact hkept)

theorem Takes.head_eq {stream after : TokenStream} {sign : Placed} {rest : List Placed}
    {noted : List Span} (h : Takes stream (sign :: rest) noted after)
    (hsign : sign.token = .atSign) : stream.head = sign := by
  have hrefines := h.pending
  unfold TokenStream.head
  generalize stream.pending = pending at *
  generalize hparts : sign :: rest ++ after.pending = parts at hrefines
  cases hrefines with
  | nil => cases hparts
  | keep _ _ =>
    cases hparts
    rfl
  | part hpart _ =>
    obtain ⟨text, -, -, -, rfl, -⟩ := splitEquals?_eq_some hpart
    simp only [List.cons_append, List.cons.injEq] at hparts
    obtain ⟨rfl, -⟩ := hparts
    cases hsign

namespace ItemTaken

variable {source : List Char} {stream after : TokenStream} {found : Item}
  {attrs : List Attribute} {segments : List (List Placed)} {tail : List Placed}
  {noted : List Span}

theorem cut (h : ItemTaken source stream after found attrs segments tail noted)
    {previous? : Option Placed} (hloose : stream.head.token = .atSign → Loose previous? stream.head)
    {rest kept : List Placed} {spans : List Span}
    (hcut : Cut (lastOf previous? (segments.flatten ++ tail)) rest spans kept) :
    ∃ kept', Cut previous? (segments.flatten ++ tail ++ rest) (noted ++ spans) kept' := by
  have hkeep : Cut previous? (segments.flatten ++ tail ++ rest) spans
      (segments.flatten ++ tail ++ kept) := .keep_all hcut
  have hfirst : ∀ sign others, segments.flatten = sign :: others → Loose previous? sign := by
    intro sign others hflatten
    have htakes := h.takes
    rw [hflatten] at htakes
    have hsign : sign.token = .atSign := by
      cases hwritten : h.written with
      | nil => cases hflatten
      | cons hfirst _ =>
        obtain ⟨_, _, _, _, rfl, hsign, -⟩ := hfirst
        cases hflatten
        exact hsign
    have hhead := htakes.head_eq hsign
    rw [← hhead]
    exact hloose (by rw [hhead]; exact hsign)
  -- some attributes are cut out in front of a word that introduces the item
  have hdrop : ∀ {lead : Placed} {others : List Placed} (drop : Attribute → Bool),
      tail = lead :: others → Introduces lead →
      ∃ kept', Cut previous? (segments.flatten ++ tail ++ rest)
        ((attrs.filter drop).map (·.span) ++ spans) kept' := by
    rintro lead others drop rfl hlead
    rw [lastOf_append] at hcut
    have hbehind : Cut (some lead) (others ++ rest) spans (others ++ kept) := .keep_all hcut
    rw [List.append_assoc]
    exact cut_attributes drop h.written hlead hbehind hfirst
  cases h.read with
  | separator => exact ⟨_, hkeep⟩
  | other _ => exact ⟨_, hkeep⟩
  | property hlead _ _ _ => exact hdrop _ rfl hlead
  | opened hlead _ _ _ hattached =>
    rw [attachment_spans hattached]
    exact hdrop _ rfl hlead

theorem loose_after (h : ItemTaken source stream after found attrs segments tail noted)
    (previous? : Option Placed) (hsign : after.head.token = .atSign) :
    Loose (lastOf previous? (segments.flatten ++ tail)) after.head := by
  rcases h.ends with hbreak | ⟨last, hlast, hcloses⟩
  · exact .inl (hbreak hsign)
  · rw [lastOf_eq_of_getLast? hlast]
    exact .inr ⟨last, rfl, .inl hcloses⟩

end ItemTaken

/-! ### The requests of a source -/

/-- What is noted along the items of a body is cut out of the tokens taken. -/
theorem ItemsRead.cut {source : List Char} {stream after : TokenStream} {taken : List Placed}
    {noted : List Span} {items : List BodyItem}
    (h : ItemsRead source stream taken noted items after) {previous? : Option Placed}
    (hloose : stream.head.token = .atSign → Loose previous? stream.head)
    {rest kept : List Placed} {spans : List Span}
    (hcut : Cut (lastOf previous? taken) rest spans kept) :
    ∃ kept', Cut previous? (taken ++ rest) (noted ++ spans) kept' := by
  induction h generalizing previous? rest spans kept with
  | stop _ _ => exact ⟨kept, hcut⟩
  | separator hitem _ ih | entry hitem _ ih =>
    rw [lastOf_append] at hcut
    obtain ⟨_, hrest⟩ := ih (hitem.loose_after previous?) hcut
    obtain ⟨kept', hkept⟩ := hitem.cut hloose hrest
    exact ⟨kept', by simpa using hkept⟩
  | @opened _ _ closing _ _ _ _ _ _ _ _ _ _ _ _ _ hitem _ hbrace hclose _ ihInner ihRest =>
    rw [lastOf_append, lastOf_append, lastOf_append] at hcut
    -- behind the closing brace everything is loose
    have hbehind : ∀ sign, Loose (some closing.head) sign := by
      intro sign
      exact .inr ⟨closing.head, rfl, .inl (by rw [hbrace]; rfl)⟩
    obtain ⟨_, hrest⟩ := ihRest (fun _ => hbehind _) hcut
    obtain ⟨_, hinner⟩ := ihInner (hitem.loose_after previous?) (Cut.keep hrest)
    obtain ⟨kept', hkept⟩ := hitem.cut hloose hinner
    exact ⟨kept', by simpa using hkept⟩

/-! ### The tokens as they were read -/

/-- An `@` or a word is never a part of an operator. -/
theorem Refines.uncons {a b : List Placed} {placed : Placed} (h : Refines a (placed :: b))
    (hplaced : placed.token = .atSign ∨ Introduces placed) :
    ∃ rest, a = placed :: rest ∧ Refines rest b := by
  apply h.exists_cons
  rcases hplaced with hsign | ⟨word, -, hword⟩
  · rw [hsign]
    rfl
  · rw [hword]
    rfl

/-- Tokens that were parted are taken apart behind a name or a parenthesis as they were
    read. -/
theorem Refines.exists_append {a b : List Placed} (h : Refines a b) {front back : List Placed}
    {last : Placed} (hb : b = front ++ back) (hlast : front.getLast? = some last)
    (hends : last.token.isName = true ∨ last.token = .closing .round) :
    ∃ front' back', a = front' ++ back' ∧ Refines back' back ∧ front'.getLast? = some last := by
  induction h generalizing front with
  | nil =>
    rw [(List.append_eq_nil_iff.1 hb.symm).1] at hlast
    cases hlast
  | @keep placed rest rest' h ih =>
    obtain - | ⟨first, front⟩ := front
    · cases hlast
    rw [List.cons_append, List.cons.injEq] at hb
    obtain ⟨rfl, hrest⟩ := hb
    cases front with
    | nil =>
      subst hrest
      exact ⟨[placed], rest, rfl, h, hlast⟩
    | cons second front =>
      rw [List.getLast?_cons_cons] at hlast
      obtain ⟨front', back', rfl, hback, hlast'⟩ := ih hrest hlast
      refine ⟨placed :: front', back', rfl, hback, ?_⟩
      rw [List.getLast?_cons, hlast']
      rfl
  | @part placed sign equals rest rest' hpart h ih =>
    obtain ⟨text, -, -, -, rfl, rfl⟩ := splitEquals?_eq_some hpart
    obtain - | ⟨first, _ | ⟨second, front⟩⟩ := front
    · cases hlast
    · -- nothing ends behind the sign
      rw [List.singleton_append, List.cons.injEq] at hb
      obtain ⟨rfl, -⟩ := hb
      cases hlast
      rcases hends with hname | hclose
      · cases hname
      · cases hclose
    rw [List.cons_append, List.cons_append, List.cons.injEq, List.cons.injEq] at hb
    obtain ⟨rfl, rfl, hrest⟩ := hb
    cases front with
    | nil =>
      cases hlast
      rcases hends with hname | hclose
      · cases hname
      · cases hclose
    | cons third front =>
      rw [List.getLast?_cons_cons, List.getLast?_cons_cons] at hlast
      obtain ⟨front', back', rfl, hback, hlast'⟩ := ih hrest hlast
      refine ⟨placed :: front', back', rfl, hback, ?_⟩
      rw [List.getLast?_cons, hlast']
      rfl

/-- What stands in front of the tokens matters for a request that they begin with only. -/
theorem Cut.behind {previous? : Option Placed} {tokens kept : List Placed}
    {spans : List Span} (h : Cut previous? tokens spans kept) (before? : Option Placed)
    (hloose : ∀ sign, Loose previous? sign → Loose before? sign) :
    Cut before? tokens spans kept := by
  cases h with
  | nil => exact .nil
  | keep h => exact .keep h
  | drop hsign hlast hends hspan hbehind hnext h =>
    exact .drop hsign hlast hends hspan (hloose _ hbehind) hnext h

/-- The same requests are cut out of the tokens as they were before some of them were
    parted. -/
theorem Cut.of_refines {a b kept : List Placed} {spans : List Span} {previous? : Option Placed}
    (h : Cut previous? b spans kept) (hrefines : Refines a b) :
    ∃ kept', Cut previous? a spans kept' := by
  induction h generalizing a with
  | nil =>
    cases hrefines
    exact ⟨[], .nil⟩
  | keep h ih =>
    cases hrefines with
    | keep _ hrest =>
      obtain ⟨kept', hkept⟩ := ih hrest
      exact ⟨_, .keep hkept⟩
    | @part placed _ equals rest _ hpart hrest =>
      obtain ⟨_, hkept⟩ := ih (.keep equals hrest)
      obtain ⟨text, -, -, -, rfl, rfl⟩ := splitEquals?_eq_some hpart
      cases hkept with
      | keep hkept =>
        -- behind the `=` a request is on a new line
        refine ⟨_, .keep (hkept.behind (some placed) ?_)⟩
        rintro sign (hline | ⟨_, hequals, hcloses⟩)
        · exact .inl hline
        · cases hequals
          rcases hcloses with hcloses | hcloses <;> cases hcloses
      | drop hsign _ _ _ _ _ _ => cases hsign
  | @drop _ sign _ _ _ _ _ _ _ hsign hlast hends hspan hloose hnext h ih =>
    obtain ⟨front, back, rfl, hback, hlast'⟩ := hrefines.exists_append rfl hlast hends
    obtain ⟨others, hfirst, -⟩ := hrefines.uncons (.inl hsign)
    obtain - | ⟨first, front⟩ := front
    · cases hlast'
    rw [List.cons_append, List.cons.injEq] at hfirst
    obtain ⟨rfl, -⟩ := hfirst
    obtain ⟨tokens, rfl, -⟩ := hback.uncons hnext
    obtain ⟨kept', hkept⟩ := ih hback
    exact ⟨kept', .drop hsign hlast' hends hspan hloose hnext hkept⟩

/-- **The requests of a source are cut out of its tokens.** -/
theorem Outline.cut {source : List Char} {outline : Outline}
    (h : Outline.ofSource source = .ok outline) :
    ∃ tokens kept, tokenize source = .ok tokens ∧ Cut none tokens.body outline.requests kept ∧
      ∀ span ∈ outline.requests, span.Signed source := by
  obtain ⟨tokens, taken, items, after, htokens, hread, hpending, -⟩ := Outline.ofSource_read h
  have hscanned := tokenize_scanned htokens
  -- the first token counts as being on a new line
  have hloose : (TokenStream.start tokens).head.token = .atSign →
      Loose none (TokenStream.start tokens).head := by
    intro hsign
    unfold TokenStream.start TokenStream.head at *
    cases hbody : tokens.body with
    | nil =>
      rw [hbody] at hsign
      cases hscanned.finish_eq.1.symm.trans hsign
    | cons first rest =>
      rw [hbody] at hscanned
      cases hscanned with
      | token _ _ _ _ _ hflag _ => exact .inl hflag
  obtain ⟨_, hcut⟩ := hread.cut hloose .nil
  have hrefines := hread.takes.2.pending
  rw [hpending] at hrefines
  obtain ⟨kept, hkept⟩ := hcut.of_refines hrefines
  rw [List.append_nil] at hkept
  exact ⟨tokens, kept, htokens, hkept, hread.noted_inOrder.2⟩

end Memberwise
