/-
  Memberwise/Proofs/Declarations.lean
  ===================================
  **How bodies are read.**

  Reading the items of a body is a recursion with two kinds of step: an item that
  is read whole, and a header, behind which come the items of an inner body, its
  closing brace, and the items behind that.  `ItemsRead` is the tree of these
  steps, so that what holds of whole sources is proved by induction on it.

  A step takes attributes, modifiers and what they belong to.  `ItemTaken` says
  which tokens these are, and which of the attributes are noted as requests.
-/
import Mathlib.Data.List.TakeDrop
import Memberwise.Proofs.Members

namespace Memberwise

/-! ### Attachments -/

def requestNames : List String :=
  [Request.publicInitName, Request.codingKeysName, Request.codingKeyName]

def requestAttributes (attrs : List Attribute) : List Attribute :=
  attrs.filter (requestNames.contains ·.name)

/-- An attachment is what an attribute requests, at the place of the attribute. -/
def Attachment.Of (attr : Attribute) (attachment : Attachment) : Prop :=
  attr.request? = .ok (some attachment.request) ∧ attachment.span = attr.span

theorem isSome_of_request? {attr : Attribute} {request? : Option Request}
    (h : attr.request? = .ok request?) : request?.isSome = requestNames.contains attr.name := by
  -- what a request is made from may fail, but does not decide whether there is one
  have hmap : ∀ {α : Type} {result : Except ArgumentError α} {f : α → Request},
      result.map (fun a => some (f a)) = .ok request? → request?.isSome = true := by
    intro α result f h
    cases result with
    | error cause => cases h
    | ok a =>
      cases h
      rfl
  unfold Attribute.request? at h
  split at h
  · next hname => rw [hmap h, hname]; rfl
  · next hinit =>
    split at h
    · next hname => rw [hmap h, hname]; rfl
    · next hkeys =>
      split at h
      · next hname => rw [hmap h, hname]; rfl
      · next hkey =>
        cases h
        simp [requestNames, hinit, hkeys, hkey]

namespace Reader

variable {source : List Char} {stream after : TokenStream}

/-- Attachments are read off the attributes; nothing is taken, and the attributes
    that request something are noted. -/
theorem attachments_takes {attrs : List Attribute} {attached : List Attachment}
    (h : attachments attrs stream = .ok (attached, after)) :
    Takes stream [] (attached.map (·.span)) after ∧
      List.Forall₂ Attachment.Of (requestAttributes attrs) attached := by
  induction attrs generalizing stream attached with
  | nil =>
    obtain ⟨rfl, rfl⟩ := pure_eq_ok.1 h
    exact ⟨.refl _, .nil⟩
  | cons first rest ih =>
    rw [attachments, bind_eq_ok] at h
    obtain ⟨request?, between, htyped, h⟩ := h
    obtain ⟨hrequest, rfl⟩ := typed_eq_ok.1 htyped
    have hsome := isSome_of_request? hrequest
    unfold requestAttributes at *
    cases request? with
    | none =>
      obtain ⟨htakes, hall⟩ := ih h
      rw [List.filter_cons, ← hsome]
      exact ⟨htakes, hall⟩
    | some request =>
      simp only [bind_eq_ok, pure_eq_ok] at h
      obtain ⟨_, noted, hnote, more, _, hmore, rfl, rfl⟩ := h
      obtain ⟨hnoted, -⟩ := note_takes hnote
      obtain ⟨htakes, hall⟩ := ih hmore
      rw [List.filter_cons, ← hsome]
      exact ⟨hnoted.trans htakes, .cons ⟨hrequest, rfl⟩ hall⟩

/-! ### Headers -/

theorem qualifiedName_takes {text : String} (hready : Ready source stream)
    (h : qualifiedName stream = .ok (text, after)) : ∃ taken, Takes stream taken [] after := by
  simp only [qualifiedName, bind_eq_ok, pure_eq_ok] at h
  obtain ⟨pattern, between, hname, qualifiers, _, htake, -, rfl⟩ := h
  obtain ⟨-, -, -, htakes⟩ := name_takes hready hname
  have hrun := qualifierRun_append between.pending
  obtain ⟨-, -, hrest⟩ := take_takes (by rw [hrun]; exact .refl _) htake
  exact ⟨_, htakes.trans hrest⟩

theorem genericClause_takes {value : Unit} (h : genericClause stream = .ok (value, after)) :
    ∃ taken, Takes stream taken [] after := by
  rw [genericClause, peek_bind_eq_ok] at h
  generalize stream.head.token = token at h
  split at h
  · split at h
    · simp only [bind_eq_ok, pure_eq_ok] at h
      obtain ⟨taken, _, htake, -, rfl⟩ := h
      have hrun := genericRun_append 0 stream.pending
      obtain ⟨-, -, htakes⟩ := take_takes (by rw [hrun]; exact .refl _) htake
      exact ⟨_, htakes⟩
    · obtain ⟨-, rfl⟩ := pure_eq_ok.1 h
      exact ⟨[], .refl _⟩
  · obtain ⟨-, rfl⟩ := pure_eq_ok.1 h
    exact ⟨[], .refl _⟩

theorem types_takes {limit : Nat} {texts : List String} (hready : Ready source stream)
    (h : types source limit stream = .ok (texts, after)) :
    ∃ taken, Takes stream taken [] after := by
  induction limit generalizing stream texts with
  | zero => exact absurd h tooLong_ne_ok
  | succ limit ih =>
    rw [types, bind_eq_ok] at h
    obtain ⟨first, between, hfirst, h⟩ := h
    obtain ⟨taken, -, htakes, -⟩ := type_takes hready hfirst
    have hbetween := (hready.taken htakes).2
    rw [peek_bind_eq_ok] at h
    generalize htoken : between.head.token = token at h
    split at h
    · rw [bind_eq_ok] at h
      obtain ⟨comma, between', hcomma, h⟩ := h
      obtain ⟨-, -, hone⟩ := next_takes hbetween (by rw [htoken]; simp) hcomma
      simp only [bind_eq_ok, pure_eq_ok] at h
      obtain ⟨more, _, hmore, -, rfl⟩ := h
      obtain ⟨back, hback⟩ := ih (hbetween.taken hone).2 hmore
      exact ⟨_, (htakes.trans hone).trans hback⟩
    · obtain ⟨-, rfl⟩ := pure_eq_ok.1 h
      exact ⟨taken, htakes⟩

theorem inheritance_takes {texts : List String} (hready : Ready source stream)
    (h : inheritance source stream = .ok (texts, after)) :
    ∃ taken, Takes stream taken [] after := by
  rw [inheritance, peek_bind_eq_ok] at h
  generalize htoken : stream.head.token = token at h
  split at h
  · rw [bind_eq_ok] at h
    obtain ⟨colon, between, hcolon, h⟩ := h
    obtain ⟨-, -, htakes⟩ := next_takes hready (by rw [htoken]; simp) hcolon
    obtain ⟨taken, hrest⟩ := types_takes (hready.taken htakes).2 h
    exact ⟨_, htakes.trans hrest⟩
  · obtain ⟨-, rfl⟩ := pure_eq_ok.1 h
    exact ⟨[], .refl _⟩

theorem requirements_takes {value : Unit} (h : requirements stream = .ok (value, after)) :
    ∃ taken, Takes stream taken [] after := by
  rw [requirements, peek_bind_eq_ok] at h
  generalize stream.head.token = token at h
  split at h
  · simp only [bind_eq_ok, pure_eq_ok] at h
    obtain ⟨taken, _, htake, -, rfl⟩ := h
    obtain ⟨-, -, htakes⟩ := take_takes (by
      rw [List.span_eq_takeWhile_dropWhile, List.takeWhile_append_dropWhile]
      exact .refl _) htake
    exact ⟨_, htakes⟩
  · obtain ⟨-, rfl⟩ := pure_eq_ok.1 h
    exact ⟨[], .refl _⟩

theorem openingBrace_takes {span : Span} (hready : Ready source stream)
    (h : openingBrace stream = .ok (span, after)) :
    stream.head.token = .opening .curly ∧ span = stream.head.span ∧
      Takes stream [stream.head] [] after := by
  rw [openingBrace, peek_bind_eq_ok] at h
  generalize htoken : stream.head.token = token at h
  split at h
  · simp only [bind_eq_ok, pure_eq_ok] at h
    obtain ⟨placed, _, hnext, rfl, rfl⟩ := h
    obtain ⟨rfl, -, htakes⟩ := next_takes hready (by rw [htoken]; simp) hnext
    exact ⟨rfl, rfl, htakes⟩
  · exact absurd h expected_ne_ok

theorem closingBrace_takes {owner : String} {span : Span} (hready : Ready source stream)
    (h : closingBrace owner stream = .ok (span, after)) :
    stream.head.token = .closing .curly ∧ span = stream.head.span ∧
      Takes stream [stream.head] [] after := by
  rw [closingBrace, peek_bind_eq_ok] at h
  generalize htoken : stream.head.token = token at h
  split at h
  · simp only [bind_eq_ok, pure_eq_ok] at h
    obtain ⟨placed, _, hnext, rfl, rfl⟩ := h
    obtain ⟨rfl, -, htakes⟩ := next_takes hready (by rw [htoken]; simp) hnext
    exact ⟨rfl, rfl, htakes⟩
  · exact absurd h expected_ne_ok

theorem header_takes {kind : Declaration.Kind} {start : Span} {attrs : List Attribute}
    {header : Header} (hready : Ready source stream) (hhead : stream.head.token ≠ .endOfInput)
    (h : Reader.header source kind start attrs stream = .ok (header, after)) :
    ∃ taken brace, Takes stream (stream.head :: taken ++ [brace])
        (header.attachments.map (·.span)) after ∧
      brace.token = .opening .curly ∧ header.brace = brace.span ∧ header.start = start ∧
      List.Forall₂ Attachment.Of (requestAttributes attrs) header.attachments := by
  simp only [Reader.header, bind_eq_ok, pure_eq_ok] at h
  obtain ⟨keyword, _, hkeyword, attached, _, hattached, text, _, hname, _, _, hgeneric, inherited,
    _, hinherited, _, _, hrequirements, brace, _, hbrace, rfl, rfl⟩ := h
  obtain ⟨rfl, -, hkeywordTakes⟩ := next_takes hready hhead hkeyword
  obtain ⟨hattachedTakes, hall⟩ := attachments_takes hattached
  have hnoted := hkeywordTakes.trans hattachedTakes
  obtain ⟨nameTokens, hnameTakes⟩ := qualifiedName_takes (hready.taken hnoted).2 hname
  obtain ⟨genericTokens, hgenericTakes⟩ := genericClause_takes hgeneric
  have hfront := (hnoted.trans hnameTakes).trans hgenericTakes
  obtain ⟨inheritedTokens, hinheritedTakes⟩ := inheritance_takes (hready.taken hfront).2 hinherited
  obtain ⟨requirementTokens, hrequirementsTakes⟩ := requirements_takes hrequirements
  have hback := (hfront.trans hinheritedTakes).trans hrequirementsTakes
  obtain ⟨hcurly, hspan, hbraceTakes⟩ := openingBrace_takes (hready.taken hback).2 hbrace
  have htotal := hback.trans hbraceTakes
  refine ⟨nameTokens ++ genericTokens ++ inheritedTokens ++ requirementTokens, _, ?_, hcurly,
    hspan, rfl, hall⟩
  simpa using htotal

end Reader

/-! ### Items -/

/-- What an item is, given its attributes, the tokens behind them and the spans that
    were noted.  Something is noted only of a member or a declaration, and then a
    word that introduces it follows the attributes. -/
inductive ItemRead (source : List Char) (stream : TokenStream) (attrs : List Attribute)
    (after : TokenStream) : Item → List Placed → List Span → Prop where
  | separator {tail : List Placed} : ItemRead source stream attrs after .separator tail []
  | other {tail : List Placed} {span : Span}
      (hspan : span = stream.head.span.upTo stream.head.span.start ∨
        tail ≠ [] ∧ span = stream.head.span.upTo after.readTo) :
      ItemRead source stream attrs after (.entry (.other span)) tail []
  | property {lead : Placed} {rest : List Placed} {member : Member}
      (hlead : Introduces lead)
      (hmarkers : List.Forall₂ (fun attr marker => attr.marker = .ok marker) attrs member.markers)
      (hspan : member.span = stream.head.span.upTo after.readTo)
      (hlocated : member.Located source)
      (hled : ∃ front keyword behind, lead :: rest = front ++ keyword :: behind ∧
        (keyword.token = .name "let" ∨ keyword.token = .name "var") ∧
        member.LedBy (behind ++ after.pending)) :
      ItemRead source stream attrs after (.entry (.property member)) (lead :: rest)
        ((keyAttributes attrs).map (·.span))
  | opened {lead brace : Placed} {rest : List Placed} {header : Header}
      (hlead : Introduces lead)
      (hbrace : brace.token = .opening .curly)
      (hspan : header.brace = brace.span)
      (hstart : header.start = stream.head.span)
      (hattached : List.Forall₂ Attachment.Of (requestAttributes attrs) header.attachments) :
      ItemRead source stream attrs after (.opened header) (lead :: rest ++ [brace])
        (header.attachments.map (·.span))

/-- What reading an item takes: attributes, each with its tokens, and then the tokens of
    the item itself. -/
structure ItemTaken (source : List Char) (stream after : TokenStream) (found : Item)
    (attrs : List Attribute) (segments : List (List Placed)) (tail : List Placed)
    (noted : List Span) : Prop where
  ready : Ready source stream
  takes : Takes stream (segments.flatten ++ tail) noted after
  written : List.Forall₂ Attribute.WrittenAs attrs segments
  ends : EndsItem (segments.flatten ++ tail) after
  read : ItemRead source stream attrs after found tail noted

/-- What is taken in front of an item: attributes, each with its tokens, and modifiers, of
    which the first introduces the item. -/
structure ItemBegun (source : List Char) (stream here : TokenStream) (attrs : List Attribute)
    (segments : List (List Placed)) (modifiers : List Placed) : Prop where
  ready : Ready source stream
  takes : Takes stream (segments.flatten ++ modifiers) [] here
  written : List.Forall₂ Attribute.WrittenAs attrs segments
  lead : modifiers = [] ∨ ∃ lead rest, modifiers = lead :: rest ∧ Introduces lead

namespace ItemBegun

variable {source : List Char} {stream here after : TokenStream} {attrs : List Attribute}
  {segments : List (List Placed)} {modifiers : List Placed}

theorem here_ready (h : ItemBegun source stream here attrs segments modifiers) :
    Ready source here :=
  (h.ready.taken h.takes).2

theorem introduced (h : ItemBegun source stream here attrs segments modifiers) {keyword : Placed}
    (hkeyword : Introduces keyword) (rest : List Placed) :
    ∃ lead rest', modifiers ++ keyword :: rest = lead :: rest' ∧ Introduces lead := by
  rcases h.lead with rfl | ⟨lead, others, rfl, hlead⟩
  · exact ⟨keyword, rest, rfl, hkeyword⟩
  · exact ⟨lead, others ++ keyword :: rest, rfl, hlead⟩

theorem other {span : Span} (h : ItemBegun source stream here attrs segments modifiers)
    (hother : Reader.other stream.head.span here = .ok (span, after)) :
    ∃ tail, ItemTaken source stream after (.entry (.other span)) attrs segments tail [] := by
  obtain ⟨taken, htakes, hends, hspan⟩ := Reader.other_takes h.here_ready hother
  refine ⟨modifiers ++ taken, h.ready, ?_, h.written, (hends.append _).append _,
    .other (hspan.imp And.right (And.imp_left (by simp +contextual)))⟩
  simpa using h.takes.trans htakes

theorem property {item : BodyItem} {isStatic : Bool} {word : String}
    (h : ItemBegun source stream here attrs segments modifiers)
    (htoken : here.head.token = .name word) (hword : word = "let" ∨ word = "var")
    (hproperty : Reader.property source stream.head.span attrs isStatic here = .ok (item, after)) :
    ∃ tail noted, ItemTaken source stream after (.entry item) attrs segments tail noted := by
  have hend : here.head.token ≠ .endOfInput := by rw [htoken]; simp
  obtain ⟨taken, noted, htakes, hends, hitem⟩ :=
    Reader.property_takes h.here_ready hend hproperty
  have htotal := h.takes.trans htakes
  rw [List.append_assoc, List.nil_append] at htotal
  have hendsAll : EndsItem (segments.flatten ++ (modifiers ++ here.head :: taken)) after :=
    (hends.append _).append _
  rcases hitem with ⟨member, rfl, rfl, hmarkers, hspan, hlocated, horder, hled⟩ |
    ⟨span, rfl, rfl, hspan⟩
  · have hkeyword : Introduces here.head := by
      refine ⟨word, ?_, htoken⟩
      rcases hword with rfl | rfl <;> simp [introducerWords]
    obtain ⟨lead, rest, htail, hlead⟩ := h.introduced hkeyword taken
    rw [htail] at htotal hendsAll
    obtain ⟨_, -, hsits⟩ := h.here_ready.pending_eq hend
    have hstart := h.ready.head_start_le h.takes
    have hlt := hsits.start_lt_stop
    refine ⟨lead :: rest, _, h.ready, htotal, h.written, hendsAll,
      .property hlead hmarkers hspan ⟨?_, hlocated, ?_⟩
        ⟨modifiers, here.head, taken, htail.symm, ?_, hled⟩⟩
    · rw [hspan]
      exact h.ready.upTo_lies htotal (by simp)
    · rw [hspan]
      exact horder.mono (by simp only [Span.upTo]; omega) (Nat.le_refl _)
    · rw [htoken, Token.name.injEq, Token.name.injEq]
      exact hword
  · exact ⟨_, [], h.ready, htotal, h.written, hendsAll,
      .other (hspan.imp_right (And.intro (by simp)))⟩

theorem opened {header : Header} {kind : Declaration.Kind} {word : String}
    (h : ItemBegun source stream here attrs segments modifiers)
    (htoken : here.head.token = .name word) (hkind : Declaration.Kind.ofKeyword? word = some kind)
    (hheader : Reader.header source kind stream.head.span attrs here = .ok (header, after)) :
    ∃ tail noted, ItemTaken source stream after (.opened header) attrs segments tail noted := by
  obtain ⟨taken, brace, htakes, hbrace, hspan, hstart, hattached⟩ :=
    Reader.header_takes h.here_ready (by rw [htoken]; simp) hheader
  have htotal := h.takes.trans htakes
  obtain ⟨lead, rest, htail, hlead⟩ :=
    h.introduced (introduces_of_ofKeyword? htoken hkind) taken
  have hlist : segments.flatten ++ modifiers ++ (here.head :: taken ++ [brace]) =
      segments.flatten ++ (lead :: rest ++ [brace]) := by
    rw [← htail]
    simp
  rw [hlist, List.nil_append] at htotal
  refine ⟨lead :: rest ++ [brace], _, h.ready, htotal, h.written, ?_,
    .opened hlead hbrace hspan hstart hattached⟩
  refine .inr ⟨brace, ?_, by rw [hbrace]; rfl⟩
  rw [← List.append_assoc]
  exact List.getLast?_concat

end ItemBegun

namespace Reader

variable {source : List Char} {stream after : TokenStream}

/-- **What reading an item does.** -/
theorem item_takes {found : Item} (hready : Ready source stream)
    (h : Reader.item source stream = .ok (found, after)) :
    ∃ attrs segments tail noted,
      ItemTaken source stream after found attrs segments tail noted := by
  rw [Reader.item, peek_bind_eq_ok, bind_eq_ok] at h
  obtain ⟨attrs, afterAttrs, hattrs, h⟩ := h
  obtain ⟨segments, hattrsTakes, hwritten⟩ := attributes_takes hready hattrs
  rw [bind_eq_ok] at h
  obtain ⟨isStatic, here, hmodifiers, h⟩ := h
  obtain ⟨modifiers, hmodifiersTakes, hlead⟩ := modifiers_takes hmodifiers
  have hbegun : ItemBegun source stream here attrs segments modifiers :=
    ⟨hready, hattrsTakes.trans hmodifiersTakes, hwritten, hlead.imp_left And.left⟩
  rw [get_bind_eq_ok] at h
  have hother : (other stream.head.span >>= fun span => pure (Item.entry (.other span))) here =
        .ok (found, after) →
      ∃ attrs segments tail noted,
        ItemTaken source stream after found attrs segments tail noted := by
    intro h
    simp only [bind_eq_ok, pure_eq_ok] at h
    obtain ⟨span, _, hspan, rfl, rfl⟩ := h
    obtain ⟨tail, htaken⟩ := hbegun.other hspan
    exact ⟨attrs, segments, tail, [], htaken⟩
  generalize htoken : here.head.token = token at h
  split at h
  · simp only [bind_eq_ok, pure_eq_ok] at h
    obtain ⟨mark, _, hmark, rfl, rfl⟩ := h
    obtain ⟨rfl, -, htakes⟩ := next_takes hbegun.here_ready (by rw [htoken]; simp) hmark
    refine ⟨attrs, segments, modifiers ++ [here.head], [], hready, ?_, hwritten, ?_, .separator⟩
    · simpa using hbegun.takes.trans htakes
    · exact .inr ⟨here.head, by simp, by rw [htoken]; rfl⟩
  · next word =>
    split at h
    · next hword =>
      simp only [bind_eq_ok, pure_eq_ok] at h
      obtain ⟨item, _, hproperty, rfl, rfl⟩ := h
      obtain ⟨tail, noted, htaken⟩ := hbegun.property htoken hword hproperty
      exact ⟨attrs, segments, tail, noted, htaken⟩
    · generalize hkind : Declaration.Kind.ofKeyword? word = kind? at h
      generalize here.second.token.isName = named at h
      split at h
      · next kind =>
        simp only [bind_eq_ok, pure_eq_ok] at h
        obtain ⟨header, _, hheader, rfl, rfl⟩ := h
        obtain ⟨tail, noted, htaken⟩ := hbegun.opened htoken hkind hheader
        exact ⟨attrs, segments, tail, noted, htaken⟩
      · exact hother h
  · exact hother h

end Reader

/-! ### Bodies -/

/-- The steps in which the items of a body are read, with the tokens that they take and
    the spans that they note. -/
inductive ItemsRead (source : List Char) :
    TokenStream → List Placed → List Span → List BodyItem → TokenStream → Prop where
  | stop {stream : TokenStream} (hready : Ready source stream)
      (hhead : stream.head.token = .closing .curly ∨ stream.head.token = .endOfInput) :
      ItemsRead source stream [] [] [] stream
  | separator {stream between after : TokenStream} {attrs : List Attribute}
      {segments : List (List Placed)} {tail taken : List Placed} {noted noted' : List Span}
      {items : List BodyItem}
      (hitem : ItemTaken source stream between .separator attrs segments tail noted)
      (hrest : ItemsRead source between taken noted' items after) :
      ItemsRead source stream (segments.flatten ++ tail ++ taken) (noted ++ noted') items after
  | entry {stream between after : TokenStream} {attrs : List Attribute}
      {segments : List (List Placed)} {tail taken : List Placed} {noted noted' : List Span}
      {entry : BodyItem} {items : List BodyItem}
      (hitem : ItemTaken source stream between (.entry entry) attrs segments tail noted)
      (hrest : ItemsRead source between taken noted' items after) :
      ItemsRead source stream (segments.flatten ++ tail ++ taken) (noted ++ noted')
        (entry :: items) after
  | opened {stream inside closing outside after : TokenStream} {attrs : List Attribute}
      {segments : List (List Placed)} {tail takenIn takenOut : List Placed}
      {noted notedIn notedOut : List Span} {header : Header} {inner items : List BodyItem}
      (hitem : ItemTaken source stream inside (.opened header) attrs segments tail noted)
      (hinner : ItemsRead source inside takenIn notedIn inner closing)
      (hbrace : closing.head.token = .closing .curly)
      (hclose : Takes closing [closing.head] [] outside)
      (hrest : ItemsRead source outside takenOut notedOut items after) :
      ItemsRead source stream
        (segments.flatten ++ tail ++ (takenIn ++ ([closing.head] ++ takenOut)))
        (noted ++ (notedIn ++ notedOut))
        (.nested (header.closed inner closing.head.span) :: items) after

namespace ItemsRead

variable {source : List Char} {stream after : TokenStream} {taken : List Placed}
  {noted : List Span} {items : List BodyItem}

theorem takes (h : ItemsRead source stream taken noted items after) :
    Ready source stream ∧ Takes stream taken noted after := by
  induction h with
  | stop hready _ => exact ⟨hready, .refl _⟩
  | separator hitem _ ih => exact ⟨hitem.ready, hitem.takes.trans ih.2⟩
  | entry hitem _ ih => exact ⟨hitem.ready, hitem.takes.trans ih.2⟩
  | opened hitem _ _ hclose _ ihInner ihRest =>
    have hback := ihInner.2.trans (hclose.trans ihRest.2)
    exact ⟨hitem.ready, hitem.takes.trans hback⟩

theorem ready_after (h : ItemsRead source stream taken noted items after) : Ready source after :=
  (h.takes.1.taken h.takes.2).2

theorem head_after (h : ItemsRead source stream taken noted items after) :
    after.head.token = .closing .curly ∨ after.head.token = .endOfInput := by
  induction h with
  | stop _ hhead => exact hhead
  | separator _ _ ih => exact ih
  | entry _ _ ih => exact ih
  | opened _ _ _ _ _ _ ihRest => exact ihRest

end ItemsRead

namespace Reader

theorem items_read {source : List Char} {limit : Nat} {stream after : TokenStream}
    {items : List BodyItem} (hready : Ready source stream)
    (h : Reader.items source limit stream = .ok (items, after)) :
    ∃ taken noted, ItemsRead source stream taken noted items after := by
  induction limit generalizing stream items after with
  | zero => exact absurd h tooLong_ne_ok
  | succ limit ih =>
    rw [Reader.items, peek_bind_eq_ok] at h
    generalize htoken : stream.head.token = token at h
    split at h
    · obtain ⟨rfl, rfl⟩ := pure_eq_ok.1 h
      exact ⟨_, _, .stop hready (.inl htoken)⟩
    · obtain ⟨rfl, rfl⟩ := pure_eq_ok.1 h
      exact ⟨_, _, .stop hready (.inr htoken)⟩
    · rw [bind_eq_ok] at h
      obtain ⟨found, between, hitem, h⟩ := h
      obtain ⟨attrs, segments, tail, noted, htaken⟩ := item_takes hready hitem
      have hbetween := (hready.taken htaken.takes).2
      cases found with
      | separator =>
        obtain ⟨_, _, hrest⟩ := ih hbetween h
        exact ⟨_, _, .separator htaken hrest⟩
      | entry entry =>
        simp only [bind_eq_ok, pure_eq_ok] at h
        obtain ⟨more, _, hmore, rfl, rfl⟩ := h
        obtain ⟨_, _, hrest⟩ := ih hbetween hmore
        exact ⟨_, _, .entry htaken hrest⟩
      | opened header =>
        simp only [bind_eq_ok, pure_eq_ok] at h
        obtain ⟨inner, closing, hinner, close, outside, hclose, more, _, hmore, rfl, rfl⟩ := h
        obtain ⟨_, _, hinner⟩ := ih hbetween hinner
        have hclosing := hinner.ready_after
        obtain ⟨hbrace, rfl, hcloses⟩ := closingBrace_takes hclosing hclose
        obtain ⟨_, _, hrest⟩ := ih (hclosing.taken hcloses).2 hmore
        exact ⟨_, _, .opened htaken hinner hbrace hcloses hrest⟩

end Reader

def BodyItem.nested? : BodyItem → Option Declaration
  | .nested declaration => some declaration
  | _ => none

/-- An outline that is read comes from items read up to the end of the source. -/
theorem Outline.ofSource_eq_ok {source : List Char} {outline : Outline}
    (h : Outline.ofSource source = .ok outline) :
    ∃ tokens items after, tokenize source = .ok tokens ∧
      Reader.items source (readingLimit source) (.start tokens) = .ok (items, after) ∧
      after.pending = [] ∧ outline.declarations = items.filterMap BodyItem.nested? ∧
      outline.requests = after.requests := by
  unfold Outline.ofSource at h
  cases htokens : tokenize source with
  | error cause =>
    rw [htokens] at h
    cases h
  | ok tokens =>
    rw [htokens] at h
    change ((Reader.outline source).run (.start tokens) >>= fun p => .ok p.1) = .ok outline at h
    cases hrun : (Reader.outline source).run (.start tokens) with
    | error cause =>
      rw [hrun] at h
      cases h
    | ok result =>
      rw [hrun] at h
      cases h
      obtain ⟨outline, after⟩ := result
      change Reader.outline source (.start tokens) = .ok (outline, after) at hrun
      rw [Reader.outline, Reader.bind_eq_ok] at hrun
      obtain ⟨items, between, hitems, hrun⟩ := hrun
      obtain ⟨taken, noted, hread⟩ := Reader.items_read (.start htokens) hitems
      have hhead := hread.head_after
      rw [Reader.get_bind_eq_ok] at hrun
      generalize htoken : between.head.token = token at hrun hhead
      split at hrun
      · exact absurd hrun Reader.expected_ne_ok
      · next hclosing =>
        obtain ⟨rfl, rfl⟩ := Reader.pure_eq_ok.1 hrun
        have hend : token = .endOfInput := hhead.resolve_left (hclosing _)
        refine ⟨tokens, items, after, rfl, hitems, ?_, rfl, rfl⟩
        -- the end of input is not among the tokens that are pending
        have hready := hread.ready_after
        cases hpending : after.pending with
        | nil => rfl
        | cons placed rest =>
          have hlaid := hready.laid
          rw [hpending] at hlaid
          have hhead : after.head = placed := by rw [TokenStream.head, hpending]; rfl
          rw [hhead, hend] at htoken
          exact absurd htoken hlaid.2.1.ne_endOfInput

/-- The steps in which the items of a whole source are read. -/
theorem Outline.ofSource_read {source : List Char} {outline : Outline}
    (h : Outline.ofSource source = .ok outline) :
    ∃ tokens taken items after, tokenize source = .ok tokens ∧
      ItemsRead source (.start tokens) taken outline.requests items after ∧
      after.pending = [] ∧ outline.declarations = items.filterMap BodyItem.nested? := by
  obtain ⟨tokens, items, after, htokens, hitems, hpending, hdeclarations, hrequests⟩ :=
    Outline.ofSource_eq_ok h
  obtain ⟨taken, noted, hread⟩ := Reader.items_read (.start htokens) hitems
  have hnoted : after.requests = noted := hread.takes.2.requests
  exact ⟨tokens, taken, items, after, htokens, hrequests ▸ hnoted ▸ hread, hpending,
    hdeclarations⟩

end Memberwise
