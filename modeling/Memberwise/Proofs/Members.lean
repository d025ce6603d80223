/-
  Memberwise/Proofs/Members.lean
  ==============================
  **Where attributes and members lie.**

  An attribute is a run of tokens from its `@` to its name or its closing
  parenthesis, and its span is that of the run.  A member lies between the first
  token of its item and the last token of its last binding; names, types and
  initializers lie in it in the order in which they are written.

  What ends a member matters later: an `@` that follows it directly, on the same
  line, stands behind a name or a brace.
-/
import Mathlib.Data.List.Forall2
import Memberwise.Proofs.Expressions

namespace Memberwise

/-! ### Attributes -/

/-- An attribute is written with some tokens: the sign, the name, and perhaps
    arguments in parentheses.  Parentheses without arguments hold nothing. -/
def Attribute.WrittenAs (attr : Attribute) (tokens : List Placed) : Prop :=
  ∃ sign name rest last, tokens = sign :: name :: rest ∧ sign.token = .atSign ∧
    name.token = .name attr.name ∧ tokens.getLast? = some last ∧
    (last.token = .closing .round ∧ (attr.arguments = [] →
        ∃ opening, rest = [opening, last] ∧ opening.token = .opening .round) ∨
      rest = [] ∧ last = name) ∧
    attr.span = sign.span.upTo last.span.stop

namespace Reader

variable {source : List Char} {stream after : TokenStream}

theorem label?_takes {label? : Option String} (hready : Ready source stream)
    (h : Reader.label? stream = .ok (label?, after)) : ∃ taken, Takes stream taken [] after := by
  rw [Reader.label?, get_bind_eq_ok] at h
  generalize htoken : stream.head.token = token at h
  generalize hsecond : stream.second.token = second at h
  split at h
  · simp only [bind_eq_ok, pure_eq_ok] at h
    obtain ⟨placed, between, hnext, placed', between', hnext', rfl, rfl⟩ := h
    obtain ⟨-, hpending, htakes⟩ := next_takes hready (by rw [htoken]; simp) hnext
    rw [second_eq_head hpending htakes] at hsecond
    obtain ⟨-, -, htakes'⟩ :=
      next_takes (hready.taken htakes).2 (by rw [hsecond]; simp) hnext'
    exact ⟨_, htakes.trans htakes'⟩
  · obtain ⟨rfl, rfl⟩ := pure_eq_ok.1 h
    exact ⟨[], .refl _⟩

theorem arguments_takes {limit : Nat} {args : List Argument} (hready : Ready source stream)
    (h : arguments source limit stream = .ok (args, after)) :
    ∃ taken, Takes stream taken [] after ∧ after.head.token = .closing .round ∧
      (args = [] → taken = []) := by
  induction limit generalizing stream args with
  | zero => exact absurd h tooLong_ne_ok
  | succ limit ih =>
    rw [arguments, peek_bind_eq_ok] at h
    generalize htoken : stream.head.token = token at h
    split at h
    · obtain ⟨rfl, rfl⟩ := pure_eq_ok.1 h
      exact ⟨[], .refl _, htoken, fun _ => rfl⟩
    · rw [bind_eq_ok] at h
      obtain ⟨label?, between, hlabel, h⟩ := h
      obtain ⟨front, hfront⟩ := label?_takes hready hlabel
      rw [bind_eq_ok] at h
      obtain ⟨value, between', hvalue, h⟩ := h
      obtain ⟨middle, hmiddle, -⟩ := expr_takes (hready.taken hfront).2 hvalue
      have htakes := hfront.trans hmiddle
      have hbetween := (hready.taken htakes).2
      rw [peek_bind_eq_ok] at h
      generalize hnext : between'.head.token = token' at h
      split at h
      · rw [bind_eq_ok] at h
        obtain ⟨placed, later, hcomma, h⟩ := h
        obtain ⟨-, -, hone⟩ := next_takes hbetween (by rw [hnext]; simp) hcomma
        simp only [bind_eq_ok, pure_eq_ok] at h
        obtain ⟨more, _, hmore, rfl, rfl⟩ := h
        obtain ⟨back, hback, hclose, -⟩ := ih (hbetween.taken hone).2 hmore
        exact ⟨_, (htakes.trans hone).trans hback, hclose, fun h => nomatch h⟩
      · simp only [bind_eq_ok, pure_eq_ok] at h
        obtain ⟨more, _, hmore, rfl, rfl⟩ := h
        obtain ⟨back, hback, hclose, -⟩ := ih hbetween hmore
        exact ⟨_, htakes.trans hback, hclose, fun h => nomatch h⟩
      · exact absurd h expected_ne_ok

theorem attr_takes {attr : Attribute} (hready : Ready source stream)
    (hhead : stream.head.token = .atSign) (h : Reader.attr source stream = .ok (attr, after)) :
    ∃ taken, Takes stream taken [] after ∧ attr.WrittenAs taken := by
  rw [Reader.attr, bind_eq_ok] at h
  obtain ⟨sign, between, hsign, h⟩ := h
  obtain ⟨rfl, -, htakes⟩ := next_takes hready (by rw [hhead]; simp) hsign
  have hbetween := (hready.taken htakes).2
  rw [bind_eq_ok] at h
  obtain ⟨pattern, between', hname, h⟩ := h
  obtain ⟨htoken, hspan, -, htakes'⟩ := name_takes hbetween hname
  have hboth := htakes.trans htakes'
  have hbetween' := (hready.taken hboth).2
  rw [peek_bind_eq_ok] at h
  split at h
  · next hopens =>
    have hopen : between'.head.token = .opening .round := by
      simp only [opensArguments, Bool.and_eq_true, beq_iff_eq] at hopens
      exact hopens.1
    rw [bind_eq_ok] at h
    obtain ⟨brace, inner, hbrace, h⟩ := h
    obtain ⟨rfl, -, hone⟩ := next_takes hbetween' (by rw [hopen]; simp) hbrace
    rw [bind_eq_ok] at h
    obtain ⟨args, inner', hargs, h⟩ := h
    obtain ⟨middle, hmiddle, hclose, hempty⟩ := arguments_takes (hbetween'.taken hone).2 hargs
    have hsofar := (hboth.trans hone).trans hmiddle
    simp only [bind_eq_ok, pure_eq_ok] at h
    obtain ⟨close, _, hnext, rfl, rfl⟩ := h
    obtain ⟨rfl, -, hlast⟩ := next_takes (hready.taken hsofar).2 (by rw [hclose]; simp) hnext
    refine ⟨_, hsofar.trans hlast, stream.head, between.head,
      [between'.head] ++ middle ++ [inner'.head], inner'.head, by simp, hhead, htoken,
      List.getLast?_concat, .inl ⟨hclose, ?_⟩, rfl⟩
    intro hnone
    exact ⟨between'.head, by rw [hempty hnone]; rfl, hopen⟩
  · obtain ⟨rfl, rfl⟩ := pure_eq_ok.1 h
    refine ⟨_, hboth, stream.head, between.head, [], between.head, rfl, hhead, htoken, rfl,
      .inr ⟨rfl, rfl⟩, ?_⟩
    rw [hspan]

theorem attributes_takes {limit : Nat} {attrs : List Attribute} (hready : Ready source stream)
    (h : attributes source limit stream = .ok (attrs, after)) :
    ∃ segments, Takes stream segments.flatten [] after ∧
      List.Forall₂ Attribute.WrittenAs attrs segments := by
  induction limit generalizing stream attrs with
  | zero => exact absurd h tooLong_ne_ok
  | succ limit ih =>
    rw [attributes, peek_bind_eq_ok] at h
    generalize htoken : stream.head.token = token at h
    split at h
    · rw [bind_eq_ok] at h
      obtain ⟨first, between, hfirst, h⟩ := h
      obtain ⟨taken, htakes, hwritten⟩ := attr_takes hready htoken hfirst
      simp only [bind_eq_ok, pure_eq_ok] at h
      obtain ⟨more, _, hmore, rfl, rfl⟩ := h
      obtain ⟨segments, hsegments, hall⟩ := ih (hready.taken htakes).2 hmore
      exact ⟨taken :: segments, htakes.trans hsegments, .cons hwritten hall⟩
    · obtain ⟨rfl, rfl⟩ := pure_eq_ok.1 h
      exact ⟨[], .refl _, .nil⟩

end Reader

/-! ### Modifiers and keywords -/

def introducerWords : List String :=
  modifierWords ++ ["let", "var", "struct", "class", "enum", "actor", "protocol", "extension"]

def Introduces (placed : Placed) : Prop := ∃ word ∈ introducerWords, placed.token = .name word

theorem introduces_of_modifier? {placed : Placed} {following? : Option Placed} {isStatic : Bool}
    (h : modifier? placed following? = some isStatic) : Introduces placed := by
  unfold modifier? at h
  split at h
  · next word htoken =>
    refine ⟨word, ?_, htoken⟩
    split at h
    · next hclass => simp [introducerWords, hclass.1]
    · split at h
      · next hword =>
        have hmem : word ∈ modifierWords := by simpa using hword
        exact List.mem_append_left _ hmem
      · cases h
  · cases h

theorem introduces_of_ofKeyword? {placed : Placed} {word : String} {kind : Declaration.Kind}
    (htoken : placed.token = .name word) (h : Declaration.Kind.ofKeyword? word = some kind) :
    Introduces placed := by
  refine ⟨word, ?_, htoken⟩
  unfold Declaration.Kind.ofKeyword? at h
  split at h <;> cases h <;> simp [introducerWords]

theorem modifierRun_introduces {tokens rest : List Placed} {lead : Placed}
    (h : (modifierRun 0 tokens).2.1 = lead :: rest) : Introduces lead := by
  match tokens with
  | [] => cases h
  | [placed] =>
    rw [modifierRun] at h
    split at h
    · next hmodifier =>
      cases h
      exact introduces_of_modifier? hmodifier
    · cases h
  | placed :: following :: tail =>
    rw [modifierRun] at h
    split at h
    · next hmodifier =>
      have hlead : lead = placed := by
        split at h <;> · cases h; rfl
      subst hlead
      exact introduces_of_modifier? hmodifier
    · cases h

namespace Reader

variable {source : List Char} {stream after : TokenStream}

/-- Modifiers are taken from the front, and the first of them introduces the item. -/
theorem modifiers_takes {isStatic : Bool} (h : modifiers stream = .ok (isStatic, after)) :
    ∃ taken, Takes stream taken [] after ∧
      (taken = [] ∧ after.head = stream.head ∨
        ∃ lead rest, taken = lead :: rest ∧ Introduces lead) := by
  have happend := modifierRun_append 0 stream.pending
  have hlead : ∀ {lead rest}, (modifierRun 0 stream.pending).2.1 = lead :: rest →
      Introduces lead := modifierRun_introduces
  unfold modifiers at h
  generalize modifierRun 0 stream.pending = parts at *
  obtain ⟨found, taken, rest⟩ := parts
  cases h
  refine ⟨taken, ⟨?_, rfl, rfl, (List.append_nil _).symm⟩, ?_⟩
  · simp only at happend
    rw [← happend]
    exact .refl _
  · cases taken with
    | nil =>
      simp only [List.nil_append] at happend
      exact .inl ⟨rfl, by simp only [TokenStream.head, happend]⟩
    | cons lead others => exact .inr ⟨lead, others, rfl, hlead rfl⟩

end Reader

/-! ### Located members -/

def Pattern.Located (source : List Char) (pattern : Pattern) : Prop :=
  pattern.span.Covers source pattern.name.toList

def WrittenType.Located (source : List Char) (written : WrittenType) : Prop :=
  written.span.Covers source written.text.toList

/-- The spans of what a binding is made of, in order.  An empty initializer has no
    place among them. -/
def Binding.spans (binding : Binding) : List Span :=
  binding.pattern.span :: (binding.type?.toList.map (·.span) ++
    writtenSpans binding.initializer?.toList)

structure Binding.Located (source : List Char) (binding : Binding) : Prop where
  pattern : binding.pattern.Located source
  type : ∀ written ∈ binding.type?, written.Located source
  initializer : ∀ value ∈ binding.initializer?, value.Located source

structure Member.Located (source : List Char) (member : Member) : Prop where
  lies : member.span.Lies source
  bindings : ∀ binding ∈ member.bindings, binding.Located source
  inOrder : Span.InOrder member.span.start (member.bindings.flatMap Binding.spans) member.span.stop

structure Binding.LedBy (binding : Binding) (name : Placed) (rest : List Placed) : Prop where
  token : name.token = .name binding.pattern.name
  span : binding.pattern.span = name.span
  noColon : binding.type? = none → ∀ next ∈ rest.head?, next.token ≠ .colon

def Member.LedBy (member : Member) (behind : List Placed) : Prop :=
  ∀ first ∈ member.bindings.head?, ∃ name rest, behind = name :: rest ∧ first.LedBy name rest

/-- No colon comes about where operators are parted. -/
theorem Binding.LedBy.refines {binding : Binding} {name : Placed} {rest rest' : List Placed}
    (h : binding.LedBy name rest) (hrefines : Refines rest rest') : binding.LedBy name rest' := by
  refine ⟨h.token, h.span, ?_⟩
  intro huntyped next hnext hcolon
  obtain ⟨back, rfl⟩ := List.head?_eq_some_iff.1 hnext
  obtain ⟨_, rfl, -⟩ := hrefines.exists_cons (by rw [hcolon]; rfl)
  exact h.noColon huntyped next rfl hcolon

/-! ### What ends an item -/

/-- Tokens behind which an item can end on its line: separators, braces, and the
    name of a binding with nothing else said. -/
def Token.closesItem : Token → Bool
  | .semicolon | .opening .curly | .closing .curly | .name _ => true
  | _ => false

/-- The tokens taken end an item: an `@` that comes next is on a new line, or it
    stands behind a token that closes the item. -/
def EndsItem (taken : List Placed) (after : TokenStream) : Prop :=
  AtBreak after ∨ ∃ last, taken.getLast? = some last ∧ last.token.closesItem = true

theorem EndsItem.append (front : List Placed) {back : List Placed} {after : TokenStream}
    (h : EndsItem back after) : EndsItem (front ++ back) after := by
  apply h.imp_right
  rintro ⟨last, hlast, hcloses⟩
  exact ⟨last, by rw [List.getLast?_append, hlast]; rfl, hcloses⟩

theorem EndsItem.cons {taken : List Placed} {after : TokenStream} (h : EndsItem taken after)
    (placed : Placed) : EndsItem (placed :: taken) after :=
  h.append [placed]

/-! ### Keys that members fix -/

def keyAttributes (attrs : List Attribute) : List Attribute :=
  attrs.filter (·.name == Request.codingKeyName)

theorem isSome_key?_of_marker {attr : Attribute} {marker : Marker}
    (h : attr.marker = .ok marker) :
    marker.key?.isSome = (attr.name == Request.codingKeyName) := by
  unfold Attribute.marker at h
  split at h
  · next hname =>
    cases hkey : attr.key with
    | error cause =>
      rw [hkey] at h
      cases h
    | ok key =>
      rw [hkey] at h
      cases h
      simp [Marker.key?, hname]
  · next hname =>
    cases h
    simp [Marker.key?, hname]

namespace Reader

variable {source : List Char} {stream after : TokenStream}

/-! ### Bindings -/

theorem accessorBlock_takes {accessors : Accessors} (hready : Ready source stream)
    (hhead : stream.head.token ≠ .endOfInput)
    (h : accessorBlock stream = .ok (accessors, after)) :
    ∃ taken, Takes stream taken [] after ∧ EndsItem taken after := by
  rw [accessorBlock, bind_eq_ok] at h
  obtain ⟨brace, between, hbrace, h⟩ := h
  obtain ⟨-, -, htakes⟩ := next_takes hready hhead hbrace
  rw [get_bind_eq_ok] at h
  generalize hrun : blockRun? 0 between.pending = run? at h
  split at h
  · next run =>
    simp only [bind_eq_ok, pure_eq_ok] at h
    obtain ⟨block, _, htake, -, rfl⟩ := h
    obtain ⟨hpending, last, hlast, hcurly⟩ := blockRun?_eq_some hrun
    obtain ⟨rfl, -, hblock⟩ := take_takes (by rw [hpending]; exact .refl _) htake
    refine ⟨_, htakes.trans hblock, EndsItem.append _ (.inr ⟨last, hlast, ?_⟩)⟩
    rw [hcurly]
    rfl
  · exact absurd h failAt_ne_ok

theorem accessors_takes {accessors : Accessors} (hready : Ready source stream)
    (h : Reader.accessors stream = .ok (accessors, after)) :
    ∃ taken, Takes stream taken [] after ∧
      (taken = [] ∧ after = stream ∨ EndsItem taken after) := by
  rw [Reader.accessors, peek_bind_eq_ok] at h
  generalize htoken : stream.head.token = token at h
  split at h
  · obtain ⟨taken, htakes, hends⟩ := accessorBlock_takes hready (by rw [htoken]; simp) h
    exact ⟨taken, htakes, .inr hends⟩
  · obtain ⟨rfl, rfl⟩ := pure_eq_ok.1 h
    exact ⟨[], .refl _, .inl ⟨rfl, rfl⟩⟩

theorem type?_takes {type? : Option WrittenType} (hready : Ready source stream)
    (h : Reader.type? source stream = .ok (type?, after)) :
    ∃ taken, Takes stream taken [] after ∧ (taken = [] ∧ after = stream ∨ AtBreak after) ∧
      (∀ written ∈ type?, written.Located source) ∧
      Span.InOrder stream.readTo (type?.toList.map (·.span)) after.readTo ∧
      (type? = none → stream.head.token ≠ .colon) := by
  rw [Reader.type?, peek_bind_eq_ok] at h
  generalize htoken : stream.head.token = token at h
  split at h
  · rw [bind_eq_ok] at h
    obtain ⟨colon, between, hcolon, h⟩ := h
    obtain ⟨-, -, htakes⟩ := next_takes hready (by rw [htoken]; simp) hcolon
    have hbetween := (hready.taken htakes).2
    simp only [bind_eq_ok, pure_eq_ok] at h
    obtain ⟨written, _, hwritten, rfl, rfl⟩ := h
    obtain ⟨taken, hne, htype, hbreak, hspan, htext⟩ := type_takes hbetween hwritten
    have hlt := hbetween.head_lt_readTo htype hne
    have hlow := hbetween.readTo_le_head
    have hle := hready.readTo_le htakes
    refine ⟨_, htakes.trans htype, .inr hbreak, ?_, ?_, fun h => nomatch h⟩
    · rintro _ ⟨⟩
      exact htext
    · simp only [Option.toList_some, List.map, hspan]
      exact ⟨Nat.le_trans hle hlow, Nat.le_of_lt hlt, Nat.le_refl _⟩
  · next hcolon =>
    obtain ⟨rfl, rfl⟩ := pure_eq_ok.1 h
    exact ⟨[], .refl _, .inl ⟨rfl, rfl⟩, by simp, Nat.le_refl _, fun _ => hcolon⟩

theorem initializer?_takes {initializer? : Option Expr} (hready : Ready source stream)
    (h : Reader.initializer? source stream = .ok (initializer?, after)) :
    ∃ taken, Takes stream taken [] after ∧ (taken = [] ∧ after = stream ∨ AtBreak after) ∧
      (∀ value ∈ initializer?, value.Located source) ∧
      Span.InOrder stream.readTo (writtenSpans initializer?.toList) after.readTo := by
  rw [Reader.initializer?, peek_bind_eq_ok] at h
  generalize htoken : stream.head.token = token at h
  split at h
  · rw [bind_eq_ok] at h
    obtain ⟨equals, between, hequals, h⟩ := h
    obtain ⟨-, -, htakes⟩ := next_takes hready (by rw [htoken]; simp) hequals
    simp only [bind_eq_ok, pure_eq_ok] at h
    obtain ⟨value, _, hvalue, rfl, rfl⟩ := h
    obtain ⟨taken, hexpr, hbreak, hlocated, horder⟩ := expr_takes (hready.taken htakes).2 hvalue
    refine ⟨_, htakes.trans hexpr, .inr hbreak, ?_, ?_⟩
    · rintro _ ⟨⟩
      exact hlocated
    · exact horder.mono (hready.readTo_le htakes) (Nat.le_refl _)
  · obtain ⟨rfl, rfl⟩ := pure_eq_ok.1 h
    exact ⟨[], .refl _, .inl ⟨rfl, rfl⟩, by simp, Nat.le_refl _⟩

theorem binding_takes {binding : Binding} (hready : Ready source stream)
    (h : Reader.binding source stream = .ok (binding, after)) :
    ∃ taken, Takes stream (stream.head :: taken) [] after ∧
      EndsItem (stream.head :: taken) after ∧ binding.Located source ∧
      Span.InOrder stream.readTo binding.spans after.readTo ∧
      binding.LedBy stream.head (taken ++ after.pending) := by
  rw [Reader.binding, bind_eq_ok] at h
  obtain ⟨pattern, afterName, hname, h⟩ := h
  obtain ⟨htoken, hspan, hpending, hnameTakes⟩ := name_takes hready hname
  rw [bind_eq_ok] at h
  obtain ⟨type?, afterType, htype, h⟩ := h
  obtain ⟨_, htypeTakes, htypeEnd, htypeLocated, htypeOrder, hcolon⟩ :=
    type?_takes (hready.taken hnameTakes).2 htype
  have hfront := hnameTakes.trans htypeTakes
  rw [bind_eq_ok] at h
  obtain ⟨initializer?, afterValue, hvalue, h⟩ := h
  obtain ⟨_, hvalueTakes, hvalueEnd, hvalueLocated, hvalueOrder⟩ :=
    initializer?_takes (hready.taken hfront).2 hvalue
  have hmiddle := hfront.trans hvalueTakes
  simp only [bind_eq_ok, pure_eq_ok] at h
  obtain ⟨accessors, _, haccessors, rfl, rfl⟩ := h
  obtain ⟨_, hblockTakes, hblockEnd⟩ := accessors_takes (hready.taken hmiddle).2 haccessors
  obtain ⟨_, -, hsits⟩ := hready.pending_eq (by rw [htoken]; simp)
  have hbehind := (htypeTakes.trans hvalueTakes).trans hblockTakes
  refine ⟨_, by simpa using hmiddle.trans hblockTakes, ?_, ⟨?_, htypeLocated, hvalueLocated⟩, ?_,
    Binding.LedBy.refines ⟨htoken, hspan, ?_⟩ hbehind.pending⟩
  · -- the last part that is there ends the binding
    rcases hblockEnd with ⟨rfl, rfl⟩ | hends
    · rcases hvalueEnd with ⟨rfl, rfl⟩ | hbreak
      · rcases htypeEnd with ⟨rfl, rfl⟩ | hbreak
        · exact .inr ⟨stream.head, rfl, by rw [htoken]; rfl⟩
        · exact .inl hbreak
      · exact .inl hbreak
    · exact (hends.append _).cons _
  · have hcovers := hsits.2
    rw [htoken] at hcovers
    rw [Pattern.Located, hspan]
    exact hcovers
  · have hstop : afterName.readTo = stream.head.span.stop := by simp [hnameTakes.readTo]
    refine ⟨?_, ?_, ?_⟩
    · rw [hspan]
      exact hready.readTo_le_head
    · rw [hspan]
      exact Nat.le_of_lt hsits.start_lt_stop
    · rw [hspan, ← hstop]
      refine htypeOrder.append (hvalueOrder.mono (Nat.le_refl _) ?_)
      exact (hready.taken hmiddle).2.readTo_le hblockTakes
  · intro huntyped next hnext
    have hhead : afterName.head = next := by
      rw [TokenStream.head, List.headD_eq_head?_getD, Option.mem_def.1 hnext]
      rfl
    rw [← hhead]
    exact hcolon huntyped

theorem bindings_takes {limit : Nat} {bindings : List Binding} (hready : Ready source stream)
    (h : Reader.bindings source limit stream = .ok (bindings, after)) :
    ∃ taken, Takes stream (stream.head :: taken) [] after ∧
      EndsItem (stream.head :: taken) after ∧
      (∀ binding ∈ bindings, binding.Located source) ∧
      Span.InOrder stream.readTo (bindings.flatMap Binding.spans) after.readTo ∧
      ∀ first ∈ bindings.head?, first.LedBy stream.head (taken ++ after.pending) := by
  induction limit generalizing stream bindings with
  | zero => exact absurd h tooLong_ne_ok
  | succ limit ih =>
    rw [Reader.bindings, bind_eq_ok] at h
    obtain ⟨first, between, hfirst, h⟩ := h
    obtain ⟨taken, htakes, hends, hlocated, horder, hled⟩ := binding_takes hready hfirst
    have hbetween := (hready.taken htakes).2
    rw [peek_bind_eq_ok] at h
    generalize htoken : between.head.token = token at h
    split at h
    · rw [bind_eq_ok] at h
      obtain ⟨comma, between', hcomma, h⟩ := h
      obtain ⟨-, -, hone⟩ := next_takes hbetween (by rw [htoken]; simp) hcomma
      simp only [bind_eq_ok, pure_eq_ok] at h
      obtain ⟨more, _, hmore, rfl, rfl⟩ := h
      obtain ⟨back, hback, hbackEnds, hall, hrestOrder, -⟩ := ih (hbetween.taken hone).2 hmore
      have hbehind := (Refines.refl taken).append (hone.trans hback).pending
      refine ⟨_, by simpa using (htakes.trans hone).trans hback,
        (hbackEnds.append (taken ++ [comma])).append [stream.head], ?_, ?_, ?_⟩
      · intro binding hmem
        rcases List.mem_cons.1 hmem with rfl | hmem
        · exact hlocated
        · exact hall binding hmem
      · rw [List.flatMap_cons]
        exact horder.append (hrestOrder.mono (hbetween.readTo_le hone) (Nat.le_refl _))
      · rintro _ ⟨⟩
        exact hled.refines (by simpa using hbehind)
    · obtain ⟨rfl, rfl⟩ := pure_eq_ok.1 h
      refine ⟨taken, htakes, hends, by simpa using hlocated, by simpa using horder, ?_⟩
      rintro _ ⟨⟩
      exact hled

/-! ### Other items -/

/-- An item that is not taken apart ends where its last token does; if nothing is
    left to take, it is empty and lies at its start. -/
theorem other_takes {start span : Span} (hready : Ready source stream)
    (h : other start stream = .ok (span, after)) :
    ∃ taken, Takes stream taken [] after ∧ EndsItem taken after ∧
      (taken = [] ∧ span = start.upTo start.start ∨
        taken ≠ [] ∧ span = start.upTo after.readTo) := by
  rw [other, bind_eq_ok] at h
  obtain ⟨taken, between, htake, h⟩ := h
  have hrun := otherRun_append true 0 stream.pending
  obtain ⟨-, hpending, htakes⟩ := take_takes (by rw [hrun]; exact .refl _) htake
  have hbetween := (hready.taken htakes).2
  have hbreak : AtBreak between := .of_pending hbetween (by rw [hpending]; exact otherRun_break)
  rw [peek_bind_eq_ok] at h
  generalize hlast : taken.getLast? = last? at h
  generalize htoken : between.head.token = token at h
  split at h
  · next last _ =>
    obtain ⟨rfl, rfl⟩ := pure_eq_ok.1 h
    refine ⟨taken, htakes, .inl hbreak, .inr ⟨?_, ?_⟩⟩
    · rintro rfl
      cases hlast
    · rw [htakes.readTo, endOf_eq_of_getLast? hlast]
  · obtain rfl := List.getLast?_eq_none_iff.1 hlast
    simp only [bind_eq_ok, pure_eq_ok] at h
    obtain ⟨mark, _, hmark, rfl, rfl⟩ := h
    obtain ⟨rfl, -, hone⟩ := next_takes hbetween (by rw [htoken]; simp) hmark
    refine ⟨_, htakes.trans hone, .inr ⟨between.head, rfl, by rw [htoken]; rfl⟩,
      .inr ⟨by simp, ?_⟩⟩
    rw [hone.readTo]
    rfl
  · obtain rfl := List.getLast?_eq_none_iff.1 hlast
    obtain ⟨rfl, rfl⟩ := pure_eq_ok.1 h
    exact ⟨[], htakes, .inl hbreak, .inl ⟨rfl, rfl⟩⟩

/-! ### Properties -/

/-- The markers of a member are what its attributes say; nothing is taken, and the
    attributes that fix the key are noted. -/
theorem markers_takes {attrs : List Attribute} {markers : List Marker}
    (h : Reader.markers attrs stream = .ok (markers, after)) :
    Takes stream [] ((keyAttributes attrs).map (·.span)) after ∧ after.pending = stream.pending ∧
      List.Forall₂ (fun attr marker => attr.marker = .ok marker) attrs markers := by
  induction attrs generalizing stream markers with
  | nil =>
    obtain ⟨rfl, rfl⟩ := pure_eq_ok.1 h
    exact ⟨.refl _, rfl, .nil⟩
  | cons first rest ih =>
    rw [Reader.markers, bind_eq_ok] at h
    obtain ⟨marker, between, htyped, h⟩ := h
    obtain ⟨hmarker, rfl⟩ := typed_eq_ok.1 htyped
    rw [bind_eq_ok] at h
    obtain ⟨_, noted, hnote, h⟩ := h
    obtain ⟨hnoted, hpending⟩ := note_takes hnote
    simp only [bind_eq_ok, pure_eq_ok] at h
    obtain ⟨more, _, hmore, rfl, rfl⟩ := h
    obtain ⟨hrest, hpending', hall⟩ := ih hmore
    refine ⟨?_, hpending'.trans hpending, .cons hmarker hall⟩
    have hboth := hnoted.trans hrest
    rw [isSome_key?_of_marker hmarker] at hboth
    unfold keyAttributes at *
    rw [List.filter_cons]
    cases hname : first.name == Request.codingKeyName with
    | false =>
      rw [hname] at hboth
      exact hboth
    | true =>
      rw [hname] at hboth
      exact hboth

/-- What reading a member does.  It takes the keyword and more; if it gives a member,
    then its parts lie behind the keyword, and the attributes that fix the key are
    noted. -/
theorem property_takes {start : Span} {attrs : List Attribute} {isStatic : Bool} {item : BodyItem}
    (hready : Ready source stream) (hhead : stream.head.token ≠ .endOfInput)
    (h : property source start attrs isStatic stream = .ok (item, after)) :
    ∃ taken noted, Takes stream (stream.head :: taken) noted after ∧
      EndsItem (stream.head :: taken) after ∧
      ((∃ member, item = .property member ∧ noted = (keyAttributes attrs).map (·.span) ∧
          List.Forall₂ (fun attr marker => attr.marker = .ok marker) attrs member.markers ∧
          member.span = start.upTo after.readTo ∧
          (∀ binding ∈ member.bindings, binding.Located source) ∧
          Span.InOrder stream.head.span.stop (member.bindings.flatMap Binding.spans)
            after.readTo ∧
          member.LedBy (taken ++ after.pending)) ∨
        (∃ span, item = .other span ∧ noted = [] ∧
          (span = start.upTo start.start ∨ span = start.upTo after.readTo))) := by
  rw [property, bind_eq_ok] at h
  obtain ⟨keyword, between, hkeyword, h⟩ := h
  obtain ⟨rfl, -, htakes⟩ := next_takes hready hhead hkeyword
  have hbetween := (hready.taken htakes).2
  rw [peek_bind_eq_ok] at h
  generalize htoken : between.head.token = token at h
  split at h
  · rw [bind_eq_ok] at h
    obtain ⟨markers, marked, hmarkers, h⟩ := h
    obtain ⟨hmarked, -, hall⟩ := markers_takes hmarkers
    have hmarkedReady := (hbetween.taken hmarked).2
    rw [bind_eq_ok] at h
    obtain ⟨bindings, bound, hbindings, h⟩ := h
    obtain ⟨taken, hbound, hends, hlocated, horder, hled⟩ :=
      bindings_takes hmarkedReady hbindings
    rw [get_bind_eq_ok, pure_eq_ok] at h
    obtain ⟨rfl, rfl⟩ := h
    have htotal := htakes.trans (hmarked.trans hbound)
    rw [List.nil_append, List.append_nil, List.nil_append] at htotal
    have hlow : stream.head.span.stop = marked.readTo := by
      simp [hmarked.readTo, htakes.readTo]
    refine ⟨_, _, htotal, hends.cons _, .inl ⟨_, rfl, rfl, hall, rfl, hlocated, hlow ▸ horder, ?_⟩⟩
    intro first hfirst
    exact ⟨marked.head, _, rfl, hled first hfirst⟩
  · simp only [bind_eq_ok, pure_eq_ok] at h
    obtain ⟨span, _, hother, rfl, rfl⟩ := h
    obtain ⟨taken, hrest, hends, hspan⟩ := other_takes hbetween hother
    refine ⟨taken, _, htakes.trans hrest, hends.cons _, .inr ⟨span, rfl, rfl, ?_⟩⟩
    exact hspan.imp And.right And.right

end Reader

end Memberwise
