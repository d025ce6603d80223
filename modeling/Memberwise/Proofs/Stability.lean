/-
  Memberwise/Proofs/Stability.lean
  ================================
  **When expanding a source changes nothing.**

  A source that requests nothing is left as it is.  The converse takes an
  argument, since text is taken out at one place and put in at others.  At the
  first request of a source, the expanded text goes on with what follows the
  requests there: a comment, a word that introduces the item, or an attribute that
  is kept.  The source goes on with the `@` of the request, so only an attribute is
  left to consider, and then the two names differ.

  So an expanded text is stable under a second expansion if and only if it can be
  read and requests nothing.
-/
import Memberwise.Proofs.Removal

namespace Memberwise

/-! ### Words and signs among parted tokens -/

/-- Words and signs among some tokens are read from where the token in front of them
    ends. -/
def Lexed (source : List Char) : Nat → List Placed → Prop
  | _, [] => True
  | place, placed :: rest =>
    (placed.token = .atSign ∨ placed.token.isName = true → placed.NextFrom source place) ∧
      Lexed source placed.span.stop rest

theorem Lexed.append_iff {source : List Char} {place : Nat} {front back : List Placed} :
    Lexed source place (front ++ back) ↔
      Lexed source place front ∧ Lexed source (endOf place front) back := by
  induction front generalizing place with
  | nil => simp [Lexed]
  | cons placed rest ih => simp only [List.cons_append, Lexed, ih, endOf_cons, and_assoc]

theorem Scanned.lexed {source before : List Char} {flag : Bool} {tokens : List Placed}
    {finish : Placed} (h : Scanned source flag before tokens finish) :
    Lexed source (Text.width before) tokens := by
  induction tokens generalizing flag before with
  | nil => trivial
  | cons placed rest ih =>
    refine ⟨fun _ => h.nextFrom, ?_⟩
    cases h with
    | token _ _ _ _ hspan _ hrest =>
      have hlexed := ih hrest
      rw [hspan]
      rwa [Text.width_append] at hlexed

theorem Refines.lexed {source : List Char} {a b : List Placed} (h : Refines a b) {place : Nat}
    (ha : Lexed source place a) : Lexed source place b := by
  induction h generalizing place with
  | nil => trivial
  | keep placed _ ih => exact ⟨ha.1, ih ha.2⟩
  | part hpart _ ih =>
    obtain ⟨text, -, -, -, rfl, rfl⟩ := splitEquals?_eq_some hpart
    refine ⟨fun hkind => ?_, fun hkind => ?_, ih ha.2⟩
    · rcases hkind with hsign | hname
      · cases hsign
      · cases hname
    · rcases hkind with hsign | hname
      · cases hsign
      · cases hname

/-! ### Names of attributes -/

theorem takeWhile_eq_nil_iff_head? {p : Char → Bool} {text : List Char} :
    text.takeWhile p = [] ↔ ∀ c ∈ text.head?, p c = false := by
  cases text with
  | nil => simp
  | cons c text => by_cases hc : p c = true <;> simp [hc]

/-- A name that starts with a name character goes on with the name characters that
    follow it, and none did where it was read. -/
theorem Token.Reads.takeWhile_eq {word : String} {c : Char} {rest after : List Char}
    (h : (Token.name word).Reads word.toList after) (hword : word.toList = c :: rest)
    (hc : isNamePart c = true) :
    (∀ more, (word.toList ++ more).takeWhile isNamePart =
      word.toList ++ more.takeWhile isNamePart) ∧ after.takeWhile isNamePart = [] := by
  rw [hword, reads_name_iff hword, nameRun_append_length] at h
  obtain ⟨rfl, -⟩ | ⟨-, hall, hafter⟩ := h
  · rw [isNamePart_backtick] at hc
    cases hc
  · rw [hword]
    refine ⟨fun more => List.takeWhile_append_of_pos (List.forall_mem_cons.2 ⟨hc, hall⟩), ?_⟩
    rwa [takeWhile_eq_nil_iff_head?]

/-- What the gap in front of a token is can be told from the text. -/
theorem Token.gap_inj {front front' text text' : List Char} (hfront : IsGap front)
    (hstop : NoGap text) (hfront' : IsGap front') (hstop' : NoGap text')
    (heq : front ++ text = front' ++ text') : front = front' ∧ text = text' := by
  have hread := hfront 0 text
  rw [heq, hfront', hstop, hstop', Except.ok.injEq] at hread
  exact List.append_inj heq (by omega)

theorem Token.Reads.noGap_of_name {word : String} {after after' : List Char}
    (h : (Token.name word).Reads word.toList after) (hstop : NoGap (word.toList ++ after)) :
    NoGap (word.toList ++ after') := by
  obtain ⟨c, rest, hword⟩ := List.exists_cons_of_ne_nil h.ne_nil
  rw [hword] at hstop ⊢
  refine noGap_cons_iff.2 ⟨(noGap_cons_iff.1 hstop).1, ?_⟩
  rintro rfl
  rw [hword, reads_name_iff hword] at h
  exact absurd h (by simp [isNameStart])

structure Token.NamedBehind (gap : List Char) (word : String) (after : List Char) : Prop where
  isGap : IsGap gap
  noGap : NoGap (word.toList ++ after)
  reads : (Token.name word).Reads word.toList after

/-- Two attributes with the same text in front have the same name, if the text behind the
    second has been changed as taking out requests does. -/
theorem Token.NamedBehind.name_eq {request name : String}
    {front front' after after' text : List Char} (hrequest : request ∈ requestNames)
    (h : NamedBehind front request after) (h' : NamedBehind front' name after')
    (htext : text.head? = after'.head? ∨ (∀ c ∈ text.head?, Token.isNamePart c = false) ∨
      ∃ word ∈ introducerWords, word.toList <+: text)
    (heq : front' ++ (name.toList ++ text) = front ++ (request.toList ++ after)) :
    name = request := by
  obtain ⟨-, heq⟩ := Token.gap_inj h'.isGap (h'.reads.noGap_of_name h'.noGap) h.isGap h.noGap heq
  -- both names start with the same letter
  have hletter : ∀ request ∈ requestNames,
      (request.toList.head?.any Token.isNamePart) = true := by decide
  obtain ⟨c, hc, hpart⟩ := (Option.any_eq_true _ _).1 (hletter request hrequest)
  obtain ⟨w, hw⟩ := List.head?_eq_some_iff.1 hc
  obtain ⟨d, w', hw'⟩ := List.exists_cons_of_ne_nil h'.reads.ne_nil
  have hsame : d = c := by
    rw [hw, hw'] at heq
    exact (List.cons.inj heq).1
  subst hsame
  obtain ⟨hrun, hafter⟩ := h.reads.takeWhile_eq hw hpart
  obtain ⟨hrun', hafter'⟩ := h'.reads.takeWhile_eq hw' hpart
  have hname : name.toList ++ text.takeWhile Token.isNamePart = request.toList := by
    rw [← hrun', heq, hrun, hafter, List.append_nil]
  have hstopped : (∀ c ∈ text.head?, Token.isNamePart c = false) → name = request := by
    intro hhead
    rw [← takeWhile_eq_nil_iff_head?] at hhead
    rw [hhead, List.append_nil] at hname
    exact String.toList_inj.1 hname
  rcases htext with hhead | hhead | ⟨word, hintroducer, more, rfl⟩
  · rw [takeWhile_eq_nil_iff_head?, ← hhead] at hafter'
    exact hstopped hafter'
  · exact hstopped hhead
  · -- no word that introduces an item is part of the name of a request
    have hparts : (introducerWords.all fun word => word.toList.all Token.isNamePart) = true := by
      decide +kernel
    have hword := List.all_eq_true.1 (List.all_eq_true.1 hparts word hintroducer)
    have hnone : ∀ request ∈ requestNames, ∀ word ∈ introducerWords,
        ¬ word.toList <:+: request.toList := by decide +kernel
    rw [List.takeWhile_append_of_pos hword, ← List.append_assoc] at hname
    exact absurd ⟨_, _, hname⟩ (hnone request hrequest word hintroducer)

/-! ### What follows the requests of an item -/

/-- The text behind a request that is taken out: perhaps a comment, and then what the
    next token makes of it. -/
theorem Placed.NextFrom.splice {source : List Char} {next : Placed} {span : Span}
    {edits : List Edit} (h : next.NextFrom source span.stop)
    (hnext : next.token = .atSign ∨ Introduces next)
    (hedits : ∀ edit ∈ edits, next.span.start ≤ edit.span.start) :
    ∃ comment, (∀ c ∈ comment.head?, c = '/') ∧
      Edit.splice source span.start (removal source span :: edits) =
        comment ++ Edit.splice source next.span.start edits := by
  obtain ⟨before, blanks, comment, text, after, hbehind⟩ := h.behind hnext
  have hsource : source = before ++ blanks ++ comment ++ (text ++ after) := by
    rw [hbehind.source_eq]
    simp
  have hsplice := Edit.splice_append hsource (hbehind.start ▸ hedits)
  rw [← hbehind.stop, ← hbehind.start] at hsplice
  exact ⟨comment, hbehind.isComment, (splice_removal source span edits).trans hsplice⟩

theorem Placed.Sits.splice {source : List Char} {placed : Placed} {edits : List Edit}
    (h : placed.Sits source) (hedits : ∀ edit ∈ edits, placed.span.stop ≤ edit.span.start) :
    Edit.splice source placed.span.start edits =
      placed.token.spelling ++ Edit.splice source placed.span.stop edits := by
  obtain ⟨-, before, after, hsource, hspan⟩ := h
  have hstop : placed.span.stop = Text.width (before ++ placed.token.spelling) := by
    rw [hspan, Text.width_append]
    rfl
  have hstart : placed.span.start = Text.width before := by
    rw [hspan]
    rfl
  have hsplice := Edit.splice_append hsource (hstop ▸ hedits)
  rwa [← hstart, ← hstop] at hsplice

theorem Attribute.WrittenAs.stop_eq {attr : Attribute} {segment : List Placed}
    (h : attr.WrittenAs segment) (low : Nat) : attr.span.stop = endOf low segment := by
  obtain ⟨sign, name, rest, last, rfl, -, -, hlast, -, hspan⟩ := h
  rw [endOf_eq_of_getLast? hlast, hspan]
  rfl

/-- The text of a source at an attribute: the `@`, perhaps a gap, and the name. -/
theorem Attribute.WrittenAs.read {source : List Char} {attr : Attribute} {segment : List Placed}
    {low place high : Nat} (h : attr.WrittenAs segment) (hlaid : Laid source low segment high)
    (hlexed : Lexed source place segment) :
    ∃ sign name rest before gap after, segment = sign :: name :: rest ∧
      sign.span.start = Text.width before ∧ attr.span.start = Text.width before ∧
      source = before ++ '@' :: (gap ++ attr.name.toList) ++ after ∧
      name.span.stop = Text.width (before ++ '@' :: (gap ++ attr.name.toList)) ∧
      Token.NamedBehind gap attr.name after := by
  obtain ⟨sign, name, rest, last, rfl, hsign, hname, -, -, hspan⟩ := h
  obtain ⟨-, ⟨-, before, behind, hsigned, hsignSpan⟩, -⟩ := hlaid
  obtain ⟨before', gap, text, after, hsource, hplace, hgap, hstop, hreads, hnameSpan⟩ :=
    hlexed.2.1 (.inr (by rw [hname]; rfl))
  rw [hname] at hreads
  obtain rfl : attr.name.toList = text := hreads.spelling_eq
  rw [hsign] at hsigned hsignSpan
  simp only [Token.spelling] at hsigned hsignSpan
  -- the gap begins where the `@` ends
  have hwidth : Text.width (before ++ ['@']) = Text.width before' := by
    rw [hplace, hsignSpan, Text.width_append]
    rfl
  rw [List.append_assoc before', List.append_assoc before'] at hsource
  obtain ⟨rfl, -⟩ := Text.append_inj_of_width_eq (hsigned.symm.trans hsource) hwidth
  refine ⟨sign, name, rest, before, gap, after, rfl, ?_, ?_, ?_, ?_, hgap, hstop, hreads⟩
  · rw [hsignSpan]
    rfl
  · rw [hspan, hsignSpan]
    rfl
  · rw [hsource]
    simp
  · rw [hnameSpan]
    simp only [Span.across, Text.width_append, Text.width_cons, Text.width_nil]
    omega

section Attributes

variable {source : List Char} {attrs : List Attribute} {segments : List (List Placed)}
  {lead : Placed} {tail : List Placed} {later : List Edit} {low high : Nat}

/-- The edits of an item: the removals of some of its attributes, and what comes behind
    the word that introduces it. -/
def itemEdits (source : List Char) (drop : Attribute → Bool) (attrs : List Attribute)
    (later : List Edit) : List Edit :=
  (attrs.filter drop).map (fun attr => removal source attr.span) ++ later

theorem itemEdits_cons (drop : Attribute → Bool) (attr : Attribute) :
    itemEdits source drop (attr :: attrs) later =
      if drop attr then removal source attr.span :: itemEdits source drop attrs later
      else itemEdits source drop attrs later := by
  unfold itemEdits
  rw [List.filter_cons]
  split <;> rfl

theorem mem_itemEdits_cons {drop : Attribute → Bool} {edit : Edit} (attr : Attribute)
    (h : edit ∈ itemEdits source drop attrs later) :
    edit ∈ itemEdits source drop (attr :: attrs) later := by
  rw [itemEdits_cons]
  split
  · exact List.mem_cons_of_mem _ h
  · exact h

theorem le_start_itemEdits (drop : Attribute → Bool)
    (h : List.Forall₂ Attribute.WrittenAs attrs segments)
    (hlaid : Laid source low (segments.flatten ++ lead :: tail) high)
    (hlater : ∀ edit ∈ later, lead.span.stop ≤ edit.span.start) :
    ∀ edit ∈ itemEdits source drop attrs later, low ≤ edit.span.start := by
  induction h generalizing low with
  | nil =>
    intro edit hedit
    have hle := hlater edit hedit
    have hlow := hlaid.1
    have hlt := hlaid.2.1.start_lt_stop
    omega
  | @cons attr segment attrs segments hwritten hall ih =>
    rw [List.flatten_cons, List.append_assoc, Laid.append_iff] at hlaid
    have hrest : ∀ edit ∈ itemEdits source drop attrs later, low ≤ edit.span.start := by
      intro edit hedit
      exact hlaid.1.le.trans (ih hlaid.2 edit hedit)
    rw [itemEdits_cons]
    split
    · exact List.forall_mem_cons.2 ⟨(hwritten.laid hlaid.1).1, hrest⟩
    · exact hrest

theorem splice_dropped (drop : Attribute → Bool) {span : Span}
    (h : List.Forall₂ Attribute.WrittenAs attrs segments) (hlead : Introduces lead)
    (hlaid : Laid source span.stop (segments.flatten ++ lead :: tail) high)
    (hlexed : Lexed source span.stop (segments.flatten ++ lead :: tail))
    (hlater : ∀ edit ∈ later, lead.span.stop ≤ edit.span.start) :
    ∃ first others comment, segments.flatten ++ lead :: tail = first :: others ∧
      (∀ c ∈ comment.head?, c = '/') ∧
      Edit.splice source span.start (removal source span :: itemEdits source drop attrs later) =
        comment ++ Edit.splice source first.span.start (itemEdits source drop attrs later) := by
  obtain ⟨first, others, hfirst, hkind⟩ := flatten_head h hlead tail
  have hlaid' : Laid source first.span.start (segments.flatten ++ lead :: tail) high := by
    rw [hfirst] at hlaid ⊢
    exact ⟨Nat.le_refl _, hlaid.2⟩
  rw [hfirst] at hlexed
  have hfrom := hlexed.1 (hkind.imp_right fun hword => hword.spelling.1)
  obtain ⟨comment, hcomment, hsplice⟩ :=
    hfrom.splice hkind (le_start_itemEdits drop h hlaid' hlater)
  exact ⟨first, others, comment, hfirst, hcomment, hsplice⟩

/-- What an item goes on with when some of its attributes are taken out: no name
    character, or the word that introduces it. -/
theorem itemEdits_goesOn {drop : Attribute → Bool}
    (h : List.Forall₂ Attribute.WrittenAs attrs segments) (hlead : Introduces lead)
    (hlaid : Laid source low (segments.flatten ++ lead :: tail) high)
    (hlexed : Lexed source low (segments.flatten ++ lead :: tail))
    (hlater : ∀ edit ∈ later, lead.span.stop ≤ edit.span.start) {first : Placed}
    {others : List Placed} (hfirst : segments.flatten ++ lead :: tail = first :: others) :
    let text := Edit.splice source first.span.start (itemEdits source drop attrs later)
    (∀ c ∈ text.head?, Token.isNamePart c = false) ∨
      ∃ word ∈ introducerWords, word.toList <+: text := by
  induction h generalizing low first others with
  | nil =>
    cases hfirst
    obtain ⟨word, hword, htoken⟩ := hlead
    refine .inr ⟨word, hword, ?_⟩
    have hsplice := hlaid.2.1.splice hlater
    rw [htoken] at hsplice
    exact ⟨_, hsplice.symm⟩
  | @cons attr segment attrs segments hwritten hall ih =>
    rw [List.flatten_cons, List.append_assoc] at hlaid hlexed hfirst
    rw [Laid.append_iff] at hlaid
    rw [Lexed.append_iff] at hlexed
    have hend := (hwritten.laid hlaid.1).2.1
    obtain ⟨sign, name, rest, last, rfl, hsign, -, -, -, hspan⟩ := hwritten
    rw [List.cons_append, List.cons.injEq] at hfirst
    obtain ⟨rfl, -⟩ := hfirst
    rw [itemEdits_cons]
    split
    · obtain ⟨next, tokens, comment, hnext, hcomment, hsplice⟩ := splice_dropped drop hall
        hlead (hend ▸ hlaid.2) (hend ▸ hlexed.2) hlater
      have hstart : attr.span.start = sign.span.start := by
        rw [hspan]
        rfl
      rw [← hstart, hsplice]
      cases comment with
      | nil => exact ih hlaid.2 hlexed.2 hnext
      | cons c comment =>
        obtain rfl := hcomment c rfl
        left
        intro c hc
        cases hc
        decide
    · -- the `@` of an attribute that is kept
      have hedits := le_start_itemEdits drop hall hlaid.2 hlater
      have hstop : ∀ edit ∈ itemEdits source drop attrs later,
          sign.span.stop ≤ edit.span.start := by
        intro edit hedit
        exact hlaid.1.2.2.le.trans (hedits edit hedit)
      rw [hlaid.1.2.1.splice hstop, hsign]
      left
      intro c hc
      cases hc
      decide

/-- What follows the name of an attribute that is kept: what did, or something that the
    name does not go on with, or the word that introduces the item. -/
theorem itemEdits_behind_name {drop : Attribute → Bool} {name : Placed} {rest : List Placed}
    {before after : List Char} (h : List.Forall₂ Attribute.WrittenAs attrs segments)
    (hlead : Introduces lead)
    (hlaid : Laid source name.span.stop (rest ++ (segments.flatten ++ lead :: tail)) high)
    (hlexed : Lexed source name.span.stop (rest ++ (segments.flatten ++ lead :: tail)))
    (hlater : ∀ edit ∈ later, lead.span.stop ≤ edit.span.start)
    (hbound : ∀ edit ∈ itemEdits source drop attrs later,
      Text.isBoundary edit.span.start source = true)
    (hsource : source = before ++ after) (hplace : Text.width before = name.span.stop) :
    let text := Edit.splice source name.span.stop (itemEdits source drop attrs later)
    text.head? = after.head? ∨ (∀ c ∈ text.head?, Token.isNamePart c = false) ∨
      ∃ word ∈ introducerWords, word.toList <+: text := by
  rw [Laid.append_iff] at hlaid
  rw [Lexed.append_iff] at hlexed
  obtain ⟨first, others, hfirst, -⟩ := flatten_head h hlead tail
  have hfrom : Laid source first.span.start (segments.flatten ++ lead :: tail) high := by
    rw [hfirst] at hlaid ⊢
    exact ⟨Nat.le_refl _, hlaid.2.2⟩
  have hle : name.span.stop ≤ first.span.start := by
    have hback := hlaid.2
    rw [hfirst] at hback
    exact hlaid.1.le.trans hback.1
  by_cases hdirect : first.span.start = name.span.stop
  · rw [← hdirect]
    exact .inr (itemEdits_goesOn h hlead hlaid.2 hlexed.2 hlater hfirst)
  · rw [← hplace]
    refine .inl (Edit.head?_splice hsource fun edit hedit => ⟨?_, hbound edit hedit⟩)
    have := le_start_itemEdits drop h hfrom hlater edit hedit
    omega

/-- Behind a request, the text of an item does not go on as at the request. -/
theorem itemEdits_ne {drop : Attribute → Bool} {request : String} {front after : List Char}
    (hrequest : request ∈ requestNames) (hdrop : ∀ attr, attr.name = request → drop attr = true)
    (hread : Token.NamedBehind front request after)
    (h : List.Forall₂ Attribute.WrittenAs attrs segments) (hlead : Introduces lead)
    (hlaid : Laid source low (segments.flatten ++ lead :: tail) high)
    (hlexed : Lexed source low (segments.flatten ++ lead :: tail))
    (hlater : ∀ edit ∈ later, lead.span.stop ≤ edit.span.start)
    (hbound : ∀ edit ∈ itemEdits source drop attrs later,
      Text.isBoundary edit.span.start source = true) {first : Placed}
    {others : List Placed} (hfirst : segments.flatten ++ lead :: tail = first :: others) :
    Edit.splice source first.span.start (itemEdits source drop attrs later) ≠
      '@' :: (front ++ (request.toList ++ after)) := by
  induction h generalizing low first others with
  | nil =>
    cases hfirst
    obtain ⟨-, c, rest, hc, hpart, -⟩ := hlead.spelling
    have hsplice := hlaid.2.1.splice hlater
    rw [hc] at hsplice
    intro heq
    rw [(List.cons.inj (hsplice.symm.trans heq)).1] at hpart
    exact absurd hpart (by decide)
  | @cons attr segment attrs segments hwritten hall ih =>
    rw [List.flatten_cons, List.append_assoc] at hlaid hlexed hfirst
    have hwhole := hlaid
    have hwords := hlexed
    rw [Laid.append_iff] at hlaid
    rw [Lexed.append_iff] at hlexed
    have hend := hwritten.stop_eq low
    obtain ⟨sign, name, rest, before, gap, behind, rfl, hsign, hstart, hsource, hplace, hnamed⟩ :=
      hwritten.read hlaid.1 hlexed.1
    rw [List.cons_append, List.cons.injEq] at hfirst
    obtain ⟨rfl, -⟩ := hfirst
    have hinner := fun edit hedit => hbound edit (mem_itemEdits_cons attr hedit)
    rw [itemEdits_cons]
    split
    · obtain ⟨next, tokens, comment, hnext, hcomment, hsplice⟩ := splice_dropped drop hall
        hlead (hend ▸ hlaid.2) (hend ▸ hlexed.2) hlater
      rw [hsign, ← hstart, hsplice]
      cases comment with
      | nil => exact ih hlaid.2 hlexed.2 hinner hnext
      | cons c comment =>
        obtain rfl := hcomment c rfl
        intro heq
        cases heq
    · next hkept =>
      have hedits := le_start_itemEdits drop hall hlaid.2 hlater
      have hsplice := Edit.splice_append hsource (hplace ▸ fun edit hedit =>
        hlaid.1.2.2.2.2.le.trans (hedits edit hedit))
      rw [← hsign, ← hplace, List.cons_append, List.append_assoc] at hsplice
      intro heq
      rw [hsplice] at heq
      -- the two names are told apart by what is taken out
      have hsame := hread.name_eq hrequest hnamed
        (itemEdits_behind_name hall hlead hwhole.2.2.2.2 hwords.2.2 hlater hinner hsource
          hplace.symm) (List.cons.inj heq).2
      exact hkept (hdrop attr hsame)

theorem itemEdits_cons_changes {drop : Attribute → Bool} {attr : Attribute}
    {segment : List Placed} {place : Nat} {before after : List Char}
    (hrequest : attr.name ∈ requestNames)
    (hdrop : ∀ other : Attribute, other.name = attr.name → drop other = true)
    (hwritten : attr.WrittenAs segment) (h : List.Forall₂ Attribute.WrittenAs attrs segments)
    (hlead : Introduces lead)
    (hlaid : Laid source low (segment ++ (segments.flatten ++ lead :: tail)) high)
    (hlexed : Lexed source place (segment ++ (segments.flatten ++ lead :: tail)))
    (hlater : ∀ edit ∈ later, lead.span.stop ≤ edit.span.start)
    (hbound : ∀ edit ∈ itemEdits source drop attrs later,
      Text.isBoundary edit.span.start source = true)
    (hsource : source = before ++ after) (hlow : Text.width before ≤ low) :
    Edit.splice source (Text.width before)
      (removal source attr.span :: itemEdits source drop attrs later) ≠ after := by
  rw [Laid.append_iff] at hlaid
  rw [Lexed.append_iff] at hlexed
  obtain ⟨sign, name, rest, front, gap, behind, -, -, hstart, hsigned, -, hnamed⟩ :=
    hwritten.read hlaid.1 hlexed.1
  obtain ⟨hfrom, -, text, hcovers⟩ := hwritten.laid hlaid.1
  have hle := hcovers.start_le_stop
  rw [← hwritten.stop_eq] at hlaid hlexed
  have hedits := le_start_itemEdits drop h hlaid.2 hlater
  obtain ⟨next, tokens, comment, hnext, hcomment, hsplice⟩ :=
    splice_dropped drop h hlead hlaid.2 hlexed.2 hlater
  -- in front of the request nothing is changed
  have hstarts : ∀ edit ∈ removal source attr.span :: itemEdits source drop attrs later,
      Text.width front ≤ edit.span.start := by
    refine List.forall_mem_cons.2 ⟨Nat.le_of_eq hstart.symm, ?_⟩
    intro edit hedit
    have := hedits edit hedit
    omega
  rw [List.append_assoc] at hsigned
  obtain ⟨kept, rfl, hskip⟩ := Edit.splice_skip hsource hsigned (by omega) hstarts
  rw [hskip, ← hstart, hsplice]
  intro heq
  have hsame := List.append_cancel_left heq
  cases comment with
  | nil =>
    rw [List.cons_append, List.append_assoc] at hsame
    exact itemEdits_ne hrequest hdrop hnamed h hlead hlaid.2 hlexed.2 hlater hbound hnext hsame
  | cons c comment =>
    obtain rfl := hcomment c rfl
    cases hsame

/-- Taking out attributes of an item changes the text. -/
theorem itemEdits_changes {drop : Attribute → Bool} {place : Nat} {before after : List Char}
    (hdrop : ∀ a b : Attribute, a.name = b.name → drop a = drop b)
    (hnames : ∀ attr, drop attr = true → attr.name ∈ requestNames)
    (h : List.Forall₂ Attribute.WrittenAs attrs segments) (hlead : Introduces lead)
    (hlaid : Laid source low (segments.flatten ++ lead :: tail) high)
    (hlexed : Lexed source place (segments.flatten ++ lead :: tail))
    (hlater : ∀ edit ∈ later, lead.span.stop ≤ edit.span.start)
    (hbound : ∀ edit ∈ itemEdits source drop attrs later,
      Text.isBoundary edit.span.start source = true)
    (hsome : attrs.filter drop ≠ []) (hsource : source = before ++ after)
    (hlow : Text.width before ≤ low) :
    Edit.splice source (Text.width before) (itemEdits source drop attrs later) ≠ after := by
  induction h generalizing low place before after with
  | nil => exact absurd rfl hsome
  | @cons attr segment attrs segments hwritten hall ih =>
    rw [List.flatten_cons, List.append_assoc] at hlaid hlexed
    have hinner := fun edit hedit => hbound edit (mem_itemEdits_cons attr hedit)
    rw [itemEdits_cons]
    cases hattr : drop attr with
    | true =>
      rw [if_pos rfl]
      exact itemEdits_cons_changes (hnames attr hattr)
        (fun other hother => (hdrop other attr hother).trans hattr) hwritten hall hlead hlaid
        hlexed hlater hinner hsource hlow
    | false =>
      -- the text up to the end of an attribute that is kept is kept too
      rw [Laid.append_iff, ← hwritten.stop_eq] at hlaid
      rw [Lexed.append_iff] at hlexed
      rw [List.filter_cons_of_neg (by simp [hattr])] at hsome
      obtain ⟨front, behind, hparts, hstop⟩ :=
        Text.exists_append_of_isBoundary (hwritten.laid hlaid.1).2.2.lies.boundary.2
      have hedits := le_start_itemEdits drop hall hlaid.2 hlater
      obtain ⟨kept, rfl, hsplice⟩ := Edit.splice_skip hsource hparts
        (by rw [hstop]; exact hlow.trans hlaid.1.le) (hstop ▸ hedits)
      rw [if_neg (by decide), hsplice]
      intro heq
      exact ih hlaid.2 hlexed.2 hinner hsome hparts (Nat.le_of_eq hstop)
        (List.append_cancel_left heq)

end Attributes

/-! ### Whole sources -/

theorem ItemTaken.noted_eq {source : List Char} {stream after : TokenStream} {found : Item}
    {attrs : List Attribute} {segments : List (List Placed)} {tail : List Placed}
    {noted : List Span} (h : ItemTaken source stream after found attrs segments tail noted)
    (hne : noted ≠ []) :
    ∃ drop : Attribute → Bool, ∃ lead rest,
      (∀ a b : Attribute, a.name = b.name → drop a = drop b) ∧
      (∀ attr, drop attr = true → attr.name ∈ requestNames) ∧
      noted = (attrs.filter drop).map (·.span) ∧ tail = lead :: rest ∧ Introduces lead := by
  cases h.read with
  | separator => exact absurd rfl hne
  | other _ => exact absurd rfl hne
  | property hlead _ _ _ =>
    refine ⟨(·.name == Request.codingKeyName), _, _, fun a b hab => by simp only [hab], ?_, rfl,
      rfl, hlead⟩
    intro attr hattr
    rw [beq_iff_eq] at hattr
    rw [hattr]
    decide
  | opened hlead _ _ _ hattached =>
    refine ⟨(requestNames.contains ·.name), _, _, fun a b hab => by simp only [hab], ?_,
      attachment_spans hattached, rfl, hlead⟩
    intro attr hattr
    exact List.contains_iff_mem.1 hattr

/-- A source that requests something is changed. -/
theorem applyAll_ne {source : List Char} {outline : Outline} (layout : Layout)
    (h : Outline.ofSource source = .ok outline) (hne : outline.requests ≠ []) :
    Edit.applyAll source (outline.edits layout source) ≠ source := by
  obtain ⟨tokens, taken, items, after, htokens, hread, hpending, hdeclarations⟩ :=
    Outline.ofSource_read h
  obtain ⟨chain, hchain, hperm, hleads, -⟩ := hread.spaced layout
  have hdeep : outline.allDeclarations = Declaration.nestedIn items := by
    rw [Outline.allDeclarations, hdeclarations, Declaration.nestedIn_eq]
  rw [← hdeep, ← Outline.edits_eq] at hperm
  have hapart := hchain.apart.1
  rw [Edit.applyAll_eq_splice hperm hapart]
  obtain ⟨stream, before, found, attrs, segments, tail, noted, later, hitem, hnoted, -, -,
    ⟨front, back, hpart⟩, rfl, hlater⟩ := hleads hne
  -- the words and signs of the item are read as they were
  have hlexed := hread.takes.2.pending.lexed (tokenize_scanned htokens).lexed
  rw [hpending, List.append_nil, ← hpart, Lexed.append_iff, Lexed.append_iff] at hlexed
  have hlaid := (hitem.ready.taken hitem.takes).1
  obtain ⟨drop, lead, rest, hdrop, hnames, rfl, rfl, hlead⟩ := hitem.noted_eq hnoted
  have hbehind := (Laid.append_iff.1 hlaid).2.2.2.le
  have hedits : ((attrs.filter drop).map (·.span)).map (removal source) ++ later =
      itemEdits source drop attrs later := by
    unfold itemEdits
    rw [List.map_map]
    rfl
  rw [hedits] at hapart ⊢
  exact itemEdits_changes hdrop hnames hitem.written hlead hlaid hlexed.1.2
    (fun edit hedit => hbehind.trans (hlater edit hedit))
    (fun edit hedit => (Edit.fits_iff.1 (hapart.fits edit hedit)).2.2.1)
    (by simpa using hnoted) (List.nil_append source).symm (Nat.zero_le _)

/-- A source that requests nothing is left as it is, and nothing is reported. -/
theorem expand_of_requests_eq_nil {source : String} {outline : Outline} (layout : Layout)
    (h : Outline.ofSource source.toList = .ok outline) (hnone : outline.requests = []) :
    expand layout source = .ok ⟨source, []⟩ := by
  obtain ⟨tokens, taken, items, after, -, hread, -, hdeclarations⟩ := Outline.ofSource_read h
  have hdeep : outline.allDeclarations = Declaration.nestedIn items := by
    rw [Outline.allDeclarations, hdeclarations, Declaration.nestedIn_eq]
  have hedits : outline.edits layout source.toList = [] := by
    rw [Outline.edits_eq, hdeep, hread.insertions_of_nil layout hnone, hnone]
    rfl
  have hdiagnostics : outline.diagnostics = [] := by
    have hrejections : outline.allDeclarations.flatMap Declaration.rejections = [] := by
      rw [hdeep, List.flatMap_eq_nil_iff]
      intro declaration hmem
      exact (Declaration.generated_of_nil (hread.attachments_of_nil hnone declaration hmem)).2
    rw [Outline.diagnostics, hrejections]
    rfl
  have hsame : Edit.applyAll source.toList [] = source.toList :=
    (Edit.applyAll_eq_splice (.refl _) ⟨by simp, .nil⟩).trans
      (Edit.splice_nil (List.nil_append source.toList).symm)
  unfold expand
  rw [h]
  show Except.ok (⟨String.ofList _, _⟩ : Expansion) = _
  rw [hedits, hdiagnostics, hsame, String.ofList_toList]

theorem expand_eq_self_iff {layout : Layout} {source : String} :
    expand layout source = .ok ⟨source, []⟩ ↔
      ∃ outline, Outline.ofSource source.toList = .ok outline ∧ outline.requests = [] := by
  constructor
  · intro h
    obtain ⟨outline, houtline, hsource, -⟩ := expand_eq_ok h
    refine ⟨outline, houtline, ?_⟩
    by_contra hne
    exact applyAll_ne layout houtline hne hsource.symm
  · rintro ⟨outline, houtline, hnone⟩
    exact expand_of_requests_eq_nil layout houtline hnone

/-- **An expanded text is stable if and only if it can be read and requests nothing.**  It
    is stable if the source requested nothing. -/
theorem expand_expanded_iff {layout : Layout} {source : String} {expansion : Expansion}
    (h : expand layout source = .ok expansion) :
    (expand layout expansion.source = .ok ⟨expansion.source, []⟩ ↔
      ∃ outline, Outline.ofSource expansion.source.toList = .ok outline ∧
        outline.requests = []) ∧
    ∀ outline, Outline.ofSource source.toList = .ok outline → outline.requests = [] →
      expansion = ⟨source, []⟩ := by
  refine ⟨expand_eq_self_iff, ?_⟩
  intro outline houtline hnone
  rw [expand_of_requests_eq_nil layout houtline hnone] at h
  exact (Except.ok.inj h).symm

def wordBeforeRequest : String := "x =\n    actor\n@PublicInit\nstruct S \x7b\x7d"

def wordBeforeRequestExpanded : String :=
  "x =\n    actor\nstruct S \x7b\n    public init() \x7b\n    \x7d\n\x7d"

theorem expand_expanded_unreadable :
    expand .standard wordBeforeRequest = .ok ⟨wordBeforeRequestExpanded, []⟩ ∧
    expand .standard wordBeforeRequestExpanded ≠ .ok ⟨wordBeforeRequestExpanded, []⟩ := by
  have hexpand : expand .standard wordBeforeRequest = .ok ⟨wordBeforeRequestExpanded, []⟩ := by
    decide +kernel
  refine ⟨hexpand, ?_⟩
  intro hagain
  obtain ⟨outline, houtline, -⟩ := (expand_expanded_iff hexpand).1.1 hagain
  have hunread : (Outline.ofSource wordBeforeRequestExpanded.toList).toOption.isNone = true := by
    decide +kernel
  rw [houtline] at hunread
  cases hunread

end Memberwise
