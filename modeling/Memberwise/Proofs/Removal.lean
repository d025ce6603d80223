/-
  Memberwise/Proofs/Removal.lean
  ==============================
  **What taking out the requests does to the other tokens.**

  A request is taken out together with the blanks behind it, so two tokens that
  had it between them may come to stand side by side.  Where nothing is generated,
  this is all that happens to a source.  Most tokens end by themselves there, or
  cannot stand in front of a request without a gap.  Names can, and they are the
  exception: a name goes on with the name that follows it.  So the other tokens
  are read again as they were if and only if no two names meet in this way
  (`Glued`).
-/
import Mathlib.Data.List.Chain
import Memberwise.Proofs.Answering
import Memberwise.Proofs.Cutting
import Memberwise.Proofs.Relexing

namespace Memberwise

namespace Token

/-! ### How gaps start -/

theorem isBlank_of_isSeparator {c : Char} (h : isSeparator c = true) : Text.isBlank c = true := by
  simp only [isSeparator, Bool.or_eq_true, beq_iff_eq] at h
  rcases h with ((rfl | rfl) | rfl) | rfl <;> decide

/-- Where no gap starts: neither a separator nor a comment comes next. -/
theorem noGap_cons_iff {c : Char} {rest : List Char} :
    NoGap (c :: rest) ↔ isSeparator c = false ∧
      (c = '/' → rest.head? ≠ some '/' ∧ rest.head? ≠ some '*') := by
  constructor
  · intro h
    refine ⟨h.not_separator, ?_⟩
    rintro rfl
    -- the reader of a comment would go on behind its two signs
    have hstop := h 0
    constructor
    · intro hhead
      obtain ⟨more, rfl⟩ := List.head?_eq_some_iff.1 hhead
      obtain ⟨_, _, -, hn, -⟩ := gapFrom_eq_ok (by simpa only [gapFrom] using hstop)
      omega
    · intro hhead
      obtain ⟨more, rfl⟩ := List.head?_eq_some_iff.1 hhead
      obtain ⟨_, _, -, hn, -⟩ := gapFrom_eq_ok (by simpa only [gapFrom] using hstop)
      omega
  · rintro ⟨hseparator, hcomment⟩ read
    rw [gapFrom, if_neg (by simp [hseparator])]
    · rintro more rfl rfl
      exact (hcomment rfl).1 rfl
    · rintro more rfl rfl
      exact (hcomment rfl).2 rfl

theorem NoGap.of_sameStart {text after after' : List Char} (h : NoGap (text ++ after))
    (hne : text ≠ []) (hstart : after.head? = after'.head?) : NoGap (text ++ after') := by
  obtain ⟨c, text, rfl⟩ := List.exists_cons_of_ne_nil hne
  rw [List.cons_append, noGap_cons_iff, ← head?_append_congr hstart]
  exact noGap_cons_iff.1 h

theorem NoGap.of_noFurther {text after after' : List Char} (h : NoGap (text ++ after))
    (hne : text ≠ []) (hstart : NoFurther after after') : NoGap (text ++ after') := by
  obtain ⟨c, text, rfl⟩ := List.exists_cons_of_ne_nil hne
  rw [List.cons_append, noGap_cons_iff] at h ⊢
  refine ⟨h.1, fun hc => ?_⟩
  have hnot := h.2 hc
  exact ⟨fun heq => hnot.1 (hstart.mem_head?_append heq (by decide)),
    fun heq => hnot.2 (hstart.mem_head?_append heq (by decide))⟩

/-- Behind its separators, a gap goes on with a comment. -/
theorem IsGap.comment {front gap : List Char} {c : Char} (hfront : IsGap front)
    (h : IsGap (front ++ c :: gap)) (hc : isSeparator c = false) :
    c = '/' ∧ ∃ d more, gap = d :: more := by
  -- in front of a letter, the reader stops behind the whole gap
  have hread := h 0 ['a']
  rw [List.append_assoc, hfront, List.cons_append] at hread
  by_cases hstop : NoGap (c :: (gap ++ ['a']))
  · have hletter : NoGap ['a'] := noGap_cons_iff.2 ⟨by decide, by decide⟩
    rw [hstop, hletter, Except.ok.injEq, List.length_append, List.length_cons] at hread
    omega
  · rw [noGap_cons_iff] at hstop
    cases gap with
    | nil => exact absurd ⟨hc, fun _ => ⟨by decide, by decide⟩⟩ hstop
    | cons d more =>
      refine ⟨?_, d, more, rfl⟩
      by_contra hslash
      exact hstop ⟨hc, fun heq => absurd heq hslash⟩

/-- The blanks that a gap starts with, in front of something solid: they are separators,
    and what is left of the gap is empty or a comment. -/
theorem IsGap.leadingBlanks {gap : List Char} {c : Char} (h : IsGap gap)
    (hc : Text.isBlank c = false) (rest : List Char) :
    ∃ blanks comment, gap = blanks ++ comment ∧
      Text.leadingBlanks (gap ++ c :: rest) = blanks ∧ IsGap blanks ∧
      ∀ d ∈ comment.head?, d = '/' := by
  have hall : ∀ d ∈ gap.takeWhile isSeparator, isSeparator d = true := by
    intro d hd
    exact List.all_eq_true.1 List.all_takeWhile d hd
  have hblanks := isGap_of_separators hall
  have hcomment : ∀ d ∈ (gap.dropWhile isSeparator).head?, d = '/' := by
    intro d hd
    have hseparator := List.head?_dropWhile_not isSeparator gap
    obtain ⟨more, hmore⟩ := List.head?_eq_some_iff.1 hd
    rw [hmore] at hseparator
    rw [← List.takeWhile_append_dropWhile (p := isSeparator) (l := gap), hmore] at h
    exact (hblanks.comment h hseparator).1
  refine ⟨_, _, List.takeWhile_append_dropWhile.symm, ?_, hblanks, hcomment⟩
  -- neither a comment nor the solid character is blank
  have hsolid : ((gap.dropWhile isSeparator) ++ c :: rest).takeWhile Text.isBlank = [] := by
    cases hrest : gap.dropWhile isSeparator with
    | nil => simp [hc]
    | cons d more =>
      obtain rfl := hcomment d (by rw [hrest]; rfl)
      rfl
  conv_lhs => rw [← List.takeWhile_append_dropWhile (p := isSeparator) (l := gap)]
  rw [Text.leadingBlanks, List.append_assoc, List.takeWhile_append_of_pos, hsolid,
    List.append_nil]
  intro d hd
  exact isBlank_of_isSeparator (hall d hd)

/-- What a token needs that may stand in front of a request without a gap: only an open
    name must not be followed by a name character. -/
theorem Reads.iff_of_closes {token : Token} {text after after' : List Char}
    (h : token.Reads text after) (hstop : NoGap (text ++ after))
    (hcloses : '\n' ∈ text ∨ token.closesItem = true ∨ token = .closing .round)
    (hafter : after'.head? ≠ some '\x60') :
    NoGap (text ++ after') ∧ (token.Reads text after' ↔
      (token.openName = true → ∀ c ∈ after'.head?, isNamePart c = false)) := by
  have hspelling := h.spelling_eq
  -- a token of one character other than a slash stays clear of gaps, as do longer ones
  have hclear : text ≠ ['/'] → NoGap (text ++ after') := by
    intro hne
    obtain ⟨c, rest, rfl⟩ := List.exists_cons_of_ne_nil h.ne_nil
    have hfirst := noGap_cons_iff.1 hstop
    refine noGap_cons_iff.2 ⟨hfirst.1, ?_⟩
    intro hslash
    obtain - | ⟨d, rest⟩ := rest
    · rw [hslash] at hne
      exact absurd rfl hne
    · exact hfirst.2 hslash
  have hmark : ∀ c, token.spelling = [c] → c ≠ '/' → token.openName = false →
      (∀ rest, lexeme c rest = .ok (.mark token)) → NoGap (text ++ after') ∧
      (token.Reads text after' ↔
        (token.openName = true → ∀ c ∈ after'.head?, isNamePart c = false)) := by
    rintro c hc hslash hopen hlexeme
    rw [hspelling] at hc
    subst hc
    exact ⟨hclear (by simpa using hslash), iff_of_true (reads_of_mark hlexeme _) (by simp [hopen])⟩
  rcases hcloses with hline | hcloses | rfl
  · refine ⟨hclear ?_, iff_of_true (h.of_newline hstop hline) fun hopen => ?_⟩
    · rintro rfl
      exact absurd hline (by decide)
    · -- an open name would not be read in front of a letter
      cases token with
      | name word =>
        obtain rfl : word.toList = text := hspelling
        have hletter : ['a'].head? ≠ some '\x60' := by decide
        have hread : (name word).Reads word.toList ['a'] := h.of_newline hstop hline
        exact absurd ((h.name_iff hletter).1 hread hopen 'a' rfl) (by decide)
      | _ => cases hopen
  · cases token with
    | semicolon => exact hmark _ rfl (by decide) rfl fun _ => rfl
    | opening bracket | closing bracket =>
      cases bracket <;> exact hmark _ rfl (by decide) rfl fun _ => rfl
    | name word =>
      obtain rfl : word.toList = text := hspelling
      refine ⟨hclear ?_, h.name_iff hafter⟩
      intro hslash
      rw [hslash, reads_name_iff hslash] at h
      exact absurd h (by simp [isNameStart])
    | _ => cases hcloses
  · exact hmark _ rfl (by decide) rfl fun _ => rfl

/-- A slash or a point is none of these tokens. -/
theorem Reads.not_closes {token : Token} {c : Char} {after : List Char}
    (h : token.Reads [c] after) (hc : c = '/' ∨ c = '.') :
    ¬ (token.closesItem = true ∨ token = .closing .round) := by
  have hspelling := h.spelling_eq
  have hmark : ∀ d, token.spelling = [d] → d ≠ '/' → d ≠ '.' → False := by
    intro d hd hslash hpoint
    rw [hspelling, List.singleton_inj] at hd
    subst hd
    exact hc.elim hslash hpoint
  rintro (hcloses | rfl)
  · cases token with
    | semicolon => exact hmark _ rfl (by decide) (by decide)
    | opening bracket | closing bracket =>
      cases bracket <;> exact hmark _ rfl (by decide) (by decide)
    | name word =>
      have hword : word.toList = [c] := hspelling
      rw [reads_name_iff hword] at h
      rcases hc with rfl | rfl
      · exact absurd h (by simp [isNameStart])
      · exact absurd h (by simp [isNameStart])
    | _ => cases hcloses
  · exact hmark _ rfl (by decide) (by decide)

end Token

/-! ### Places of cuts -/

theorem splice_removals {source before text after : List Char} {spans : List Span}
    (hsource : source = before ++ text ++ after)
    (h : ∀ span ∈ spans, Text.width (before ++ text) ≤ span.start) :
    Edit.splice source (Text.width before) (spans.map (removal source)) =
      text ++ Edit.splice source (Text.width (before ++ text)) (spans.map (removal source)) := by
  apply Edit.splice_append hsource
  intro edit hedit
  obtain ⟨span, hspan, rfl⟩ := List.mem_map.1 hedit
  exact h span hspan

@[simp] theorem removal_start (source : List Char) (span : Span) :
    (removal source span).span.start = span.start := rfl

@[simp] theorem removal_replacement (source : List Char) (span : Span) :
    (removal source span).replacement = "" := rfl

theorem Cut.kept_sublist {previous? : Option Placed} {tokens kept : List Placed}
    {spans : List Span} (h : Cut previous? tokens spans kept) : kept.Sublist tokens := by
  induction h with
  | nil => exact .slnil
  | keep _ ih => exact ih.cons_cons _
  | drop _ _ _ _ _ _ _ ih => exact ih.trans (List.sublist_append_right _ _)

theorem Cut.le_start {source : List Char} {previous? : Option Placed} {tokens kept : List Placed}
    {spans : List Span} (h : Cut previous? tokens spans kept) {low high : Nat}
    (hlaid : Laid source low tokens high) : ∀ span ∈ spans, low ≤ span.start := by
  induction h generalizing low with
  | nil => simp
  | keep _ ih =>
    intro span hspan
    have hle := ih hlaid.2.2 span hspan
    have hlow := hlaid.1
    have hlt := hlaid.2.1.start_lt_stop
    omega
  | drop _ _ _ hspan _ _ _ ih =>
    rw [Laid.append_iff] at hlaid
    rw [List.forall_mem_cons]
    refine ⟨by rw [hspan.1]; exact hlaid.1.1, ?_⟩
    intro span hmem
    exact Nat.le_trans hlaid.1.le (ih hlaid.2 span hmem)

theorem Scanned.behind {source before : List Char} {flag : Bool} {front back : List Placed}
    {finish : Placed} (h : Scanned source flag before (front ++ back) finish) :
    ∃ flag' before', Scanned source flag' before' back finish ∧
      Text.width before' = endOf (Text.width before) front := by
  induction front generalizing flag before with
  | nil => exact ⟨flag, before, h, rfl⟩
  | cons placed front ih =>
    cases h with
    | token _ _ _ _ hspan _ hrest =>
      obtain ⟨flag', before', hback, hwidth⟩ := ih hrest
      refine ⟨flag', before', hback, ?_⟩
      rw [hwidth, endOf_cons, hspan]
      simp only [Span.across, Text.width_append]

theorem Introduces.spelling {placed : Placed} (h : Introduces placed) :
    placed.token.isName = true ∧ ∃ c rest, placed.token.spelling = c :: rest ∧
      Token.isNamePart c = true ∧ Text.isBlank c = false := by
  obtain ⟨word, hword, htoken⟩ := h
  have hall : ∀ word ∈ introducerWords, (word.toList.head?.any fun c =>
      Token.isNamePart c && !Text.isBlank c) = true := by decide
  have hfirst := hall word hword
  rw [Option.any_eq_true] at hfirst
  obtain ⟨c, hc, hkind⟩ := hfirst
  obtain ⟨rest, hrest⟩ := List.head?_eq_some_iff.1 hc
  rw [Bool.and_eq_true, Bool.not_eq_true'] at hkind
  rw [htoken]
  exact ⟨rfl, c, rest, hrest, hkind⟩

/-- What comes behind a request starts with an `@` or with a letter. -/
theorem spelling_behind {next : Placed} (h : next.token = .atSign ∨ Introduces next) :
    ∃ c rest, next.token.spelling = c :: rest ∧ Token.isNamePart c = next.token.isName ∧
      Text.isBlank c = false ∧ c ≠ '\x60' := by
  rcases h with hsign | hword
  · rw [hsign]
    exact ⟨'@', [], rfl, by decide, by decide, by decide⟩
  · obtain ⟨hname, c, rest, hc, hpart, hblank⟩ := hword.spelling
    refine ⟨c, rest, hc, by rw [hpart, hname], hblank, ?_⟩
    rintro rfl
    rw [Token.isNamePart_backtick] at hpart
    cases hpart

/-- What comes behind a request: the blanks that go with it, perhaps a comment, and
    the next token. -/
structure Behind (source before : List Char) (span : Span) (next : Placed)
    (blanks comment text after : List Char) : Prop where
  source_eq : source = before ++ blanks ++ (comment ++ (text ++ after))
  isGap : Token.IsGap blanks
  isComment : ∀ c ∈ comment.head?, c = '/'
  place : Text.width before = span.stop
  stop : (removal source span).span.stop = Text.width (before ++ blanks)
  next_span : next.span = Span.across (before ++ blanks ++ comment) text

theorem Behind.start {source before blanks comment text after : List Char} {span : Span}
    {next : Placed} (h : Behind source before span next blanks comment text after) :
    next.span.start = Text.width (before ++ blanks ++ comment) := by
  rw [h.next_span]
  rfl

def Placed.NextFrom (source : List Char) (place : Nat) (placed : Placed) : Prop :=
  ∃ before gap text after, source = before ++ gap ++ text ++ after ∧ Text.width before = place ∧
    Token.IsGap gap ∧ Token.NoGap (text ++ after) ∧ placed.token.Reads text after ∧
    placed.span = Span.across (before ++ gap) text

theorem Scanned.nextFrom {source before : List Char} {flag : Bool} {placed finish : Placed}
    {tokens : List Placed} (h : Scanned source flag before (placed :: tokens) finish) :
    placed.NextFrom source (Text.width before) := by
  cases h with
  | token hsource hgap hstop hreads hspan _ _ =>
    exact ⟨_, _, _, _, hsource, rfl, hgap, hstop, hreads, hspan⟩

theorem Placed.NextFrom.behind {source : List Char} {next : Placed} {span : Span}
    (h : next.NextFrom source span.stop) (hnext : next.token = .atSign ∨ Introduces next) :
    ∃ before blanks comment text after,
      Behind source before span next blanks comment text after := by
  obtain ⟨before, gap, text, after, hsource, hplace, hgap, hstop, hreads, hspan⟩ := h
  obtain ⟨c, rest, hspelling, -, hblank, -⟩ := spelling_behind hnext
  obtain rfl : text = c :: rest := hreads.spelling_eq.symm.trans hspelling
  obtain ⟨blanks, comment, rfl, hleading, hblanks, hcomment⟩ :=
    hgap.leadingBlanks hblank (rest ++ after)
  refine ⟨before, blanks, comment, c :: rest, after, by simp [hsource], hblanks, hcomment, hplace,
    ?_, by rw [hspan, List.append_assoc]⟩
  have hdrop : Text.dropBytes span.stop source = blanks ++ comment ++ c :: (rest ++ after) := by
    rw [hsource, List.append_assoc, List.append_assoc, Text.dropBytes_of_width hplace]
    simp
  simp only [removal, Span.upTo]
  rw [hdrop, hleading, Text.width_append, hplace]

/-! ### Where names meet -/

/-- Nothing of a source between two offsets is left when the requests are taken out. -/
def Bare (source : List Char) (requests : List Span) (low high : Nat) : Prop :=
  ∀ n < high, low ≤ n → ∃ request ∈ requests,
    (removal source request).span.start ≤ n ∧ n < (removal source request).span.stop

/-- Two names that meet when the requests are taken out: between them stood requests
    and nothing else, and the first name goes on with what follows it. -/
structure Glued (source : List Char) (requests : List Span) (p q : Placed) : Prop where
  opens : p.token.openName = true
  isName : q.token.isName = true
  apart : p.span.stop < q.span.start
  bare : Bare source requests p.span.stop q.span.start

instance (source : List Char) (requests : List Span) (low high : Nat) :
    Decidable (Bare source requests low high) :=
  inferInstanceAs (Decidable (∀ n < high, low ≤ n → ∃ request ∈ requests,
    (removal source request).span.start ≤ n ∧ n < (removal source request).span.stop))

instance (source : List Char) (requests : List Span) (p q : Placed) :
    Decidable (Glued source requests p q) :=
  decidable_of_iff (p.token.openName = true ∧ q.token.isName = true ∧
      p.span.stop < q.span.start ∧ Bare source requests p.span.stop q.span.start)
    ⟨fun ⟨hopens, hname, hapart, hbare⟩ => ⟨hopens, hname, hapart, hbare⟩,
      fun ⟨hopens, hname, hapart, hbare⟩ => ⟨hopens, hname, hapart, hbare⟩⟩

namespace Bare

variable {source : List Char} {requests : List Span} {low middle high : Nat}

theorem self (n : Nat) : Bare source requests n n := by
  intro m hlt hle
  omega

theorem iff_of_removal {request : Span} (hmem : request ∈ requests)
    (hstart : request.start ≤ low) (hle : low ≤ (removal source request).span.stop) :
    Bare source requests low high ↔
      Bare source requests (removal source request).span.stop high := by
  constructor
  · intro h n hlt hn
    exact h n hlt (by omega)
  · intro h n hlt hn
    by_cases hin : n < (removal source request).span.stop
    · exact ⟨request, hmem, by rw [removal_start]; omega, hin⟩
    · exact h n hlt (by omega)

theorem not_of_lt (hlt : low < high) (h : ∀ request ∈ requests,
    (removal source request).span.stop ≤ low ∨ low < request.start) :
    ¬ Bare source requests low high := by
  intro hbare
  obtain ⟨request, hmem, hstart, hstop⟩ := hbare low hlt (Nat.le_refl _)
  rw [removal_start] at hstart
  rcases h request hmem with hle | hle <;> omega

end Bare

/-- How a text goes on from a place when the requests are taken out: with a name
    character if and only if what is kept next is a name and nothing else is left in
    front of it. -/
def GoesOn (source : List Char) (requests spans : List Span) (kept : List Placed) (place : Nat) :
    Prop :=
  let text := Edit.splice source place (spans.map (removal source))
  text.head? ≠ some '\x60' ∧ ((∃ c ∈ text.head?, Token.isNamePart c = true) ↔
    ∃ q ∈ kept.head?, q.token.isName = true ∧ Bare source requests place q.span.start)

/-- A comment behind a request is in the way of what follows. -/
theorem Behind.goesOn {source before blanks comment text after : List Char} {span : Span}
    {next : Placed} (h : Behind source before span next blanks comment text after)
    {requests spans : List Span} {kept : List Placed}
    (hat : GoesOn source requests spans kept next.span.start)
    (hspans : ∀ r ∈ spans, next.span.start ≤ r.start)
    (hkept : ∀ q ∈ kept, next.span.start ≤ q.span.start)
    (hothers : ∀ r ∈ requests, r ∈ spans ∨
      (removal source r).span.stop ≤ (removal source span).span.stop) :
    GoesOn source requests spans kept (removal source span).span.stop := by
  have hparts : source = before ++ blanks ++ comment ++ (text ++ after) := by
    rw [h.source_eq]
    simp
  have hsplice := splice_removals hparts (h.start ▸ hspans)
  rw [← h.stop, ← h.start] at hsplice
  cases comment with
  | nil =>
    have hsame : (removal source span).span.stop = next.span.start := by
      rw [h.stop, h.start, List.append_nil]
    rw [hsame]
    exact hat
  | cons c comment =>
    obtain rfl := h.isComment c rfl
    unfold GoesOn
    rw [hsplice]
    have hlt : (removal source span).span.stop < next.span.start := by
      rw [h.stop, h.start, Text.width_append _ ('/' :: comment)]
      have := Text.width_pos (List.cons_ne_nil '/' comment)
      omega
    refine ⟨by simp, ⟨?_, ?_⟩⟩
    · rintro ⟨c, hc, hpart⟩
      cases hc
      exact absurd hpart (by decide)
    · rintro ⟨q, hq, -, hbare⟩
      have hle := hkept q (List.mem_of_mem_head? hq)
      refine absurd hbare (Bare.not_of_lt (by omega) ?_)
      intro r hr
      rcases hothers r hr with hmem | hstop
      · have := hspans r hmem
        omega
      · exact .inl hstop

theorem Cut.le_of_head {source : List Char} {previous? : Option Placed} {next : Placed}
    {tokens kept : List Placed} {spans : List Span} {low high : Nat}
    (h : Cut previous? (next :: tokens) spans kept)
    (hlaid : Laid source low (next :: tokens) high) :
    (∀ r ∈ spans, next.span.start ≤ r.start) ∧ ∀ q ∈ kept, next.span.start ≤ q.span.start := by
  have hfrom : Laid source next.span.start (next :: tokens) high := ⟨Nat.le_refl _, hlaid.2⟩
  exact ⟨h.le_start hfrom, fun q hq => hfrom.le_start (h.kept_sublist.subset hq)⟩

/-- What a cut that starts with a request takes out first. -/
theorem Scanned.behind_drop {source before : List Char} {flag : Bool} {rest tokens : List Placed}
    {sign last next finish : Placed} {span : Span}
    (h : Scanned source flag before (sign :: rest ++ next :: tokens) finish)
    (hlast : (sign :: rest).getLast? = some last)
    (hspan : span.start = sign.span.start ∧ span.stop = last.span.stop)
    (hnext : next.token = .atSign ∨ Introduces next) :
    ∃ flag' front before' blanks comment text after,
      Scanned source flag' front (next :: tokens) finish ∧
      Behind source before' span next blanks comment text after ∧
      Text.width front = Text.width before' ∧ span.start < (removal source span).span.stop ∧
      (removal source span).span.stop ≤ next.span.start := by
  have hlaid := Laid.append_iff.1 h.laid
  obtain ⟨flag', front, hscanned, hwidth⟩ := h.behind
  rw [endOf_eq_of_getLast? hlast, ← hspan.2] at hwidth
  have hfrom := hscanned.nextFrom
  rw [hwidth] at hfrom
  obtain ⟨before', blanks, comment, text, after, hbehind⟩ := hfrom.behind hnext
  refine ⟨flag', front, before', blanks, comment, text, after, hscanned, hbehind,
    hwidth.trans hbehind.place.symm, ?_, ?_⟩
  · have hlt := hlaid.1.2.1.start_lt_stop
    have hle := hlaid.1.2.2.le
    rw [endOf_eq_of_getLast? hlast] at hle
    have hstop : span.stop ≤ (removal source span).span.stop := Nat.le_add_right _ _
    omega
  · rw [hbehind.stop, hbehind.start, Text.width_append _ comment]
    exact Nat.le_add_right _ _

theorem splice_removal (source : List Char) (span : Span) (edits : List Edit) :
    Edit.splice source span.start (removal source span :: edits) =
      Edit.splice source (removal source span).span.stop edits := by
  rw [Edit.splice, removal_start, removal_replacement, Text.slice_self]
  rfl

/-- What a source goes on with at a token behind a request. -/
theorem Cut.goesOn {source before : List Char} {requests : List Span}
    {previous? : Option Placed} {next finish : Placed} {tokens kept all : List Placed}
    {spans : List Span} {flag : Bool} (h : Cut previous? all spans kept)
    (hall : all = next :: tokens) (hnext : next.token = .atSign ∨ Introduces next)
    (hscanned : Scanned source flag before (next :: tokens) finish)
    (hspans : ∀ r ∈ spans, r ∈ requests)
    (hothers : ∀ r ∈ requests, r ∈ spans ∨ (removal source r).span.stop ≤ next.span.start) :
    GoesOn source requests spans kept next.span.start := by
  induction h generalizing before next tokens flag with
  | nil => cases hall
  | @keep _ placed rest kept spans h ih =>
    cases hall
    have hlaid := hscanned.laid.2.2
    obtain ⟨front, gap, text, after, hsource, -, -, -, hreads, hplace⟩ := hscanned.nextFrom
    obtain ⟨c, more, hspelling, hname, -, htick⟩ := spelling_behind hnext
    obtain rfl : text = c :: more := hreads.spelling_eq.symm.trans hspelling
    have hend : placed.span.stop = Text.width (front ++ gap ++ c :: more) := by
      rw [hplace, Text.width_append _ (c :: more)]
      rfl
    rw [hend] at hlaid
    have hsplice := splice_removals hsource (h.le_start hlaid)
    have hstart : placed.span.start = Text.width (front ++ gap) := by
      rw [hplace]
      rfl
    rw [← hstart] at hsplice
    unfold GoesOn
    rw [hsplice]
    simp [hname, htick, Bare.self]
  | @drop _ sign last second rest later kept span spans hsign hlast hends hspan hloose hsecond h
      ih =>
    cases hall
    obtain ⟨_, _, before', blanks, comment, text, after, hscanned', hbehind, -, hlt, hle⟩ :=
      hscanned.behind_drop hlast hspan hsecond
    rw [List.forall_mem_cons] at hspans
    have hothers' : ∀ r ∈ requests, r ∈ spans ∨ (removal source r).span.stop ≤
        (removal source span).span.stop := by
      intro r hr
      rcases hothers r hr with hmem | hstop
      · rcases List.mem_cons.1 hmem with rfl | hmem
        · exact .inr (Nat.le_refl _)
        · exact .inl hmem
      · exact .inr (by omega)
    have hat := ih rfl hsecond hscanned' hspans.2 fun r hr =>
      (hothers' r hr).imp_right fun hstop => Nat.le_trans hstop hle
    obtain ⟨hspans', hkept⟩ := h.le_of_head hscanned'.laid
    have hgoes := hbehind.goesOn hat hspans' hkept hothers'
    unfold GoesOn at hgoes ⊢
    rw [List.map_cons, ← hspan.1, splice_removal]
    refine ⟨hgoes.1, hgoes.2.trans ?_⟩
    simp only [Bare.iff_of_removal hspans.1 (Nat.le_refl _) (Nat.le_of_lt hlt)]

/-! ### Tokens in front of a request -/

/-- A request that stands directly behind a token. -/
theorem Cut.direct {source before : List Char} {requests : List Span} {previous finish : Placed}
    {tokens kept : List Placed} {spans : List Span} {span : Span} {flag : Bool}
    (h : Cut (some previous) tokens spans kept)
    (hscanned : Scanned source flag before tokens finish) (hmem : span ∈ spans)
    (hstart : span.start = Text.width before) (hspans : ∀ r ∈ spans, r ∈ requests)
    (hothers : ∀ r ∈ requests, r ∈ spans ∨ (removal source r).span.stop ≤ Text.width before) :
    (flag = true ∨ previous.token.closesItem = true ∨ previous.token = .closing .round) ∧
      (∀ q ∈ kept, Text.width before < q.span.start) ∧
      GoesOn source requests spans kept (Text.width before) := by
  have hlaid := hscanned.laid
  have hcut := h
  cases h with
  | nil => cases hmem
  | keep h =>
    have hle := h.le_start hlaid.2.2 span hmem
    have hlow := hlaid.1
    have hlt := hlaid.2.1.start_lt_stop
    omega
  | @drop _ sign last next rest tokens _ first others hsign hlast hends hspan hloose hnext h =>
    rw [Laid.append_iff] at hlaid
    have hend := hlaid.1.2.2.le
    have hlow := hlaid.1.1
    have hlt := hlaid.1.2.1.start_lt_stop
    have hsignStart : sign.span.start = Text.width before := by
      rcases List.mem_cons.1 hmem with rfl | hmem
      · exact hspan.1.symm.trans hstart
      · have hle := h.le_start hlaid.2 span hmem
        omega
    refine ⟨?_, fun q hq => ?_, ?_⟩
    · rcases hloose with hline | ⟨_, hprevious, hcloses⟩
      · -- there is no gap for a line feed
        cases hscanned with
        | @token _ _ gap _ _ _ _ _ _ _ _ _ hplace hflag _ =>
          have hgap : gap = [] := by
            apply Text.eq_nil_of_width_eq_zero
            rw [hplace] at hsignStart
            simp only [Span.across, Text.width_append] at hsignStart
            omega
          rw [hline, hgap] at hflag
          exact .inl (by simpa using hflag.symm)
      · cases hprevious
        exact .inr hcloses
    · have hle := hlaid.2.le_start (h.kept_sublist.subset hq)
      omega
    · rw [← hsignStart] at hothers ⊢
      exact hcut.goesOn rfl (.inl hsign) hscanned hspans hothers

/-- What stays in front of the first request, if that does not stand directly behind a
    place: a gap, or a token and the gap in front of it. -/
theorem Cut.front {source before after : List Char} {previous? : Option Placed}
    {finish : Placed} {tokens kept : List Placed} {spans : List Span} {flag : Bool}
    (h : Cut previous? tokens spans kept) (hscanned : Scanned source flag before tokens finish)
    (hsource : source = before ++ after) (hne : spans ≠ [])
    (hclear : ∀ span ∈ spans, span.start ≠ Text.width before) :
    ∃ text rest, after = text ++ rest ∧ text ≠ [] ∧
      Edit.splice source (Text.width before) (spans.map (removal source)) =
        text ++ Edit.splice source (Text.width (before ++ text)) (spans.map (removal source)) ∧
      (Token.IsGap text ∨ ∃ gap spelling placed tokens' kept', text = gap ++ spelling ∧
        placed.token.Reads spelling rest ∧ Cut (some placed) tokens' spans kept' ∧
        Scanned source (spelling.contains '\n') (before ++ text) tokens' finish) := by
  have hcut := h
  have hlaid := hscanned.laid
  cases h with
  | nil => exact absurd rfl hne
  | keep h =>
    cases hscanned with
    | @token _ _ gap text rest _ _ _ hparts hgap hstop hreads hplace hflag hrest =>
      rw [List.append_assoc before] at hparts hrest
      have hafter : after = gap ++ text ++ rest := by
        rw [hparts, List.append_assoc] at hsource
        exact (List.append_cancel_left hsource).symm
      exact ⟨gap ++ text, rest, hafter, by simp [hreads.ne_nil],
        splice_removals hparts (h.le_start hrest.laid),
        .inr ⟨gap, text, _, _, _, rfl, hreads, h, hrest⟩⟩
  | @drop _ sign _ _ _ _ _ first _ hsign hlast hends hspan hloose hnext h =>
    cases hscanned with
    | @token _ _ gap text rest _ _ _ hparts hgap hstop hreads hplace hflag hrest =>
      rw [List.append_assoc _ text] at hparts
      have hafter : after = gap ++ (text ++ rest) := by
        rw [hparts, List.append_assoc] at hsource
        exact (List.append_cancel_left hsource).symm
      have hstart : sign.span.start = Text.width (before ++ gap) := by
        rw [hplace]
        rfl
      have hle := (hcut.le_of_head hlaid).1
      rw [hstart] at hle
      refine ⟨gap, text ++ rest, hafter, ?_, splice_removals hparts hle, .inl hgap⟩
      rintro rfl
      exact hclear first List.mem_cons_self (by rw [hspan.1, hstart, List.append_nil])

/-- Where no request stands directly behind a place, the text goes on as it was. -/
theorem Cut.head?_eq {source before after : List Char} {previous? : Option Placed}
    {finish : Placed} {tokens kept : List Placed} {spans : List Span} {flag : Bool}
    (h : Cut previous? tokens spans kept) (hscanned : Scanned source flag before tokens finish)
    (hsource : source = before ++ after)
    (hclear : ∀ span ∈ spans, span.start ≠ Text.width before) :
    after.head? =
      (Edit.splice source (Text.width before) (spans.map (removal source))).head? := by
  by_cases hne : spans = []
  · subst hne
    rw [List.map_nil, Edit.splice_nil hsource]
  · obtain ⟨text, rest, rfl, htext, hsplice, -⟩ := h.front hscanned hsource hne hclear
    obtain ⟨c, text, rfl⟩ := List.exists_cons_of_ne_nil htext
    rw [hsplice]
    rfl

theorem Token.SameStart.append {text a b : List Char} (hne : text ≠ [])
    (h : text = ['/'] ∨ text = ['.'] → a.head? = b.head?) : SameStart (text ++ a) (text ++ b) := by
  match text with
  | [] => exact absurd rfl hne
  | [c] =>
    refine ⟨rfl, fun hc => h ?_⟩
    rcases hc with hc | hc <;> cases hc
    · exact .inl rfl
    · exact .inr rfl
  | c :: d :: text => exact ⟨rfl, fun _ => rfl⟩

/-- It also goes on as it was behind a slash or a point. -/
theorem Cut.sameStart {source before after : List Char} {previous? : Option Placed}
    {finish : Placed} {tokens kept : List Placed} {spans : List Span} {flag : Bool}
    (h : Cut previous? tokens spans kept) (hscanned : Scanned source flag before tokens finish)
    (hsource : source = before ++ after)
    (hclear : ∀ span ∈ spans, span.start ≠ Text.width before) :
    Token.SameStart after
      (Edit.splice source (Text.width before) (spans.map (removal source))) := by
  by_cases hne : spans = []
  · subst hne
    rw [List.map_nil, Edit.splice_nil hsource]
    exact .refl after
  · obtain ⟨text, rest, rfl, htext, hsplice, hkind⟩ := h.front hscanned hsource hne hclear
    rw [hsplice]
    refine .append htext ?_
    intro hsingle
    rcases hkind with hgap | ⟨gap, spelling, placed, tokens', kept', rfl, hreads, hcut, hrest⟩
    · -- a gap that starts with a slash has more of its comment
      exfalso
      rcases hsingle with rfl | rfl
      · obtain ⟨-, d, more, hmore⟩ := Token.IsGap.nil.comment hgap (by decide)
        cases hmore
      · exact absurd (Token.IsGap.nil.comment hgap (by decide)).1 (by decide)
    · -- no request stands directly behind a slash or a point
      have hbehind : source = before ++ (gap ++ spelling) ++ rest := by rw [hsource]; simp
      refine hcut.head?_eq hrest hbehind fun span hspan hstart => ?_
      obtain ⟨hcloses, -⟩ := hcut.direct hrest hspan hstart (fun _ hr => hr) fun _ hr => .inl hr
      obtain ⟨c, rfl, hc⟩ : ∃ c, spelling = [c] ∧ (c = '/' ∨ c = '.') := by
        rcases hsingle with hsingle | hsingle <;>
          obtain ⟨-, rfl⟩ | ⟨-, rfl⟩ := List.append_eq_singleton_iff.1 hsingle
        · exact ⟨_, rfl, .inl rfl⟩
        · exact absurd rfl hreads.ne_nil
        · exact ⟨_, rfl, .inr rfl⟩
        · exact absurd rfl hreads.ne_nil
      rcases hcloses with hline | hcloses
      · rcases hc with rfl | rfl <;> cases hline
      · exact hreads.not_closes hc hcloses

/-- What happens to a token when requests behind it are taken out: it is still read,
    unless it is glued to the token that is kept next. -/
theorem Cut.follows {source before gap text after : List Char} {requests : List Span}
    {placed finish : Placed} {tokens kept : List Placed} {spans : List Span}
    (h : Cut (some placed) tokens spans kept)
    (hsource : source = before ++ gap ++ text ++ after) (hstop : Token.NoGap (text ++ after))
    (hreads : placed.token.Reads text after)
    (hplace : placed.span = Span.across (before ++ gap) text)
    (hscanned : Scanned source (text.contains '\n') (before ++ gap ++ text) tokens finish)
    (hspans : ∀ r ∈ spans, r ∈ requests)
    (hothers : ∀ r ∈ requests, r ∈ spans ∨ (removal source r).span.stop ≤ placed.span.start) :
    let rest := Edit.splice source (Text.width (before ++ gap ++ text)) (spans.map (removal source))
    Token.NoGap (text ++ rest) ∧ (placed.token.Reads text rest ↔
      ∀ q ∈ kept.head?, ¬ Glued source requests placed q) := by
  have hend : placed.span.stop = Text.width (before ++ gap ++ text) := by
    rw [hplace, Text.width_append]
    rfl
  have hbefore : placed.span.start < placed.span.stop := by
    have := Text.width_pos hreads.ne_nil
    rw [hplace]
    simp only [Span.across]
    omega
  have hothers' : ∀ r ∈ requests, r ∈ spans ∨
      (removal source r).span.stop ≤ Text.width (before ++ gap ++ text) := by
    rw [← hend]
    intro r hr
    exact (hothers r hr).imp_right (by omega)
  by_cases hclear : ∀ span ∈ spans, span.start ≠ Text.width (before ++ gap ++ text)
  · -- what follows at once is kept
    have hsame := h.sameStart hscanned hsource hclear
    refine ⟨hstop.of_sameStart hreads.ne_nil hsame.1,
      iff_of_true (hreads.of_sameStart hsame) fun q hq hglued => ?_⟩
    refine Bare.not_of_lt hglued.apart ?_ hglued.bare
    intro r hr
    rw [hend]
    rcases hothers' r hr with hmem | hle
    · exact .inr (Nat.lt_of_le_of_ne (h.le_start hscanned.laid r hmem) (hclear r hmem).symm)
    · exact .inl hle
  · -- a request follows at once
    simp only [not_forall, not_not] at hclear
    obtain ⟨span, hmem, hstart⟩ := hclear
    obtain ⟨hcloses, hlater, htick, hpart⟩ := h.direct hscanned hmem hstart hspans hothers'
    obtain ⟨hno, hiff⟩ := hreads.iff_of_closes hstop (hcloses.imp_left (by simp)) htick
    refine ⟨hno, hiff.trans ?_⟩
    have hnone : (∀ c ∈ (Edit.splice source (Text.width (before ++ gap ++ text))
        (spans.map (removal source))).head?, Token.isNamePart c = false) ↔
        ∀ q ∈ kept.head?, ¬ (q.token.isName = true ∧
          Bare source requests (Text.width (before ++ gap ++ text)) q.span.start) := by
      simpa only [not_exists, not_and, Bool.not_eq_true] using not_congr hpart
    rw [hnone]
    constructor
    · intro hfree q hq hglued
      exact hfree hglued.opens q hq ⟨hglued.isName, hend ▸ hglued.bare⟩
    · rintro hfree hopen q hq ⟨hname, hbare⟩
      have hapart := hlater q (List.mem_of_mem_head? hq)
      rw [← hend] at hapart hbare
      exact hfree q hq ⟨hopen, hname, hapart, hbare⟩

/-- **The tokens that are kept are read again, unless two of them are glued.** -/
theorem Cut.lexes_iff {source before : List Char} {requests : List Span}
    {previous? : Option Placed} {finish : Placed} {tokens kept : List Placed} {spans : List Span}
    {flag : Bool} (h : Cut previous? tokens spans kept)
    (hscanned : Scanned source flag before tokens finish) (hspans : ∀ r ∈ spans, r ∈ requests)
    (hothers : ∀ r ∈ requests, r ∈ spans ∨
      ∀ q ∈ tokens.head?, (removal source r).span.stop ≤ q.span.start) :
    Lexes (Edit.splice source (Text.width before) (spans.map (removal source)))
        (kept.map (·.token)) ↔
      kept.IsChain fun p q => ¬ Glued source requests p q := by
  induction h generalizing before flag with
  | nil =>
    cases hscanned with
    | finish hsource hgap _ =>
      rw [List.map_nil, Edit.splice_nil hsource]
      exact iff_of_true (.finish hgap) .nil
  | @keep _ placed tokens kept spans h ih =>
    cases hscanned with
    | @token _ _ gap text after _ _ _ hsource hgap hstop hreads hplace hflag hrest =>
      have hfirst := fun r hr => (hothers r hr).imp_right fun hall => hall placed rfl
      obtain ⟨hno, hiff⟩ := h.follows hsource hstop hreads hplace hrest hspans hfirst
      have hsplice : Edit.splice source (Text.width before) (spans.map (removal source)) =
          gap ++ (text ++ Edit.splice source (Text.width (before ++ gap ++ text))
            (spans.map (removal source))) := by
        have hparts : source = before ++ (gap ++ text) ++ after := by rw [hsource]; simp
        have hstays := splice_removals hparts fun r hr => by
          rw [← List.append_assoc]
          exact h.le_start hrest.laid r hr
        rwa [← List.append_assoc before, List.append_assoc gap] at hstays
      have hstop' : placed.span.start ≤ Text.width (before ++ gap ++ text) := by
        rw [hplace, Text.width_append _ text]
        exact Nat.le_add_right _ _
      rw [hsplice, Lexes.gap_iff hgap, List.map_cons, Lexes.token_iff hno hreads.spelling_eq,
        List.isChain_cons, hiff, ih hrest hspans ?_]
      intro r hr
      apply (hfirst r hr).imp_right
      intro hle q hq
      exact (hle.trans hstop').trans (hrest.laid.le_start (List.mem_of_mem_head? hq))
  | @drop _ sign last next rest tokens kept span spans hsign hlast hends hspan hloose hnext h ih =>
    have hcut := Cut.drop hsign hlast hends hspan hloose hnext h
    obtain ⟨_, front, before', blanks, comment, text, after, hscanned', hbehind, hwidth, hlt,
      hle⟩ := hscanned.behind_drop hlast hspan hnext
    rw [List.forall_mem_cons] at hspans
    -- the text behind the request, with the blanks that are taken out put back
    have hblanks : Edit.splice source (Text.width front) (spans.map (removal source)) =
        blanks ++ Edit.splice source (removal source span).span.stop
          (spans.map (removal source)) := by
      rw [hwidth]
      rw [hbehind.stop] at hle ⊢
      apply splice_removals hbehind.source_eq
      intro r hr
      exact Nat.le_trans hle ((h.le_of_head hscanned'.laid).1 r hr)
    have hrest := ih hscanned' hspans.2 ?_
    · rw [hblanks, Lexes.gap_iff hbehind.isGap] at hrest
      rw [← hrest]
      have hsignLe := (hcut.le_of_head hscanned.laid).1
      cases hscanned with
      | @token _ _ gap text after _ _ _ hsource hgap hstop hreads hplace hflag _ =>
        have hstart : sign.span.start = Text.width (before ++ gap) := by
          rw [hplace]
          rfl
        rw [List.append_assoc _ text] at hsource
        rw [hstart] at hsignLe
        rw [splice_removals hsource hsignLe, Lexes.gap_iff hgap, ← hstart, ← hspan.1, List.map_cons,
          splice_removal]
    · intro r hr
      refine (hothers r hr).elim (fun hmem => ?_) fun hall => .inr fun q hq => ?_
      · rcases List.mem_cons.1 hmem with rfl | hmem
        · exact .inr fun q hq => by cases hq; exact hle
        · exact .inl hmem
      · cases hq
        have := hall sign rfl
        omega

/-! ### Whole sources -/

def Placed.inside (spans : List Span) (placed : Placed) : Bool :=
  spans.any fun span => span.start ≤ placed.span.start && placed.span.stop ≤ span.stop

def tokensOutside (requests : List Span) (tokens : List Placed) : List Placed :=
  tokens.filter fun placed => !placed.inside requests

theorem Placed.inside_iff {spans : List Span} {placed : Placed} :
    placed.inside spans = true ↔
      ∃ span ∈ spans, span.start ≤ placed.span.start ∧ placed.span.stop ≤ span.stop := by
  simp [Placed.inside]

/-- What is left of a cut are the tokens that lie in no request. -/
theorem Cut.kept_eq {source : List Char} {requests : List Span} {previous? : Option Placed}
    {tokens kept : List Placed} {spans : List Span} {low high : Nat}
    (h : Cut previous? tokens spans kept) (hlaid : Laid source low tokens high)
    (hspans : ∀ r ∈ spans, r ∈ requests) (hothers : ∀ r ∈ requests, r ∈ spans ∨ r.stop ≤ low) :
    kept = tokensOutside requests tokens := by
  unfold tokensOutside
  induction h generalizing low with
  | nil => rfl
  | @keep _ placed tokens kept spans h ih =>
    have hlow := hlaid.1
    have hlt := hlaid.2.1.start_lt_stop
    have hout : placed.inside requests = false := by
      rw [← Bool.not_eq_true, Placed.inside_iff]
      rintro ⟨r, hr, hstart, hstop⟩
      rcases hothers r hr with hmem | hle
      · have := h.le_start hlaid.2.2 r hmem
        omega
      · omega
    rw [List.filter_cons_of_pos (by rw [hout]; rfl), ← ih hlaid.2.2 hspans fun r hr =>
      (hothers r hr).imp_right (by omega)]
  | @drop _ sign last next rest tokens kept span spans hsign hlast hends hspan hloose hnext h ih =>
    rw [List.forall_mem_cons] at hspans
    rw [Laid.append_iff, endOf_eq_of_getLast? hlast] at hlaid
    obtain ⟨hfront, hback⟩ := hlaid
    have hin : ∀ q ∈ sign :: rest, q.inside requests = true := by
      intro q hq
      have hfrom : Laid source sign.span.start (sign :: rest) last.span.stop :=
        ⟨Nat.le_refl _, hfront.2⟩
      exact Placed.inside_iff.2 ⟨span, hspans.1, hspan.1 ▸ hfrom.le_start hq,
        hspan.2 ▸ hfrom.stop_le hq⟩
    rw [List.filter_append, List.filter_eq_nil_iff.2 fun q hq => by simp [hin q hq],
      List.nil_append]
    apply ih hback hspans.2
    intro r hr
    have hle := hfront.le
    rcases hothers r hr with hmem | hstop
    · rcases List.mem_cons.1 hmem with rfl | hmem
      · exact .inr (Nat.le_of_eq hspan.2)
      · exact .inl hmem
    · exact .inr (by omega)

theorem Cut.removals_apart {source before : List Char} {previous? : Option Placed}
    {finish : Placed} {tokens kept : List Placed} {spans : List Span} {flag : Bool}
    (h : Cut previous? tokens spans kept) (hscanned : Scanned source flag before tokens finish)
    (hsigned : ∀ span ∈ spans, span.Signed source) :
    Edit.Apart source (spans.map (removal source)) := by
  constructor
  · intro edit hedit
    obtain ⟨span, hspan, rfl⟩ := List.mem_map.1 hedit
    exact (removal_removes (hsigned span hspan)).fits
  · rw [List.pairwise_map]
    clear hsigned
    induction h generalizing before flag with
    | nil => exact .nil
    | keep h ih =>
      cases hscanned with
      | token _ _ _ _ _ _ hrest => exact ih hrest
    | drop _ hlast _ hspan _ hnext h ih =>
      obtain ⟨_, _, _, _, _, _, _, hscanned', -, -, hlt, hle⟩ :=
        hscanned.behind_drop hlast hspan hnext
      refine List.pairwise_cons.2 ⟨?_, ih hscanned'⟩
      intro r hr
      have := (h.le_of_head hscanned'.laid).1 r hr
      simp only [removal_start]
      omega

/-- **Where nothing is generated, the other tokens of a source stay as they are if and
    only if no two names are glued.** -/
theorem tokenize_expanded_iff {layout : Layout} {source : String} {expansion : Expansion}
    (h : expand layout source = .ok expansion) :
    ∃ outline tokens, Outline.ofSource source.toList = .ok outline ∧
      tokenize source.toList = .ok tokens ∧
      ((∀ declaration ∈ outline.allDeclarations, declaration.generated = []) →
        ((∃ found, tokenize expansion.source.toList = .ok found ∧
            found.body.map (·.token) =
              (tokensOutside outline.requests tokens.body).map (·.token)) ↔
          (tokensOutside outline.requests tokens.body).IsChain fun p q =>
            ¬ Glued source.toList outline.requests p q)) := by
  obtain ⟨outline, houtline, hsource, -⟩ := expand_eq_ok h
  obtain ⟨tokens, kept, htokens, hcut, hsigned⟩ := Outline.cut houtline
  have hscanned := tokenize_scanned htokens
  refine ⟨outline, tokens, houtline, htokens, ?_⟩
  intro hnone
  -- the edits are the removals alone
  have hedits : outline.edits layout source.toList =
      outline.requests.map (removal source.toList) := by
    have hempty : outline.allDeclarations.filterMap
        (Declaration.insertion? layout source.toList) = [] :=
      List.filterMap_eq_nil_iff.2 fun declaration hmem =>
        Declaration.insertion?_of_nil (hnone declaration hmem)
    rw [Outline.edits_eq, hempty, List.append_nil]
  rw [hedits, Edit.applyAll_eq_splice (.refl _) (hcut.removals_apart hscanned hsigned)] at hsource
  rw [hsource, ← hcut.kept_eq hscanned.laid (fun _ hr => hr) fun _ hr => .inl hr,
    tokenize_iff_lexes]
  exact hcut.lexes_iff hscanned (fun _ hr => hr) fun _ hr => .inl hr

def joinedAttributes : String :=
  "struct S \x7b\n    @objc@CodingKey(name: \"k\") var a: Int\n\x7d"

def joinedAttributesExpanded : String := "struct S \x7b\n    @objcvar a: Int\n\x7d"

theorem tokenize_expanded_glued :
    expand .standard joinedAttributes = .ok ⟨joinedAttributesExpanded, []⟩ ∧
    ∃ outline tokens, Outline.ofSource joinedAttributes.toList = .ok outline ∧
      tokenize joinedAttributes.toList = .ok tokens ∧
      ¬ ∃ found, tokenize joinedAttributesExpanded.toList = .ok found ∧
        found.body.map (·.token) = (tokensOutside outline.requests tokens.body).map (·.token) := by
  have hexpand : expand .standard joinedAttributes = .ok ⟨joinedAttributesExpanded, []⟩ := by
    decide +kernel
  obtain ⟨outline, tokens, houtline, htokens, hiff⟩ := tokenize_expanded_iff hexpand
  refine ⟨hexpand, outline, tokens, houtline, htokens, ?_⟩
  have hnone : (Outline.ofSource joinedAttributes.toList).toOption.all (fun outline =>
      decide (∀ declaration ∈ outline.allDeclarations, declaration.generated = [])) = true := by
    decide +kernel
  have hglued : (Outline.ofSource joinedAttributes.toList).toOption.all (fun outline =>
      (tokenize joinedAttributes.toList).toOption.all fun tokens =>
        decide (¬ (tokensOutside outline.requests tokens.body).IsChain fun p q =>
          ¬ Glued joinedAttributes.toList outline.requests p q)) = true := by
    decide +kernel
  rw [houtline] at hnone hglued
  rw [htokens] at hglued
  rw [hiff (of_decide_eq_true hnone)]
  exact of_decide_eq_true hglued

end Memberwise
