/-
  Memberwise/Proofs/Rounds.lean
  =============================
  **Repeated fixing comes to an end.**

  A round of fixing applies all fix-its of a source, and the next round starts from
  what it leaves.  Two numbers tell that this cannot go on for ever.  Taking out a
  request takes out an `@`, and no fix-it brings one.  A placeholder for a type takes
  the name in front of it out of the characters that have none behind them
  (`looseCount`); placeholders that are there already are not touched, since the name
  stands behind `let` or `var` and in front of no colon.

  So the rounds end at a source without reports, or at one that cannot be read.  Both
  happen: with a request gone, a word on the line before it can be read as the start
  of the declaration behind it.  Where no request is to be taken out and all names have
  room for a type (`Roomy`), this stays so from round to round, and the end is a source
  without reports.
-/
import Mathlib.Logic.Function.Iterate
import Memberwise.Proofs.Rereading
import Memberwise.Proofs.Tiling

namespace Memberwise

/-! ### Placeholders in a text -/

namespace Text

/-- Number of characters of a text that have no placeholder behind them.  A placeholder is
    passed whole, together with the character in front of it. -/
def looseCount : List Char → Nat
  | [] => 0
  | _ :: rest =>
    if placeholder <+: rest then looseCount (rest.drop placeholder.length)
    else looseCount rest + 1
termination_by text => text.length

theorem looseCount_typed (c : Char) (rest : List Char) :
    looseCount (c :: (placeholder ++ rest)) = looseCount rest := by
  rw [looseCount, if_pos (List.prefix_append _ _), List.drop_left]

theorem looseCount_loose (c : Char) {rest : List Char} (h : ¬ placeholder <+: rest) :
    looseCount (c :: rest) = looseCount rest + 1 := by
  rw [looseCount, if_neg h]

/-- No placeholder starts in a text and ends in the next one, or stands at the front of
    that. -/
def Clear (text after : List Char) : Prop :=
  ∀ front back, placeholder = front ++ back → back ≠ [] → front <:+ text → ¬ back <+: after

theorem Clear.of_suffix {text text' after : List Char} (h : Clear text after)
    (hsuffix : text' <:+ text) : Clear text' after :=
  fun front back hparts hback hfront => h front back hparts hback (hfront.trans hsuffix)

/-- A placeholder that starts two texts starts the first, or it goes over into the
    second. -/
theorem prefix_append_cases {text after : List Char} (h : placeholder <+: text ++ after) :
    placeholder <+: text ∨ ∃ back, placeholder = text ++ back ∧ back ≠ [] ∧ back <+: after := by
  rcases List.prefix_or_prefix_of_prefix h (List.prefix_append text after) with hwhole | hpart
  · exact .inl hwhole
  · obtain ⟨back, hback⟩ := hpart
    rw [← hback, List.prefix_append_right_inj] at h
    by_cases hnil : back = []
    · rw [hnil, List.append_nil] at hback
      exact .inl (hback ▸ List.prefix_refl _)
    · exact .inr ⟨back, hback.symm, hnil, h⟩

theorem looseCount_append {text after : List Char} (h : Clear text after) :
    looseCount (text ++ after) = looseCount text + looseCount after := by
  fun_induction looseCount text with
  | case1 => rw [List.nil_append, Nat.zero_add]
  | case2 c rest hprefix ih =>
    obtain ⟨more, rfl⟩ := hprefix
    rw [List.drop_left] at ih ⊢
    rw [List.cons_append, List.append_assoc, looseCount_typed]
    exact ih (h.of_suffix ((List.suffix_append _ _).trans (List.suffix_cons _ _)))
  | case3 c rest hprefix ih =>
    have hnot : ¬ placeholder <+: rest ++ after := by
      intro hstarts
      rcases prefix_append_cases hstarts with hwhole | ⟨back, hparts, hback, hafter⟩
      · exact hprefix hwhole
      · exact h rest back hparts hback (List.suffix_cons c rest) hafter
    rw [List.cons_append, looseCount_loose c hnot, ih (h.of_suffix (List.suffix_cons c rest))]
    omega

/-- Behind its first character a placeholder goes on without a colon. -/
theorem head?_of_placeholder {front back : List Char} (hparts : placeholder = front ++ back)
    (hfront : front ≠ []) : back.head? ≠ some ':' := by
  obtain ⟨c, front, rfl⟩ := List.exists_cons_of_ne_nil hfront
  have htail : placeholder.tail = front ++ back := by rw [hparts]; rfl
  intro hhead
  have hmem : ':' ∈ front ++ back := List.mem_append_right _ (List.mem_of_mem_head? hhead)
  rw [← htail] at hmem
  exact absurd hmem (by decide)

/-- A placeholder makes the character in front of it count no more. -/
theorem looseCount_append_placeholder {text : List Char} (after : List Char) (hne : text ≠ [])
    (hlast : text.getLast? ≠ some '>') :
    looseCount (text ++ (placeholder ++ after)) + 1 = looseCount text + looseCount after := by
  fun_induction looseCount text with
  | case1 => exact absurd rfl hne
  | case2 c rest hprefix ih =>
    obtain ⟨more, rfl⟩ := hprefix
    rw [List.drop_left] at ih ⊢
    have hmore : more ≠ [] := by
      rintro rfl
      exact hlast (by simp [placeholder])
    rw [List.cons_append, List.append_assoc, looseCount_typed]
    refine ih hmore ?_
    rwa [← List.cons_append, List.getLast?_append_of_ne_nil _ hmore] at hlast
  | case3 c rest hprefix ih =>
    by_cases hrest : rest = []
    · subst hrest
      rw [List.singleton_append, looseCount_typed, looseCount]
      omega
    · have hnot : ¬ placeholder <+: rest ++ (placeholder ++ after) := by
        intro hstarts
        rcases prefix_append_cases hstarts with hwhole | ⟨back, hparts, hback, hafter⟩
        · exact hprefix hwhole
        · obtain ⟨d, back, rfl⟩ := List.exists_cons_of_ne_nil hback
          obtain ⟨_, hmore⟩ := hafter
          have hcolon : d = ':' := by
            rw [List.cons_append] at hmore
            exact (List.cons.inj hmore).1
          exact head?_of_placeholder hparts hrest (by rw [hcolon]; rfl)
      have hlast' : rest.getLast? ≠ some '>' := by
        rwa [← List.singleton_append, List.getLast?_append_of_ne_nil _ hrest] at hlast
      rw [List.cons_append, looseCount_loose c hnot]
      have := ih hrest hlast'
      omega

/-- Characters that can stand directly in front of a name behind `let` or `var`: those
    that a gap ends with, and those that the two words end with. -/
def partsNames (c : Char) : Bool := Token.isSeparator c || ['/', 't', 'r'].contains c

/-- Of these characters a placeholder has but a space, and what follows that starts no
    name. -/
theorem head_of_partsNames {front back : List Char} {c : Char}
    (hparts : placeholder = front ++ c :: back) (hc : partsNames c = true) :
    back.head? = some '<' := by
  have hspace : ∀ c ∈ placeholder, (!partsNames c || c == ' ') = true :=
    List.all_eq_true.1 (by decide)
  obtain rfl : c = ' ' := by simpa [hc] using hspace c (by rw [hparts]; simp)
  obtain - | ⟨first, _ | ⟨second, front⟩⟩ := front
  · cases hparts
  · cases hparts
    rfl
  · -- there is one space only
    simp only [List.cons_append, placeholder, List.cons.injEq] at hparts
    have hmem : ' ' ∈ front ++ ' ' :: back := by simp
    rw [← hparts.2.2] at hmem
    exact absurd hmem (by decide)

/-- No placeholder reaches over the end of a name that is bound without a type. -/
theorem clear_behind_name {before name after : List Char} (hne : name ≠ [])
    (hname : ∀ c ∈ name, c ≠ ':' ∧ c ≠ '<')
    (hbefore : ∀ c ∈ before.getLast?, partsNames c = true) (hafter : after.head? ≠ some ':') :
    Clear (before ++ name) after := by
  intro front back hparts hback hsuffix hprefix
  by_cases hfront : front = []
  · -- the placeholder would start with a colon behind the name
    rw [hfront, List.nil_append] at hparts
    obtain ⟨more, rfl⟩ := hprefix
    rw [← hparts] at hafter
    exact hafter rfl
  · have hcolon : ':' ∈ front := by
      obtain ⟨c, front, rfl⟩ := List.exists_cons_of_ne_nil hfront
      obtain rfl : ':' = c := (List.cons.inj hparts).1
      exact List.mem_cons_self
    rcases List.suffix_or_suffix_of_suffix hsuffix (List.suffix_append before name) with
      hinside | ⟨own, rfl⟩
    · exact (hname ':' (hinside.mem hcolon)).1 rfl
    · -- the placeholder would start in front of the name and go on with it
      obtain ⟨first, name, rfl⟩ := List.exists_cons_of_ne_nil hne
      obtain rfl | ⟨own, c, rfl⟩ := own.eq_nil_or_concat
      · exact (hname ':' hcolon).1 rfl
      · obtain ⟨more, hmore⟩ := hsuffix
        rw [← List.append_assoc, List.append_cancel_right_eq] at hmore
        have hlast : before.getLast? = some c := by
          rw [← hmore, List.concat_eq_append, ← List.append_assoc, List.getLast?_concat]
        have hparts' : placeholder = own ++ c :: (first :: name ++ back) := by
          rw [hparts]
          simp
        have hhead := head_of_partsNames hparts' (hbefore c hlast)
        exact (hname first List.mem_cons_self).2 (Option.some.inj hhead)

end Text

/-! ### Names that are bound without a type -/

namespace Token

/-- The first character of a gap. -/
theorem Gap.head? {after gap : List Char} (h : Gap after gap) :
    ∀ c ∈ gap.head?, isSeparator c = true ∨ c = '/' := by
  cases h with
  | nil => simp
  | blank hc _ =>
    rintro _ ⟨⟩
    rcases hc with rfl | rfl | rfl | rfl <;> exact .inl rfl
  | line _ _ _ =>
    rintro _ ⟨⟩
    exact .inr rfl
  | block _ _ =>
    rintro _ ⟨⟩
    exact .inr rfl

/-- The last character of a gap in front of something on the same line. -/
theorem Gap.getLast? {after gap : List Char} (h : Gap after gap)
    (hafter : ∃ c ∈ after.head?, c ≠ '\n') :
    ∀ c ∈ gap.getLast?, isSeparator c = true ∨ c = '/' := by
  induction h with
  | nil => simp
  | @blank c rest hc _ ih =>
    by_cases hrest : rest = []
    · subst hrest
      rintro _ ⟨⟩
      rcases hc with rfl | rfl | rfl | rfl <;> exact .inl rfl
    · rwa [← List.singleton_append, List.getLast?_append_of_ne_nil _ hrest]
  | @line body rest _ hstop _ ih =>
    by_cases hrest : rest = []
    · -- a comment up to the end of its line has the line feed behind it
      subst hrest
      obtain ⟨c, hc, hne⟩ := hafter
      exact absurd (hstop c hc) hne
    · rwa [List.getLast?_append_of_ne_nil _ hrest]
  | @block body rest _ _ ih =>
    by_cases hrest : rest = []
    · subst hrest
      intro c hc
      rw [List.append_nil, List.getLast?_append_of_ne_nil _ (by simp)] at hc
      cases hc
      exact .inr rfl
    · rwa [List.getLast?_append_of_ne_nil _ hrest]

theorem IsGap.gap {gap after : List Char} (h : IsGap gap) (hstop : NoGap after) :
    Gap after gap := by
  apply gap_of_gapLength
  rw [gapLength, h, hstop, Nat.zero_add]

/-- No name has one of the three signs of a placeholder that are neither blank nor a `#`. -/
theorem Reads.name_ne {text : String} {after : List Char}
    (h : (name text).Reads text.toList after) :
    ∀ c ∈ text.toList, c ≠ ':' ∧ c ≠ '<' ∧ c ≠ '>' := by
  intro c hc
  have hchar := h.name_char c hc
  refine ⟨?_, ?_, ?_⟩ <;> rintro rfl <;> exact absurd hchar (by decide)

end Token

/-- A colon behind a token is the next token. -/
theorem Scanned.head?_ne_colon {source before after : List Char} {flag : Bool}
    {tokens : List Placed} {finish : Placed} (h : Scanned source flag before tokens finish)
    (hsource : source = before ++ after) (hnext : ∀ next ∈ tokens.head?, next.token ≠ .colon) :
    after.head? ≠ some ':' := by
  intro hcolon
  obtain ⟨rest, rfl⟩ := List.head?_eq_some_iff.1 hcolon
  cases h with
  | @finish _ _ gap _ hparts hgap _ =>
    obtain rfl : ':' :: rest = gap := List.append_cancel_left (hsource.symm.trans hparts)
    cases hgap
  | @token _ _ gap text tail placed _ _ hparts hgap hstop hreads _ _ _ =>
    rw [List.append_assoc, List.append_assoc, hsource, List.append_cancel_left_eq] at hparts
    cases gap with
    | nil =>
      obtain ⟨first, more, found, htext, hfound, -, htoken⟩ := hreads
      rw [List.nil_append, htext] at hparts
      obtain ⟨rfl, rfl⟩ := List.cons.inj hparts
      cases hfound
      exact hnext placed rfl htoken
    | cons c more =>
      obtain rfl : ':' = c := (List.cons.inj hparts).1
      rcases (hgap.gap hstop).head? ':' rfl with hsep | hslash
      · exact absurd hsep (by decide)
      · exact absurd hslash (by decide)

/-- The edit replaces a text that stands between two others. -/
structure Edit.Replaces (source : List Char) (edit : Edit) (before text after : List Char) :
    Prop where
  source_eq : source = before ++ text ++ after
  start_eq : edit.span.start = Text.width before
  stop_eq : edit.span.stop = Text.width (before ++ text)

/-- The edit takes out some text that starts with an `@`. -/
structure Edit.Deletes (source : List Char) (edit : Edit) (before text after : List Char) : Prop
    extends edit.Replaces source before text after where
  replacement_eq : edit.replacement = ""
  signed : '@' ∈ text

/-- The edit puts a placeholder behind some text, and touches no placeholder that is there. -/
structure Edit.Types (source : List Char) (edit : Edit) (before text after : List Char) : Prop
    extends edit.Replaces source before text after where
  replacement_eq : edit.replacement.toList = text ++ Text.placeholder
  ne_nil : text ≠ []
  last_ne : text.getLast? ≠ some '>'
  clear : Text.Clear (before ++ text) after

/-- What stands directly in front of a name behind `let` or `var` parts names. -/
theorem partsNames_of_gap {before word gap after : List Char}
    (hword : word = ['l', 'e', 't'] ∨ word = ['v', 'a', 'r']) (hgap : Token.Gap after gap)
    (hafter : ∃ c ∈ after.head?, c ≠ '\n') :
    ∀ c ∈ (before ++ word ++ gap).getLast?, Text.partsNames c = true := by
  intro c hc
  by_cases hnil : gap = []
  · rw [hnil, List.append_nil] at hc
    rcases hword with rfl | rfl
    all_goals
      rw [List.getLast?_append_of_ne_nil _ (by simp)] at hc
      cases hc
      decide
  · rw [List.getLast?_append_of_ne_nil _ hnil] at hc
    rw [Text.partsNames, Bool.or_eq_true]
    rcases hgap.getLast? hafter c hc with hsep | rfl
    · exact .inl hsep
    · exact .inr rfl

/-- The edit that a bare name is fixed by. -/
theorem Pattern.Bare.types {source : List Char} {tokens : Tokens} {pattern : Pattern}
    (htokens : tokenize source = .ok tokens) (h : pattern.Bare tokens.body) :
    ∃ before after, pattern.typing.Types source before pattern.name.toList after := by
  obtain ⟨front, keyword, name, back, hbody, hkeyword, hname, hspan, hcolon⟩ := h
  have hscanned := tokenize_scanned htokens
  rw [hbody] at hscanned
  obtain ⟨_, start, hscanned, -⟩ := hscanned.behind
  cases hscanned with
  | @token _ _ gap₀ word _ _ _ _ _ _ _ hword _ _ hscanned =>
    cases hscanned with
    | @token _ _ gap text after _ _ _ hsource hgap hstop hreads hplaced _ hscanned =>
      rw [hname] at hreads
      obtain rfl : pattern.name.toList = text := hreads.spelling_eq
      have hword' : word = ['l', 'e', 't'] ∨ word = ['v', 'a', 'r'] := by
        rcases hkeyword with hlet | hvar
        · rw [hlet] at hword
          exact .inl hword.spelling_eq.symm
        · rw [hvar] at hword
          exact .inr hword.spelling_eq.symm
      have hline : ∃ c ∈ (pattern.name.toList ++ after).head?, c ≠ '\n' := by
        obtain ⟨c, rest, hrest⟩ := List.exists_cons_of_ne_nil hreads.ne_nil
        rw [hrest] at hstop ⊢
        refine ⟨c, rfl, ?_⟩
        rintro rfl
        exact absurd hstop.not_separator (by decide)
      refine ⟨start ++ gap₀ ++ word ++ gap, after, ⟨hsource, ?_, ?_⟩, ?_, hreads.ne_nil, ?_, ?_⟩
      · rw [Pattern.typing, hspan, hplaced]
        rfl
      · rw [Pattern.typing, hspan, hplaced, Text.width_append]
        rfl
      · rw [Pattern.typing, String.toList_append]
        rfl
      · intro hlast
        exact (hreads.name_ne '>' (List.mem_of_getLast? hlast)).2.2 rfl
      · refine Text.clear_behind_name hreads.ne_nil ?_
          (partsNames_of_gap hword' (hgap.gap hstop) hline) (hscanned.head?_ne_colon hsource hcolon)
        intro c hc
        exact ⟨(hreads.name_ne c hc).1, (hreads.name_ne c hc).2.1⟩

/-! ### One round -/

/-- A request for an initializer starts with an `@`. -/
theorem Span.AsksForInit.signed {source : List Char} {tokens : Tokens} {span : Span}
    (htokens : tokenize source = .ok tokens) (h : span.AsksForInit tokens.body)
    (hstop : Text.isBoundary span.stop source = true) : span.Signed source := by
  obtain ⟨front, sign, name, list, next, back, hbody, hsign, -, -, -, rfl⟩ := h
  have hlaid := (tokenize_scanned htokens).laid
  rw [hbody, Laid.append_iff] at hlaid
  obtain ⟨-, -, ⟨-, hcovers⟩, hrest⟩ := hlaid
  rw [← List.cons_append, Laid.append_iff, endOf_cons] at hrest
  rw [hsign] at hcovers
  exact hcovers.extend hstop hrest.1.le

namespace Edit

variable {source before text after : List Char} {edit : Edit} {place : Nat}

theorem replaces_of_covers (h : edit.span.Covers source text) :
    ∃ before after, edit.Replaces source before text after := by
  obtain ⟨before, after, hsource, hspan⟩ := h
  refine ⟨before, after, hsource, by rw [hspan]; rfl, ?_⟩
  rw [hspan, Text.width_append]
  rfl

/-- What the first edit of a row makes of the text behind a place. -/
theorem Replaces.splice_cons (h : edit.Replaces source before text after)
    (hplace : Text.isBoundary place source = true) (hle : place ≤ edit.span.start)
    (rest : List Edit) :
    ∃ kept, kept <:+ before ∧ Text.dropBytes place source = kept ++ text ++ after ∧
      Text.dropBytes edit.span.stop source = after ∧
      splice source place (edit :: rest) =
        kept ++ edit.replacement.toList ++ splice source edit.span.stop rest := by
  obtain ⟨front, back, hcut, hfront⟩ := Text.exists_append_of_isBoundary hplace
  have hsource := h.source_eq
  rw [List.append_assoc] at hsource
  obtain ⟨kept, rfl, rfl⟩ := Text.exists_append_of_width_le (hcut.symm.trans hsource)
    (by rw [hfront, ← h.start_eq]; exact hle)
  refine ⟨kept, List.suffix_append _ _, ?_, ?_, ?_⟩
  · rw [hcut, Text.dropBytes_of_width hfront, List.append_assoc]
  · rw [h.source_eq, Text.dropBytes_of_width h.stop_eq.symm]
  · have hwidth : place + Text.width kept = edit.span.start := by
      rw [h.start_eq, Text.width_append, hfront]
    rw [splice, hsource, Text.slice_append hfront hwidth]

/-- A row of edits that put placeholders behind names, one behind another. -/
theorem looseCount_splice {chain : List Edit} (hapart : Apart source chain)
    (htypes : ∀ edit ∈ chain, ∃ before text after, edit.Types source before text after)
    (hplace : Text.isBoundary place source = true)
    (hle : ∀ edit ∈ chain, place ≤ edit.span.start) :
    Text.looseCount (splice source place chain) + chain.length =
      Text.looseCount (Text.dropBytes place source) := by
  induction chain generalizing place with
  | nil => rfl
  | cons edit rest ih =>
    rw [List.forall_mem_cons] at htypes
    obtain ⟨⟨before, text, after, hedit⟩, htypes⟩ := htypes
    obtain ⟨kept, hkept, hdrop, hbehind, hsplice⟩ :=
      hedit.splice_cons hplace (hle edit List.mem_cons_self) rest
    obtain ⟨hapart, hstop, hfollow⟩ := hapart.uncons
    have hrest := ih hapart htypes hstop hfollow
    -- the name is the last part of what is kept, with a placeholder behind it or without
    have hne : kept ++ text ≠ [] := by simp [hedit.ne_nil]
    have hlast : (kept ++ text).getLast? ≠ some '>' := by
      rw [List.getLast?_append_of_ne_nil _ hedit.ne_nil]
      exact hedit.last_ne
    have htyped := Text.looseCount_append_placeholder (splice source edit.span.stop rest) hne hlast
    have hclear : Text.Clear (kept ++ text) after :=
      hedit.clear.of_suffix (List.suffix_append_self_iff.2 hkept)
    rw [hsplice, hedit.replacement_eq, hdrop, Text.looseCount_append hclear, List.length_cons]
    rw [hbehind] at hrest
    simp only [List.append_assoc] at htyped ⊢
    omega

theorem Types.count_le (h : edit.Types source before text after) :
    edit.replacement ≠ "" ∧ edit.replacement.toList.count '@' ≤ text.count '@' := by
  constructor
  · rintro hnone
    have hempty := h.replacement_eq
    rw [hnone] at hempty
    exact h.ne_nil (List.append_eq_nil_iff.1 hempty.symm).1
  · rw [h.replacement_eq, List.count_append]
    exact Nat.le_refl _

theorem Deletes.count_lt (h : edit.Deletes source before text after) :
    edit.replacement = "" ∧ edit.replacement.toList.count '@' < text.count '@' := by
  refine ⟨h.replacement_eq, ?_⟩
  rw [h.replacement_eq]
  exact List.count_pos_iff.2 h.signed

/-- No row of fix-its brings an `@`, and each that takes out a request takes one away. -/
theorem count_splice {chain : List Edit} (hapart : Apart source chain)
    (hkinds : ∀ edit ∈ chain, ∃ before text after, edit.Types source before text after ∨
      edit.Deletes source before text after)
    (hplace : Text.isBoundary place source = true)
    (hle : ∀ edit ∈ chain, place ≤ edit.span.start) :
    (splice source place chain).count '@' + chain.countP (·.replacement = "") ≤
      (Text.dropBytes place source).count '@' := by
  induction chain generalizing place with
  | nil => exact Nat.le_refl _
  | cons edit rest ih =>
    rw [List.forall_mem_cons] at hkinds
    obtain ⟨⟨before, text, after, hedit⟩, hkinds⟩ := hkinds
    have hreplaces : edit.Replaces source before text after := by
      rcases hedit with htypes | hdeletes
      · exact htypes.toReplaces
      · exact hdeletes.toReplaces
    obtain ⟨kept, -, hdrop, hbehind, hsplice⟩ :=
      hreplaces.splice_cons hplace (hle edit List.mem_cons_self) rest
    obtain ⟨hapart, hstop, hfollow⟩ := hapart.uncons
    have hrest := ih hapart hkinds hstop hfollow
    rw [hbehind] at hrest
    rw [hsplice, hdrop, List.countP_cons]
    simp only [List.count_append]
    rcases hedit with htypes | hdeletes
    · obtain ⟨hnone, hcount⟩ := htypes.count_le
      simp only [hnone, decide_false, Bool.false_eq_true, if_false]
      omega
    · obtain ⟨hnone, hcount⟩ := hdeletes.count_lt
      simp only [hnone, decide_true, if_true] at hcount ⊢
      omega

end Edit

/-- The two kinds of edit that diagnostics are fixed by. -/
theorem Diagnostic.FixedBy.kind {source : List Char} {tokens : Tokens} {diagnostic : Diagnostic}
    {edit : Edit} (htokens : tokenize source = .ok tokens)
    (h : diagnostic.FixedBy source tokens.body edit)
    (hstop : Text.isBoundary edit.span.stop source = true) :
    ∃ before text after, edit.Types source before text after ∨
      edit.Deletes source before text after := by
  cases h with
  | @deletion request hrequest =>
    obtain ⟨text, hcovers⟩ := hrequest.signed htokens hstop
    have hreplaces : ∃ before after, request.deletion.Replaces source before ('@' :: text) after :=
      Edit.replaces_of_covers hcovers
    obtain ⟨before, after, hreplaces⟩ := hreplaces
    exact ⟨before, _, after, .inr ⟨hreplaces, rfl, List.mem_cons_self⟩⟩
  | typing _ hbare =>
    obtain ⟨before, after, htypes⟩ := hbare.types htokens
    exact ⟨before, _, after, .inl htypes⟩

/-! ### Rounds -/

def Readable (layout : Layout) (source : String) : Prop :=
  ∃ expansion, expand layout source = .ok expansion

def Settled (layout : Layout) (source : String) : Prop :=
  ∃ expansion, expand layout source = .ok expansion ∧ expansion.diagnostics = []

/-- A round of fixing.  A source that cannot be read stays as it is. -/
def fixRound (layout : Layout) (source : String) : String :=
  match expand layout source with
  | .ok expansion => applyFixIts source expansion.diagnostics
  | .error _ => source

/-- What gets less in every round: first the number of `@`, then that of characters without
    a placeholder behind them. -/
def fixWeight (source : String) : Nat × Nat :=
  (source.toList.count '@', Text.looseCount source.toList)

variable {layout : Layout} {source : String}

theorem fixRound_of_expand {expansion : Expansion}
    (h : expand layout source = .ok expansion) :
    fixRound layout source = applyFixIts source expansion.diagnostics := by
  rw [fixRound, h]

/-- The edits of a round, put in a row. -/
theorem exists_edits {expansion : Expansion} (h : expand layout source = .ok expansion) :
    ∃ tokens outline chain, tokenize source.toList = .ok tokens ∧
      Outline.ofSource source.toList = .ok outline ∧
      expansion.diagnostics = outline.diagnostics ∧ Edit.Apart source.toList chain ∧
      (∀ edit, edit ∈ chain ↔ edit ∈ fixItEdits outline.diagnostics) ∧
      (∀ diagnostic ∈ outline.diagnostics, ∃ edit,
        diagnostic.fixIt?.map (·.edit) = some edit ∧
        diagnostic.FixedBy source.toList tokens.body edit) ∧
      (fixRound layout source).toList = Edit.splice source.toList 0 chain := by
  obtain ⟨outline, houtline, -, hdiagnostics⟩ := expand_eq_ok h
  obtain ⟨tokens, chain, htokens, hapart, hmem, hfixed⟩ := Outline.exists_fixes houtline
  refine ⟨tokens, outline, chain, htokens, houtline, hdiagnostics, hapart, hmem, hfixed, ?_⟩
  rw [fixRound_of_expand h, hdiagnostics]
  exact (applyFixIts_eq_splice hapart hmem (.refl _)).2

/-- What the edits of a round do, where there is one. -/
theorem exists_round {expansion : Expansion}
    (h : expand layout source = .ok expansion) (hreports : expansion.diagnostics ≠ []) :
    ∃ chain, chain ≠ [] ∧ Edit.Apart source.toList chain ∧
      (∀ edit ∈ chain, ∃ before text after, edit.Types source.toList before text after ∨
        edit.Deletes source.toList before text after) ∧
      (fixRound layout source).toList = Edit.splice source.toList 0 chain := by
  obtain ⟨tokens, outline, chain, htokens, -, hdiagnostics, hapart, hmem, hfixed, hround⟩ :=
    exists_edits h
  rw [hdiagnostics] at hreports
  refine ⟨chain, ?_, hapart, ?_, hround⟩
  · rintro rfl
    obtain ⟨diagnostic, hfirst⟩ := List.exists_mem_of_ne_nil _ hreports
    obtain ⟨edit, hoffer, -⟩ := hfixed diagnostic hfirst
    exact List.not_mem_nil ((hmem edit).2 (List.mem_filterMap.2 ⟨diagnostic, hfirst, hoffer⟩))
  · intro edit hedit
    have hstop := (Edit.fits_iff.1 (hapart.fits edit hedit)).2.2.2
    obtain ⟨diagnostic, hdiagnostic, hoffer⟩ := List.mem_filterMap.1 ((hmem edit).1 hedit)
    obtain ⟨fix, hfix, hfixedBy⟩ := hfixed diagnostic hdiagnostic
    rw [hfix] at hoffer
    cases hoffer
    exact hfixedBy.kind htokens hstop

/-- **A round makes less of a source that has reports.** -/
theorem fixWeight_fixRound (h : Readable layout source) (hreports : ¬ Settled layout source) :
    Prod.Lex (· < ·) (· < ·) (fixWeight (fixRound layout source)) (fixWeight source) := by
  obtain ⟨expansion, hexpand⟩ := h
  have hsome : expansion.diagnostics ≠ [] := fun hnone => hreports ⟨expansion, hexpand, hnone⟩
  obtain ⟨chain, hne, hapart, hkinds, hround⟩ := exists_round hexpand hsome
  have hzero : Text.isBoundary 0 source.toList = true := by rw [Text.isBoundary]
  have hall : Text.dropBytes 0 source.toList = source.toList :=
    Text.dropBytes_width_append [] source.toList
  have hcount := Edit.count_splice hapart hkinds hzero fun _ _ => Nat.zero_le _
  rw [hall, ← hround] at hcount
  rw [Prod.lex_def, fixWeight, fixWeight]
  by_cases hdeletes : ∃ edit ∈ chain, edit.replacement = ""
  · have hpos : 0 < chain.countP (·.replacement = "") := by
      simpa [List.countP_pos_iff] using hdeletes
    exact .inl (by omega)
  · -- all edits are placeholders
    have htypes : ∀ edit ∈ chain, ∃ before text after,
        edit.Types source.toList before text after := by
      intro edit hedit
      obtain ⟨before, text, after, htypes | hdelete⟩ := hkinds edit hedit
      · exact ⟨before, text, after, htypes⟩
      · exact absurd ⟨edit, hedit, hdelete.replacement_eq⟩ hdeletes
    have hloose := Edit.looseCount_splice hapart htypes hzero fun _ _ => Nat.zero_le _
    rw [hall, ← hround] at hloose
    have hlength := List.length_pos_iff.2 hne
    rcases Nat.lt_or_ge ((fixRound layout source).toList.count '@') (source.toList.count '@') with
      hless | hmore
    · exact .inl hless
    · exact .inr ⟨by simp only; omega, by simp only; omega⟩

/-- As long as sources can be read, the rounds go on to one without reports. -/
theorem exists_settled (source : String)
    (h : ∀ rounds, Readable layout ((fixRound layout)^[rounds] source)) :
    ∃ rounds, Settled layout ((fixRound layout)^[rounds] source) := by
  by_cases hsettled : Settled layout source
  · exact ⟨0, hsettled⟩
  · have hless := fixWeight_fixRound (h 0) hsettled
    obtain ⟨rounds, hrounds⟩ := exists_settled (fixRound layout source) fun rounds => h (rounds + 1)
    exact ⟨rounds + 1, hrounds⟩
termination_by fixWeight source
decreasing_by exact hless

theorem fixRound_of_not_readable (h : ¬ Readable layout source) :
    fixRound layout source = source := by
  unfold fixRound
  split
  · next expansion hexpand => exact absurd ⟨expansion, hexpand⟩ h
  · rfl

theorem fixRound_of_settled (h : Settled layout source) : fixRound layout source = source := by
  obtain ⟨expansion, hexpand, hnone⟩ := h
  rw [fixRound_of_expand hexpand, hnone]
  exact String.ofList_toList

/-- **Fixing reaches a source without reports if and only if no round leaves one that cannot
    be read.** -/
theorem exists_settled_iff :
    (∃ rounds, Settled layout ((fixRound layout)^[rounds] source)) ↔
      ∀ rounds, Readable layout ((fixRound layout)^[rounds] source) := by
  refine ⟨?_, exists_settled source⟩
  rintro ⟨last, hsettled⟩ rounds
  have hreadable : Readable layout ((fixRound layout)^[last] source) := by
    obtain ⟨expansion, hexpand, -⟩ := hsettled
    exact ⟨expansion, hexpand⟩
  rcases Nat.le_total last rounds with hle | hle
  · -- from the last round on nothing changes
    obtain ⟨more, rfl⟩ := Nat.exists_eq_add_of_le' hle
    rw [Function.iterate_add_apply, Function.iterate_fixed (fixRound_of_settled hsettled)]
    exact hreadable
  · -- a source that cannot be read would have stayed to the end
    obtain ⟨more, rfl⟩ := Nat.exists_eq_add_of_le' hle
    by_contra hbroken
    rw [Function.iterate_add_apply,
      Function.iterate_fixed (fixRound_of_not_readable hbroken)] at hreadable
    exact hbroken hreadable

/-- A source in which members have room for types can be read. -/
theorem Roomy.readable (h : Roomy source.toList) : Readable layout source := by
  obtain ⟨_, _, -, houtline, -⟩ := h
  rw [Readable, expand, houtline]
  exact ⟨_, rfl⟩

/-- After a round members still have room for types. -/
theorem Roomy.fixRound (h : Roomy source.toList) :
    Roomy (Memberwise.fixRound layout source).toList := by
  have hreadable : Readable layout source := h.readable
  obtain ⟨expansion, hexpand⟩ := hreadable
  obtain ⟨tokens, outline, chain, htokens, houtline, -, hapart, hmem, -, hround⟩ :=
    exists_edits hexpand
  rw [hround]
  exact .splice htokens houtline ((roomy_iff htokens houtline).1 h) hapart hmem

/-- Members have room for types in all rounds. -/
theorem Roomy.iterate_fixRound (h : Roomy source.toList) (rounds : Nat) :
    Roomy ((Memberwise.fixRound layout)^[rounds] source).toList := by
  induction rounds with
  | zero => exact h
  | succ rounds ih =>
    rw [Function.iterate_succ_apply']
    exact ih.fixRound

/-- **Fixing reaches a source without reports if and only if no round leaves one that cannot
    be read**, and it does so wherever initializers are requested only of declarations that
    take them, and members have room for types. -/
theorem fixing_settles (layout : Layout) (source : String) :
    ((∃ rounds, Settled layout ((fixRound layout)^[rounds] source)) ↔
      ∀ rounds, Readable layout ((fixRound layout)^[rounds] source)) ∧
    (Roomy source.toList → ∃ rounds, Settled layout ((fixRound layout)^[rounds] source)) :=
  ⟨exists_settled_iff, fun hroomy =>
    exists_settled source fun rounds => (hroomy.iterate_fixRound rounds).readable⟩

/-- An enumeration with a case that goes by the name of a keyword, on a line of its own, and
    behind it another enumeration that asks for an initializer. -/
def keywordBeforeRequest : String :=
  "enum K \x7b\n    case low,\n        actor\n    @PublicInit\n    enum Inner \x7b\x7d\n\x7d"

def keywordBeforeRequestExpanded : Expansion where
  source := "enum K \x7b\n    case low,\n        actor\n    enum Inner \x7b\x7d\n\x7d"
  diagnostics := [.notApplicable "PublicInit" ⟨41, 52, 4, 5⟩]

def keywordBeforeDeclaration : String :=
  "enum K \x7b\n    case low,\n        actor\n    \n    enum Inner \x7b\x7d\n\x7d"

/-- A structure that asks for an initializer, and whose members get their types one in every
    round: one with nothing behind its name, and one with a value that tells no type. -/
def untypedMembers : String :=
  "@PublicInit struct S \x7b\n  var x // none\n  var y = x + 1\n  enum E \x7b case z \x7d\n\x7d"

def typedMembers : String :=
  "@PublicInit struct S \x7b\n  var x: <#Type#> // none\n  var y: <#Type#> = x + 1\n" ++
    "  enum E \x7b case z \x7d\n\x7d"

/-- One round breaks the first source: without the request, the case is read as the keyword
    of a declaration, and so no source without reports is ever reached.  The members of the
    second source have room for types, and it is settled after two rounds. -/
theorem fixing_settles_or_breaks :
    (expand .standard keywordBeforeRequest = .ok keywordBeforeRequestExpanded ∧
      applyFixIts keywordBeforeRequest keywordBeforeRequestExpanded.diagnostics =
        keywordBeforeDeclaration ∧
      ¬ Readable .standard keywordBeforeDeclaration ∧
      ¬ ∃ rounds, Settled .standard ((fixRound .standard)^[rounds] keywordBeforeRequest)) ∧
    Roomy untypedMembers.toList ∧
    (fixRound .standard)^[2] untypedMembers = typedMembers ∧
    ∃ rounds, Settled .standard ((fixRound .standard)^[rounds] untypedMembers) := by
  have hexpand : expand .standard keywordBeforeRequest = .ok keywordBeforeRequestExpanded := by
    decide +kernel
  have hfixed : applyFixIts keywordBeforeRequest keywordBeforeRequestExpanded.diagnostics =
      keywordBeforeDeclaration := by decide +kernel
  have hbroken : (expand .standard keywordBeforeDeclaration).toOption.isNone = true := by
    decide +kernel
  have hnot : ¬ Readable .standard keywordBeforeDeclaration := by
    rintro ⟨expansion, hexpand⟩
    rw [hexpand] at hbroken
    cases hbroken
  have hroomy : Roomy untypedMembers.toList := by decide +kernel
  refine ⟨⟨hexpand, hfixed, hnot, ?_⟩, hroomy, by decide +kernel,
    (fixing_settles .standard untypedMembers).2 hroomy⟩
  intro hsettled
  have hreadable := (fixing_settles .standard keywordBeforeRequest).1.1 hsettled 1
  rw [Function.iterate_one, fixRound_of_expand hexpand, hfixed] at hreadable
  exact hnot hreadable

end Memberwise
