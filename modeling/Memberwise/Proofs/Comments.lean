/-
  Memberwise/Proofs/Comments.lean
  ===============================
  **Comments are inert.**

  What is written in a comment is lost on the reader, and so is that there is a comment:
  with every byte of every comment blanked, line feeds apart, a source has the same
  tokens, at the same offsets, lines and columns and with the same newline flags.

  Blanking keeps all that is counted: bytes, line feeds, and the bytes behind the last
  line feed.  What it changes is the text that a token is read in front of.  There, a
  space takes the place of a slash, and no token goes on over a space (`NoFurther`).
-/
import Memberwise.Proofs.Removal
import Memberwise.Proofs.Tiling

namespace Memberwise

/-! ### Blanked texts -/

namespace Text

/-- A character with its bytes blanked, unless it is a line feed. -/
def blankChar (c : Char) : List Char :=
  if c = '\n' then ['\n'] else List.replicate c.utf8Size ' '

def blanked (text : List Char) : List Char := text.flatMap blankChar

@[simp] theorem blanked_nil : blanked [] = [] := rfl

@[simp] theorem blanked_append (a b : List Char) : blanked (a ++ b) = blanked a ++ blanked b :=
  List.flatMap_append

theorem blanked_cons (c : Char) (rest : List Char) :
    blanked (c :: rest) = blankChar c ++ blanked rest := rfl

theorem blankChar_of_ne {c : Char} (hc : c ≠ '\n') : blankChar c = List.replicate c.utf8Size ' ' :=
  if_neg hc

theorem blanked_replicate (n : Nat) :
    blanked (List.replicate n ' ') = List.replicate n ' ' := by
  induction n with
  | zero => rfl
  | succ n ih =>
    rw [List.replicate_succ, blanked_cons, ih]
    rfl

theorem width_replicate (n : Nat) : width (List.replicate n ' ') = n := by
  induction n with
  | zero => rfl
  | succ n ih =>
    rw [List.replicate_succ, width_cons, ih, Nat.add_comm]
    rfl

theorem newline_notMem_replicate (n : Nat) : '\n' ∉ List.replicate n ' ' :=
  fun h => absurd (List.eq_of_mem_replicate h) (by decide)

theorem isSeparator_of_mem_blanked {text : List Char} :
    ∀ c ∈ blanked text, Token.isSeparator c = true := by
  intro c hc
  obtain ⟨d, -, hc⟩ := List.mem_flatMap.1 hc
  unfold blankChar at hc
  split at hc
  · rw [List.mem_singleton.1 hc]
    decide
  · rw [List.eq_of_mem_replicate hc]
    decide

@[simp] theorem blanked_blanked (text : List Char) : blanked (blanked text) = blanked text := by
  induction text with
  | nil => rfl
  | cons c rest ih =>
    rw [blanked_cons, blanked_append, ih]
    congr 1
    by_cases hc : c = '\n'
    · subst hc
      rfl
    · rw [blankChar_of_ne hc, blanked_replicate]

@[simp] theorem width_blanked (text : List Char) : width (blanked text) = width text := by
  induction text with
  | nil => rfl
  | cons c rest ih =>
    rw [blanked_cons, width_append, ih, width_cons]
    congr 1
    by_cases hc : c = '\n'
    · subst hc
      rfl
    · rw [blankChar_of_ne hc, width_replicate]

@[simp] theorem count_newline_blanked (text : List Char) :
    (blanked text).count '\n' = text.count '\n' := by
  induction text with
  | nil => rfl
  | cons c rest ih =>
    rw [blanked_cons, List.count_append, ih, List.count_cons, Nat.add_comm]
    congr 1
    by_cases hc : c = '\n'
    · subst hc
      rfl
    · rw [blankChar_of_ne hc, List.count_eq_zero_of_not_mem (newline_notMem_replicate _),
        if_neg (by simpa using hc)]

@[simp] theorem width_lastLine_blanked (text : List Char) :
    width (lastLine (blanked text)) = width (lastLine text) := by
  induction text using List.reverseRecOn with
  | nil => rfl
  | append_singleton text c ih =>
    rw [blanked_append, blanked_cons, blanked_nil, List.append_nil]
    by_cases hc : c = '\n'
    · subst hc
      rw [lastLine_append_newline]
      exact congrArg width (lastLine_append_newline _)
    · rw [blankChar_of_ne hc, lastLine_append (newline_notMem_replicate _),
        lastLine_append_of_ne text hc, width_append, width_append, ih, width_replicate]
      rfl

/-- Texts that are blanked alike have the same line feeds in them. -/
theorem contains_newline_of_blanked {a b : List Char} (h : blanked a = blanked b) :
    a.contains '\n' = b.contains '\n' := by
  have hcount : a.count '\n' = b.count '\n' := by
    rw [← count_newline_blanked a, h, count_newline_blanked]
  rw [Bool.eq_iff_iff, List.contains_iff_mem, List.contains_iff_mem, ← List.count_pos_iff,
    ← List.count_pos_iff, hcount]

end Text

/-- Behind texts that are blanked alike, a text has the same span. -/
theorem Span.across_of_blanked {before before' : List Char} (text : List Char)
    (h : Text.blanked before = Text.blanked before') :
    Span.across before text = Span.across before' text := by
  have hwidth : Text.width before = Text.width before' := by
    rw [← Text.width_blanked before, h, Text.width_blanked]
  have hcount : before.count '\n' = before'.count '\n' := by
    rw [← Text.count_newline_blanked before, h, Text.count_newline_blanked]
  have hlast : Text.width (Text.lastLine before) = Text.width (Text.lastLine before') := by
    rw [← Text.width_lastLine_blanked before, h, Text.width_lastLine_blanked]
  simp only [Span.across, Position.behind, hwidth, hcount, hlast]

/-! ### Blanked comments -/

namespace Token

/-- The comments of a gap in front of `after` are blanked: what stands between them is kept,
    and of each comment the line feeds are kept. -/
inductive GapBlanked (after : List Char) : List Char → List Char → Prop where
  | nil : GapBlanked after [] []
  | blank {c : Char} {rest rest' : List Char} (hc : c = ' ' ∨ c = '\t' ∨ c = '\r' ∨ c = '\n')
      (hrest : GapBlanked after rest rest') : GapBlanked after (c :: rest) (c :: rest')
  | line {body rest rest' : List Char} (hbody : '\n' ∉ body)
      (hstop : ∀ c ∈ (rest ++ after).head?, c = '\n') (hrest : GapBlanked after rest rest') :
      GapBlanked after (['/', '/'] ++ body ++ rest) (Text.blanked (['/', '/'] ++ body) ++ rest')
  | block {body rest rest' : List Char} (hbody : CommentBody body)
      (hrest : GapBlanked after rest rest') :
      GapBlanked after (['/', '*'] ++ body ++ ['*', '/'] ++ rest)
        (Text.blanked (['/', '*'] ++ body ++ ['*', '/']) ++ rest')

/-- The comments of every gap can be blanked. -/
theorem Gap.exists_blanked {after gap : List Char} (h : Gap after gap) :
    ∃ gap', GapBlanked after gap gap' := by
  induction h with
  | nil => exact ⟨[], .nil⟩
  | blank hc _ ih =>
    obtain ⟨rest', hrest'⟩ := ih
    exact ⟨_, .blank hc hrest'⟩
  | line hbody hstop _ ih =>
    obtain ⟨rest', hrest'⟩ := ih
    exact ⟨_, .line hbody hstop hrest'⟩
  | block hbody _ ih =>
    obtain ⟨rest', hrest'⟩ := ih
    exact ⟨_, .block hbody hrest'⟩

namespace GapBlanked

variable {after gap gap' : List Char}

theorem blanked_eq (h : GapBlanked after gap gap') : Text.blanked gap' = Text.blanked gap := by
  induction h with
  | nil => rfl
  | blank _ _ ih => rw [Text.blanked_cons, Text.blanked_cons, ih]
  | line _ _ _ ih => simp only [Text.blanked_append, Text.blanked_blanked, ih]
  | block _ _ ih => simp only [Text.blanked_append, Text.blanked_blanked, ih]

theorem isSeparator (h : GapBlanked after gap gap') :
    ∀ c ∈ gap', Token.isSeparator c = true := by
  induction h with
  | nil => simp
  | blank hc _ ih =>
    refine List.forall_mem_cons.2 ⟨?_, ih⟩
    simpa [Token.isSeparator, or_assoc] using hc
  | line _ _ _ ih => exact List.forall_mem_append.2 ⟨Text.isSeparator_of_mem_blanked, ih⟩
  | block _ _ ih => exact List.forall_mem_append.2 ⟨Text.isSeparator_of_mem_blanked, ih⟩

theorem isGap (h : GapBlanked after gap gap') : IsGap gap' := isGap_of_separators h.isSeparator

/-- What a gap starts with: nothing, a blank that is kept, or a comment, with a space in
    the place of its slash. -/
theorem start (h : GapBlanked after gap gap') :
    (gap = [] ∧ gap' = []) ∨ ∃ c rest c' rest', gap = c :: rest ∧ gap' = c' :: rest' ∧
      Token.isSeparator c' = true ∧ (c' = c ∨ c = '/' ∧ c' = ' ') := by
  cases h with
  | nil => exact .inl ⟨rfl, rfl⟩
  | blank hc _ =>
    refine .inr ⟨_, _, _, _, rfl, rfl, ?_, .inl rfl⟩
    simpa [Token.isSeparator, or_assoc] using hc
  | line _ _ _ => exact .inr ⟨_, _, _, _, rfl, rfl, by decide, .inr ⟨rfl, rfl⟩⟩
  | block _ _ => exact .inr ⟨_, _, _, _, rfl, rfl, by decide, .inr ⟨rfl, rfl⟩⟩

end GapBlanked

end Token

/-- What the source holds from `low` on, with the comments in front of, between and behind the
    tokens blanked. -/
inductive CommentsBlanked (source : List Char) : Nat → List Placed → List Char → Prop where
  | nil {low : Nat} : CommentsBlanked source low [] []
  | token {low : Nat} {placed : Placed} {rest : List Placed} {gap out : List Char}
      (hgap : Token.GapBlanked (Text.dropBytes placed.span.start source)
        (Text.slice source low placed.span.start) gap)
      (hrest : CommentsBlanked source placed.span.stop rest out) :
      CommentsBlanked source low (placed :: rest) (gap ++ placed.token.spelling ++ out)

theorem GapsBetween.exists_commentsBlanked {source : List Char} {low : Nat} {tokens : List Placed}
    (h : GapsBetween source low tokens) : ∃ out, CommentsBlanked source low tokens out := by
  induction tokens generalizing low with
  | nil => exact ⟨[], .nil⟩
  | cons placed rest ih =>
    obtain ⟨gap, hgap⟩ := h.1.exists_blanked
    obtain ⟨out, hout⟩ := ih h.2
    exact ⟨_, .token hgap hout⟩

/-! ### Reading on -/

namespace Scanned

variable {source before after out : List Char} {flag : Bool} {tokens : List Placed}
  {finish : Placed}

/-- The end of a source, with the comments in front of it blanked. -/
theorem blanked_nil (h : Scanned source flag before [] finish) (hsource : source = before ++ after)
    (hout : CommentsBlanked source (Text.width before) [finish] out) :
    Token.GapBlanked [] after out := by
  cases h with
  | @finish _ _ gap _ hwhole hgap hplaced =>
    cases List.append_cancel_left (hsource.symm.trans hwhole)
    have hstart : finish.span.start = Text.width (before ++ after) := by
      rw [hplaced, hsource]
      rfl
    have hparts : source = before ++ after ++ [] := by simpa using hsource
    obtain ⟨hslice, hdrop⟩ := cut_gap hparts hstart
    cases hout with
    | token hgap' hrest =>
      cases hrest
      rw [hslice, hdrop] at hgap'
      rw [hplaced]
      simpa [Token.spelling] using hgap'

/-- The next token of a source, with the comments in front of it blanked. -/
theorem blanked_cons {placed : Placed} {gap text rest : List Char}
    (hsource : source = before ++ gap ++ text ++ rest)
    (hspan : placed.span = Span.across (before ++ gap) text)
    (hspelling : placed.token.spelling = text)
    (hout : CommentsBlanked source (Text.width before) (placed :: tokens) out) :
    ∃ gap' rest', out = gap' ++ text ++ rest' ∧ Token.GapBlanked (text ++ rest) gap gap' ∧
      CommentsBlanked source (Text.width (before ++ gap ++ text)) tokens rest' := by
  have hstart : placed.span.start = Text.width (before ++ gap) := by rw [hspan]; rfl
  have hstop : placed.span.stop = Text.width (before ++ gap ++ text) := by
    rw [hspan, Text.width_append _ text]
    rfl
  have hparts : source = before ++ gap ++ (text ++ rest) := by simpa using hsource
  obtain ⟨hslice, hdrop⟩ := cut_gap hparts hstart
  cases hout with
  | @token _ _ _ gap' rest' hgap hrest =>
    rw [hslice, hdrop] at hgap
    rw [hstop] at hrest
    exact ⟨gap', rest', by rw [hspelling], hgap, hrest⟩

/-- The first character behind a place is kept, unless it starts a comment. -/
theorem blanked_head? (h : Scanned source flag before tokens finish)
    (hsource : source = before ++ after)
    (hout : CommentsBlanked source (Text.width before) (tokens ++ [finish]) out) :
    out.head? = after.head? ∨ (after.head? = some '/' ∧ out.head? = some ' ') := by
  cases h with
  | finish hwhole hgap hplaced =>
    have hblanked := (Scanned.finish hwhole hgap hplaced).blanked_nil hsource hout
    rcases hblanked.start with ⟨rfl, rfl⟩ | ⟨c, rest, c', rest', rfl, rfl, -, rfl | ⟨rfl, rfl⟩⟩
    · exact .inl rfl
    · exact .inl rfl
    · exact .inr ⟨rfl, rfl⟩
  | @token _ _ gap text rest placed _ _ hwhole _ _ hreads hspan _ _ =>
    obtain ⟨gap', rest', rfl, hblanked, -⟩ :=
      blanked_cons hwhole hspan hreads.spelling_eq hout
    rw [List.append_assoc, List.append_assoc] at hwhole
    cases List.append_cancel_left (hsource.symm.trans hwhole)
    obtain ⟨d, text, rfl⟩ := List.exists_cons_of_ne_nil hreads.ne_nil
    rcases hblanked.start with ⟨rfl, rfl⟩ | ⟨c, _, c', _, rfl, rfl, -, rfl | ⟨rfl, rfl⟩⟩
    · exact .inl rfl
    · exact .inl rfl
    · exact .inr ⟨rfl, rfl⟩

/-- Where a gap starts, no token goes on, with or without comments in it. -/
theorem noFurther_of_separator {c : Char} {rest after : List Char}
    (hc : Token.isSeparator c = true) (hhead : after.head? = some c ∨ c = ' ') :
    Token.NoFurther after (c :: rest) := by
  constructor
  case head =>
    rintro d ⟨⟩
    apply hhead.imp_right
    rintro rfl
    decide
  case slash =>
    rintro ⟨⟩
    exact absurd hc (by decide)
  case point =>
    rintro ⟨⟩
    exact absurd hc (by decide)

/-- A token that ends at a place also ends there when the comments behind it are blanked. -/
theorem noFurther (h : Scanned source flag before tokens finish)
    (hsource : source = before ++ after)
    (hout : CommentsBlanked source (Text.width before) (tokens ++ [finish]) out) :
    Token.NoFurther after out := by
  have hstarts : ∀ {c c' : Char} {rest rest' : List Char}, Token.isSeparator c' = true →
      (c' = c ∨ c = '/' ∧ c' = ' ') → Token.NoFurther (c :: rest) (c' :: rest') := by
    intro c c' rest rest' hc hhead
    refine noFurther_of_separator hc (hhead.imp ?_ (·.2))
    rintro rfl
    rfl
  cases h with
  | finish hwhole hgap hplaced =>
    have hblanked := (Scanned.finish hwhole hgap hplaced).blanked_nil hsource hout
    rcases hblanked.start with ⟨rfl, rfl⟩ | ⟨c, rest, c', rest', rfl, rfl, hc, hhead⟩
    · exact (Token.SameStart.refl []).noFurther
    · exact hstarts hc hhead
  | @token _ _ gap text rest placed _ _ hwhole _ hstop hreads hspan _ hrest =>
    obtain ⟨gap', rest', rfl, hblanked, hrest'⟩ :=
      blanked_cons hwhole hspan hreads.spelling_eq hout
    have hparts := hwhole
    rw [List.append_assoc, List.append_assoc] at hparts
    cases List.append_cancel_left (hsource.symm.trans hparts)
    rcases hblanked.start with ⟨rfl, rfl⟩ | ⟨c, _, c', _, rfl, rfl, hc, hhead⟩
    · -- no gap: the next token is read in front of the text behind it
      have hnext := hrest.blanked_head? hwhole hrest'
      match text with
      | [] => exact absurd rfl hreads.ne_nil
      | [c] =>
        constructor
        case head => exact fun d hd => .inl hd
        case slash =>
          rintro ⟨⟩ d hd
          -- a slash in front of a comment would be a comment itself
          have hslash := (Token.noGap_cons_iff.1 hstop).2 rfl
          exact (hnext.resolve_right fun hcomment => hslash.1 hcomment.1).trans hd
        case point =>
          rintro ⟨⟩ d hd
          change d ∈ rest'.head? at hd
          rcases hnext with hsame | ⟨-, hspace⟩
          · exact .inl (hsame ▸ hd)
          · rw [hspace] at hd
            cases hd
            exact .inr (by decide)
      | c :: d :: text => exact Token.SameStart.noFurther ⟨rfl, fun _ => rfl⟩
    · exact hstarts hc hhead

/-- **With the comments blanked, the same tokens stand at the same places.** -/
theorem blanked {source' before' : List Char} (h : Scanned source flag before tokens finish)
    (hout : CommentsBlanked source (Text.width before) (tokens ++ [finish]) out)
    (hsource' : source' = before' ++ out)
    (hbefore : Text.blanked before = Text.blanked before') :
    Scanned source' flag before' tokens finish := by
  induction h generalizing before' out with
  | @finish flag before gap placed hsource hgap hplaced =>
    have hblanked := (Scanned.finish hsource hgap hplaced).blanked_nil hsource hout
    have hsame : Text.blanked source = Text.blanked source' := by
      rw [hsource, hsource', Text.blanked_append, Text.blanked_append, hbefore,
        hblanked.blanked_eq]
    refine .finish hsource' ?_ ?_
    · have hread := hblanked.isGap 0 []
      rw [List.append_nil, Nat.zero_add] at hread
      exact hread
    · rw [hplaced, Span.across_of_blanked [] hsame,
        Text.contains_newline_of_blanked hblanked.blanked_eq]
  | @token flag before gap text after placed finish rest hsource hgap hstop hreads hspan hflag hrest
      ih =>
    obtain ⟨gap', rest', rfl, hblanked, hrest'⟩ :=
      blanked_cons hsource hspan hreads.spelling_eq hout
    have hgaps : Text.blanked (before ++ gap) = Text.blanked (before' ++ gap') := by
      rw [Text.blanked_append, Text.blanked_append, hbefore, hblanked.blanked_eq]
    have hbehind :
        Text.blanked (before ++ gap ++ text) = Text.blanked (before' ++ gap' ++ text) := by
      rw [Text.blanked_append, Text.blanked_append _ text, hgaps]
    have hparts : source' = before' ++ gap' ++ text ++ rest' := by simpa using hsource'
    have hfurther := hrest.noFurther hsource hrest'
    refine .token hparts hblanked.isGap (hstop.of_noFurther hreads.ne_nil hfurther)
      (hreads.of_noFurther hfurther) ?_ ?_ (ih hrest' hparts hbehind)
    · rw [hspan, Span.across_of_blanked text hgaps]
    · rw [hflag, Text.contains_newline_of_blanked hblanked.blanked_eq]

end Scanned

/-- **Comments are inert.**  The comments of a source that is cut into tokens can be blanked,
    and then it is cut into the same tokens, at the same places. -/
theorem tokenize_commentsBlanked {source : List Char} {tokens : Tokens}
    (h : tokenize source = .ok tokens) :
    (∃ source', CommentsBlanked source 0 tokens.toList source') ∧
      ∀ source', CommentsBlanked source 0 tokens.toList source' →
        tokenize source' = .ok tokens := by
  have hscanned := tokenize_scanned h
  refine ⟨hscanned.gaps_and_pieces.1.exists_commentsBlanked, ?_⟩
  intro source' hblanked
  exact tokenize_iff_scanned.2 (hscanned.blanked hblanked rfl rfl)

def pointThenComment : String := "1./*é*/5"

def pointTokens : Tokens where
  body := [⟨.integer "1", ⟨0, 1, 1, 1⟩, true⟩, ⟨.dot, ⟨1, 2, 1, 2⟩, false⟩,
    ⟨.integer "5", ⟨8, 9, 1, 9⟩, false⟩]
  finish := ⟨.endOfInput, ⟨9, 9, 1, 10⟩, false⟩

theorem tokenize_commentsBlanked_point :
    tokenize pointThenComment.toList = .ok pointTokens ∧
      CommentsBlanked pointThenComment.toList 0 pointTokens.toList "1.      5".toList ∧
      tokenize "1.      5".toList = .ok pointTokens := by
  have hread : tokenize pointThenComment.toList = .ok pointTokens := by
    have hread : (tokenize pointThenComment.toList).toOption = some pointTokens := by
      decide +kernel
    cases h : tokenize pointThenComment.toList with
    | error cause =>
      rw [h] at hread
      cases hread
    | ok tokens =>
      rw [h] at hread
      rw [Option.some.inj hread]
  have hcomment : Token.GapBlanked ['5'] "/*é*/".toList "      ".toList :=
    .block (.char (by decide) (by decide) .nil) .nil
  have hblanked : CommentsBlanked pointThenComment.toList 0 pointTokens.toList
      ([] ++ ['1'] ++ ([] ++ ['.'] ++ ("      ".toList ++ ['5'] ++ ([] ++ [] ++ [])))) :=
    .token .nil (.token .nil (.token hcomment (.token .nil .nil)))
  exact ⟨hread, hblanked, (tokenize_commentsBlanked hread).2 _ hblanked⟩

end Memberwise
