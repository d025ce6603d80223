/-
  Memberwise/Proofs/Tiling.lean
  =============================
  **Gaps and tokens make up the source.**

  Elsewhere a gap is told by what it does to the reader of gaps.  Here it is told
  by a grammar: blanks, line comments and block comments one behind another
  (`Token.Gap`), where the delimiters inside a block comment are nested
  (`Token.CommentBody`).  Every gap that the reader passes is one of the grammar.

  So the tokens of a source tile it (`Tokens.Tile`): they stand in it one behind
  another, each spelled as the source is in its span, with gaps of the grammar in
  front of them, between them and behind them, and nothing is lost.
-/
import Memberwise.Proofs.Taking

namespace Memberwise

/-! ### The grammar of gaps -/

namespace Token

/-- What stands between the delimiters of a block comment: characters at which no
    delimiter starts, and whole comments.  What follows is the closing delimiter. -/
inductive CommentBody : List Char → Prop where
  | nil : CommentBody []
  | char {c : Char} {rest : List Char} (hopen : ¬ ['/', '*'] <+: c :: rest ++ ['*', '/'])
      (hclose : ¬ ['*', '/'] <+: c :: rest ++ ['*', '/']) (hrest : CommentBody rest) :
      CommentBody (c :: rest)
  | comment {body rest : List Char} (hbody : CommentBody body) (hrest : CommentBody rest) :
      CommentBody (['/', '*'] ++ body ++ ['*', '/'] ++ rest)

/-- A gap in front of `after`: blanks, comments that run up to a line feed or to the end,
    and comments between delimiters. -/
inductive Gap (after : List Char) : List Char → Prop where
  | nil : Gap after []
  | blank {c : Char} {rest : List Char} (hc : c = ' ' ∨ c = '\t' ∨ c = '\r' ∨ c = '\n')
      (hrest : Gap after rest) : Gap after (c :: rest)
  | line {body rest : List Char} (hbody : '\n' ∉ body)
      (hstop : ∀ c ∈ (rest ++ after).head?, c = '\n') (hrest : Gap after rest) :
      Gap after (['/', '/'] ++ body ++ rest)
  | block {body rest : List Char} (hbody : CommentBody body) (hrest : Gap after rest) :
      Gap after (['/', '*'] ++ body ++ ['*', '/'] ++ rest)

/-! ### Gaps that are read -/

/-- The rest of a gap, from inside a block comment with `depth` comments around it: what is
    left of each of these comments, innermost first, and then a gap. -/
def Unwinds (after : List Char) : Nat → List Char → Prop
  | 0, text => ∃ body rest, CommentBody body ∧ text = body ++ ['*', '/'] ++ rest ∧ Gap after rest
  | depth + 1, text =>
    ∃ body rest, CommentBody body ∧ text = body ++ ['*', '/'] ++ rest ∧ Unwinds after depth rest

/-- The rest of a gap, from where its reader stands. -/
def GapMode.Resumes (after : List Char) : GapMode → List Char → Prop
  | .between, text => Gap after text
  | .lineComment, text =>
    ∃ body rest, '\n' ∉ body ∧ text = body ++ rest ∧ (∀ c ∈ (rest ++ after).head?, c = '\n') ∧
      Gap after rest
  | .blockComment _ depth, text => Unwinds after depth text

/-- In every depth, the text inside a comment goes on with the body of the innermost one. -/
theorem unwinds_iff {after text : List Char} {depth : Nat} (opened : Nat) :
    Unwinds after depth text ↔ ∃ body rest, CommentBody body ∧
      text = body ++ ['*', '/'] ++ rest ∧ (GapMode.afterBlock opened depth).Resumes after rest := by
  cases depth <;> exact Iff.rfl

theorem Unwinds.open {after text : List Char} {depth : Nat} (h : Unwinds after (depth + 1) text) :
    Unwinds after depth (['/', '*'] ++ text) := by
  obtain ⟨inner, rest, hinner, rfl, hrest⟩ := h
  obtain ⟨body, rest, hbody, rfl, hresumes⟩ := (unwinds_iff 0).1 hrest
  exact (unwinds_iff 0).2
    ⟨_, rest, .comment hinner hbody, by simp, hresumes⟩

theorem Unwinds.close {after text : List Char} {opened depth : Nat}
    (h : (GapMode.afterBlock opened depth).Resumes after text) :
    Unwinds after depth (['*', '/'] ++ text) :=
  (unwinds_iff opened).2 ⟨[], text, .nil, rfl, h⟩

/-- A character belongs to the body of a comment if no delimiter starts at it. -/
theorem Unwinds.char {after text : List Char} {depth : Nat} {c : Char}
    (h : Unwinds after depth text) (hopen : ¬ ['/', '*'] <+: c :: text)
    (hclose : ¬ ['*', '/'] <+: c :: text) : Unwinds after depth (c :: text) := by
  obtain ⟨body, rest, hbody, rfl, hresumes⟩ := (unwinds_iff 0).1 h
  have hlonger : c :: body ++ ['*', '/'] <+: c :: (body ++ ['*', '/'] ++ rest) := by
    rw [← List.cons_append, ← List.cons_append]
    exact List.prefix_append _ rest
  refine (unwinds_iff 0).2 ⟨c :: body, rest, .char ?_ ?_ hbody, rfl, hresumes⟩
  · exact fun hstarts => hopen (hstarts.trans hlonger)
  · exact fun hstarts => hclose (hstarts.trans hlonger)

/-- What the reader of gaps passes in front of some text is the rest of a gap. -/
theorem resumes_of_gapFrom {mode : GapMode} {read n : Nat} {text : List Char}
    (h : gapFrom mode read text = .ok n) :
    ∃ gap after, text = gap ++ after ∧ n = read + gap.length ∧ mode.Resumes after gap := by
  fun_induction gapFrom mode read text with
  | case1 read rest ih =>
    obtain ⟨gap, after, rfl, rfl, body, more, hbody, rfl, hstop, hgap⟩ := ih h
    exact ⟨['/', '/'] ++ body ++ more, after, by simp, by simp; omega, .line hbody hstop hgap⟩
  | case2 read rest ih =>
    obtain ⟨gap, after, rfl, rfl, body, more, hbody, rfl, hgap⟩ := ih h
    exact ⟨['/', '*'] ++ body ++ ['*', '/'] ++ more, after, by simp, by simp; omega,
      .block hbody hgap⟩
  | case3 read c rest _ _ hsep ih =>
    obtain ⟨gap, after, rfl, rfl, hgap⟩ := ih h
    refine ⟨c :: gap, after, rfl, by simp; omega, .blank ?_ hgap⟩
    simpa [isSeparator, or_assoc] using hsep
  | case4 read c rest _ _ hsep =>
    cases h
    exact ⟨[], c :: rest, rfl, rfl, .nil⟩
  | case5 read =>
    cases h
    exact ⟨[], [], rfl, rfl, .nil⟩
  | case6 read c rest ih =>
    obtain ⟨gap, after, rfl, rfl, hresumes⟩ := ih h
    refine ⟨c :: gap, after, rfl, by simp; omega, ?_⟩
    by_cases hc : c = '\n'
    · -- the comment ends in front of the line feed
      rw [if_pos hc] at hresumes
      subst hc
      exact ⟨[], '\n' :: gap, by simp, rfl, by simp, .blank (by simp) hresumes⟩
    · rw [if_neg hc] at hresumes
      obtain ⟨body, more, hbody, rfl, hstop, hgap⟩ := hresumes
      exact ⟨c :: body, more, by simp [hbody, Ne.symm hc], rfl, hstop, hgap⟩
  | case7 read =>
    cases h
    exact ⟨[], [], rfl, rfl, [], [], by simp, rfl, by simp, .nil⟩
  | case8 opened depth read rest ih =>
    obtain ⟨gap, after, rfl, rfl, hresumes⟩ := ih h
    exact ⟨['/', '*'] ++ gap, after, rfl, by simp; omega, Unwinds.open hresumes⟩
  | case9 opened depth read rest ih =>
    obtain ⟨gap, after, rfl, rfl, hresumes⟩ := ih h
    exact ⟨['*', '/'] ++ gap, after, rfl, by simp; omega, Unwinds.close hresumes⟩
  | case10 opened depth read c rest hopen hclose ih =>
    obtain ⟨gap, after, rfl, rfl, hresumes⟩ := ih h
    refine ⟨c :: gap, after, rfl, by simp; omega, Unwinds.char hresumes ?_ ?_⟩
    · rintro ⟨more, hmore⟩
      cases hmore
      exact hopen (more ++ after) rfl rfl
    · rintro ⟨more, hmore⟩
      cases hmore
      exact hclose (more ++ after) rfl rfl
  | case11 => cases h

theorem gap_of_gapLength {gap after : List Char}
    (h : gapLength (gap ++ after) = .ok gap.length) : Gap after gap := by
  obtain ⟨front, back, hparts, hlength, hgap⟩ := resumes_of_gapFrom h
  obtain ⟨rfl, rfl⟩ := List.append_inj hparts (by omega)
  exact hgap

/-- A token whose text varies is spelled as this text. -/
theorem spelling_of_text? {token : Token} {text : String} (h : token.text? = some text) :
    token.spelling = text.toList := by
  cases token <;> cases h <;> rfl

end Token

/-! ### Tiled sources -/

/-- Between `low` and the first of some tokens, and between any two neighbours of them, there
    is a gap of the source. -/
def GapsBetween (source : List Char) : Nat → List Placed → Prop
  | _, [] => True
  | low, placed :: rest =>
    Token.Gap (Text.dropBytes placed.span.start source)
        (Text.slice source low placed.span.start) ∧
      GapsBetween source placed.span.stop rest

/-- What the source holds from `low` on: by turns what stands in front of a token, and the
    token as it is spelled. -/
def piecesFrom (source : List Char) : Nat → List Placed → List (List Char)
  | _, [] => []
  | low, placed :: rest =>
    Text.slice source low placed.span.start :: placed.token.spelling ::
      piecesFrom source placed.span.stop rest

structure Tokens.Tile (source : List Char) (tokens : Tokens) : Prop where
  /-- No token is empty, and none but the last is the end of input. -/
  solid : ∀ placed ∈ tokens.body,
    placed.token ≠ .endOfInput ∧ placed.span.start < placed.span.stop
  /-- The last token is the end of input, with an empty span at the end of the source. -/
  finish_token : tokens.finish.token = .endOfInput
  finish_start : tokens.finish.span.start = Text.width source
  finish_stop : tokens.finish.span.stop = Text.width source
  /-- Of any two tokens the first starts before the second and ends where it starts, or
      before that. -/
  inOrder : tokens.toList.Pairwise fun a b =>
    a.span.start < b.span.start ∧ a.span.stop ≤ b.span.start
  /-- No token starts or ends inside a character. -/
  boundaries : ∀ placed ∈ tokens.toList,
    Text.isBoundary placed.span.start source = true ∧
      Text.isBoundary placed.span.stop source = true
  /-- Every token is spelled as the source is in its span. -/
  spelled : ∀ placed ∈ tokens.toList,
    Text.slice source placed.span.start placed.span.stop = placed.token.spelling
  /-- The text that a token keeps is the source in its span. -/
  texts : ∀ placed ∈ tokens.toList, ∀ text, placed.token.text? = some text →
    text.toList = Text.slice source placed.span.start placed.span.stop
  gaps : GapsBetween source 0 tokens.toList
  whole : (piecesFrom source 0 tokens.toList).flatten = source

theorem Laid.pairwise {source : List Char} {low high : Nat} {tokens : List Placed}
    (h : Laid source low tokens high) : tokens.Pairwise fun a b =>
      a.span.start < b.span.start ∧ a.span.stop ≤ b.span.start := by
  induction tokens generalizing low with
  | nil => exact .nil
  | cons placed rest ih =>
    obtain ⟨-, hsits, hrest⟩ := h
    refine .cons ?_ (ih hrest)
    intro other hother
    have hlt := hsits.start_lt_stop
    have hle := hrest.le_start hother
    exact ⟨by omega, hle⟩

namespace Scanned

variable {source before : List Char} {flag : Bool} {tokens : List Placed} {finish : Placed}

/-- The part of a source that stands behind another, and what follows it. -/
theorem cut_gap {gap rest : List Char} {stop : Nat} (hsource : source = before ++ gap ++ rest)
    (hstop : stop = Text.width (before ++ gap)) :
    Text.slice source (Text.width before) stop = gap ∧ Text.dropBytes stop source = rest := by
  rw [hsource, hstop]
  exact ⟨Text.slice_append rfl (Text.width_append before gap).symm,
    Text.dropBytes_width_append _ _⟩

/-- The gaps behind a place, and that nothing of the source behind it is lost. -/
theorem gaps_and_pieces (h : Scanned source flag before tokens finish) :
    GapsBetween source (Text.width before) (tokens ++ [finish]) ∧
      before ++ (piecesFrom source (Text.width before) (tokens ++ [finish])).flatten = source := by
  induction h with
  | @finish flag before gap placed hsource hgap hplaced =>
    have hstart : placed.span.start = Text.width (before ++ gap) := by rw [hplaced, hsource]; rfl
    have hparts : source = before ++ gap ++ [] := by simpa using hsource
    obtain ⟨hslice, hdrop⟩ := cut_gap hparts hstart
    have hspelling : placed.token.spelling = [] := by rw [hplaced]; rfl
    simp only [List.nil_append, GapsBetween, piecesFrom, hslice, hdrop, hspelling, and_true]
    exact ⟨Token.gap_of_gapLength (by rwa [List.append_nil]), by simp [hsource]⟩
  | @token flag before gap text after placed finish rest hsource hgap hstop hreads hspan _ _ ih =>
    have hstart : placed.span.start = Text.width (before ++ gap) := by rw [hspan]; rfl
    have hparts : source = before ++ gap ++ (text ++ after) := by simpa using hsource
    obtain ⟨hslice, hdrop⟩ := cut_gap hparts hstart
    have hend : placed.span.stop = Text.width (before ++ gap ++ text) := by
      rw [hspan, Text.width_append _ text]
      rfl
    simp only [List.cons_append, GapsBetween, piecesFrom, hslice, hdrop, hend, hreads.spelling_eq]
    refine ⟨⟨Token.gap_of_gapLength ?_, ih.1⟩, by simpa using ih.2⟩
    rw [Token.gapLength, hgap, hstop, Nat.zero_add]

end Scanned

/-- **The tokens of a source tile it.** -/
theorem tokenize_tiles {source : List Char} {tokens : Tokens}
    (h : tokenize source = .ok tokens) : tokens.Tile source := by
  have hscanned := tokenize_scanned h
  have hlaid := hscanned.laid
  obtain ⟨hfinish, hspan⟩ := hscanned.finish_eq
  have hstart : tokens.finish.span.start = Text.width source := by rw [hspan]; rfl
  have hstop : tokens.finish.span.stop = Text.width source := by rw [hspan]; rfl
  -- the end of input covers the empty text at the end, every other token its spelling
  have hcovers : ∀ placed ∈ tokens.toList, placed.span.Covers source placed.token.spelling := by
    intro placed hmem
    rcases List.mem_append.1 hmem with hmem | hmem
    · exact (hlaid.sits hmem).2
    · rw [List.mem_singleton.1 hmem, hfinish]
      exact ⟨source, [], by simp [Token.spelling], hspan⟩
  constructor
  case solid =>
    intro placed hmem
    exact ⟨(hlaid.sits hmem).ne_endOfInput, (hlaid.sits hmem).start_lt_stop⟩
  case finish_token => exact hfinish
  case finish_start => exact hstart
  case finish_stop => exact hstop
  case inOrder =>
    refine List.pairwise_append.2 ⟨hlaid.pairwise, List.pairwise_singleton _ _, ?_⟩
    intro placed hmem last hlast
    have hlt := (hlaid.sits hmem).start_lt_stop
    have hle := hlaid.stop_le hmem
    rw [List.mem_singleton.1 hlast, hstart]
    exact ⟨by omega, hle⟩
  case boundaries => exact fun placed hmem => Span.Lies.boundary ⟨_, hcovers placed hmem⟩
  case spelled => exact fun placed hmem => (hcovers placed hmem).slice_eq
  case texts =>
    intro placed hmem text htext
    rw [(hcovers placed hmem).slice_eq, Token.spelling_of_text? htext]
  case gaps => exact hscanned.gaps_and_pieces.1
  case whole => exact hscanned.gaps_and_pieces.2

def commentedText : String :=
  "/* a /* b */ c */ é = \"\\(f(\"x\"))é\" // d\n\t2.5 //"

theorem tokenize_tiles_commented :
    ∃ tokens, tokenize commentedText.toList = .ok tokens ∧ tokens.body.length = 4 ∧
      tokens.Tile commentedText.toList := by
  have hread : (tokenize commentedText.toList).toOption.map (·.body.length) = some 4 := by
    decide +kernel
  cases h : tokenize commentedText.toList with
  | error cause =>
    rw [h] at hread
    cases hread
  | ok tokens =>
    rw [h] at hread
    exact ⟨tokens, rfl, Option.some.inj hread, tokenize_tiles h⟩

end Memberwise
