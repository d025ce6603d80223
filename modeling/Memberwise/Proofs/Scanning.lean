/-
  Memberwise/Proofs/Scanning.lean
  ===============================
  **Tokens where they stand.**

  A source that can be cut into tokens is gaps and spellings by turns.  `Scanned`
  says so for what is left of a source behind a place: each token is read off its
  spelling and what follows, its span is that of the spelling, and its newline
  flag tells of line feeds in the gap before it or in the token before that.
  `tokenize_scanned` shows it for every source that `tokenize` accepts.

  A gap is told by what it does to the reader of gaps: it is passed, whatever
  follows it (`IsGap`).  So no later proof looks into a comment.
-/
import Memberwise.Proofs.Offsets
import Memberwise.Token.Scan

namespace Memberwise

/-! ### Spellings -/

namespace Token

def spelling : Token → List Char
  | opening .round => ['(']
  | closing .round => [')']
  | opening .square => ['[']
  | closing .square => [']']
  | opening .curly => ['\x7b']
  | closing .curly => ['\x7d']
  | atSign => ['@']
  | colon => [':']
  | comma => [',']
  | semicolon => [';']
  | dot => ['.']
  | equals => ['=']
  | name text | integer text | float text | string text | operator text => text.toList
  | endOfInput => []

theorem spelling_ofOperator (text : List Char) :
    (ofOperator (String.ofList text)).spelling = text := by
  unfold ofOperator
  split
  · next h =>
    have hlist := congrArg String.toList h
    simp only [String.toList_ofList] at hlist
    rw [hlist]
    rfl
  · simp [spelling]

/-! ### Steps through a string literal -/

section Steps

variable {opened depth read : Nat} {outer : List Quotation} {c d : Char} {rest : List Char}

theorem quotationFrom_line_plain (hquote : c ≠ '"') (hline : c ≠ '\n') (hescape : c ≠ '\\') :
    quotationFrom (.line opened :: outer) read (c :: rest) =
      quotationFrom (.line opened :: outer) (read + 1) rest := by
  rw [quotationFrom] <;> simp_all

theorem quotationFrom_line_escape (hline : d ≠ '\n') (hopen : d ≠ '(') :
    quotationFrom (.line opened :: outer) read ('\\' :: d :: rest) =
      quotationFrom (.line opened :: outer) (read + 2) rest := by
  rw [quotationFrom] <;> simp_all

theorem quotationFrom_block_plain (hescape : c ≠ '\\')
    (hquotes : ¬ (c = '"' ∧ ∃ more, rest = '"' :: '"' :: more)) :
    quotationFrom (.block opened :: outer) read (c :: rest) =
      quotationFrom (.block opened :: outer) (read + 1) rest := by
  rw [quotationFrom] <;> simp_all

theorem quotationFrom_interpolation_plain (hopen : c ≠ '(') (hclose : c ≠ ')') (hquote : c ≠ '"') :
    quotationFrom (.interpolation opened depth :: outer) read (c :: rest) =
      quotationFrom (.interpolation opened depth :: outer) (read + 1) rest := by
  rw [quotationFrom] <;> simp_all

theorem quotationFrom_interpolation_quote (hquotes : ¬ ∃ more, rest = '"' :: '"' :: more) :
    quotationFrom (.interpolation opened depth :: outer) read ('"' :: rest) =
      quotationFrom (.line read :: .interpolation opened depth :: outer) (read + 1) rest := by
  rw [quotationFrom]
  intro more hmore
  exact hquotes ⟨more, hmore⟩

end Steps

/-! ### Lengths of lexemes -/

theorem nameRun_le (text : List Char) : nameRun text ≤ text.length :=
  (List.takeWhile_prefix _).length_le

theorem numberRun_le (text : List Char) : numberRun text ≤ text.length :=
  (List.takeWhile_prefix _).length_le

theorem quotedNameRun_le (text : List Char) : quotedNameRun text ≤ text.length := by
  have hle := nameRun_le text
  simp only [quotedNameRun]
  split
  · next h =>
    -- the closing backtick is one more character
    by_cases hlt : nameRun text < text.length
    · exact hlt
    · rw [List.drop_eq_nil_of_le (by omega)] at h
      cases h
  · exact hle

theorem operatorRun_le (text : List Char) : operatorRun text ≤ text.length := by
  fun_induction operatorRun text <;> simp_all

theorem signedRun?_le {text : List Char} {run : Nat} (h : signedRun? text = some run) :
    run ≤ text.length := by
  unfold signedRun? at h
  split at h
  · next rest =>
    have := numberRun_le rest
    cases h
    simpa using this
  · next rest =>
    have := numberRun_le rest
    cases h
    simpa using this
  · cases h

theorem withExponent_bounds (isMark : Char → Bool) {text : List Char} {read : Nat}
    (h : read ≤ text.length) :
    read ≤ (withExponent isMark text read).2 ∧
      (withExponent isMark text read).2 ≤ text.length := by
  simp only [withExponent]
  split
  · next run _ hrun =>
    have hle := signedRun?_le hrun
    rw [List.length_drop] at hle
    constructor <;> simp only <;> omega
  · exact ⟨Nat.le_refl _, h⟩

theorem fractionEnd?_bounds {text : List Char} {read stop : Nat}
    (h : fractionEnd? text read = some stop) : read ≤ stop ∧ stop ≤ text.length := by
  unfold fractionEnd? at h
  split at h
  · next c rest hdrop =>
    have hlength := congrArg List.length hdrop
    simp only [List.length_drop, List.length_cons] at hlength
    have hrun := numberRun_le (c :: rest)
    simp only [List.length_cons] at hrun
    split at h
    · cases h
      constructor <;> omega
    · cases h
  · cases h

theorem numeral_bounds {first : Char} {rest : List Char} (hfirst : first.isDigit = true) :
    1 ≤ (numeral (first :: rest)).2 ∧ (numeral (first :: rest)).2 ≤ rest.length + 1 := by
  have hle := numberRun_le (first :: rest)
  have hpos : 1 ≤ numberRun (first :: rest) := by
    have hpart : isNumberPart first = true := by
      simp [isNumberPart, Char.isAlphanum, hfirst]
    simp [numberRun, hpart]
  have hexp := fun mark => withExponent_bounds mark hle
  unfold numeral
  simp only [List.length_cons] at *
  split
  · exact ⟨Nat.le_trans hpos (hexp _).1, (hexp _).2⟩
  · exact ⟨hpos, hle⟩
  · exact ⟨hpos, hle⟩
  · split
    · next stop hstop =>
      have hbounds := fractionEnd?_bounds hstop
      have := withExponent_bounds isDecimalMark hbounds.2
      simp only [List.length_cons] at hbounds this
      constructor <;> simp only <;> omega
    · exact ⟨Nat.le_trans hpos (hexp _).1, (hexp _).2⟩

theorem quotationFrom_bounds {stack : List Quotation} {read : Nat} {text : List Char} {n : Nat}
    (h : quotationFrom stack read text = .ok n) : read ≤ n ∧ n ≤ read + text.length := by
  fun_induction quotationFrom stack read text <;> simp_all <;> omega

theorem quotationLength_bounds {rest : List Char} {n : Nat} (h : quotationLength rest = .ok n) :
    1 ≤ n ∧ n ≤ rest.length + 1 := by
  unfold quotationLength at h
  split at h
  · have := quotationFrom_bounds h
    simp only [List.length_cons]
    omega
  · have := quotationFrom_bounds h
    omega

/-- A lexeme takes at least one character, and no more than there are; the token
    that it makes is spelled by what it takes. -/
theorem lexeme_spelling {first : Char} {rest : List Char} {found : Lexeme}
    (h : lexeme first rest = .ok found) :
    1 ≤ found.length ∧ found.length ≤ rest.length + 1 ∧
      (found.token (String.ofList ((first :: rest).take found.length))).spelling =
        (first :: rest).take found.length := by
  unfold lexeme at h
  split at h
  case h_11 =>
    split at h
    · cases h
      simp [Lexeme.mark, spelling]
    · cases h
      have hdots := (List.takeWhile_prefix (l := rest) (· == '.')).length_le
      have hrun := operatorRun_le (rest.drop (rest.takeWhile (· == '.')).length)
      rw [List.length_drop] at hrun
      exact ⟨by simp only; omega, by simp only; omega, by simp [spelling]⟩
  case h_12 =>
    obtain ⟨n, hn, hfound⟩ : ∃ n, quotationLength rest = .ok n ∧
        (⟨.string, n⟩ : Lexeme) = found := by
      cases hq : quotationLength rest with
      | error _ => rw [hq] at h; cases h
      | ok n => rw [hq] at h; cases h; exact ⟨n, rfl, rfl⟩
    subst hfound
    have := quotationLength_bounds hn
    exact ⟨this.1, this.2, by simp [spelling]⟩
  case h_13 =>
    cases h
    have := quotedNameRun_le rest
    exact ⟨by simp, by simp; omega, by simp [spelling]⟩
  case h_14 =>
    cases h
    have := nameRun_le rest
    exact ⟨by simp, by simp; omega, by simp [spelling]⟩
  case h_15 =>
    split at h
    · cases h
      have := nameRun_le rest
      exact ⟨by simp, by simp; omega, by simp [spelling]⟩
    · split at h
      · next hdigit =>
        have hbounds : 1 ≤ (numeral (_ :: rest)).2 ∧ _ := numeral_bounds hdigit
        split at h <;> next hnumeral =>
          cases h
          rw [hnumeral] at hbounds
          exact ⟨hbounds.1, hbounds.2, by simp [spelling]⟩
      · split at h
        · cases h
          have := operatorRun_le rest
          exact ⟨by simp, by simp; omega, spelling_ofOperator _⟩
        · cases h
          exact ⟨by simp, by simp, by simp [spelling]⟩
  all_goals
    cases h
    simp [Lexeme.mark, spelling]

/-! ### Gaps -/

/-- A text that the reader of gaps passes, whatever follows. -/
def IsGap (gap : List Char) : Prop :=
  ∀ read rest, gapFrom .between read (gap ++ rest) = gapFrom .between (read + gap.length) rest

def NoGap (text : List Char) : Prop := ∀ read, gapFrom .between read text = .ok read

theorem IsGap.nil : IsGap [] := fun _ _ => rfl

def GapMode.movedTo (opened : Nat) : GapMode → GapMode
  | .blockComment _ depth => .blockComment opened depth
  | mode => mode

theorem GapMode.movedTo_afterBlock (opened moved depth : Nat) :
    (GapMode.afterBlock opened depth).movedTo moved = .afterBlock moved depth := by
  cases depth <;> rfl

/-- What the reader of a gap does that gets to `n` from some mode on: it passes the rest
    of the gap and stops.  Unless it stops at the end of the text, it would pass the same
    characters in front of any text, since then no comment is open. -/
def PassesTo (mode : GapMode) (read n : Nat) (text : List Char) : Prop :=
  ∃ gap rest, text = gap ++ rest ∧ n = read + gap.length ∧ NoGap rest ∧
    (rest = [] ∨ ∀ opened place more, gapFrom (mode.movedTo opened) place (gap ++ more) =
      gapFrom .between (place + gap.length) more) ∧
    (mode ≠ .between → mode ≠ .lineComment → gap ≠ [])

/-- Characters in front that take the reader from one mode to the other. -/
theorem PassesTo.prepend {mode mode' : GapMode} {read n : Nat} (front : List Char)
    {text : List Char} (hfront : front ≠ []) (h : PassesTo mode' (read + front.length) n text)
    (hstep : ∀ opened place more, ∃ opened', gapFrom (mode.movedTo opened) place (front ++ more) =
      gapFrom (mode'.movedTo opened') (place + front.length) more) :
    PassesTo mode read n (front ++ text) := by
  obtain ⟨gap, rest, rfl, rfl, hstop, hpass, -⟩ := h
  refine ⟨front ++ gap, rest, by simp, by simp; omega, hstop, ?_, by simp [hfront]⟩
  apply hpass.imp_right
  intro hpass opened place more
  obtain ⟨opened', hstep⟩ := hstep opened place (gap ++ more)
  rw [List.append_assoc, hstep, hpass, List.length_append, Nat.add_assoc]

theorem PassesTo.nil {mode : GapMode} {read : Nat} {text : List Char} (hstop : NoGap text)
    (hmode : mode = .between ∨ mode = .lineComment ∧ text = []) :
    PassesTo mode read read text := by
  refine ⟨[], text, rfl, rfl, hstop, ?_, ?_⟩
  · rcases hmode with rfl | ⟨-, rfl⟩
    · exact .inr fun _ _ _ => rfl
    · exact .inl rfl
  · intro hbetween hline
    rcases hmode with rfl | ⟨rfl, -⟩
    · exact absurd rfl hbetween
    · exact absurd rfl hline

theorem gapFrom_separator {c : Char} (hsep : isSeparator c = true) (read : Nat)
    (rest : List Char) : gapFrom .between read (c :: rest) = gapFrom .between (read + 1) rest := by
  have hslash : c ≠ '/' := by
    rintro rfl
    revert hsep
    decide
  rw [gapFrom, if_pos hsep]
  · intro _ hc
    exact absurd hc hslash
  · intro _ hc
    exact absurd hc hslash

theorem gapFrom_eq_ok {mode : GapMode} {read n : Nat} {text : List Char}
    (h : gapFrom mode read text = .ok n) : PassesTo mode read n text := by
  fun_induction gapFrom mode read text with
  | case1 read rest ih =>
    apply PassesTo.prepend ['/', '/'] (by simp) (ih h)
    intro opened place more
    exact ⟨0, rfl⟩
  | case2 read rest ih =>
    apply PassesTo.prepend ['/', '*'] (by simp) (ih h)
    intro opened place more
    exact ⟨place, rfl⟩
  | case3 read c rest hline hblock hsep ih =>
    apply PassesTo.prepend [c] (by simp) (ih h)
    intro opened place more
    exact ⟨0, gapFrom_separator hsep place more⟩
  | case4 read c rest hline hblock hsep =>
    cases h
    refine .nil ?_ (.inl rfl)
    intro place
    rw [gapFrom, if_neg hsep]
    · exact hline
    · exact hblock
  | case5 read =>
    cases h
    exact .nil (fun _ => rfl) (.inl rfl)
  | case6 read c rest ih =>
    apply PassesTo.prepend [c] (by simp) (ih h)
    intro opened place more
    refine ⟨opened, ?_⟩
    have hmode : (if c = '\n' then GapMode.between else .lineComment).movedTo opened =
        if c = '\n' then .between else .lineComment := by split <;> rfl
    rw [hmode]
    rfl
  | case7 read =>
    cases h
    exact .nil (fun _ => rfl) (.inr ⟨rfl, rfl⟩)
  | case8 opened depth read rest ih =>
    apply PassesTo.prepend ['/', '*'] (by simp) (ih h)
    intro opened place more
    exact ⟨opened, rfl⟩
  | case9 opened depth read rest ih =>
    apply PassesTo.prepend ['*', '/'] (by simp) (ih h)
    intro opened place more
    refine ⟨opened, ?_⟩
    rw [GapMode.movedTo_afterBlock]
    rfl
  | case10 opened depth read c rest hopen hclose ih =>
    obtain ⟨gap, rest, rfl, rfl, hstop, hpass, hne⟩ := ih h
    refine ⟨c :: gap, rest, rfl, by simp; omega, hstop, ?_, by simp⟩
    apply hpass.imp_right
    intro hpass opened place more
    have := hpass opened (place + 1) more
    simp only [GapMode.movedTo] at this
    simp only [GapMode.movedTo, List.cons_append, List.length_cons]
    -- the comment is still open, so the character behind `c` is one of the gap
    obtain ⟨d, gap, rfl⟩ := List.exists_cons_of_ne_nil (hne (by simp) (by simp))
    rw [gapFrom, this]
    · congr 1
      omega
    · rintro _ rfl hd
      rw [List.cons_append, List.cons.injEq] at hd
      exact hopen (gap ++ rest) rfl (by rw [hd.1]; rfl)
    · rintro _ rfl hd
      rw [List.cons_append, List.cons.injEq] at hd
      exact hclose (gap ++ rest) rfl (by rw [hd.1]; rfl)
  | case11 => cases h

theorem gapLength_eq_ok {text : List Char} {n : Nat} (h : gapLength text = .ok n) :
    ∃ gap rest, text = gap ++ rest ∧ n = gap.length ∧ NoGap rest ∧ (rest = [] ∨ IsGap gap) := by
  obtain ⟨gap, rest, htext, hn, hstop, hpass, -⟩ := gapFrom_eq_ok h
  refine ⟨gap, rest, htext, by omega, hstop, hpass.imp_right ?_⟩
  intro hpass read more
  exact hpass 0 read more

/-- A token that takes `text` from the front of a text that goes on with `after`. -/
def Reads (text after : List Char) (token : Token) : Prop :=
  ∃ first rest found, text ++ after = first :: rest ∧ lexeme first rest = .ok found ∧
    found.length = text.length ∧ token = found.token (String.ofList text)

theorem Reads.spelling_eq {text after : List Char} {token : Token} (h : token.Reads text after) :
    token.spelling = text := by
  obtain ⟨first, rest, found, htext, hfound, hlength, rfl⟩ := h
  have hspelling := (lexeme_spelling hfound).2.2
  rwa [← htext, hlength, List.take_left] at hspelling

theorem Reads.ne_nil {text after : List Char} {token : Token} (h : token.Reads text after) :
    text ≠ [] := by
  obtain ⟨first, rest, found, -, hfound, hlength, -⟩ := h
  have hpos := (lexeme_spelling hfound).1
  rintro rfl
  rw [hlength] at hpos
  exact absurd hpos (by decide)

end Token

/-! ### Cursors -/

/-- A cursor that stands behind a first part of a source, and has counted it. -/
structure Cursor.Behind (source before : List Char) (place : Cursor) : Prop where
  source_eq : source = before ++ place.rest
  offset_eq : place.offset = Text.width before
  line_eq : place.line = before.count '\n' + 1
  lineStart_eq : place.lineStart + Text.width (Text.lastLine before) = Text.width before

namespace Cursor

theorem behind_start (source : List Char) : (Cursor.start source).Behind source [] :=
  ⟨rfl, rfl, rfl, rfl⟩

theorem Behind.position_eq {source before : List Char} {place : Cursor}
    (h : place.Behind source before) : place.position = Position.behind before := by
  have hcolumn : place.offset - place.lineStart = Text.width (Text.lastLine before) := by
    have := h.lineStart_eq
    have := h.offset_eq
    omega
  simp only [position, Position.behind, h.line_eq, hcolumn]

theorem Behind.step {source before rest : List Char} {place : Cursor} {c : Char}
    (h : place.Behind source before) (hrest : place.rest = c :: rest) :
    place.step.Behind source (before ++ [c]) ∧ place.step.rest = rest ∧
      place.step.passedNewline = (place.passedNewline || c == '\n') := by
  have hsource := h.source_eq
  rw [hrest] at hsource
  have hstart := h.lineStart_eq
  simp only [Cursor.step, hrest]
  by_cases hc : c = '\n'
  · subst hc
    simp only [if_true]
    refine ⟨⟨?_, ?_, ?_, ?_⟩, trivial, by simp⟩
    · simpa using hsource
    · simp [h.offset_eq]
    · simp [h.line_eq]
    · simp [Text.lastLine_append_newline, h.offset_eq]
  · simp only [if_neg hc]
    refine ⟨⟨?_, ?_, ?_, ?_⟩, trivial, by simp [hc]⟩
    · simpa using hsource
    · simp [h.offset_eq]
    · simp [h.line_eq, hc]
    · rw [Text.lastLine_append_of_ne _ hc]
      simp only [Text.width_append]
      omega

theorem Behind.advance {source before text after : List Char} {place : Cursor}
    (h : place.Behind source before) (hrest : place.rest = text ++ after) :
    (place.advance text.length).Behind source (before ++ text) ∧
      (place.advance text.length).rest = after ∧
      (place.advance text.length).passedNewline = (place.passedNewline || text.contains '\n') := by
  induction text generalizing place before with
  | nil => simpa [Cursor.advance] using ⟨h, hrest⟩
  | cons c text ih =>
    obtain ⟨hbehind, hrest', hflag⟩ := h.step hrest
    obtain ⟨hfar, hafter, hfarFlag⟩ := ih hbehind hrest'
    refine ⟨?_, hafter, ?_⟩
    · simpa [Cursor.advance] using hfar
    · rw [List.length_cons, Cursor.advance, hfarFlag, hflag, Bool.or_assoc, List.contains_cons,
        BEq.comm]

theorem Behind.spanTo {source before text : List Char} {place stop : Cursor}
    (h : place.Behind source before) (hstop : stop.Behind source (before ++ text)) :
    place.spanTo stop = Span.across before text := by
  simp only [Cursor.spanTo, Span.across, h.position_eq, h.offset_eq, hstop.offset_eq,
    Text.width_append]

theorem Behind.forgetNewline {source before : List Char} {place : Cursor}
    (h : place.Behind source before) : place.forgetNewline.Behind source before :=
  ⟨h.source_eq, h.offset_eq, h.line_eq, h.lineStart_eq⟩

end Cursor

/-! ### Whole sources -/

/-- The tokens of a source behind `before`.  The flag tells whether a line feed was
    read since the last token before that place began. -/
inductive Scanned (source : List Char) : Bool → List Char → List Placed → Placed → Prop where
  | finish {flag : Bool} {before gap : List Char} {placed : Placed}
      (hsource : source = before ++ gap)
      (hgap : Token.gapLength gap = .ok gap.length)
      (hplaced : placed = ⟨.endOfInput, Span.across source [], flag || gap.contains '\n'⟩) :
      Scanned source flag before [] placed
  | token {flag : Bool} {before gap text after : List Char} {placed finish : Placed}
      {rest : List Placed}
      (hsource : source = before ++ gap ++ text ++ after)
      (hgap : Token.IsGap gap)
      (hstop : Token.NoGap (text ++ after))
      (hreads : placed.token.Reads text after)
      (hspan : placed.span = Span.across (before ++ gap) text)
      (hflag : placed.afterNewline = (flag || gap.contains '\n'))
      (hrest : Scanned source (text.contains '\n') (before ++ gap ++ text) rest finish) :
      Scanned source flag before (placed :: rest) finish

/-- What reading a token does: it passes a gap, and then it is at the end, or it
    takes the spelling of a token. -/
theorem Cursor.next_eq_ok {source before : List Char} {place after : Cursor} {placed : Placed}
    (hplace : place.Behind source before) (h : place.next = (.ok placed, after)) :
    ∃ gap rest, place.rest = gap ++ rest ∧ Token.NoGap rest ∧
      ((rest = [] ∧ Token.gapLength gap = .ok gap.length ∧
          placed = ⟨.endOfInput, Span.across source [],
            place.passedNewline || gap.contains '\n'⟩) ∨
        (Token.IsGap gap ∧ ∃ text tail, rest = text ++ tail ∧ placed.token.Reads text tail ∧
          placed.span = Span.across (before ++ gap) text ∧
          placed.afterNewline = (place.passedNewline || gap.contains '\n') ∧
          after.Behind source (before ++ gap ++ text) ∧ after.rest = tail ∧
          after.passedNewline = text.contains '\n')) := by
  unfold Cursor.next at h
  split at h
  · cases h
  · next n hgap =>
    obtain ⟨gap, rest, hrest, rfl, hstop, hpass⟩ := Token.gapLength_eq_ok hgap
    obtain ⟨hbehind, hbehindRest, hbehindFlag⟩ := hplace.advance hrest
    refine ⟨gap, rest, hrest, hstop, ?_⟩
    generalize place.advance gap.length = here at *
    unfold Cursor.readToken at h
    split at h
    · next hnil =>
      rw [hbehindRest] at hnil
      subst hnil
      rw [List.append_nil] at hrest
      refine .inl ⟨rfl, hrest ▸ hgap, ?_⟩
      have hsource : source = before ++ gap := by rw [hplace.source_eq, hrest]
      cases h
      have hspan : here.spanTo here = Span.across (before ++ gap) [] :=
        hbehind.spanTo (by simpa using hbehind)
      simp only [Cursor.endToken, hspan, hbehindFlag, hsource]
    · next first tail hcons =>
      rw [hbehindRest] at hcons
      subst hcons
      have hgap' : Token.IsGap gap := hpass.resolve_left (by simp)
      split at h
      · cases h
      · next found hfound =>
        obtain ⟨-, hle, -⟩ := Token.lexeme_spelling hfound
        have hparts : (first :: tail).take found.length ++ (first :: tail).drop found.length =
            first :: tail := List.take_append_drop _ _
        have hlength : ((first :: tail).take found.length).length = found.length := by
          rw [List.length_take, List.length_cons]
          omega
        obtain ⟨hafter, hafterRest, hafterFlag⟩ :=
          hbehind.forgetNewline.advance (hbehindRest.trans hparts.symm)
        rw [hlength] at hafter hafterRest hafterFlag
        simp only [Prod.mk.injEq, Except.ok.injEq] at h
        obtain ⟨rfl, rfl⟩ := h
        refine .inr ⟨hgap', (first :: tail).take found.length, (first :: tail).drop found.length,
          hparts.symm, ⟨first, tail, found, hparts, hfound, hlength.symm, rfl⟩,
          hbehind.spanTo hafter, hbehindFlag, hafter, hafterRest, ?_⟩
        simpa [Cursor.forgetNewline] using hafterFlag

theorem tokensFrom_scanned {source before : List Char} {limit : Nat} {place : Cursor}
    {tokens : Tokens} (hplace : place.Behind source before) (hlimit : place.rest.length < limit)
    (h : tokensFrom limit place = .ok tokens) :
    Scanned source place.passedNewline before tokens.body tokens.finish := by
  induction limit generalizing place before tokens with
  | zero => omega
  | succ limit ih =>
    unfold tokensFrom at h
    split at h
    · cases h
    · next placed after hnext =>
      obtain ⟨gap, rest, hrest, hstop, hfound⟩ := Cursor.next_eq_ok hplace hnext
      rcases hfound with ⟨rfl, hgap, rfl⟩ |
        ⟨hgap, text, tail, rfl, hreads, hspan, hflag, hafter, hafterRest, hafterFlag⟩
      · cases h
        exact .finish (by rw [hplace.source_eq, hrest, List.append_nil]) hgap rfl
      · have hne := hreads.ne_nil
        split at h
        · next hend =>
          -- the end of input has no spelling
          rw [← hreads.spelling_eq, hend] at hne
          exact absurd rfl hne
        · cases hmore : tokensFrom limit after with
          | error _ => rw [hmore] at h; cases h
          | ok more =>
            rw [hmore] at h
            cases h
            have hshorter : after.rest.length < limit := by
              have := List.length_pos_iff.2 hne
              rw [hrest] at hlimit
              simp only [hafterRest, List.length_append] at *
              omega
            have hscanned := ih hafter hshorter hmore
            rw [hafterFlag] at hscanned
            refine .token ?_ hgap hstop hreads hspan hflag hscanned
            rw [hplace.source_eq, hrest]
            simp

/-- **Every source that is cut into tokens is gaps and spellings by turns.** -/
theorem tokenize_scanned {source : List Char} {tokens : Tokens}
    (h : tokenize source = .ok tokens) :
    Scanned source true [] tokens.body tokens.finish :=
  tokensFrom_scanned (Cursor.behind_start source) (Nat.lt_succ_self _) h

end Memberwise
