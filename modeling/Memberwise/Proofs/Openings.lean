/-
  Memberwise/Proofs/Openings.lean
  ===============================
  **A string or a comment that does not end is reported where it began.**

  Literals stand in the interpolations of other literals, and the one that is reported is the
  one in which the reader stands when it gives up.  Each thing that is open carries the place
  of its literal, and the places of those opened later lie further on.  So the place in an
  error tells which literal it was, and from its opening quote on, the literal is found not
  to end without looking at what stands around it.

  Comments that nest are one comment, and the place in an error is that of the outermost.
-/
import Memberwise.Proofs.Checked.Scanning
import Memberwise.Proofs.Locality

namespace Memberwise

namespace Token

/-! ### Literals that do not end -/

def Quotation.opened : Quotation → Nat
  | line opened | block opened | interpolation opened _ => opened

def Quotation.shift (distance : Nat) : Quotation → Quotation
  | line opened => line (opened + distance)
  | block opened => block (opened + distance)
  | interpolation opened depth => interpolation (opened + distance) depth

def shiftResult (distance : Nat) : Except Unclosed Nat → Except Unclosed Nat
  | .ok length => .ok (length + distance)
  | .error unclosed => .error ⟨unclosed.opened + distance, unclosed.read + distance⟩

/-- The error that is reported is at one of the literals that are open, or further on. -/
theorem quotationFrom_opened {stack : List Quotation} {read : Nat} {text : List Char}
    {unclosed : Unclosed} (h : quotationFrom stack read text = .error unclosed) :
    unclosed.opened ∈ stack.map Quotation.opened ∨ read ≤ unclosed.opened := by
  fun_induction quotationFrom stack read text <;> grind [Quotation.opened]

/-- What is open outside a literal does not matter as long as the literal is open. -/
theorem quotationFrom_inner {inner outer : List Quotation} {read : Nat} {text : List Char}
    {unclosed : Unclosed} (h : quotationFrom (inner ++ outer) read text = .error unclosed)
    (houter : unclosed.opened ∉ outer.map Quotation.opened) (hread : unclosed.opened < read) :
    quotationFrom inner read text = .error unclosed := by
  fun_induction quotationFrom inner read text
  case case1 =>
    -- only things outside are left open, or opened later
    rcases quotationFrom_opened h with hmem | hle
    · exact absurd hmem houter
    · omega
  all_goals grind [quotationFrom]

/-- Where a literal stands does not matter. -/
theorem quotationFrom_shift (distance : Nat) (stack : List Quotation) (read : Nat)
    (text : List Char) :
    quotationFrom (stack.map (Quotation.shift distance)) (read + distance) text =
      shiftResult distance (quotationFrom stack read text) := by
  fun_induction quotationFrom stack read text
  all_goals grind [quotationFrom, Quotation.shift, shiftResult]

/-- What is found not to end among other things that are open does not end on its own. -/
theorem quotationFrom_alone {entry : Quotation} {outer : List Quotation} {distance read : Nat}
    {text : List Char} {unclosed : Unclosed}
    (h : quotationFrom (entry.shift distance :: outer) (read + distance) text = .error unclosed)
    (hopened : unclosed.opened = distance) (houter : distance ∉ outer.map Quotation.opened)
    (hread : 0 < read) : ∃ stop, quotationFrom [entry] read text = .error ⟨0, stop⟩ := by
  have hinner : quotationFrom [entry.shift distance] (read + distance) text = .error unclosed :=
    quotationFrom_inner h (by rwa [hopened]) (by omega)
  have hshift := quotationFrom_shift distance [entry] read text
  rw [List.map_cons, List.map_nil, hinner] at hshift
  cases halone : quotationFrom [entry] read text with
  | ok length =>
    rw [halone] at hshift
    cases hshift
  | error other =>
    rw [halone] at hshift
    cases hshift
    obtain ⟨opened, stop⟩ := other
    obtain rfl : opened = 0 := by simpa using hopened
    exact ⟨stop, rfl⟩

/-- A literal that does not end opens behind some text, at the place that an error gives. -/
def OpensBehind (read : Nat) (text : List Char) (unclosed : Unclosed) : Prop :=
  ∃ front rest stop, text = front ++ '"' :: rest ∧ unclosed.opened = read + front.length ∧
    quotationLength rest = .error ⟨0, stop⟩

theorem OpensBehind.append {read : Nat} {text : List Char} {unclosed : Unclosed}
    (passed : List Char) (h : OpensBehind (read + passed.length) text unclosed) :
    OpensBehind read (passed ++ text) unclosed := by
  obtain ⟨front, rest, stop, rfl, hopened, hlength⟩ := h
  refine ⟨passed ++ front, rest, stop, (List.append_assoc _ _ _).symm, ?_, hlength⟩
  rw [hopened, List.length_append, Nat.add_assoc]

/-- Where a literal opens, it is not the one reported unless it does not end. -/
theorem ne_opened_or_alone {entry : Quotation} {outer : List Quotation} {read width : Nat}
    {text : List Char} {unclosed : Unclosed}
    (h : quotationFrom (entry.shift read :: outer) (width + read) text = .error unclosed)
    (hwidth : 0 < width) (houter : ∀ other ∈ outer, other.opened < read) :
    unclosed.opened ≠ read ∨
      unclosed.opened = read ∧ ∃ stop, quotationFrom [entry] width text = .error ⟨0, stop⟩ := by
  by_cases hhere : unclosed.opened = read
  · refine .inr ⟨hhere, quotationFrom_alone h hhere ?_ hwidth⟩
    intro hmem
    obtain ⟨other, hother, hopened⟩ := List.mem_map.1 hmem
    have hlt := houter other hother
    omega
  · exact .inl hhere

/-- **The literal that is reported is open, or opens further on and does not end.** -/
theorem opened_or_opensBehind {stack : List Quotation} {read : Nat} {text : List Char}
    {unclosed : Unclosed} (h : quotationFrom stack read text = .error unclosed)
    (hstack : ∀ entry ∈ stack, entry.opened < read) :
    unclosed.opened ∈ stack.map Quotation.opened ∨ OpensBehind read text unclosed := by
  have hone : ∀ {c text read}, OpensBehind (read + 1) text unclosed →
      OpensBehind read (c :: text) unclosed := fun {c _ _} => OpensBehind.append [c]
  have htwo : ∀ {c d text read}, OpensBehind (read + 2) text unclosed →
      OpensBehind read (c :: d :: text) unclosed := fun {c d _ _} => OpensBehind.append [c, d]
  have hthree : ∀ {c d e text read}, OpensBehind (read + 3) text unclosed →
      OpensBehind read (c :: d :: e :: text) unclosed :=
    fun {c d e _ _} => OpensBehind.append [c, d, e]
  fun_induction quotationFrom stack read text
  case case19 opened depth outer read rest ih =>
    have hmoved : quotationFrom (Quotation.shift read (.block 0) :: .interpolation opened depth ::
        outer) (3 + read) rest = .error unclosed := by
      rwa [Quotation.shift, Nat.zero_add, Nat.add_comm]
    rcases ne_opened_or_alone hmoved (by decide) hstack with hother | ⟨hhere, stop, halone⟩
    · grind [Quotation.opened]
    · exact .inr ⟨[], '"' :: '"' :: rest, stop, rfl, hhere, halone⟩
  case case20 opened depth outer read rest hquotes ih =>
    have hmoved : quotationFrom (Quotation.shift read (.line 0) :: .interpolation opened depth ::
        outer) (1 + read) rest = .error unclosed := by
      rwa [Quotation.shift, Nat.zero_add, Nat.add_comm]
    rcases ne_opened_or_alone hmoved (by decide) hstack with hother | ⟨hhere, stop, halone⟩
    · grind [Quotation.opened]
    · have hsingle : ¬ ∃ more, rest = '"' :: '"' :: more := not_exists.2 hquotes
      rw [← quotationLength_of_ne hsingle] at halone
      exact .inr ⟨[], rest, stop, rfl, hhere, halone⟩
  all_goals grind [Quotation.opened]

theorem opensBehind_of_quotationLength {rest : List Char} {unclosed : Unclosed}
    (h : quotationLength rest = .error unclosed) : OpensBehind 0 ('"' :: rest) unclosed := by
  obtain ⟨opened, stop⟩ := unclosed
  -- unless it is the outermost literal, the one reported opens behind its first quote
  cases opened with
  | zero => exact ⟨[], rest, stop, rfl, rfl, h⟩
  | succ opened =>
    unfold quotationLength at h
    split at h
    · next more =>
      rcases opened_or_opensBehind h (by simp [Quotation.opened]) with hmem | hbehind
      · simp [Quotation.opened] at hmem
      · exact OpensBehind.append ['"', '"', '"'] hbehind
    · rcases opened_or_opensBehind h (by simp [Quotation.opened]) with hmem | hbehind
      · simp [Quotation.opened] at hmem
      · exact OpensBehind.append ['"'] hbehind

/-! ### Comments that do not end -/

def GapMode.opened? : GapMode → Option Nat
  | blockComment opened _ => some opened
  | _ => none

/-- The comment that is reported is the one that is open, or opens further on. -/
theorem gapFrom_opened {mode : GapMode} {read n : Nat} {text : List Char}
    (h : gapFrom mode read text = .error n) : mode.opened? = some n ∨ read ≤ n := by
  fun_induction gapFrom mode read text
  case case9 opened depth read rest ih =>
    cases depth with
    | zero => grind [GapMode.afterBlock, GapMode.opened?]
    | succ depth => grind [GapMode.afterBlock, GapMode.opened?]
  all_goals grind [GapMode.opened?]

/-- Whether a comment ends does not depend on where it stands. -/
theorem gapFrom_alone {opened depth read : Nat} {text : List Char}
    (h : gapFrom (.blockComment opened depth) read text = .error opened) (hread : opened < read)
    (read' : Nat) : gapFrom (.blockComment 0 depth) read' text = .error 0 := by
  generalize hmode : GapMode.blockComment opened depth = mode at h
  fun_induction gapFrom mode read text generalizing depth read'
  case case9 opened' depth' read rest ih =>
    cases hmode
    cases depth' with
    | zero =>
      rcases gapFrom_opened h with hmem | hle
      · cases hmem
      · omega
    | succ depth =>
      rw [gapFrom]
      exact ih (by omega) _ rfl h
  all_goals grind [gapFrom]

/-- A comment that does not end opens behind some text, at the place that an error gives. -/
def CommentBehind (read : Nat) (text : List Char) (n : Nat) : Prop :=
  ∃ front rest, text = front ++ '/' :: '*' :: rest ∧ n = read + front.length ∧
    gapLength ('/' :: '*' :: rest) = .error 0

theorem CommentBehind.append {read n : Nat} {text : List Char} (passed : List Char)
    (h : CommentBehind (read + passed.length) text n) : CommentBehind read (passed ++ text) n := by
  obtain ⟨front, rest, rfl, rfl, hlength⟩ := h
  refine ⟨passed ++ front, rest, (List.append_assoc _ _ _).symm, ?_, hlength⟩
  rw [List.length_append, Nat.add_assoc]

/-- **The comment that is reported is open, or opens further on and does not end.** -/
theorem opened_or_commentBehind {mode : GapMode} {read n : Nat} {text : List Char}
    (h : gapFrom mode read text = .error n) (hmode : ∀ opened ∈ mode.opened?, opened < read) :
    mode.opened? = some n ∨ CommentBehind read text n := by
  have hone : ∀ {c text read}, CommentBehind (read + 1) text n →
      CommentBehind read (c :: text) n := fun {c _ _} => CommentBehind.append [c]
  have htwo : ∀ {c d text read}, CommentBehind (read + 2) text n →
      CommentBehind read (c :: d :: text) n := fun {c d _ _} => CommentBehind.append [c, d]
  fun_induction gapFrom mode read text
  case case2 read rest ih =>
    by_cases hhere : n = read
    · subst hhere
      have halone := gapFrom_alone h (by omega) 2
      exact .inr ⟨[], rest, rfl, rfl, halone⟩
    · grind [GapMode.opened?]
  case case9 opened depth read rest ih =>
    cases depth <;> grind [GapMode.afterBlock, GapMode.opened?]
  all_goals grind [GapMode.opened?]

theorem commentBehind_of_gapLength {text : List Char} {n : Nat}
    (h : gapLength text = .error n) : CommentBehind 0 text n := by
  rcases opened_or_commentBehind h nofun with hmode | hbehind
  · cases hmode
  · exact hbehind

end Token

/-! ### Where errors of scanning are -/

/-- What an error of scanning is about opens a text: a literal or a comment that does not
    end, whatever is open around it. -/
inductive ScanError.Opens : ScanError → List Char → Prop where
  | string {place : Position} {rest : List Char} {stop : Nat}
      (h : Token.quotationLength rest = .error ⟨0, stop⟩) :
      Opens (.unterminatedString place) ('"' :: rest)
  | comment {place : Position} {rest : List Char}
      (h : Token.gapLength ('/' :: '*' :: rest) = .error 0) :
      Opens (.unterminatedComment place) ('/' :: '*' :: rest)

/-- The error is at a place in a source, and what it is about opens there. -/
def ScanError.OpensIn (source : List Char) (error : ScanError) : Prop :=
  ∃ before rest, source = before ++ rest ∧ error.position = Position.behind before ∧
    error.Opens rest

namespace Cursor

variable {source before : List Char} {place : Cursor} {error : ScanError}

theorem Behind.readToken_error {after : Cursor} (h : place.Behind source before)
    (hread : place.readToken = (.error error, after)) : error.OpensIn source := by
  unfold readToken at hread
  split at hread
  · cases hread
  · next first tail hrest =>
    split at hread
    · next unclosed hlexeme =>
      cases hread
      by_cases hquote : first = '"'
      · subst hquote
        cases hlength : Token.quotationLength tail with
        | ok length =>
          rw [Token.lexeme, hlength] at hlexeme
          cases hlexeme
        | error other =>
          rw [Token.lexeme, hlength] at hlexeme
          cases hlexeme
          obtain ⟨front, rest, stop, hparts, hopened, halone⟩ :=
            Token.opensBehind_of_quotationLength hlength
          obtain ⟨hthere, hthereRest, -⟩ := h.advance (hrest.trans hparts)
          rw [Nat.zero_add] at hopened
          refine ⟨before ++ front, '"' :: rest, ?_, ?_, .string halone⟩
          · rw [hthere.source_eq, hthereRest]
          · rw [hopened]
            exact hthere.position_eq
      · exact absurd hlexeme (Checked.lexeme_ne_error hquote)
    · cases hread

/-- **Where reading a token fails, a literal or a comment opens that does not end.** -/
theorem Behind.next_error {after : Cursor} (h : place.Behind source before)
    (hnext : place.next = (.error error, after)) : error.OpensIn source := by
  unfold Cursor.next at hnext
  split at hnext
  · next opened hgap =>
    cases hnext
    obtain ⟨front, rest, hparts, hopened, halone⟩ := Token.commentBehind_of_gapLength hgap
    obtain ⟨hthere, hthereRest, -⟩ := h.advance hparts
    rw [Nat.zero_add] at hopened
    refine ⟨before ++ front, '/' :: '*' :: rest, ?_, ?_, .comment halone⟩
    · rw [hthere.source_eq, hthereRest]
    · rw [hopened]
      exact hthere.position_eq
  · next length hgap =>
    obtain ⟨gap, rest, hrest, rfl, -⟩ := Token.gapLength_eq_ok hgap
    exact (h.advance hrest).1.readToken_error hnext

end Cursor

theorem tokensFrom_error {source before : List Char} {limit : Nat} {place : Cursor}
    {error : ScanError} (hplace : place.Behind source before)
    (h : tokensFrom limit place = .error error) : error.OpensIn source := by
  induction limit generalizing place before with
  | zero => cases h
  | succ limit ih =>
    obtain ⟨passed, hpassed, -⟩ := hplace.next
    unfold tokensFrom at h
    generalize hnext : place.next = outcome at h hpassed
    obtain ⟨found | placed, after⟩ := outcome
    · cases h
      exact hplace.next_error hnext
    · cases hmore : tokensFrom limit after with
      | error other =>
        simp only [hmore] at h
        split at h
        · cases h
        · cases h
          exact ih hpassed hmore
      | ok tokens =>
        simp only [hmore] at h
        split at h <;> cases h

/-- **A source that is no sequence of tokens has a literal or a comment that does not end,
    and that is where the error is.** -/
theorem tokenize_error {source : List Char} {error : ScanError}
    (h : tokenize source = .error error) : error.OpensIn source :=
  tokensFrom_error (Cursor.behind_start source) h

end Memberwise
