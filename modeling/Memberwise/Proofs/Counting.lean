/-
  Memberwise/Proofs/Counting.lean
  ===============================
  **Reading on after errors and after the end.**

  Tokens are read one after another with one cursor, and a read that fails leaves
  it somewhere in the middle of what it tried to read.  Wherever that is, the
  cursor stands behind a first part of the source and has counted it: one read
  keeps this (`Cursor.Behind.next`), whichever way it ends, and so does any number
  of them.  A read that does not come to the end of input takes at least one
  character, so reading goes on.
-/
import Memberwise.Proofs.Scanning

namespace Memberwise

/-! ### Where lines start -/

/-- The line that goes on behind a text starts at byte offset `n`: behind the last line
    feed of the text, or at zero if there is none. -/
def Text.StartsLine (before : List Char) (n : Nat) : Prop :=
  ('\n' ∉ before ∧ n = 0) ∨
    ∃ front line, before = front ++ '\n' :: line ∧ '\n' ∉ line ∧ n = width front + 1

theorem Text.startsLine_of_lastLine {before : List Char} {n : Nat}
    (h : n + width (lastLine before) = width before) : StartsLine before n := by
  by_cases hmem : '\n' ∈ before
  · -- part the text at its last line feed
    obtain ⟨line, front, hparts, hline⟩ := List.eq_append_cons_of_mem (List.mem_reverse.2 hmem)
    have hbefore : before = front.reverse ++ '\n' :: line.reverse := by
      have := congrArg List.reverse hparts
      simpa using this
    have hnone : '\n' ∉ line.reverse := by simpa using hline
    have hstep : before = (front.reverse ++ ['\n']) ++ line.reverse := by simpa using hbefore
    have hlast : lastLine before = line.reverse := by
      rw [hstep, lastLine_append hnone, lastLine_append_newline, List.nil_append]
    refine .inr ⟨front.reverse, line.reverse, hbefore, hnone, ?_⟩
    have hfeed : ('\n' : Char).utf8Size = 1 := rfl
    rw [hlast, hstep, width_append, width_append, width_cons, width_nil, hfeed] at h
    omega
  · have hlast : lastLine ([] ++ before) = lastLine [] ++ before := lastLine_append hmem
    change lastLine before = before at hlast
    rw [hlast] at h
    exact .inl ⟨hmem, by omega⟩

/-! ### Literals that do not end -/

namespace Token

/-- The reader of a literal gives up no earlier than it was, and in the text. -/
theorem quotationFrom_unclosed {stack : List Quotation} {read : Nat} {text : List Char}
    {unclosed : Unclosed} (h : quotationFrom stack read text = .error unclosed) :
    read ≤ unclosed.read ∧ unclosed.read ≤ read + text.length := by
  obtain ⟨opened, stop⟩ := unclosed
  fun_induction quotationFrom stack read text <;> simp_all <;> omega

theorem quotationLength_unclosed {rest : List Char} {unclosed : Unclosed}
    (h : quotationLength rest = .error unclosed) :
    1 ≤ unclosed.read ∧ unclosed.read ≤ rest.length + 1 := by
  unfold quotationLength at h
  split at h
  · have := quotationFrom_unclosed h
    simp only [List.length_cons]
    omega
  · have := quotationFrom_unclosed h
    omega

/-- A token that cannot be read is a literal of which something was read. -/
theorem lexeme_unclosed {first : Char} {rest : List Char} {unclosed : Unclosed}
    (h : lexeme first rest = .error unclosed) :
    1 ≤ unclosed.read ∧ unclosed.read ≤ rest.length + 1 := by
  unfold lexeme at h
  split at h
  case h_11 => split at h <;> cases h
  case h_12 =>
    cases hlength : quotationLength rest with
    | error other =>
      rw [hlength] at h
      cases h
      exact quotationLength_unclosed hlength
    | ok n =>
      rw [hlength] at h
      cases h
  case h_15 =>
    split at h
    · cases h
    · split at h
      · split at h <;> cases h
      · split at h <;> cases h
  all_goals cases h

end Token

/-! ### One read -/

namespace Cursor

theorem Behind.advance_take {source before : List Char} {place : Cursor} {n : Nat}
    (h : place.Behind source before) (hn : n ≤ place.rest.length) :
    (place.advance n).Behind source (before ++ place.rest.take n) := by
  have hparts := (List.take_append_drop n place.rest).symm
  have hlength : (place.rest.take n).length = n := List.length_take_of_le hn
  have hfar := (h.advance hparts).1
  rwa [hlength] at hfar

def AtEnd (outcome : Except ScanError Placed) : Prop :=
  ∃ placed, outcome = .ok placed ∧ placed.token = .endOfInput

/-- What a read passes, whether it gives a token or fails. -/
theorem Behind.next {source before : List Char} {place : Cursor} (h : place.Behind source before) :
    ∃ passed, place.next.2.Behind source (before ++ passed) ∧
      (AtEnd place.next.1 ∨ passed ≠ []) := by
  unfold Cursor.next
  split
  · next opened hgap =>
    -- a comment is open up to the end of the source, and its opening was passed
    refine ⟨place.rest, ?_, .inr ?_⟩
    · simpa using h.advance_take (Nat.le_refl _)
    · intro hnil
      rw [hnil] at hgap
      cases hgap
  · next n hgap =>
    obtain ⟨gap, rest, hrest, rfl, -, -⟩ := Token.gapLength_eq_ok hgap
    obtain ⟨hhere, hhereRest, -⟩ := h.advance hrest
    generalize place.advance gap.length = here at *
    have hfresh := hhere.forgetNewline
    -- behind the gap, some characters are taken
    have htaken : ∀ {n : Nat}, 1 ≤ n → n ≤ rest.length →
        ∃ passed, (here.forgetNewline.advance n).Behind source (before ++ passed) ∧
          passed ≠ [] := by
      intro n hpos hle
      have hfar := hfresh.advance_take (n := n) (by rw [← hhereRest] at hle; exact hle)
      refine ⟨_, by rwa [List.append_assoc] at hfar, ?_⟩
      have hne : here.forgetNewline.rest.take n ≠ [] := by
        rw [← List.length_pos_iff, List.length_take]
        show 0 < min n here.rest.length
        rw [hhereRest]
        omega
      simp [hne]
    unfold Cursor.readToken
    split
    · exact ⟨gap, hfresh, .inl ⟨_, rfl, rfl⟩⟩
    · next first tail hcons =>
      rw [hhereRest] at hcons
      have hlength : rest.length = tail.length + 1 := by rw [hcons, List.length_cons]
      split
      · next unclosed hlexeme =>
        obtain ⟨hpos, hle⟩ := Token.lexeme_unclosed hlexeme
        obtain ⟨passed, hbehind, hne⟩ := htaken hpos (by omega)
        exact ⟨passed, hbehind, .inr hne⟩
      · next found hlexeme =>
        obtain ⟨hpos, hle, -⟩ := Token.lexeme_spelling hlexeme
        obtain ⟨passed, hbehind, hne⟩ := htaken hpos (by omega)
        exact ⟨passed, hbehind, .inr hne⟩

/-- The span of a token that is read has the position of its start. -/
theorem Behind.next_span {source before : List Char} {place : Cursor} {placed : Placed}
    (h : place.Behind source before) (hnext : place.next.1 = .ok placed) :
    placed.span.Lies source := by
  obtain ⟨gap, rest, hrest, -, hfound⟩ := next_eq_ok h (Prod.ext hnext rfl)
  rcases hfound with ⟨-, -, rfl⟩ | ⟨-, text, tail, rfl, -, hspan, -⟩
  · exact ⟨[], source, [], by simp, rfl⟩
  · refine ⟨text, before ++ gap, tail, ?_, hspan⟩
    rw [h.source_eq, hrest]
    simp

/-! ### Any number of reads -/

def afterReads (place : Cursor) : Nat → Cursor
  | 0 => place
  | count + 1 => (place.afterReads count).next.2

theorem afterReads_next (place : Cursor) (count : Nat) :
    place.next.2.afterReads count = place.afterReads (count + 1) := by
  induction count with
  | zero => rfl
  | succ count ih => rw [afterReads, ih]; rfl

theorem readTokens_succ (place : Cursor) (count : Nat) :
    readTokens (count + 1) place =
      readTokens count place ++ [(place.afterReads count).next.1] := by
  induction count generalizing place with
  | zero => rfl
  | succ count ih =>
    show place.next.1 :: readTokens (count + 1) place.next.2 = _
    rw [ih, afterReads_next]
    rfl

theorem behind_afterReads (source : List Char) (count : Nat) :
    ∃ before, ((Cursor.start source).afterReads count).Behind source before := by
  induction count with
  | zero => exact ⟨[], behind_start source⟩
  | succ count ih =>
    obtain ⟨before, hbehind⟩ := ih
    obtain ⟨passed, hnext, -⟩ := hbehind.next
    exact ⟨before ++ passed, hnext⟩

/-- A cursor in a source that knows how far it has come: the lines are counted, and the
    last of them starts where the cursor says. -/
structure Counted (source : List Char) (place : Cursor) : Prop where
  /-- The cursor stands between two characters, or at an end. -/
  boundary : Text.isBoundary place.offset source = true
  rest : place.rest = Text.dropBytes place.offset source
  line : place.line = 1 + (Text.takeBytes place.offset source).count '\n'
  lineStart : Text.StartsLine (Text.takeBytes place.offset source) place.lineStart
  inside : place.lineStart ≤ place.offset ∧ place.offset ≤ Text.width source

theorem Behind.counted {source before : List Char} {place : Cursor}
    (h : place.Behind source before) : place.Counted source := by
  have hsource := h.source_eq
  have hoffset := h.offset_eq
  have hstart := h.lineStart_eq
  have htake : Text.takeBytes place.offset source = before := by
    rw [hsource, hoffset, Text.takeBytes_width_append]
  have hdrop : Text.dropBytes place.offset source = place.rest := by
    rw [hsource, hoffset, Text.dropBytes_width_append]
  have hwidth : Text.width source = Text.width before + Text.width place.rest := by
    rw [← Text.width_append, ← hsource]
  constructor
  case boundary =>
    rw [hsource]
    exact Text.isBoundary_of_width hoffset.symm
  case rest => exact hdrop.symm
  case line => rw [htake, h.line_eq, Nat.add_comm]
  case lineStart =>
    rw [htake]
    exact Text.startsLine_of_lastLine hstart
  case inside => omega

end Cursor

theorem Span.Lies.position_eq {source : List Char} {span : Span} (h : span.Lies source) :
    span.position = Position.behind (Text.takeBytes span.start source) := by
  obtain ⟨text, before, after, rfl, rfl⟩ := h
  have htake : Text.takeBytes (Text.width before) (before ++ text ++ after) = before := by
    rw [List.append_assoc, Text.takeBytes_width_append]
  simp only [Span.across, Span.position, htake]

/-- **However many tokens are read, the cursor has counted what lies behind it.**  Every
    token that was read is at the line and the column of its start, and the next read
    moves the cursor on, unless it has come to the end of input. -/
theorem Cursor.counted_afterReads (source : List Char) (count : Nat) :
    ((Cursor.start source).afterReads count).Counted source ∧
      (∀ placed, .ok placed ∈ readTokens count (Cursor.start source) →
        Text.isBoundary placed.span.start source = true ∧
          placed.span.position = Position.behind (Text.takeBytes placed.span.start source)) ∧
      (Cursor.AtEnd ((Cursor.start source).afterReads count).next.1 ∨
        ((Cursor.start source).afterReads count).offset <
          ((Cursor.start source).afterReads (count + 1)).offset) := by
  obtain ⟨before, hbehind⟩ := Cursor.behind_afterReads source count
  refine ⟨hbehind.counted, ?_, ?_⟩
  · intro placed hmem
    have hlies : placed.span.Lies source := by
      clear hbehind
      induction count with
      | zero => cases hmem
      | succ count ih =>
        rw [Cursor.readTokens_succ] at hmem
        rcases List.mem_append.1 hmem with hmem | hlast
        · exact ih hmem
        · obtain ⟨before, hbehind⟩ := Cursor.behind_afterReads source count
          exact hbehind.next_span (List.mem_singleton.1 hlast).symm
    exact ⟨hlies.boundary.1, hlies.position_eq⟩
  · obtain ⟨passed, hnext, hend | hne⟩ := hbehind.next
    · exact .inl hend
    · right
      have hpos := Text.width_pos hne
      have hoffset := hnext.offset_eq
      rw [Text.width_append] at hoffset
      show _ < (Cursor.next _).2.offset
      rw [hoffset, hbehind.offset_eq]
      omega

end Memberwise
