/-
  Memberwise/Proofs/Interpolations.lean
  =====================================
  **String literals that hold string literals.**

  An interpolation holds parentheses and further literals, which hold interpolations of
  their own.  The texts of literals are given here by their parts, to any depth: what stands
  between single quotes (`LineText`), between three quotes (`BlockText`), and between the
  parentheses of an interpolation (`Inserted`).

  A literal with single quotes is read by these parts, and the reader comes out behind each
  part with the same things open as in front of it.  Only the empty literal needs care, since
  with one more quote it looks like the start of a literal with three.

  A literal with three quotes is not read by its parts: the reader does not open the
  interpolations in it, and it ends with the first three quotes that no backslash hides,
  though they may belong to a literal in an interpolation.  Plain characters never show them,
  so it is the interpolations that decide (`showsQuotes`).
-/
import Memberwise.Proofs.Checked.Scanning
import Memberwise.Proofs.Fragments

namespace Memberwise

namespace Token

/-! ### Texts of literals -/

mutual

/-- What stands between the quotes of a literal with single quotes. -/
inductive LineText where
  | done
  | char (c : Char) (plain : c ≠ '"' ∧ c ≠ '\\' ∧ c ≠ '\n') (more : LineText)
  | escape (c : Char) (kept : c ≠ '(' ∧ c ≠ '\n') (more : LineText)
  | interpolation (body : Inserted) (more : LineText)

/-- What stands between the quotes of a literal with three quotes. -/
inductive BlockText where
  | done
  | char (c : Char) (plain : c ≠ '\\') (more : BlockText)
  | escape (c : Char) (kept : c ≠ '(') (more : BlockText)
  | interpolation (body : Inserted) (more : BlockText)

inductive Inserted where
  | done
  | char (c : Char) (plain : c ≠ '"' ∧ c ≠ '(' ∧ c ≠ ')') (more : Inserted)
  | group (inner more : Inserted)
  | line (content : LineText) (more : Inserted)
  | block (content : BlockText) (more : Inserted)

end

mutual

def LineText.text : LineText → List Char
  | .done => []
  | .char c _ more => c :: more.text
  | .escape c _ more => '\\' :: c :: more.text
  | .interpolation body more => '\\' :: '(' :: (body.text ++ ')' :: more.text)

def BlockText.text : BlockText → List Char
  | .done => []
  | .char c _ more => c :: more.text
  | .escape c _ more => '\\' :: c :: more.text
  | .interpolation body more => '\\' :: '(' :: (body.text ++ ')' :: more.text)

def Inserted.text : Inserted → List Char
  | .done => []
  | .char c _ more => c :: more.text
  | .group inner more => '(' :: (inner.text ++ ')' :: more.text)
  | .line content more => '"' :: (content.text ++ '"' :: more.text)
  | .block content more =>
    '"' :: '"' :: '"' :: (content.text ++ '"' :: '"' :: '"' :: more.text)

end

def LineText.literal (content : LineText) : List Char := '"' :: (content.text ++ ['"'])

def BlockText.literal (content : BlockText) : List Char :=
  '"' :: '"' :: '"' :: (content.text ++ ['"', '"', '"'])

theorem LineText.literal_append (content : LineText) (after : List Char) :
    content.literal ++ after = '"' :: (content.text ++ '"' :: after) := by
  simp [literal]

theorem BlockText.literal_append (content : BlockText) (after : List Char) :
    content.literal ++ after =
      '"' :: '"' :: '"' :: (content.text ++ '"' :: '"' :: '"' :: after) := by
  simp [literal]

/-! ### Quotes that show -/

/-- Whether three quotes in a row stand in a text, with none of them behind a backslash. -/
def showsQuotes : List Char → Bool
  | '\\' :: _ :: rest => showsQuotes rest
  | '"' :: '"' :: '"' :: _ => true
  | _ :: rest => showsQuotes rest
  | [] => false

/-- No plain character starts three quotes in a row, those behind the text included.  What
    the interpolations hold is left open. -/
def BlockText.Unbroken : BlockText → Prop
  | .done => True
  | .char c _ more => ¬ ['"', '"', '"'] <+: c :: (more.text ++ ['"', '"', '"']) ∧ more.Unbroken
  | .escape _ _ more => more.Unbroken
  | .interpolation _ more => more.Unbroken

def BlockText.inserted : BlockText → List Inserted
  | .done => []
  | .char _ _ more => more.inserted
  | .escape _ _ more => more.inserted
  | .interpolation body more => body :: more.inserted

mutual

/-- No empty literal is directly followed by a quote, and no literal with three quotes shows
    quotes in its interpolations. -/
def LineText.Apart : LineText → Prop
  | .done => True
  | .char _ _ more => more.Apart
  | .escape _ _ more => more.Apart
  | .interpolation body more => body.Apart ∧ more.Apart

@[inherit_doc LineText.Apart]
def Inserted.Apart : Inserted → Prop
  | .done => True
  | .char _ _ more => more.Apart
  | .group inner more => inner.Apart ∧ more.Apart
  | .line content more =>
    content.Apart ∧ (content.text = [] → more.text.head? ≠ some '"') ∧ more.Apart
  | .block content more =>
    content.Unbroken ∧ (∀ body ∈ content.inserted, showsQuotes body.text = false) ∧ more.Apart

end

/-! ### Literals with three quotes -/

section Blocks

variable {opened read : Nat} {outer : List Quotation}

theorem quotationFrom_block_escape (c : Char) (rest : List Char) :
    quotationFrom (.block opened :: outer) read ('\\' :: c :: rest) =
      quotationFrom (.block opened :: outer) (read + 2) rest := by
  rw [quotationFrom]

/-- A parenthesis keeps the quotes in front of it from being more than they are. -/
theorem not_quotes_append {rest : List Char} (after : List Char)
    (h : ∀ more, rest ≠ '"' :: '"' :: more) :
    ¬ ∃ more, rest ++ ')' :: after = '"' :: '"' :: more := by
  rintro ⟨more, hmore⟩
  match rest with
  | [] => simp at hmore
  | [_] => simp at hmore
  | d :: e :: rest =>
    rw [List.cons_append, List.cons_append, List.cons.injEq, List.cons.injEq] at hmore
    obtain ⟨rfl, rfl, -⟩ := hmore
    exact h rest rfl

/-- A text that shows no quotes is passed with the parenthesis behind it. -/
theorem quotationFrom_block_hidden {body : List Char} (after : List Char)
    (h : showsQuotes body = false) :
    quotationFrom (.block opened :: outer) read (body ++ ')' :: after) =
      quotationFrom (.block opened :: outer) (read + body.length + 1) after := by
  fun_induction showsQuotes body generalizing read with
  | case1 c rest ih =>
    rw [List.cons_append, List.cons_append, quotationFrom_block_escape, ih h]
    congr 1
    simp only [List.length_cons]
    omega
  | case2 => cases h
  | case3 c rest hpair hquotes ih =>
    by_cases hescape : c = '\\'
    · -- a backslash at the end takes the parenthesis with it
      subst hescape
      cases rest with
      | nil => exact quotationFrom_block_escape _ _
      | cons d rest => exact absurd rfl (hpair d rest rfl)
    · rw [List.cons_append, quotationFrom_block_plain hescape fun hthree =>
        not_quotes_append after (fun more => hquotes more hthree.1) hthree.2, ih h]
      congr 1
      simp only [List.length_cons]
      omega
  | case4 =>
    rw [List.nil_append, quotationFrom_block_plain (by decide) (by simp)]
    rfl

/-- A literal ends within a text that shows quotes. -/
theorem quotationFrom_block_shown {body : List Char} (after : List Char)
    (h : showsQuotes body = true) :
    ∃ n ≤ body.length,
      quotationFrom [.block opened] read (body ++ ')' :: after) = .ok (read + n) := by
  fun_induction showsQuotes body generalizing read with
  | case1 c rest ih =>
    obtain ⟨n, hle, hread⟩ := @ih (read + 2) h
    refine ⟨n + 2, by simpa using hle, ?_⟩
    rw [List.cons_append, List.cons_append, quotationFrom_block_escape, hread, Nat.add_assoc,
      Nat.add_comm 2]
  | case2 rest => exact ⟨3, by simp, by simp [quotationFrom]⟩
  | case3 c rest hpair hquotes ih =>
    by_cases hescape : c = '\\'
    · subst hescape
      cases rest with
      | nil => cases h
      | cons d rest => exact absurd rfl (hpair d rest rfl)
    · obtain ⟨n, hle, hread⟩ := @ih (read + 1) h
      refine ⟨n + 1, by simpa using hle, ?_⟩
      rw [List.cons_append, quotationFrom_block_plain hescape fun hthree =>
        not_quotes_append after (fun more => hquotes more hthree.1) hthree.2, hread,
        Nat.add_assoc, Nat.add_comm 1]
  | case4 => cases h

/-- A plain character is passed, if it does not start three quotes in a row. -/
theorem quotationFrom_block_char {c : Char} {text : List Char} (after : List Char)
    (hescape : c ≠ '\\') (hquotes : ¬ ['"', '"', '"'] <+: c :: (text ++ ['"', '"', '"'])) :
    quotationFrom (.block opened :: outer) read (c :: (text ++ '"' :: '"' :: '"' :: after)) =
      quotationFrom (.block opened :: outer) (read + 1) (text ++ '"' :: '"' :: '"' :: after) := by
  apply quotationFrom_block_plain hescape
  rintro ⟨rfl, more, hmore⟩
  apply hquotes
  match text with
  | [] => exact ⟨['"'], rfl⟩
  | [d] =>
    obtain ⟨rfl, -⟩ := List.cons.inj hmore
    exact ⟨['"', '"'], rfl⟩
  | d :: e :: text =>
    rw [List.cons_append, List.cons_append, List.cons.injEq, List.cons.injEq] at hmore
    obtain ⟨rfl, rfl, -⟩ := hmore
    exact ⟨text ++ ['"', '"', '"'], rfl⟩

/-- A literal with three quotes is read to its end, if its interpolations show no quotes. -/
theorem BlockText.quotationFrom_text (after : List Char) : ∀ (content : BlockText) (read : Nat),
    content.Unbroken → (∀ body ∈ content.inserted, showsQuotes body.text = false) →
    quotationFrom (.block opened :: outer) read (content.text ++ '"' :: '"' :: '"' :: after) =
      quotationFrom outer (read + content.text.length + 3) after
  | .done, read, _, _ => by rw [text, List.nil_append, quotationFrom]; rfl
  | .char c plain more, read, hunbroken, hhidden => by
    rw [text, List.cons_append, quotationFrom_block_char after plain hunbroken.1,
      quotationFrom_text after more _ hunbroken.2 hhidden]
    congr 1
    simp only [List.length_cons]
    omega
  | .escape c kept more, read, hunbroken, hhidden => by
    rw [text, List.cons_append, List.cons_append, quotationFrom_block_escape,
      quotationFrom_text after more _ hunbroken hhidden]
    congr 1
    simp only [List.length_cons]
    omega
  | .interpolation body more, read, hunbroken, hhidden => by
    obtain ⟨hbody, hmore⟩ := List.forall_mem_cons.1 hhidden
    rw [text, List.cons_append, List.cons_append, List.append_assoc, List.cons_append,
      quotationFrom_block_escape, quotationFrom_block_hidden _ hbody,
      quotationFrom_text after more _ hunbroken hmore]
    congr 1
    simp only [List.length_cons, List.length_append]
    omega

/-- A literal with three quotes ends early, if an interpolation shows quotes. -/
theorem BlockText.exists_quotationFrom_lt (opened : Nat) (after : List Char) :
    ∀ (content : BlockText) (read : Nat), content.Unbroken →
    (∃ body ∈ content.inserted, showsQuotes body.text = true) →
    ∃ n < content.text.length,
      quotationFrom [.block opened] read (content.text ++ '"' :: '"' :: '"' :: after) =
        .ok (read + n)
  | .done, read, _, hshown => absurd hshown (by simp [inserted])
  | .char c plain more, read, hunbroken, hshown => by
    obtain ⟨n, hlt, hread⟩ :=
      exists_quotationFrom_lt opened after more (read + 1) hunbroken.2 hshown
    refine ⟨n + 1, by simpa [text] using hlt, ?_⟩
    rw [text, List.cons_append, quotationFrom_block_char after plain hunbroken.1, hread,
      Nat.add_assoc, Nat.add_comm 1]
  | .escape c kept more, read, hunbroken, hshown => by
    obtain ⟨n, hlt, hread⟩ :=
      exists_quotationFrom_lt opened after more (read + 2) hunbroken hshown
    refine ⟨n + 2, by simpa [text] using hlt, ?_⟩
    rw [text, List.cons_append, List.cons_append, quotationFrom_block_escape, hread,
      Nat.add_assoc, Nat.add_comm 2]
  | .interpolation body more, read, hunbroken, hshown => by
    rw [text, List.cons_append, List.cons_append, List.append_assoc, List.cons_append,
      quotationFrom_block_escape]
    by_cases hbody : showsQuotes body.text = true
    · obtain ⟨n, hle, hread⟩ := quotationFrom_block_shown _ hbody
      refine ⟨n + 2, ?_, ?_⟩
      · simp only [List.length_cons, List.length_append]
        omega
      · rw [hread, Nat.add_assoc, Nat.add_comm 2]
    · obtain ⟨other, hmem, hother⟩ := hshown
      have hmore : ∃ body ∈ more.inserted, showsQuotes body.text = true := by
        rcases List.mem_cons.1 hmem with rfl | hmem
        · exact absurd hother hbody
        · exact ⟨other, hmem, hother⟩
      obtain ⟨n, hlt, hread⟩ := exists_quotationFrom_lt opened after more _ hunbroken hmore
      refine ⟨n + body.text.length + 3, ?_, ?_⟩
      · simp only [List.length_cons, List.length_append]
        omega
      · rw [quotationFrom_block_hidden _ (Bool.eq_false_iff.2 hbody), hread]
        congr 1
        omega

end Blocks

/-! ### Literals with single quotes -/

theorem LineText.head?_text_ne (content : LineText) : content.text.head? ≠ some '"' := by
  cases content with
  | done => simp [text]
  | char c plain more => simpa [text] using plain.1
  | escape c kept more => simp [text]
  | interpolation body more => simp [text]

/-- Behind the first quote of a literal there are two more only if it is empty, and a third
    one follows. -/
theorem LineText.not_quotes (content : LineText) {after : List Char}
    (hafter : content.text = [] → after.head? ≠ some '"') :
    ¬ ∃ more, content.text ++ '"' :: after = '"' :: '"' :: more := by
  rintro ⟨more, hmore⟩
  have hhead := content.head?_text_ne
  cases htext : content.text with
  | nil =>
    rw [htext, List.nil_append, List.cons.injEq] at hmore
    exact hafter htext (by rw [hmore.2]; rfl)
  | cons c rest =>
    rw [htext] at hmore hhead
    rw [List.cons_append, List.cons.injEq] at hmore
    exact hhead (congrArg some hmore.1)

theorem head?_append_ne {text after : List Char} {c : Char} (htext : text.head? ≠ some c)
    (hafter : after.head? ≠ some c) : (text ++ after).head? ≠ some c := by
  cases text with
  | nil => exact hafter
  | cons d text => exact htext

mutual

/-- A literal with single quotes is read to its end, whatever is open around it. -/
theorem LineText.quotationFrom_text (opened : Nat) : ∀ (content : LineText) (read : Nat)
    (outer : List Quotation) (after : List Char), content.Apart →
    quotationFrom (.line opened :: outer) read (content.text ++ '"' :: after) =
      quotationFrom outer (read + content.text.length + 1) after
  | .done, read, outer, after, _ => by rw [LineText.text, List.nil_append, quotationFrom]; rfl
  | .char c plain more, read, outer, after, hmore => by
    rw [LineText.text, List.cons_append, quotationFrom_line_plain plain.1 plain.2.2 plain.2.1,
      more.quotationFrom_text opened _ _ _ hmore]
    congr 1
    simp only [List.length_cons]
    omega
  | .escape c kept more, read, outer, after, hmore => by
    rw [LineText.text, List.cons_append, List.cons_append,
      quotationFrom_line_escape kept.2 kept.1, more.quotationFrom_text opened _ _ _ hmore]
    congr 1
    simp only [List.length_cons]
    omega
  | .interpolation body more, read, outer, after, ⟨hbody, hmore⟩ => by
    rw [LineText.text, List.cons_append, List.cons_append, List.append_assoc, List.cons_append,
      quotationFrom, body.quotationFrom_text opened 0 _ _ _ hbody (by simp), quotationFrom,
      more.quotationFrom_text opened _ _ _ hmore]
    congr 1
    simp only [List.length_cons, List.length_append]
    omega

/-- What an interpolation holds leaves the interpolation open. -/
theorem Inserted.quotationFrom_text (opened : Nat) : ∀ (body : Inserted) (depth read : Nat)
    (outer : List Quotation) (after : List Char), body.Apart → after.head? ≠ some '"' →
    quotationFrom (.interpolation opened depth :: outer) read (body.text ++ after) =
      quotationFrom (.interpolation opened depth :: outer) (read + body.text.length) after
  | .done, _, _, _, _, _, _ => rfl
  | .char c plain more, depth, read, outer, after, hmore, hafter => by
    rw [Inserted.text, List.cons_append,
      quotationFrom_interpolation_plain plain.2.1 plain.2.2 plain.1,
      more.quotationFrom_text opened _ _ _ _ hmore hafter]
    congr 1
    simp only [List.length_cons]
    omega
  | .group inner more, depth, read, outer, after, ⟨hinner, hmore⟩, hafter => by
    rw [Inserted.text, List.cons_append, List.append_assoc, List.cons_append, quotationFrom,
      inner.quotationFrom_text opened _ _ _ _ hinner (by simp), quotationFrom,
      more.quotationFrom_text opened _ _ _ _ hmore hafter]
    congr 1
    simp only [List.length_cons, List.length_append]
    omega
  | .line content more, depth, read, outer, after, ⟨hcontent, hempty, hmore⟩, hafter => by
    have hnext : content.text = [] → (more.text ++ after).head? ≠ some '"' :=
      fun hnone => head?_append_ne (hempty hnone) hafter
    rw [Inserted.text, List.cons_append, List.append_assoc, List.cons_append,
      quotationFrom_interpolation_quote (content.not_quotes hnext),
      content.quotationFrom_text read _ _ _ hcontent,
      more.quotationFrom_text opened _ _ _ _ hmore hafter]
    congr 1
    simp only [List.length_cons, List.length_append]
    omega
  | .block content more, depth, read, outer, after, ⟨hunbroken, hhidden, hmore⟩, hafter => by
    rw [Inserted.text, List.cons_append, List.cons_append, List.cons_append, List.append_assoc,
      List.cons_append, List.cons_append, List.cons_append, quotationFrom,
      content.quotationFrom_text _ _ hunbroken hhidden,
      more.quotationFrom_text opened _ _ _ _ hmore hafter]
    congr 1
    simp only [List.length_cons, List.length_append]
    omega

end

end Token

/-! ### The token at the start of a literal -/

namespace Cursor

/-- The next token at a place behind `before` is a string with the given text, and reading
    goes on right behind that text. -/
def FindsString (place : Cursor) (source before text : List Char) : Prop :=
  ∃ stop : Cursor, stop.Behind source (before ++ text) ∧
    place.next = (.ok ⟨.string (String.ofList text), Span.across before text,
      place.passedNewline⟩, stop)

variable {source before text after : List Char} {place : Cursor}

theorem Behind.findsString {rest : List Char} (hplace : place.Behind source before)
    (hrest : place.rest = '"' :: rest) (htext : '"' :: rest = text ++ after)
    (hlength : Token.quotationLength rest = .ok text.length) :
    place.FindsString source before text := by
  obtain ⟨hstop, -⟩ := hplace.forgetNewline.advance (hrest.trans htext)
  have hgap : Token.gapLength place.rest = .ok 0 := by
    rw [hrest]
    exact Token.noGap_of_ne (by decide) rest 0
  have hlexeme : Token.lexeme '"' rest = .ok ⟨.string, text.length⟩ := by
    rw [Token.lexeme, hlength]
    rfl
  have htake : ('"' :: rest).take text.length = text := by rw [htext, List.take_left]
  refine ⟨_, hstop, ?_⟩
  rw [Cursor.next, hgap]
  simp only [Cursor.advance, readToken, hrest, hlexeme, htake, hplace.spanTo hstop]

/-- There is one token at a place. -/
theorem FindsString.unique {other : List Char} (h : place.FindsString source before text)
    (hother : place.FindsString source before other) : text = other := by
  obtain ⟨_, -, hnext⟩ := h
  obtain ⟨_, -, hnext'⟩ := hother
  rw [hnext] at hnext'
  injection hnext' with htoken
  injection htoken with hplaced
  injection hplaced with hstring
  injection hstring with hlist
  exact String.ofList_inj.1 hlist

/-- **A literal with single quotes is one string token, however deep its interpolations go.**
    No empty literal in it may be directly followed by a quote, and neither may the whole:
    two quotes with a third one behind them are the start of another sort of literal. -/
theorem Behind.findsString_line {content : Token.LineText} (hplace : place.Behind source before)
    (hrest : place.rest = content.literal ++ after) (hafter : after.head? ≠ some '"')
    (hapart : content.Apart) : place.FindsString source before content.literal := by
  have hparts := content.literal_append after
  refine hplace.findsString (hrest.trans hparts) hparts.symm ?_
  rw [Token.quotationLength_of_ne (content.not_quotes fun _ => hafter),
    content.quotationFrom_text 0 1 [] after hapart, Token.quotationFrom]
  congr 1
  simp only [Token.LineText.literal, List.length_cons, List.length_append, List.length_nil]
  omega

/-- What stands between the quotes of a literal with an empty literal in its interpolation, and
    another one with an interpolation of its own. -/
def nestedLine : Token.LineText :=
  .interpolation (.line .done (.char '+' (by decide) (.group (.line
    (.escape '"' (by decide) (.interpolation (.char 'x' (by decide) .done) .done)) .done) .done)))
    (.char '!' (by decide) .done)

theorem findsString_line_nested :
    nestedLine.literal = "\"\\(\"\"+(\"\\\"\\(x)\"))!\"".toList ∧ nestedLine.Apart ∧
    (start (nestedLine.literal ++ [','])).FindsString (nestedLine.literal ++ [',']) []
      nestedLine.literal := by
  have hapart : nestedLine.Apart :=
    ⟨⟨trivial, fun _ => by decide, ⟨⟨trivial, trivial⟩, nofun, trivial⟩, trivial⟩, trivial⟩
  exact ⟨rfl, hapart, (behind_start _).findsString_line rfl (by decide) hapart⟩

/-- A literal with three quotes is one string token, if its interpolations show no quotes. -/
theorem Behind.findsString_block {content : Token.BlockText}
    (hplace : place.Behind source before) (hrest : place.rest = content.literal ++ after)
    (hunbroken : content.Unbroken)
    (hhidden : ∀ body ∈ content.inserted, Token.showsQuotes body.text = false) :
    place.FindsString source before content.literal := by
  have hparts := content.literal_append after
  refine hplace.findsString (hrest.trans hparts) hparts.symm ?_
  rw [Token.quotationLength, content.quotationFrom_text after 3 hunbroken hhidden,
    Token.quotationFrom]
  congr 1
  simp only [Token.BlockText.literal, List.length_cons, List.length_append, List.length_nil]
  omega

/-- A literal with three quotes is cut off, if an interpolation shows quotes. -/
theorem Behind.findsString_cut {content : Token.BlockText}
    (hplace : place.Behind source before) (hrest : place.rest = content.literal ++ after)
    (hunbroken : content.Unbroken)
    (hshown : ∃ body ∈ content.inserted, Token.showsQuotes body.text = true) :
    ∃ text, text <+: content.literal ∧ text ≠ content.literal ∧
      place.FindsString source before text := by
  obtain ⟨n, hlt, hread⟩ := content.exists_quotationFrom_lt 0 after 3 hunbroken hshown
  have hparts := content.literal_append after
  have hlong : 3 + n < content.literal.length := by
    simp only [Token.BlockText.literal, List.length_cons, List.length_append]
    omega
  have hlength : (content.literal.take (3 + n)).length = 3 + n :=
    List.length_take_of_le (Nat.le_of_lt hlong)
  have hcut : content.literal ++ after =
      content.literal.take (3 + n) ++ (content.literal.drop (3 + n) ++ after) := by
    rw [← List.append_assoc, List.take_append_drop]
  refine ⟨content.literal.take (3 + n), List.take_prefix _ _, ?_, ?_⟩
  · intro hwhole
    rw [hwhole] at hlength
    omega
  · exact hplace.findsString (hrest.trans hparts) (hparts.symm.trans hcut)
      (by rw [hlength]; exact hread)

/-- **A literal with three quotes is one string token exactly if none of its interpolations
    shows three quotes in a row.**  In any case there is a string token at its start; one that
    is not the literal ends inside it. -/
theorem Behind.findsString_block_iff {content : Token.BlockText}
    (hplace : place.Behind source before) (hrest : place.rest = content.literal ++ after)
    (hunbroken : content.Unbroken) :
    (∃ text, text <+: content.literal ∧ place.FindsString source before text) ∧
    (place.FindsString source before content.literal ↔
      ∀ body ∈ content.inserted, Token.showsQuotes body.text = false) := by
  by_cases hshown : ∃ body ∈ content.inserted, Token.showsQuotes body.text = true
  · obtain ⟨text, hpart, hne, hfinds⟩ := hplace.findsString_cut hrest hunbroken hshown
    refine ⟨⟨text, hpart, hfinds⟩, ?_, ?_⟩
    · intro hwhole
      exact absurd (hfinds.unique hwhole) hne
    · intro hhidden
      obtain ⟨body, hbody, hquotes⟩ := hshown
      rw [hhidden body hbody] at hquotes
      cases hquotes
  · have hhidden : ∀ body ∈ content.inserted, Token.showsQuotes body.text = false := by
      intro body hbody
      rw [Bool.eq_false_iff]
      exact fun hquotes => hshown ⟨body, hbody, hquotes⟩
    have hwhole := hplace.findsString_block hrest hunbroken hhidden
    exact ⟨⟨_, List.prefix_refl _, hwhole⟩, fun _ => hhidden, fun _ => hwhole⟩

/-- What stands between the quotes of a literal with a literal of its kind in its
    interpolation. -/
def nestedBlock : Token.BlockText :=
  .interpolation (.block (.char 'x' (by decide) .done) .done) .done

theorem findsString_block_iff_nested :
    nestedBlock.literal = "\"\"\"\\(\"\"\"x\"\"\")\"\"\"".toList ∧ nestedBlock.Unbroken ∧
    (∃ text, text <+: nestedBlock.literal ∧
      (start nestedBlock.literal).FindsString nestedBlock.literal [] text) ∧
    ¬ (start nestedBlock.literal).FindsString nestedBlock.literal [] nestedBlock.literal := by
  obtain ⟨hfinds, hwhole⟩ := (behind_start nestedBlock.literal).findsString_block_iff
    (List.append_nil _).symm trivial
  refine ⟨rfl, trivial, hfinds, ?_⟩
  rw [hwhole]
  intro hhidden
  cases hhidden _ List.mem_cons_self

end Cursor

end Memberwise
