/-
  Memberwise/Proofs/Quoting.lean
  ==============================
  **Which values have a literal, and that a literal shows its value.**

  The literal for a value is one string token if the value keeps to one line, and no token
  at all otherwise: no escape stands for a line feed, so the literal is still open where
  its line ends.  Escaping is undone by dropping each backslash and keeping what comes
  behind it, so two values never share a literal.
-/
import Memberwise.Proofs.Literals

namespace Memberwise

/-! ### Undoing escapes -/

/-- A text without its escapes: a backslash is dropped, and the character behind it is
    kept, whatever it is. -/
def StringLiteral.unescaped : List Char → List Char
  | [] => []
  | '\\' :: c :: rest => c :: unescaped rest
  | c :: rest => c :: unescaped rest

/-- What a literal with single quotes says: the text between its quotes, without escapes.
    A literal that lacks one of the quotes says nothing. -/
def StringLiteral.value? (literal : StringLiteral) : Option String :=
  match literal.source.toList with
  | '"' :: rest =>
    if rest.getLast? = some '"' then some (String.ofList (unescaped rest.dropLast)) else none
  | _ => none

namespace StringLiteral

theorem unescaped_cons {c : Char} (h : c ≠ '\\') (rest : List Char) :
    unescaped (c :: rest) = c :: unescaped rest := by
  rw [unescaped]
  intro _ _ hc
  exact absurd hc h

theorem unescaped_escaped (value : List Char) : unescaped (escaped value) = value := by
  induction value with
  | nil => rfl
  | cons c value ih =>
    rw [escaped] at ih
    rw [escaped, List.flatMap_cons]
    split
    · rw [List.cons_append, List.singleton_append, unescaped, ih]
    · next hc =>
      rw [not_or] at hc
      rw [List.singleton_append, unescaped_cons hc.2, ih]

theorem toList_source_quoted (value : String) :
    (quoted value).source.toList = '"' :: (escaped value.toList ++ ['"']) := by
  rw [quoted, String.toList_ofList, List.cons_append]

theorem value?_quoted (value : String) : (quoted value).value? = some value := by
  rw [value?, toList_source_quoted]
  simp only [List.getLast?_concat, List.dropLast_concat, if_true, unescaped_escaped,
    String.ofList_toList]

end StringLiteral

/-! ### Values on several lines -/

namespace Token

/-- An escaped value with a line feed is not read to its end, whatever comes behind it. -/
theorem quotationFrom_escaped_newline {opened read : Nat} {value : List Char}
    (after : List Char) (hline : '\n' ∈ value) :
    ∃ stop, quotationFrom [.line opened] read (StringLiteral.escaped value ++ after) =
      .error ⟨opened, stop⟩ := by
  induction value generalizing read with
  | nil => cases hline
  | cons c value ih =>
    rw [StringLiteral.escaped, List.flatMap_cons]
    rw [StringLiteral.escaped] at ih
    split
    · next hc =>
      -- neither a quote nor a backslash is the line feed, so that one comes later
      have hne : c ≠ '\n' ∧ c ≠ '(' := by rcases hc with rfl | rfl <;> decide
      have hrest : '\n' ∈ value := (List.mem_cons.1 hline).resolve_left (Ne.symm hne.1)
      rw [List.append_assoc, List.cons_append, List.cons_append, List.nil_append,
        quotationFrom_line_escape hne.1 hne.2]
      exact ih hrest
    · next hc =>
      rw [not_or] at hc
      rw [List.append_assoc, List.cons_append, List.nil_append]
      by_cases hbreak : c = '\n'
      · subst hbreak
        exact ⟨read + 1, by rw [quotationFrom]⟩
      · have hrest : '\n' ∈ value := (List.mem_cons.1 hline).resolve_left (Ne.symm hbreak)
        rw [quotationFrom_line_plain hc.1 hbreak hc.2]
        exact ih hrest

/-- The literal for a value with a line feed has no end; it is the one that opened first. -/
theorem quotationLength_escaped_newline {value : List Char} (hline : '\n' ∈ value) :
    ∃ stop, quotationLength (StringLiteral.escaped value ++ ['"']) = .error ⟨0, stop⟩ := by
  obtain ⟨stop, hstop⟩ := @quotationFrom_escaped_newline 0 1 value ['"'] hline
  refine ⟨stop, ?_⟩
  rw [quotationLength_of_ne, hstop]
  rintro ⟨more, hmore⟩
  have hhead := head?_escaped_ne value
  cases hescaped : StringLiteral.escaped value with
  | nil => rw [hescaped] at hmore; cases hmore
  | cons c rest =>
    rw [hescaped, List.cons_append, List.cons.injEq] at hmore
    rw [hescaped, hmore.1] at hhead
    exact hhead rfl

end Token

/-! ### Literals cut into tokens -/

namespace StringLiteral

/-- The literal for a value on one line is one token. -/
theorem tokenize_quoted {value : String} (hline : '\n' ∉ value.toList) :
    tokenize (quoted value).source.toList =
      .ok ⟨[⟨.string (quoted value).source, Span.across [] (quoted value).source.toList, true⟩],
        ⟨.endOfInput, Span.across (quoted value).source.toList [], false⟩⟩ := by
  obtain ⟨hreads, hstop⟩ := Token.stands_quoted hline [] .nil
  have hnewline := notMem_quoted hline (by decide)
  rw [tokenize_iff_scanned]
  generalize (quoted value).source = source at *
  have hwhole : source.toList = [] ++ [] ++ source.toList ++ [] := by simp
  refine .token hwhole .nil hstop hreads rfl rfl (.finish hwhole rfl ?_)
  simpa using hnewline

/-- The literal for a value on several lines is still open where its first line ends. -/
theorem tokenize_quoted_newline {value : String} (hline : '\n' ∈ value.toList) :
    tokenize (quoted value).source.toList = .error (.unterminatedString ⟨1, 1⟩) := by
  obtain ⟨stop, hstop⟩ := Token.quotationLength_escaped_newline hline
  have hgap : ∀ rest, Token.gapLength ('"' :: rest) = .ok 0 :=
    fun rest => Token.noGap_of_ne (by decide) rest 0
  have hlexeme : Token.lexeme '"' (escaped value.toList ++ ['"']) = .error ⟨0, stop⟩ := by
    rw [Token.lexeme, hstop]
    rfl
  rw [toList_source_quoted, tokenize, tokensFrom, Cursor.next, Cursor.start, hgap]
  simp only [Cursor.advance, Cursor.readToken, hlexeme]
  rfl

/-- **The literal for a value is one string token exactly if the value has no line feed.**
    Otherwise it does not end, and the error points at its first quote.  In both cases it
    shows the value, so that no two values have the same literal. -/
theorem tokenize_quoted_iff (value : String) :
    (tokenize (quoted value).source.toList =
        .ok ⟨[⟨.string (quoted value).source, ⟨0, Text.width (quoted value).source.toList, 1, 1⟩,
            true⟩],
          ⟨.endOfInput, Span.across (quoted value).source.toList [], false⟩⟩ ↔
      '\n' ∉ value.toList) ∧
    (tokenize (quoted value).source.toList = .error (.unterminatedString ⟨1, 1⟩) ↔
      '\n' ∈ value.toList) ∧
    (quoted value).value? = some value ∧
    Function.Injective quoted := by
  have hspan : Span.across [] (quoted value).source.toList =
      ⟨0, Text.width (quoted value).source.toList, 1, 1⟩ := by
    simp [Span.across, Position.behind, Text.lastLine]
  refine ⟨⟨?_, ?_⟩, ⟨?_, tokenize_quoted_newline⟩, value?_quoted value, ?_⟩
  · intro hfound hline
    rw [tokenize_quoted_newline hline] at hfound
    cases hfound
  · intro hline
    rw [← hspan]
    exact tokenize_quoted hline
  · intro hfailed
    by_contra hline
    rw [tokenize_quoted hline] at hfailed
    cases hfailed
  · intro first second hsame
    have hvalue := value?_quoted first
    rw [hsame, value?_quoted second] at hvalue
    exact (Option.some.inj hvalue).symm

end StringLiteral

end Memberwise
