/-
  Memberwise/Proofs/Breaks.lean
  =============================
  **Which tokens are on a new line.**

  A token is flagged if a line feed was read since the token before it began.  So the
  flag does not only tell of the gap between the two: a string literal that goes over
  several lines flags the token behind it, though that token may stand on the line on
  which the literal ends.  No other token holds a line feed, and so this is the only
  way in which the flag and the gap differ.
-/
import Mathlib.Data.List.Chain
import Memberwise.Proofs.Locality
import Memberwise.Proofs.Tiling

namespace Memberwise

/-- Of all tokens, only string literals hold line feeds. -/
theorem Token.Reads.newline_mem_iff {token : Token} {text after : List Char}
    (h : token.Reads text after) (hstop : NoGap (text ++ after)) :
    '\n' ∈ text ↔ ∃ word, token = .string word ∧ '\n' ∈ word.toList := by
  constructor
  · intro hline
    obtain ⟨first, rest, found, hparts, hfound, hlength, rfl⟩ := h
    obtain ⟨_, w, rfl⟩ := List.exists_cons_of_ne_nil (List.ne_nil_of_mem hline)
    rw [List.cons_append, List.cons.injEq] at hparts
    obtain ⟨rfl, rfl⟩ := hparts
    obtain rfl := lexeme_eq_string hfound hlength hstop hline
    obtain ⟨n, -, rfl⟩ := map_eq_ok.1 hfound
    exact ⟨_, rfl, by rwa [String.toList_ofList]⟩
  · rintro ⟨word, rfl, hline⟩
    rw [← h.spelling_eq]
    exact hline

namespace Scanned

variable {source before : List Char} {flag : Bool} {tokens : List Placed} {finish : Placed}

/-- The flag of the next token, from what is known at a place in front of it. -/
theorem head_afterNewline (h : Scanned source flag before tokens finish) :
    ∃ next rest, tokens ++ [finish] = next :: rest ∧ (next.afterNewline = true ↔
      flag = true ∨ '\n' ∈ Text.slice source (Text.width before) next.span.start) := by
  cases h with
  | @finish _ _ gap placed hsource hgap hplaced =>
    have hstart : finish.span.start = Text.width (before ++ gap) := by rw [hplaced, hsource]; rfl
    have hparts : source = before ++ gap ++ [] := by simpa using hsource
    refine ⟨finish, [], rfl, ?_⟩
    rw [(cut_gap hparts hstart).1, hplaced]
    simp
  | @token _ _ gap text after placed _ rest hsource hgap hstop hreads hspan hflag hrest =>
    have hstart : placed.span.start = Text.width (before ++ gap) := by rw [hspan]; rfl
    have hparts : source = before ++ gap ++ (text ++ after) := by simpa using hsource
    refine ⟨placed, rest ++ [finish], rfl, ?_⟩
    rw [(cut_gap hparts hstart).1, hflag]
    simp

/-- What the flag of a token tells about the token before it and the gap between the
    two. -/
theorem isChain_afterNewline (h : Scanned source flag before tokens finish) :
    (tokens ++ [finish]).IsChain fun previous next =>
      (next.afterNewline = true ↔
        '\n' ∈ Text.slice source previous.span.stop next.span.start ∨
          ∃ text, previous.token = .string text ∧ '\n' ∈ text.toList) := by
  induction h with
  | finish _ _ _ => exact .singleton _
  | @token flag before gap text after placed finish rest _ _ hstop hreads hspan _ hrest ih =>
    obtain ⟨next, more, hmore, hnext⟩ := hrest.head_afterNewline
    have hend : placed.span.stop = Text.width (before ++ gap ++ text) := by
      rw [hspan, Text.width_append _ text]
      rfl
    rw [hmore] at ih
    rw [List.cons_append, hmore]
    refine .cons_cons ?_ ih
    rw [hnext, hend, ← hreads.newline_mem_iff hstop, or_comm]
    simp

end Scanned

/-- **A token is on a new line if there is a line feed in the gap in front of it, or in
    the string literal in front of that.** -/
theorem tokenize_afterNewline_iff {source : List Char} {tokens : Tokens}
    (h : tokenize source = .ok tokens) :
    tokens.toList.IsChain fun previous next =>
      (next.afterNewline = true ↔
        '\n' ∈ Text.slice source previous.span.stop next.span.start ∨
          ∃ text, previous.token = .string text ∧ '\n' ∈ text.toList) :=
  (tokenize_scanned h).isChain_afterNewline

def literalThenName : String := "\"\"\"\n\"\"\" x"

theorem tokenize_afterNewline_behind_literal :
    ∃ tokens literal name, tokenize literalThenName.toList = .ok tokens ∧
      tokens.body = [literal, name] ∧ name.afterNewline = true ∧
      '\n' ∉ Text.slice literalThenName.toList literal.span.stop name.span.start := by
  have hread : (tokenize literalThenName.toList).toOption.map (·.body) =
      some [⟨.string "\"\"\"\n\"\"\"", ⟨0, 7, 1, 1⟩, true⟩, ⟨.name "x", ⟨8, 9, 2, 5⟩, true⟩] := by
    decide +kernel
  cases h : tokenize literalThenName.toList with
  | error cause =>
    rw [h] at hread
    cases hread
  | ok tokens =>
    rw [h] at hread
    have hbody := Option.some.inj hread
    have hchain := tokenize_afterNewline_iff h
    simp only [Tokens.toList, hbody] at hchain
    refine ⟨tokens, _, _, rfl, hbody, ?_, by decide +kernel⟩
    exact (hchain.rel).2 (.inr ⟨_, rfl, by decide⟩)

end Memberwise
