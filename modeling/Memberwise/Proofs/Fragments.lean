/-
  Memberwise/Proofs/Fragments.lean
  ================================
  **Texts put together from fragments.**

  A text that is written from parts is read as the tokens of its parts, if no token
  goes on over a seam.  None does where the part behind the seam is detached: it starts
  with a separator, or with punctuation that is a token by itself.  `Spells` says of a
  part that it keeps its tokens in front of every detached text, and this is closed under
  putting parts together.  Each text that is cut into tokens by itself is such a part,
  provided that it ends with its last token: behind that, a comment could be open.
  `Scanned.append` says the same of tokens with their places.
-/
import Memberwise.Proofs.Removal

namespace Memberwise

/-! ### Single tokens -/

/-- A token that a text is read as in front of every detached text. -/
def Token.Stands (text : List Char) (token : Token) : Prop :=
  ∀ rest, Detached rest → token.Reads text rest ∧ NoGap (text ++ rest)

def Token.IsAll (token : Token) (text : String) : Prop :=
  ∃ placed finish, tokenize text.toList = .ok ⟨[placed], finish⟩ ∧ placed.token = token

/-- A token that is all of a text stands for it. -/
theorem Token.stands_of_tokenize {source : List Char} {placed finish : Placed}
    (h : tokenize source = .ok ⟨[placed], finish⟩) (hspelling : placed.token.spelling = source) :
    placed.token.Stands source := by
  intro rest hrest
  cases tokenize_scanned h with
  | @token _ _ gap text after _ _ _ hsource _ hstop hreads _ _ _ =>
    obtain rfl : source = text := hspelling.symm.trans hreads.spelling_eq
    -- the spelling leaves no room for anything else
    have hlength := congrArg List.length hsource
    simp only [List.nil_append, List.length_append] at hlength
    obtain rfl : after = [] := List.length_eq_zero_iff.1 (by omega)
    have hfurther : NoFurther [] rest := .append hrest
    exact ⟨hreads.of_noFurther hfurther, hstop.of_noFurther hreads.ne_nil hfurther⟩

theorem Token.IsAll.stands {token : Token} {text : String} (h : token.IsAll text)
    (hspelling : token.spelling = text.toList) : token.Stands text.toList := by
  obtain ⟨placed, finish, hfound, rfl⟩ := h
  exact stands_of_tokenize hfound hspelling

/-- No gap starts with a character that neither separates tokens nor starts a comment. -/
theorem Token.noGap_of_ne {c : Char} (hc : isSeparator c = false ∧ c ≠ '/') (rest : List Char) :
    NoGap (c :: rest) :=
  noGap_cons_iff.2 ⟨hc.1, fun hslash => absurd hslash hc.2⟩

/-- Punctuation of one character is a token in front of every text. -/
theorem Token.stands_of_mark {c : Char} {token : Token}
    (h : ∀ rest, lexeme c rest = .ok (.mark token)) (hc : isSeparator c = false ∧ c ≠ '/')
    (rest : List Char) : token.Reads [c] rest ∧ NoGap (c :: rest) :=
  ⟨reads_of_mark h rest, noGap_of_ne hc rest⟩

theorem Token.isGap_blank {c : Char} (hc : isSeparator c = true) : IsGap [c] :=
  isGap_of_separators (by simpa using hc)

/-- The literal for a value adds quotes and backslashes, and nothing else. -/
theorem StringLiteral.notMem_quoted {c : Char} {value : String} (h : c ∉ value.toList)
    (hc : c ≠ '"' ∧ c ≠ '\\') : c ∉ (StringLiteral.quoted value).source.toList := by
  have hescaped : c ∉ StringLiteral.escaped value.toList := by
    rw [StringLiteral.escaped, List.mem_flatMap]
    rintro ⟨d, hd, hmem⟩
    have hne : c ≠ d := by
      rintro rfl
      exact h hd
    split at hmem <;> simp [hne, hc.2] at hmem
  rw [StringLiteral.quoted, String.toList_ofList]
  simpa [hc.1] using hescaped

/-! ### Fragments -/

/-- A text that is read as some tokens in front of every detached text. -/
def Spells (text : List Char) (tokens : List Token) : Prop :=
  ∀ rest more, Token.Detached rest → Lexes rest more →
    Lexes (text ++ rest) (tokens ++ more)

namespace Spells

variable {a b text : List Char} {s t tokens : List Token}

theorem nil : Spells [] [] := fun _ _ _ h => h

theorem lexes (h : Spells text tokens) : Lexes text tokens := by
  have hwhole := h [] [] .nil (.finish rfl)
  rwa [List.append_nil, List.append_nil] at hwhole

theorem append (ha : Spells a s) (hb : Spells b t) (hdetached : Token.Detached b) :
    Spells (a ++ b) (s ++ t) := by
  intro rest more hrest hmore
  rw [List.append_assoc, List.append_assoc]
  exact ha _ _ (hdetached.append hrest) (hb rest more hrest hmore)

/-- A gap in front of a fragment does not count. -/
theorem gap {gap : List Char} (h : Spells text tokens) (hgap : Token.IsGap gap) :
    Spells (gap ++ text) tokens := by
  intro rest more hrest hmore
  rw [List.append_assoc, Lexes.gap_iff hgap]
  exact h rest more hrest hmore

theorem blank {c : Char} (h : Spells text tokens) (hc : Token.isSeparator c = true) :
    Spells (c :: text) tokens :=
  h.gap (Token.isGap_blank hc)

/-- A token that is read in front of a fragment comes first. -/
theorem prepend (front : List Char) {token : Token} (h : Spells text tokens)
    (hfront : ∀ rest, Token.Detached rest →
      token.Reads front (text ++ rest) ∧ Token.NoGap (front ++ (text ++ rest))) :
    Spells (front ++ text) (token :: tokens) := by
  intro rest more hrest hmore
  obtain ⟨hreads, hstop⟩ := hfront rest hrest
  rw [List.append_assoc, List.cons_append, Lexes.token_iff hstop hreads.spelling_eq]
  exact ⟨hreads, h rest more hrest hmore⟩

theorem mark {c : Char} {token : Token} (h : Spells text tokens)
    (hmark : ∀ rest, Token.lexeme c rest = .ok (.mark token))
    (hc : Token.isSeparator c = false ∧ c ≠ '/') : Spells (c :: text) (token :: tokens) :=
  h.prepend [c] fun _ _ => Token.stands_of_mark hmark hc _

theorem of_stands {token : Token} (h : token.Stands text) : Spells text [token] := by
  have hone : Spells (text ++ []) [token] := nil.prepend text h
  rwa [List.append_nil] at hone

/-- Fragments in a row, with a comma and a space behind each but the last. -/
theorem commas {α : Type} {entries : List α} {text : α → List Char} {tokens : α → List Token}
    (h : ∀ entry ∈ entries, Spells (text entry) (tokens entry)) :
    Spells ([',', ' '].intercalate (entries.map text))
      ([Token.comma].intercalate (entries.map tokens)) := by
  induction entries with
  | nil => exact nil
  | cons entry entries ih =>
    rw [List.forall_mem_cons] at h
    cases entries with
    | nil =>
      simp only [List.map_cons, List.map_nil, List.intercalate_singleton]
      exact h.1
    | cons next entries =>
      simp only [List.map_cons, List.intercalate_cons_cons, List.append_assoc]
      have hrest := (ih h.2).blank (c := ' ') (by decide)
      exact h.1.append (hrest.mark (fun _ => rfl) (by decide)) (.cons (by decide) _)

end Spells

/-- What is left of a source is read as its tokens, if it ends with the last of them. -/
theorem Scanned.spells {source before text : List Char} {flag : Bool} {tokens : List Placed}
    {finish : Placed} (h : Scanned source flag before tokens finish)
    (hsource : source = before ++ text)
    (hend : endOf (Text.width before) tokens = Text.width source) :
    Spells text (tokens.map (·.token)) := by
  induction h generalizing text with
  | @finish _ before gap _ hwhole _ _ =>
    obtain rfl := List.append_cancel_left (hsource.symm.trans hwhole)
    rw [endOf_nil, hsource, Text.width_append] at hend
    obtain rfl : text = [] := Text.eq_nil_of_width_eq_zero (by omega)
    exact .nil
  | @token _ before gap spelling after placed _ rest hwhole hgap hstop hreads hspan _ _ ih =>
    have hparts := hwhole
    rw [List.append_assoc, List.append_assoc] at hparts
    obtain rfl := List.append_cancel_left (hsource.symm.trans hparts)
    have hbehind : placed.span.stop = Text.width (before ++ gap ++ spelling) := by
      rw [hspan, Text.width_append _ spelling]
      rfl
    rw [endOf_cons, hbehind] at hend
    have hrest : Spells (spelling ++ after) (placed.token :: rest.map (·.token)) := by
      apply (ih hwhole hend).prepend spelling
      intro more hmore
      have hfurther : Token.NoFurther after (after ++ more) := .append hmore
      exact ⟨hreads.of_noFurther hfurther, hstop.of_noFurther hreads.ne_nil hfurther⟩
    exact hrest.gap hgap

/-- **A text that is cut into tokens by itself, and ends with the last of them, is read as
    these tokens in front of every detached text.** -/
theorem spells_of_tokenize {text : List Char} {found : Tokens} (h : tokenize text = .ok found)
    (hend : endOf 0 found.body = Text.width text) : Spells text (found.body.map (·.token)) :=
  (tokenize_scanned h).spells rfl hend

/-- Tokens that a text ends with keep their places in front of a detached text.  The last
    of them must not hold a line feed, since that would flag the token behind it. -/
theorem Scanned.append {front before more : List Char} {flag : Bool} {tokens rest : List Placed}
    {finish finish' : Placed} (h : Scanned front flag before tokens finish)
    (hend : endOf (Text.width before) tokens = Text.width front)
    (hlines : ∀ placed ∈ tokens, '\n' ∉ placed.token.spelling) (hflag : tokens = [] → flag = false)
    (hmore : Token.Detached more) (hrest : Scanned (front ++ more) false front rest finish') :
    Scanned (front ++ more) flag before (tokens ++ rest) finish' := by
  induction h with
  | @finish _ before gap _ hwhole _ _ =>
    rw [endOf_nil, hwhole, Text.width_append] at hend
    obtain rfl : gap = [] := Text.eq_nil_of_width_eq_zero (by omega)
    rw [List.append_nil] at hwhole
    obtain rfl := hwhole
    rw [hflag rfl]
    exact hrest
  | @token _ before gap spelling after placed _ tokens hwhole hgap hstop hreads hspan hnew _ ih =>
    rw [List.forall_mem_cons, hreads.spelling_eq] at hlines
    have hfurther : Token.NoFurther after (after ++ more) := .append hmore
    have hbehind : placed.span.stop = Text.width (before ++ gap ++ spelling) := by
      rw [hspan, Text.width_append _ spelling]
      rfl
    rw [endOf_cons, hbehind] at hend
    refine .token (by rw [hwhole, List.append_assoc]) hgap
      (hstop.of_noFurther hreads.ne_nil hfurther) (hreads.of_noFurther hfurther) hspan hnew ?_
    exact ih hend hlines.2 fun _ => by simpa using hlines.1

/-! ### Lines -/

/-- Lines that are read as some tokens, one line behind the other. -/
inductive LinesSpell : List String → List Token → Prop where
  | nil : LinesSpell [] []
  | cons {line : String} {lines : List String} {tokens more : List Token}
      (hline : Spells line.toList tokens) (hlines : LinesSpell lines more) :
      LinesSpell (line :: lines) (tokens ++ more)

namespace LinesSpell

theorem single {line : String} {tokens : List Token} (h : Spells line.toList tokens) :
    LinesSpell [line] tokens := by
  have hone := cons h nil
  rwa [List.append_nil] at hone

theorem append {front back : List String} {tokens more : List Token}
    (hfront : LinesSpell front tokens) (hback : LinesSpell back more) :
    LinesSpell (front ++ back) (tokens ++ more) := by
  induction hfront with
  | nil => exact hback
  | cons hline _ ih =>
    rw [List.append_assoc]
    exact cons hline ih

theorem map {α : Type} {entries : List α} {line : α → String} {tokens : α → List Token}
    (h : ∀ entry ∈ entries, Spells (line entry).toList (tokens entry)) :
    LinesSpell (entries.map line) (entries.flatMap tokens) := by
  induction entries with
  | nil => exact nil
  | cons entry entries ih =>
    rw [List.forall_mem_cons] at h
    exact cons h.1 (ih h.2)

/-- A line feed between two lines is a gap, and no token goes on over it. -/
theorem spells {lines : List String} {tokens : List Token} (h : LinesSpell lines tokens) :
    Spells (String.intercalate "\n" lines).toList tokens := by
  rw [String.toList_intercalate]
  induction h with
  | nil => exact .nil
  | @cons line lines tokens more hline hlines ih =>
    cases hlines with
    | nil =>
      rw [List.append_nil, List.map_singleton, List.intercalate_singleton]
      exact hline
    | cons _ _ =>
      rw [List.map_cons, List.map_cons, List.intercalate_cons_cons, List.append_assoc]
      exact hline.append (ih.blank (by decide)) (.cons (by decide) _)

end LinesSpell

end Memberwise
