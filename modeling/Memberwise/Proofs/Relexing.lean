/-
  Memberwise/Proofs/Relexing.lean
  ===============================
  **The tokens of a text, whatever their places.**

  `Lexes` says which tokens a text consists of, without spans and newline flags.
  It holds of exactly the tokens that `tokenize` gives, and it can be taken apart
  from the front: a gap in front of a text does not matter, and a token in front
  of a text is there if and only if it is read off its spelling.
-/
import Memberwise.Proofs.Locality

namespace Memberwise

namespace Token

/-! ### Gaps in front of a text -/

/-- Where the reader of a gap began to count does not matter. -/
theorem gapFrom_moved {mode : GapMode} {read n : Nat} {text : List Char}
    (h : gapFrom mode read text = .ok n) (opened read' : Nat) :
    gapFrom (mode.movedTo opened) read' text = .ok (read' + (n - read)) := by
  -- the count only grows on the way
  have hle : ∀ {mode : GapMode} {read : Nat} {text : List Char},
      gapFrom mode read text = .ok n → read ≤ n := by
    intro mode read text h
    obtain ⟨gap, _, -, hn, -⟩ := gapFrom_eq_ok h
    omega
  -- the steps before and behind a move of the count
  have hstep : ∀ {read k : Nat}, read + k ≤ n → ∀ read', (Except.ok (read' + k + (n - (read + k))) :
      Except Nat Nat) = .ok (read' + (n - read)) := by
    intro read k hbound read'
    congr 1
    omega
  fun_induction gapFrom mode read text generalizing opened read' with
  | case1 read rest ih => exact (ih h opened (read' + 2)).trans (hstep (hle h) read')
  | case2 read rest ih => exact (ih h read' (read' + 2)).trans (hstep (hle h) read')
  | case3 read c rest hline hblock hsep ih =>
    rw [GapMode.movedTo, gapFrom, if_pos hsep]
    · exact (ih h opened (read' + 1)).trans (hstep (hle h) read')
    · exact hline
    · exact hblock
    · simp
  | case4 read c rest hline hblock hsep =>
    cases h
    rw [GapMode.movedTo, gapFrom, if_neg hsep, Nat.sub_self, Nat.add_zero]
    · exact hline
    · exact hblock
    · simp
  | case5 read =>
    cases h
    simp [GapMode.movedTo, gapFrom]
  | case6 read c rest ih =>
    have hmode : (if c = '\n' then GapMode.between else .lineComment).movedTo opened =
        if c = '\n' then .between else .lineComment := by split <;> rfl
    have hrest := ih h opened (read' + 1)
    rw [hmode] at hrest
    exact hrest.trans (hstep (hle h) read')
  | case7 read =>
    cases h
    simp [GapMode.movedTo, gapFrom]
  | case8 opened' depth read rest ih => exact (ih h opened (read' + 2)).trans (hstep (hle h) read')
  | case9 opened' depth read rest ih =>
    have hrest := ih h opened (read' + 2)
    rw [GapMode.movedTo_afterBlock] at hrest
    exact hrest.trans (hstep (hle h) read')
  | case10 opened' depth read c rest hopen hclose ih =>
    rw [GapMode.movedTo, gapFrom]
    · exact (ih h opened (read' + 1)).trans (hstep (hle h) read')
    · exact hopen
    · exact hclose
  | case11 => cases h

theorem gapLength_append_iff {gap text : List Char} {n : Nat} (hgap : IsGap gap) :
    gapLength (gap ++ text) = .ok n ↔ ∃ m, gapLength text = .ok m ∧ n = gap.length + m := by
  rw [gapLength, hgap, Nat.zero_add]
  constructor
  · intro h
    obtain ⟨front, rest, -, hn, -⟩ := gapFrom_eq_ok h
    have hmoved := gapFrom_moved h 0 0
    exact ⟨n - gap.length, by simpa [gapLength, GapMode.movedTo] using hmoved, by omega⟩
  · rintro ⟨m, h, rfl⟩
    simpa [GapMode.movedTo] using gapFrom_moved h 0 gap.length

theorem isGap_of_separators {text : List Char} (h : ∀ c ∈ text, isSeparator c = true) :
    IsGap text := by
  induction text with
  | nil => exact .nil
  | cons c text ih =>
    rw [List.forall_mem_cons] at h
    have hslash : c ≠ '/' := by
      rintro rfl
      exact absurd h.1 (by decide)
    intro read rest
    rw [List.cons_append, gapFrom, if_pos h.1, ih h.2, List.length_cons]
    · congr 1
      omega
    · intro _ heq
      exact absurd heq hslash
    · intro _ heq
      exact absurd heq hslash

end Token

/-! ### The tokens of a text -/

/-- The tokens that a text consists of. -/
inductive Lexes : List Char → List Token → Prop where
  | finish {text : List Char} (hgap : Token.gapLength text = .ok text.length) : Lexes text []
  | token {text spelling after : List Char} {n : Nat} {token : Token} {rest : List Token}
      (hgap : Token.gapLength text = .ok n)
      (hparts : text.drop n = spelling ++ after)
      (hreads : token.Reads spelling after)
      (hrest : Lexes after rest) : Lexes text (token :: rest)

namespace Lexes

theorem gap_iff {gap text : List Char} {tokens : List Token} (hgap : Token.IsGap gap) :
    Lexes (gap ++ text) tokens ↔ Lexes text tokens := by
  have hdrop : ∀ m, (gap ++ text).drop (gap.length + m) = text.drop m := fun m => by
    rw [← List.drop_drop, List.drop_left]
  constructor
  · intro h
    cases h with
    | finish h =>
      obtain ⟨m, hm, hlength⟩ := (Token.gapLength_append_iff hgap).1 h
      rw [List.length_append, Nat.add_left_cancel_iff] at hlength
      exact .finish (hlength ▸ hm)
    | token h hparts hreads hrest =>
      obtain ⟨m, hm, rfl⟩ := (Token.gapLength_append_iff hgap).1 h
      exact .token hm (hdrop m ▸ hparts) hreads hrest
  · intro h
    cases h with
    | finish h =>
      refine .finish ((Token.gapLength_append_iff hgap).2 ⟨_, h, ?_⟩)
      rw [List.length_append]
    | token h hparts hreads hrest =>
      exact .token ((Token.gapLength_append_iff hgap).2 ⟨_, h, rfl⟩) (hdrop _ ▸ hparts) hreads hrest

theorem token_iff {spelling after : List Char} {token : Token} {rest : List Token}
    (hstop : Token.NoGap (spelling ++ after)) (hspelling : token.spelling = spelling) :
    Lexes (spelling ++ after) (token :: rest) ↔ token.Reads spelling after ∧ Lexes after rest := by
  constructor
  · intro h
    cases h with
    | token hgap hparts hreads hrest =>
      have hzero : Token.gapLength (spelling ++ after) = .ok 0 := hstop 0
      rw [hzero] at hgap
      cases hgap
      rw [List.drop_zero] at hparts
      have hsame := hreads.spelling_eq
      rw [hspelling] at hsame
      subst hsame
      cases List.append_cancel_left hparts
      exact ⟨hreads, hrest⟩
  · rintro ⟨hreads, hrest⟩
    exact .token (hstop 0) rfl hreads hrest

end Lexes

/-! ### The tokens that are read -/

theorem Scanned.lexes {source before rest : List Char} {flag : Bool} {tokens : List Placed}
    {finish : Placed} (h : Scanned source flag before tokens finish)
    (hsource : source = before ++ rest) : Lexes rest (tokens.map (·.token)) := by
  induction h generalizing rest with
  | finish hsource' hgap _ =>
    cases List.append_cancel_left (hsource.symm.trans hsource')
    exact .finish hgap
  | token hsource' hgap hstop hreads _ _ _ ih =>
    rw [List.append_assoc, List.append_assoc] at hsource'
    cases List.append_cancel_left (hsource.symm.trans hsource')
    rw [Lexes.gap_iff hgap, List.map_cons, Lexes.token_iff hstop hreads.spelling_eq]
    exact ⟨hreads, ih (by rw [hsource']; simp)⟩

theorem Cursor.Behind.advance_gap {source before : List Char} {place : Cursor} {n : Nat}
    (h : place.Behind source before) (hgap : Token.gapLength place.rest = .ok n) :
    ∃ before', (place.advance n).Behind source before' ∧
      (place.advance n).rest = place.rest.drop n := by
  obtain ⟨gap, rest, hrest, rfl, -, -⟩ := Token.gapLength_eq_ok hgap
  obtain ⟨hbehind, hafter, -⟩ := h.advance hrest
  exact ⟨_, hbehind, by rw [hafter, hrest, List.drop_left]⟩

theorem Cursor.Behind.next_token {source before spelling after : List Char} {place : Cursor}
    {n : Nat} {token : Token} (h : place.Behind source before)
    (hgap : Token.gapLength place.rest = .ok n) (hparts : place.rest.drop n = spelling ++ after)
    (hreads : token.Reads spelling after) :
    ∃ placed before' later, place.next = (.ok placed, later) ∧ placed.token = token ∧
      later.Behind source before' ∧ later.rest = after := by
  obtain ⟨_, hhere, hrest⟩ := h.advance_gap hgap
  rw [hparts] at hrest
  obtain ⟨first, rest, found, hfirst, hfound, hlength, rfl⟩ := hreads
  have hfresh : (place.advance n).forgetNewline.rest = spelling ++ after := hrest
  obtain ⟨hlater, hlaterRest, -⟩ := hhere.forgetNewline.advance hfresh
  have htake : (first :: rest).take found.length = spelling := by
    rw [hlength, ← hfirst, List.take_left]
  unfold Cursor.next
  rw [hgap]
  simp only
  unfold Cursor.readToken
  rw [hrest, hfirst]
  simp only [hfound, htake]
  rw [← hlength] at hlater hlaterRest
  exact ⟨_, _, _, rfl, rfl, hlater, hlaterRest⟩

theorem tokensFrom_of_lexes {source before text : List Char} {limit : Nat} {place : Cursor}
    {tokens : List Token} (h : Lexes text tokens) (hplace : place.Behind source before)
    (htext : place.rest = text) (hlimit : text.length < limit) :
    ∃ found, tokensFrom limit place = .ok found ∧ found.body.map (·.token) = tokens := by
  induction h generalizing place before limit with
  | @finish text hgap =>
    obtain ⟨limit, rfl⟩ : ∃ k, limit = k + 1 := ⟨limit - 1, by omega⟩
    rw [← htext] at hgap
    obtain ⟨_, hhere, hrest⟩ := hplace.advance_gap hgap
    rw [List.drop_length] at hrest
    have hnext : ∃ later, place.next = (.ok (place.advance place.rest.length).endToken, later) := by
      unfold Cursor.next
      rw [hgap]
      simp only
      unfold Cursor.readToken
      rw [hrest]
      exact ⟨_, rfl⟩
    obtain ⟨later, hnext⟩ := hnext
    rw [tokensFrom, hnext]
    exact ⟨_, rfl, rfl⟩
  | @token text spelling after n token rest hgap hparts hreads _ ih =>
    obtain ⟨limit, rfl⟩ : ∃ k, limit = k + 1 := ⟨limit - 1, by omega⟩
    have hshorter : after.length < limit := by
      have hpos := List.length_pos_iff.2 hreads.ne_nil
      have hlength := congrArg List.length hparts
      rw [List.length_drop, List.length_append] at hlength
      omega
    rw [← htext] at hgap hparts
    obtain ⟨placed, _, later, hnext, htoken, hlater, hlaterRest⟩ :=
      hplace.next_token hgap hparts hreads
    obtain ⟨found, hfound, hmap⟩ := ih hlater hlaterRest hshorter
    rw [tokensFrom, hnext]
    simp only [hfound]
    split
    · next hend =>
      -- the end of input has no spelling
      have hne := hreads.ne_nil
      rw [← hreads.spelling_eq, ← htoken, hend] at hne
      exact absurd rfl hne
    · exact ⟨_, rfl, by rw [List.map_cons, htoken, hmap]⟩

/-- **A text consists of the tokens that are read from it.** -/
theorem tokenize_iff_lexes {text : List Char} {tokens : List Token} :
    (∃ found, tokenize text = .ok found ∧ found.body.map (·.token) = tokens) ↔
      Lexes text tokens := by
  constructor
  · rintro ⟨found, hfound, rfl⟩
    exact (tokenize_scanned hfound).lexes rfl
  · intro h
    exact tokensFrom_of_lexes h (Cursor.behind_start text) rfl (Nat.lt_succ_self _)

/-! ### One way to cut a source -/

/-- A text has one token that it starts with. -/
theorem Token.Reads.unique {text after text' after' : List Char} {token token' : Token}
    (h : token.Reads text after) (h' : token'.Reads text' after')
    (heq : text ++ after = text' ++ after') : text = text' ∧ after = after' ∧ token = token' := by
  obtain ⟨first, rest, found, hparts, hfound, hlength, rfl⟩ := h
  obtain ⟨first', rest', found', hparts', hfound', hlength', rfl⟩ := h'
  have hsame : first :: rest = first' :: rest' := hparts.symm.trans (heq.trans hparts')
  cases hsame
  have hlexeme : found = found' := Except.ok.inj (hfound.symm.trans hfound')
  subst hlexeme
  obtain ⟨rfl, rfl⟩ := List.append_inj heq (hlength.symm.trans hlength')
  exact ⟨rfl, rfl, rfl⟩

/-- In front of a token there is one gap. -/
theorem Token.IsGap.unique {gap rest gap' rest' : List Char} (hgap : IsGap gap)
    (hstop : NoGap rest) (hgap' : IsGap gap') (hstop' : NoGap rest')
    (heq : gap ++ rest = gap' ++ rest') : gap = gap' ∧ rest = rest' := by
  have hread := hgap 0 rest
  rw [hstop, heq, hgap', hstop', Except.ok.injEq] at hread
  exact List.append_inj heq (by omega)

namespace Scanned

variable {source before : List Char} {flag : Bool} {tokens tokens' : List Placed}
  {finish finish' : Placed}

/-- What is left behind the last token holds no further one. -/
theorem gap_of_nil (h : Scanned source flag before [] finish) {gap rest : List Char}
    (hsource : source = before ++ gap ++ rest) (hgap : Token.IsGap gap)
    (hstop : Token.NoGap rest) : rest = [] := by
  cases h with
  | finish hwhole hread _ =>
    rw [hsource, List.append_assoc] at hwhole
    rw [← List.append_cancel_left hwhole, Token.gapLength, hgap, hstop, Except.ok.injEq,
      List.length_append] at hread
    exact List.length_eq_zero_iff.1 (by omega)

theorem unique (h : Scanned source flag before tokens finish)
    (h' : Scanned source flag before tokens' finish') : tokens = tokens' ∧ finish = finish' := by
  induction h generalizing tokens' finish' with
  | @finish flag before gap placed hsource hgap hplaced =>
    cases h' with
    | finish hsource' hgap' hplaced' =>
      cases List.append_cancel_left (hsource.symm.trans hsource')
      exact ⟨rfl, hplaced.trans hplaced'.symm⟩
    | token hsource' hgap' hstop' hreads' _ _ _ =>
      have hnil := (Scanned.finish hsource hgap hplaced).gap_of_nil
        (hsource'.trans (List.append_assoc ..)) hgap' hstop'
      exact absurd (List.append_eq_nil_iff.1 hnil).1 hreads'.ne_nil
  | @token flag before gap text after placed finish rest hsource hgap hstop hreads hspan hflag _
      ih =>
    cases h' with
    | finish hsource' hgap' hplaced' =>
      have hnil := (Scanned.finish hsource' hgap' hplaced').gap_of_nil
        (hsource.trans (List.append_assoc ..)) hgap hstop
      exact absurd (List.append_eq_nil_iff.1 hnil).1 hreads.ne_nil
    | @token _ _ gap' text' after' placed' _ rest' hsource' hgap' hstop' hreads' hspan' hflag'
        hrest' =>
      have hparts : before ++ (gap ++ (text ++ after)) = before ++ (gap' ++ (text' ++ after')) := by
        simpa using hsource.symm.trans hsource'
      obtain ⟨rfl, hsame⟩ := hgap.unique hstop hgap' hstop' (List.append_cancel_left hparts)
      obtain ⟨rfl, rfl, htoken⟩ := hreads.unique hreads' hsame
      have hplaced : placed = placed' := by
        cases placed
        cases placed'
        simp only at htoken hspan hflag hspan' hflag'
        rw [htoken, hspan, hflag, hspan', hflag']
      obtain ⟨rfl, rfl⟩ := ih hrest'
      exact ⟨by rw [hplaced], rfl⟩

end Scanned

/-- **A source is cut into tokens in the one way in which it can be read as gaps and
    spellings by turns.** -/
theorem tokenize_iff_scanned {source : List Char} {tokens : Tokens} :
    tokenize source = .ok tokens ↔ Scanned source true [] tokens.body tokens.finish := by
  constructor
  · exact tokenize_scanned
  · intro h
    obtain ⟨found, hfound, -⟩ := tokenize_iff_lexes.2 (h.lexes rfl)
    obtain ⟨hbody, hfinish⟩ := h.unique (tokenize_scanned hfound)
    rw [hfound]
    cases tokens
    cases found
    simp only at hbody hfinish
    rw [hbody, hfinish]

end Memberwise
