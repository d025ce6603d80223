/-
  Memberwise/Proofs/Taking.lean
  =============================
  **What readers take from a stream.**

  A reader that succeeds takes a run of tokens from the front of the stream, notes
  some spans, and leaves the rest.  `Takes` says so.  Only one thing keeps the
  tokens taken and the tokens left from being the tokens that were there: where a
  type ends, an operator such as `?=` is parted in two.  `Refines` is that
  relation between lists of tokens.

  Tokens that stand in the source one behind another (`Laid`) still do when some
  of them are parted, so every reader keeps a stream fit for the next (`Ready`).
-/
import Memberwise.Proofs.Scanning
import Memberwise.Reading.Outline

namespace Memberwise

/-! ### Tokens in a source -/

def Placed.Sits (source : List Char) (placed : Placed) : Prop :=
  placed.token.spelling ≠ [] ∧ placed.span.Covers source placed.token.spelling

namespace Placed.Sits

variable {source : List Char} {placed : Placed}

theorem start_lt_stop (h : placed.Sits source) : placed.span.start < placed.span.stop := by
  obtain ⟨hne, before, after, -, hspan⟩ := h
  have := Text.width_pos hne
  rw [hspan]
  simp only [Span.across]
  omega

theorem lies (h : placed.Sits source) : placed.span.Lies source := ⟨_, h.2⟩

theorem stop_eq (h : placed.Sits source) {c : Char} (hspelling : placed.token.spelling = [c])
    (hsize : c.utf8Size = 1) : placed.span.stop = placed.span.start + 1 := by
  obtain ⟨-, before, after, -, hspan⟩ := h
  rw [hspan, hspelling]
  simp [Span.across, hsize]

theorem ne_endOfInput (h : placed.Sits source) : placed.token ≠ .endOfInput := by
  intro hend
  have hne := h.1
  rw [hend] at hne
  exact hne rfl

end Placed.Sits

/-- Tokens that stand in a source one behind another, between two offsets. -/
def Laid (source : List Char) : Nat → List Placed → Nat → Prop
  | low, [], high => low ≤ high
  | low, placed :: rest, high =>
    low ≤ placed.span.start ∧ placed.Sits source ∧ Laid source placed.span.stop rest high

def endOf (low : Nat) (taken : List Placed) : Nat :=
  (taken.getLast?.map (·.span.stop)).getD low

@[simp] theorem endOf_nil (low : Nat) : endOf low [] = low := rfl

@[simp] theorem endOf_cons (low : Nat) (placed : Placed) (rest : List Placed) :
    endOf low (placed :: rest) = endOf placed.span.stop rest := by
  cases rest with
  | nil => rfl
  | cons second rest =>
    unfold endOf
    rw [List.getLast?_cons_cons, List.getLast?_eq_some_getLast (List.cons_ne_nil second rest)]
    rfl

@[simp] theorem endOf_append (low : Nat) (front back : List Placed) :
    endOf low (front ++ back) = endOf (endOf low front) back := by
  induction front generalizing low with
  | nil => rfl
  | cons placed rest ih => simp only [List.cons_append, endOf_cons, ih]

theorem endOf_eq_of_getLast? {low : Nat} {taken : List Placed} {last : Placed}
    (h : taken.getLast? = some last) : endOf low taken = last.span.stop := by
  rw [endOf, h]
  rfl

namespace Laid

variable {source : List Char} {low high : Nat}

theorem le {tokens : List Placed} (h : Laid source low tokens high) : low ≤ high := by
  induction tokens generalizing low with
  | nil => exact h
  | cons placed rest ih =>
    obtain ⟨hlow, hsits, hrest⟩ := h
    have := ih hrest
    have := hsits.start_lt_stop
    omega

theorem append_iff {front back : List Placed} :
    Laid source low (front ++ back) high ↔
      Laid source low front (endOf low front) ∧ Laid source (endOf low front) back high := by
  induction front generalizing low with
  | nil => simp [Laid]
  | cons placed rest ih => simp only [List.cons_append, Laid, ih, endOf_cons, and_assoc]

theorem sits {tokens : List Placed} {placed : Placed} (h : Laid source low tokens high)
    (hmem : placed ∈ tokens) : placed.Sits source := by
  induction tokens generalizing low with
  | nil => cases hmem
  | cons first rest ih =>
    rcases List.mem_cons.1 hmem with rfl | hmem
    · exact h.2.1
    · exact ih h.2.2 hmem

theorem le_start {tokens : List Placed} {placed : Placed} (h : Laid source low tokens high)
    (hmem : placed ∈ tokens) : low ≤ placed.span.start := by
  induction tokens generalizing low with
  | nil => cases hmem
  | cons first rest ih =>
    rcases List.mem_cons.1 hmem with rfl | hmem
    · exact h.1
    · have hlow := h.1
      have hlt := h.2.1.start_lt_stop
      have hrest := ih h.2.2 hmem
      omega

theorem stop_le {tokens : List Placed} {placed : Placed} (h : Laid source low tokens high)
    (hmem : placed ∈ tokens) : placed.span.stop ≤ high := by
  induction tokens generalizing low with
  | nil => cases hmem
  | cons first rest ih =>
    rcases List.mem_cons.1 hmem with rfl | hmem
    · exact h.2.2.le
    · exact ih h.2.2 hmem

end Laid

theorem Scanned.laid {source before : List Char} {flag : Bool} {tokens : List Placed}
    {finish : Placed} (h : Scanned source flag before tokens finish) :
    Laid source (Text.width before) tokens (Text.width source) := by
  induction h with
  | finish hsource _ _ =>
    rw [hsource, Text.width_append]
    exact Nat.le_add_right _ _
  | token hsource _ _ hreads hspan _ _ ih =>
    have hspelling := hreads.spelling_eq
    refine ⟨?_, ⟨?_, ?_⟩, ?_⟩
    · rw [hspan]
      simp [Span.across]
    · rw [hspelling]
      exact hreads.ne_nil
    · exact ⟨_, _, by rw [hspelling]; exact hsource, by rw [hspelling]; exact hspan⟩
    · rw [hspan]
      simp only [Text.width_append] at ih
      simp only [Span.across, Text.width_append]
      exact ih

theorem Scanned.finish_eq {source before : List Char} {flag : Bool} {tokens : List Placed}
    {finish : Placed} (h : Scanned source flag before tokens finish) :
    finish.token = .endOfInput ∧ finish.span = Span.across source [] := by
  induction h with
  | finish _ _ hplaced =>
    subst hplaced
    exact ⟨rfl, rfl⟩
  | token _ _ _ _ _ _ _ ih => exact ih

/-! ### Parted operators -/

/-- What it means that an operator is parted: it ends in `=`, the sign in front of
    that is made of `?`, `!` and `>`, and the two parts share out its span. -/
theorem splitEquals?_eq_some {placed sign equals : Placed}
    (h : splitEquals? placed = some (sign, equals)) :
    ∃ text : List Char, text ≠ [] ∧ (∀ c ∈ text, c = '?' ∨ c = '!' ∨ c = '>') ∧
      placed.token = .operator (String.ofList (text ++ ['='])) ∧
      sign = ⟨.operator (String.ofList text), placed.span.upTo (placed.span.stop - 1),
        placed.afterNewline⟩ ∧
      equals = ⟨.equals, ⟨placed.span.stop - 1, placed.span.stop, placed.span.line,
        placed.span.column + (placed.span.stop - 1 - placed.span.start)⟩, false⟩ := by
  unfold splitEquals? at h
  split at h
  · next text htoken =>
    simp only at h
    split at h
    · next hcond =>
      obtain ⟨hlast, hne, hall⟩ := hcond
      simp only [Option.some.injEq, Prod.mk.injEq] at h
      obtain ⟨rfl, rfl⟩ := h
      refine ⟨text.toList.dropLast, hne, ?_, ?_, rfl, rfl⟩
      · intro c hc
        have := List.all_eq_true.1 hall c hc
        simpa [or_assoc] using this
      · have hparts : text.toList.dropLast ++ ['='] = text.toList := by
          obtain ⟨front, hfront⟩ := List.getLast?_eq_some_iff.1 hlast
          rw [hfront, List.dropLast_concat]
        rw [htoken, hparts, String.ofList_toList]
    · cases h
  · cases h

/-- A sign in front of an `=` is not parted again. -/
theorem splitEquals?_sign {placed sign equals : Placed}
    (h : splitEquals? placed = some (sign, equals)) :
    splitEquals? sign = none ∧ splitEquals? equals = none := by
  obtain ⟨text, -, htext, -, rfl, rfl⟩ := splitEquals?_eq_some h
  refine ⟨?_, rfl⟩
  cases hsign : splitEquals? ⟨.operator (String.ofList text),
    placed.span.upTo (placed.span.stop - 1), placed.afterNewline⟩ with
  | none => rfl
  | some parts =>
    obtain ⟨other, -, -, htoken, -⟩ := splitEquals?_eq_some hsign
    simp only [Token.operator.injEq] at htoken
    have hmem : '=' ∈ text := by
      have := congrArg String.toList htoken
      simp only [String.toList_ofList] at this
      rw [this]
      simp
    rcases htext '=' hmem with heq | heq | heq <;> exact absurd heq (by decide)

theorem splitEquals?_sits {source : List Char} {placed sign equals : Placed}
    (h : splitEquals? placed = some (sign, equals)) (hsits : placed.Sits source) :
    sign.Sits source ∧ equals.Sits source ∧ sign.span.start = placed.span.start ∧
      sign.span.stop = equals.span.start ∧ equals.span.stop = placed.span.stop := by
  obtain ⟨text, hne, htext, htoken, rfl, rfl⟩ := splitEquals?_eq_some h
  obtain ⟨-, before, after, hsource, hspan⟩ := hsits
  have hspelling : placed.token.spelling = text ++ ['='] := by
    rw [htoken]
    simp [Token.spelling]
  have hnewline : '\n' ∉ text := by
    intro hmem
    rcases htext _ hmem with heq | heq | heq <;> exact absurd heq (by decide)
  rw [hspelling] at hspan hsource
  have hstop : placed.span.stop - 1 = Text.width before + Text.width text := by
    rw [hspan]
    simp only [Span.across, Text.width_append, Text.width_cons, Text.width_nil]
    rfl
  refine ⟨⟨by simpa [Token.spelling] using hne, before, '=' :: after, ?_, ?_⟩,
    ⟨by simp [Token.spelling], before ++ text, after, ?_, ?_⟩, rfl, rfl, rfl⟩
  · simpa [Token.spelling] using hsource
  · simp only [Span.upTo, hstop]
    rw [hspan]
    simp [Token.spelling, Span.across]
  · simpa [Token.spelling] using hsource
  · -- the sign holds no line feed, so it only moves the column
    have hcount : text.count '\n' = 0 := List.count_eq_zero.2 hnewline
    simp only [hstop]
    rw [hspan]
    simp only [Span.across, Position.behind, Text.lastLine_append hnewline, List.count_append,
      hcount, Text.width_append, Token.spelling, Span.mk.injEq]
    exact ⟨trivial, by omega, trivial, by omega⟩

/-- Whether a token is no part of a parted operator, since it is no operator and no `=`. -/
def Token.isWhole : Token → Bool
  | operator _ | equals => false
  | _ => true

/-- The second list is the first with some operators parted. -/
inductive Refines : List Placed → List Placed → Prop where
  | nil : Refines [] []
  | keep (placed : Placed) {rest rest' : List Placed} (h : Refines rest rest') :
      Refines (placed :: rest) (placed :: rest')
  | part {placed sign equals : Placed} {rest rest' : List Placed}
      (hpart : splitEquals? placed = some (sign, equals)) (h : Refines rest rest') :
      Refines (placed :: rest) (sign :: equals :: rest')

namespace Refines

theorem refl (tokens : List Placed) : Refines tokens tokens := by
  induction tokens with
  | nil => exact .nil
  | cons placed rest ih => exact .keep placed ih

theorem append {a a' b b' : List Placed} (ha : Refines a a') (hb : Refines b b') :
    Refines (a ++ b) (a' ++ b') := by
  induction ha with
  | nil => exact hb
  | keep placed _ ih => exact .keep placed ih
  | part hpart _ ih => exact .part hpart ih

theorem trans {a b c : List Placed} (hab : Refines a b) (hbc : Refines b c) : Refines a c := by
  induction hab generalizing c with
  | nil => exact hbc
  | keep placed _ ih =>
    cases hbc with
    | keep _ h => exact .keep placed (ih h)
    | part hpart h => exact .part hpart (ih h)
  | part hpart _ ih =>
    -- neither part can be parted again
    obtain ⟨hsign, hequals⟩ := splitEquals?_sign hpart
    cases hbc with
    | part h _ => rw [hsign] at h; cases h
    | keep _ hbc =>
      cases hbc with
      | part h _ => rw [hequals] at h; cases h
      | keep _ h => exact .part hpart (ih h)

theorem start_eq {p q : Placed} {a b : List Placed} (h : Refines (p :: a) (q :: b)) :
    q.span.start = p.span.start := by
  cases h with
  | keep _ _ => rfl
  | part hpart _ =>
    obtain ⟨-, -, -, -, rfl, -⟩ := splitEquals?_eq_some hpart
    rfl

theorem laid {source : List Char} {a b : List Placed} (h : Refines a b) {low high : Nat}
    (ha : Laid source low a high) : Laid source low b high ∧ endOf low a = endOf low b := by
  induction h generalizing low with
  | nil => exact ⟨ha, rfl⟩
  | keep placed _ ih =>
    obtain ⟨hlow, hsits, hrest⟩ := ha
    obtain ⟨hlaid, hend⟩ := ih hrest
    exact ⟨⟨hlow, hsits, hlaid⟩, by simpa using hend⟩
  | part hpart _ ih =>
    obtain ⟨hlow, hsits, hrest⟩ := ha
    obtain ⟨hsign, hequals, hstart, hmiddle, hstop⟩ := splitEquals?_sits hpart hsits
    rw [← hstop] at hrest
    obtain ⟨hlaid, hend⟩ := ih hrest
    refine ⟨⟨by omega, hsign, by omega, hequals, hlaid⟩, ?_⟩
    rw [hstop] at hend
    simpa [hstop] using hend

/-- A whole token in front was there before operators were parted. -/
theorem exists_cons {a back : List Placed} {placed : Placed} (h : Refines a (placed :: back))
    (hwhole : placed.token.isWhole = true) : ∃ rest, a = placed :: rest ∧ Refines rest back := by
  cases h with
  | keep _ h => exact ⟨_, rfl, h⟩
  | part hpart _ =>
    obtain ⟨text, -, -, -, rfl, -⟩ := splitEquals?_eq_some hpart
    cases hwhole

/-- Tokens that were parted are taken apart at a whole token as they were read. -/
theorem exists_append_cons {a front back : List Placed} {placed : Placed}
    (h : Refines a (front ++ placed :: back)) (hwhole : placed.token.isWhole = true) :
    ∃ front' back', a = front' ++ placed :: back' ∧ Refines front' front ∧
      Refines back' back := by
  generalize hb : front ++ placed :: back = b at h
  induction h generalizing front with
  | nil => simp at hb
  | @keep first rest rest' h ih =>
    cases front with
    | nil =>
      cases hb
      exact ⟨[], rest, rfl, .nil, h⟩
    | cons second front =>
      cases hb
      obtain ⟨front', back', rfl, hfront, hback⟩ := ih rfl
      exact ⟨first :: front', back', rfl, .keep first hfront, hback⟩
  | @part first sign equals rest rest' hpart h ih =>
    have hparts := splitEquals?_eq_some hpart
    obtain - | ⟨second, _ | ⟨third, front⟩⟩ := front
    · cases hb
      obtain ⟨_, -, -, -, rfl, -⟩ := hparts
      cases hwhole
    · cases hb
      obtain ⟨_, -, -, -, -, rfl⟩ := hparts
      cases hwhole
    · cases hb
      obtain ⟨front', back', rfl, hfront, hback⟩ := ih rfl
      exact ⟨first :: front', back', rfl, .part hpart hfront, hback⟩

end Refines

/-! ### Streams -/

/-- A stream whose tokens are laid in a source, from where it was read to up to the
    end. -/
structure Ready (source : List Char) (stream : TokenStream) : Prop where
  laid : Laid source stream.readTo stream.pending (Text.width source)
  finish_token : stream.finish.token = .endOfInput
  finish_span : stream.finish.span = Span.across source []

/-- Reading takes some tokens and notes some spans. -/
structure Takes (stream : TokenStream) (taken : List Placed) (noted : List Span)
    (after : TokenStream) : Prop where
  pending : Refines stream.pending (taken ++ after.pending)
  finish : after.finish = stream.finish
  readTo : after.readTo = endOf stream.readTo taken
  requests : after.requests = stream.requests ++ noted

theorem Takes.refl (stream : TokenStream) : Takes stream [] [] stream :=
  ⟨.refl _, rfl, rfl, (List.append_nil _).symm⟩

theorem Takes.trans {a b c : TokenStream} {taken taken' : List Placed} {noted noted' : List Span}
    (hab : Takes a taken noted b) (hbc : Takes b taken' noted' c) :
    Takes a (taken ++ taken') (noted ++ noted') c := by
  refine ⟨?_, hbc.finish.trans hab.finish, ?_, ?_⟩
  · have h := (Refines.refl taken).append hbc.pending
    rw [← List.append_assoc] at h
    exact hab.pending.trans h
  · rw [hbc.readTo, hab.readTo, endOf_append]
  · rw [hbc.requests, hab.requests, List.append_assoc]

namespace Ready

variable {source : List Char} {stream after : TokenStream}

theorem start {tokens : Tokens} (h : tokenize source = .ok tokens) :
    Ready source (.start tokens) := by
  have hscanned := tokenize_scanned h
  exact ⟨hscanned.laid, hscanned.finish_eq.1, hscanned.finish_eq.2⟩

/-- What is taken was laid, and what is left still is. -/
theorem taken {taken : List Placed} {noted : List Span} (hready : Ready source stream)
    (h : Takes stream taken noted after) :
    Laid source stream.readTo taken after.readTo ∧ Ready source after := by
  have hlaid := (h.pending.laid hready.laid).1
  rw [Laid.append_iff, ← h.readTo] at hlaid
  exact ⟨hlaid.1, hlaid.2, h.finish ▸ hready.finish_token, h.finish ▸ hready.finish_span⟩

theorem readTo_le {taken : List Placed} {noted : List Span} (hready : Ready source stream)
    (h : Takes stream taken noted after) : stream.readTo ≤ after.readTo :=
  (hready.taken h).1.le

/-- Unless the next token is the end of input, it is the first one pending. -/
theorem pending_eq (hready : Ready source stream) (hhead : stream.head.token ≠ .endOfInput) :
    ∃ rest, stream.pending = stream.head :: rest ∧ stream.head.Sits source := by
  have hlaid := hready.laid
  unfold TokenStream.head at *
  cases hpending : stream.pending with
  | nil =>
    rw [hpending] at hhead
    exact absurd hready.finish_token hhead
  | cons placed rest =>
    rw [hpending] at hlaid
    exact ⟨rest, rfl, hlaid.2.1⟩

theorem readTo_le_head (hready : Ready source stream) :
    stream.readTo ≤ stream.head.span.start := by
  have hlaid := hready.laid
  unfold TokenStream.head
  cases hpending : stream.pending with
  | nil =>
    rw [hpending] at hlaid
    have hle : stream.readTo ≤ Text.width source := hlaid
    simpa [hready.finish_span, Span.across] using hle
  | cons placed rest =>
    rw [hpending] at hlaid
    exact hlaid.1

theorem head_lies (hready : Ready source stream) : stream.head.span.Lies source := by
  have hlaid := hready.laid
  unfold TokenStream.head
  cases hpending : stream.pending with
  | nil => exact ⟨[], source, [], by simp, hready.finish_span⟩
  | cons placed rest =>
    rw [hpending] at hlaid
    exact hlaid.2.1.lies

theorem head_start_eq {first : Placed} {rest : List Placed} {noted : List Span}
    (h : Takes stream (first :: rest) noted after) :
    stream.head.span.start = first.span.start := by
  have hrefines := h.pending
  unfold TokenStream.head
  cases hpending : stream.pending with
  | nil =>
    rw [hpending] at hrefines
    cases hrefines
  | cons placed tail =>
    rw [hpending] at hrefines
    exact hrefines.start_eq.symm

theorem laid_from_head {taken : List Placed} {noted : List Span} (hready : Ready source stream)
    (h : Takes stream taken noted after) (hne : taken ≠ []) :
    Laid source stream.head.span.start taken after.readTo := by
  obtain ⟨first, rest, rfl⟩ := List.exists_cons_of_ne_nil hne
  obtain ⟨-, hsits, hrest⟩ := (hready.taken h).1
  exact ⟨Nat.le_of_eq (head_start_eq h), hsits, hrest⟩

theorem head_lt_readTo {taken : List Placed} {noted : List Span} (hready : Ready source stream)
    (h : Takes stream taken noted after) (hne : taken ≠ []) :
    stream.head.span.start < after.readTo := by
  have hlaid := hready.laid_from_head h hne
  obtain ⟨first, rest, rfl⟩ := List.exists_cons_of_ne_nil hne
  obtain ⟨hstart, hsits, hrest⟩ := hlaid
  have hlt := hsits.start_lt_stop
  have hle := hrest.le
  omega

theorem upTo_lies {taken : List Placed} {noted : List Span} (hready : Ready source stream)
    (h : Takes stream taken noted after) (hne : taken ≠ []) :
    (stream.head.span.upTo after.readTo).Lies source := by
  have hlt := hready.head_lt_readTo h hne
  have hlast := List.getLast?_eq_some_getLast hne
  have hsits := (hready.taken h).1.sits (List.getLast_mem hne)
  refine hready.head_lies.upTo ?_ (Nat.le_of_lt hlt)
  rw [h.readTo, endOf_eq_of_getLast? hlast]
  exact hsits.lies.boundary.2

/-- Reading never goes back: the next token stands no earlier than before. -/
theorem head_start_le {taken : List Placed} {noted : List Span} (hready : Ready source stream)
    (h : Takes stream taken noted after) :
    stream.head.span.start ≤ after.head.span.start := by
  by_cases hne : taken = []
  · subst hne
    have hrefines := h.pending
    unfold TokenStream.head
    rw [h.finish]
    generalize stream.pending = pending at *
    generalize after.pending = pending' at *
    -- at most the next token was parted
    cases pending with
    | nil =>
      cases hrefines
      exact Nat.le_refl _
    | cons p rest =>
      cases pending' with
      | nil => cases hrefines
      | cons q rest' => exact Nat.le_of_eq hrefines.start_eq.symm
  · have := hready.head_lt_readTo h hne
    have := (hready.taken h).2.readTo_le_head
    omega

end Ready

/-! ### Weights -/

def weight : List Placed → Nat
  | [] => 0
  | placed :: rest => placed.token.spelling.length + weight rest

@[simp] theorem weight_nil : weight [] = 0 := rfl

@[simp] theorem weight_cons (placed : Placed) (rest : List Placed) :
    weight (placed :: rest) = placed.token.spelling.length + weight rest := rfl

@[simp] theorem weight_append (front back : List Placed) :
    weight (front ++ back) = weight front + weight back := by
  induction front with
  | nil => simp
  | cons placed rest ih => simp [ih, Nat.add_assoc]

/-- The parts of an operator have the characters of the operator. -/
theorem splitEquals?_weight {placed sign equals : Placed}
    (h : splitEquals? placed = some (sign, equals)) :
    sign.token.spelling.length + 1 = placed.token.spelling.length ∧ equals.token = .equals := by
  obtain ⟨text, -, -, htoken, rfl, rfl⟩ := splitEquals?_eq_some h
  refine ⟨?_, rfl⟩
  rw [htoken]
  simp [Token.spelling]

theorem length_le_weight {tokens : List Placed}
    (h : ∀ placed ∈ tokens, placed.token.spelling ≠ []) : tokens.length ≤ weight tokens := by
  induction tokens with
  | nil => exact Nat.le_refl _
  | cons placed rest ih =>
    rw [List.forall_mem_cons] at h
    have hpos := List.length_pos_iff.2 h.1
    have hrest := ih h.2
    rw [List.length_cons, weight_cons]
    omega

theorem weight_of_refines {a b : List Placed} (h : Refines a b) : weight b = weight a := by
  induction h with
  | nil => rfl
  | keep placed _ ih => rw [weight_cons, weight_cons, ih]
  | part hpart _ ih =>
    obtain ⟨hweight, htoken⟩ := splitEquals?_weight hpart
    rw [weight_cons, weight_cons, weight_cons, ih, htoken, ← hweight, Nat.add_assoc]
    rfl

theorem weight_of_takes {stream after : TokenStream} {taken : List Placed} {noted : List Span}
    (h : Takes stream taken noted after) :
    weight stream.pending = weight taken + weight after.pending := by
  rw [← weight_append, weight_of_refines h.pending]

/-- Fewer characters are left once a token has been taken. -/
theorem weight_lt_of_takes {source : List Char} {stream after : TokenStream}
    {taken : List Placed} {noted : List Span} (hready : Ready source stream)
    (h : Takes stream taken noted after) (hne : taken ≠ []) :
    weight after.pending < weight stream.pending := by
  obtain ⟨placed, rest, rfl⟩ := List.exists_cons_of_ne_nil hne
  have hsits := (hready.taken h).1.sits List.mem_cons_self
  have hpos := List.length_pos_iff.2 hsits.1
  rw [weight_of_takes h, weight_cons]
  omega

end Memberwise
