/-
  Memberwise/Proofs/Seams.lean
  ============================
  **Readers that stop at a seam.**

  When a request is taken out of a source, or a body gets more items, the tokens in
  front of that place stay, and other tokens come behind them.  A reader that stops in
  front of the place in the first source stops there in the second one as well, and
  has read the same (`Echoes`), since items end in front of what comes behind the
  seam either way (`Halt`).

  This takes a last token that does not ask for another one (`Token.asksForMore`).  A
  line that ends in a keyword such as `actor` becomes the start of a declaration once
  the attribute behind it is gone.
-/
import Memberwise.Proofs.Following

namespace Memberwise

/-! ### Seams -/

/-- Whether what is read behind a token depends on the next one, wherever that stands. -/
def Token.asksForMore : Token → Bool
  | .dot | .equals | .comma | .colon | .opening .round | .opening .square => true
  | .name word => (Declaration.Kind.ofKeyword? word).isSome || word == "let" || word == "var"
  | .operator text => text == "/" || text.toList.getLast? == some '='
  | _ => false

/-- A token that items end in front of: on a new line, or a closing brace, or none. -/
def Placed.Ends (placed : Placed) : Prop :=
  placed.token = .closing .curly ∨ placed.token = .endOfInput ∨ placed.afterNewline = true

/-- Two tokens of which readers stop in front of the second if they stop in front of the
    first: that is an `@`, a closing brace or the end of input, and the second may also be
    a word that introduces an item. -/
structure Halt (placed placed' : Placed) : Prop where
  stop : placed.token = .atSign ∨ placed.token = .closing .curly ∨ placed.token = .endOfInput
  stop' : placed'.token = .atSign ∨ placed'.token = .closing .curly ∨
    placed'.token = .endOfInput ∨ Introduces placed'
  ends : placed.Ends → placed'.Ends

namespace Halt

variable {placed placed' : Placed}

theorem ne_of_stops (h : Halt placed placed') {token : Token} (hsign : token ≠ .atSign)
    (hclose : token ≠ .closing .curly) (hend : token ≠ .endOfInput) : placed.token ≠ token := by
  rcases h.stop with hstop | hstop | hstop <;> rw [hstop] <;> exact Ne.symm ‹_›

theorem ne_of_stops' (h : Halt placed placed') {token : Token} (hsign : token ≠ .atSign)
    (hclose : token ≠ .closing .curly) (hend : token ≠ .endOfInput)
    (hname : token.isName = false) : placed'.token ≠ token := by
  rcases h.stop' with hstop | hstop | hstop | ⟨word, -, hstop⟩
  · rw [hstop]
    exact hsign.symm
  · rw [hstop]
    exact hclose.symm
  · rw [hstop]
    exact hend.symm
  · rintro rfl
    rw [hstop] at hname
    cases hname

/-- Of an `@` only a new line makes a reader stop. -/
theorem ends_of_line (h : Halt placed placed')
    (hline : placed.token = .atSign → placed.afterNewline = true) : placed'.Ends := by
  apply h.ends
  rcases h.stop with hstop | hstop | hstop
  · exact .inr (.inr (hline hstop))
  · exact .inl hstop
  · exact .inr (.inl hstop)

end Halt

/-- A place in two sources that is reached behind the same tokens, and what comes behind
    it. -/
structure Seam where
  finish : Placed
  finish' : Placed
  behind : List Placed
  behind' : List Placed
  halt : Halt (behind.headD finish) (behind'.headD finish')
  solid : ∀ placed ∈ behind.head?, placed.token.spelling ≠ []
  nil_iff : behind' = [] ↔ behind = []
  finish_token : finish.token = .endOfInput
  finish_token' : finish'.token = .endOfInput

/-- The same token in two sources, behind a gap or behind none in both.  The first token
    behind a seam is `fresh`: it may have come to stand on another line. -/
structure Placed.Echoes (fresh : Bool) (low low' : Nat) (placed placed' : Placed) : Prop where
  token : placed'.token = placed.token
  solid : placed.token.spelling ≠ []
  afterNewline : fresh = false → placed'.afterNewline = placed.afterNewline
  gap : fresh = false → (placed'.span.start = low' ↔ placed.span.start = low)

namespace Seam

/-- The same tokens come next in two sources, up to a seam, and the last of them asks for
    no other token. -/
inductive Echo (seam : Seam) : Bool → Nat → Nat → List Placed → List Placed → Prop where
  | behind {fresh : Bool} {low low' : Nat} : Echo seam fresh low low' seam.behind seam.behind'
  | cons {fresh : Bool} {low low' : Nat} {placed placed' : Placed} {rest rest' : List Placed}
      (h : placed.Echoes fresh low low' placed')
      (hsettled : rest = seam.behind → placed.token.asksForMore = false)
      (hrest : Echo seam false placed.span.stop placed'.span.stop rest rest') :
      Echo seam fresh low low' (placed :: rest) (placed' :: rest')

variable {seam : Seam} {fresh : Bool} {low low' : Nat} {placed : Placed}
  {pending pending' rest : List Placed}

/-- A token behind a seam cannot be taken without passing the seam. -/
theorem weight_lt (h : seam.behind = placed :: rest) : weight rest < weight seam.behind := by
  have hpos := List.length_pos_iff.2 (seam.solid placed (by rw [h]; rfl))
  rw [h, weight_cons]
  omega

namespace Echo

theorem mono (h : seam.Echo false low low' pending pending') :
    seam.Echo fresh low low' pending pending' := by
  cases h with
  | behind => exact .behind
  | cons h hsettled hrest =>
    exact .cons ⟨h.token, h.solid, fun _ => h.afterNewline rfl, fun _ => h.gap rfl⟩ hsettled hrest

theorem weight_eq (h : seam.Echo fresh low low' pending pending') :
    weight pending' + weight seam.behind = weight pending + weight seam.behind' := by
  induction h with
  | behind => exact Nat.add_comm _ _
  | cons h _ _ ih =>
    rw [weight_cons, weight_cons, h.token]
    omega

theorem weight_le (h : seam.Echo fresh low low' pending pending') :
    weight seam.behind ≤ weight pending := by
  induction h with
  | behind => exact Nat.le_refl _
  | cons _ _ _ ih =>
    rw [weight_cons]
    exact Nat.le_trans ih (Nat.le_add_left _ _)

/-- In front of a seam, the next tokens are the same. -/
theorem uncons (h : seam.Echo fresh low low' pending pending') (hne : pending ≠ seam.behind) :
    ∃ placed placed' rest rest', pending = placed :: rest ∧ pending' = placed' :: rest' ∧
      placed.Echoes fresh low low' placed' ∧
      (rest = seam.behind → placed.token.asksForMore = false) ∧
      seam.Echo false placed.span.stop placed'.span.stop rest rest' := by
  cases h with
  | behind => exact absurd rfl hne
  | cons h hsettled hrest => exact ⟨_, _, _, _, rfl, rfl, h, hsettled, hrest⟩

theorem weight_lt_of_ne (h : seam.Echo fresh low low' pending pending')
    (hne : pending ≠ seam.behind) : weight seam.behind < weight pending := by
  obtain ⟨placed, _, rest, _, rfl, -, hechoes, -, hrest⟩ := h.uncons hne
  have hsolid := List.length_pos_iff.2 hechoes.solid
  have hle := hrest.weight_le
  rw [weight_cons]
  omega

/-- A token that is taken without passing the seam stands in front of it. -/
theorem ne_of_weight_le (hle : weight seam.behind ≤ weight rest) :
    placed :: rest ≠ seam.behind := by
  intro heq
  have hlt := weight_lt heq.symm
  omega

theorem eq_behind' (h : seam.Echo fresh low low' pending pending')
    (hbehind : pending = seam.behind) : pending' = seam.behind' := by
  cases h with
  | behind => rfl
  | cons _ _ hrest =>
    -- what is in front of the seam weighs more than what is behind it
    exact absurd hbehind (ne_of_weight_le hrest.weight_le)

end Echo

def Faces (seam : Seam) (token : Token) (pending : List Placed) : Prop :=
  pending ≠ seam.behind ∧ pending.head?.map (·.token) = some token

/-- Two streams that come to a seam behind the same tokens. -/
structure InStep (seam : Seam) (fresh : Bool) (stream stream' : TokenStream) : Prop where
  finish : stream.finish = seam.finish
  finish' : stream'.finish = seam.finish'
  pending : seam.Echo fresh stream.readTo stream'.readTo stream.pending stream'.pending

namespace InStep

variable {stream stream' : TokenStream}

theorem head (h : seam.InStep fresh stream stream') (hne : stream.pending ≠ seam.behind) :
    stream.head.Echoes fresh stream.readTo stream'.readTo stream'.head := by
  obtain ⟨placed, placed', rest, rest', hpending, hpending', hechoes, -, -⟩ :=
    h.pending.uncons hne
  rw [TokenStream.head, TokenStream.head, hpending, hpending']
  exact hechoes

theorem halt (h : seam.InStep fresh stream stream') (hbehind : stream.pending = seam.behind) :
    Halt stream.head stream'.head := by
  rw [TokenStream.head, TokenStream.head, h.pending.eq_behind' hbehind, hbehind, h.finish,
    h.finish']
  exact seam.halt

theorem nil_of_nil (h : seam.InStep fresh stream stream') (hnil : stream.pending = []) :
    seam.behind = [] := by
  have hle := h.pending.weight_le
  rw [hnil] at hle
  cases hbehind : seam.behind with
  | nil => rfl
  | cons placed rest =>
    have hlt := weight_lt hbehind
    rw [weight_nil] at hle
    omega

/-- Streams stay in step when a token is taken that does not stand behind the seam. -/
theorem next {between : TokenStream} (h : seam.InStep fresh stream stream')
    (hnext : Reader.next stream = .ok (placed, between))
    (hkeeps : weight seam.behind ≤ weight between.pending) :
    ∃ placed' between', Reader.next stream' = .ok (placed', between') ∧
      placed'.token = placed.token ∧ seam.InStep false between between' ∧
      between'.requests = stream'.requests := by
  unfold Reader.next at hnext
  split at hnext
  · next hpending =>
    -- at the end of input both streams stay where they are
    cases hnext
    have hnil := h.nil_of_nil hpending
    have hpending' := h.pending.eq_behind' (hpending.trans hnil.symm)
    refine ⟨stream'.finish, stream', ?_, ?_, ⟨h.finish, h.finish', ?_⟩, rfl⟩
    · unfold Reader.next
      rw [hpending', seam.nil_iff.2 hnil]
    · rw [h.finish, h.finish', seam.finish_token, seam.finish_token']
    · rw [hpending, hpending', ← hnil]
      exact .behind
  · next first rest hpending =>
    cases hnext
    obtain ⟨_, placed', _, rest', heq, hpending', hechoes, -, hrest⟩ :=
      h.pending.uncons (hpending ▸ Echo.ne_of_weight_le hkeeps)
    cases hpending.symm.trans heq
    refine ⟨placed', ⟨rest', stream'.finish, placed'.span.stop, stream'.requests⟩, ?_,
      hechoes.token, ⟨h.finish, h.finish', hrest⟩, rfl⟩
    unfold Reader.next
    rw [hpending']

/-- In front of the seam a token is taken, and what it asks for is not behind the seam. -/
theorem next_front {token : Token} (h : seam.InStep fresh stream stream')
    (hfaces : seam.Faces token stream.pending) :
    ∃ placed between placed' between', Reader.next stream = .ok (placed, between) ∧
      Reader.next stream' = .ok (placed', between') ∧ placed'.token = placed.token ∧
      seam.InStep false between between' ∧ between'.requests = stream'.requests ∧
      weight between.pending < weight stream.pending ∧
      (token.asksForMore = true → between.pending ≠ seam.behind) := by
  obtain ⟨hne, hhead⟩ := hfaces
  obtain ⟨placed, placed', rest, rest', hpending, hpending', hechoes, hsettled, hrest⟩ :=
    h.pending.uncons hne
  rw [hpending] at hhead
  cases hhead
  have hsolid := List.length_pos_iff.2 hechoes.solid
  refine ⟨placed, ⟨rest, stream.finish, placed.span.stop, stream.requests⟩, placed',
    ⟨rest', stream'.finish, placed'.span.stop, stream'.requests⟩, ?_, ?_, hechoes.token,
    ⟨h.finish, h.finish', hrest⟩, rfl, ?_, fun hasks hbehind => ?_⟩
  · rw [Reader.next, hpending]
  · rw [Reader.next, hpending']
  · rw [hpending, weight_cons]
    exact Nat.lt_add_of_pos_left hsolid
  · rw [hsettled hbehind] at hasks
    cases hasks

end InStep

end Seam

/-! ### Readers in step -/

namespace Reader

/-- In front of a seam, a reader does in one source what another one does in the other: where
    the first one gives a result without passing the seam, so does the second, and the
    results are related.  The second one notes no spans. -/
structure Echoes {α : Type} (seam : Seam) (fresh : Bool) (cap : Nat)
    (pre : List Placed → Prop) (reader reader' : Reader α) (same : α → α → Prop) : Prop where
  shrinks : ∀ {stream after value}, reader stream = .ok (value, after) →
    weight after.pending ≤ weight stream.pending
  follows : ∀ {stream stream' after value}, seam.InStep fresh stream stream' →
    weight stream.pending < cap → pre stream.pending → reader stream = .ok (value, after) →
    weight seam.behind ≤ weight after.pending →
    ∃ value' after', reader' stream' = .ok (value', after') ∧ seam.InStep false after after' ∧
      after'.requests = stream'.requests ∧ same value value'

namespace Echoes

variable {α β : Type} {seam : Seam} {fresh : Bool} {cap cap' : Nat}
  {pre pre' : List Placed → Prop} {reader reader' reader'' : Reader α}
  {same : α → α → Prop} {next next' : α → Reader β} {same' : β → β → Prop}

theorem mono (h : Echoes seam fresh cap pre reader reader' same)
    (hpre : ∀ pending, pre' pending → pre pending) (hcap : cap' ≤ cap) :
    Echoes seam fresh cap' pre' reader reader' same where
  shrinks := h.shrinks
  follows := fun hstep hlt hbefore =>
    h.follows hstep (Nat.lt_of_lt_of_le hlt hcap) (hpre _ hbefore)

/-- A stream in front of a seam is longer than what is behind the seam. -/
theorem of_cap_le (h : Echoes seam fresh cap' pre' reader reader'' same)
    (hpre : ∀ pending, pre pending → pending ≠ seam.behind)
    (hcap : cap ≤ weight seam.behind + 1) : Echoes seam fresh cap pre reader reader' same where
  shrinks := h.shrinks
  follows := by
    intro stream stream' after value hstep hlt hbefore _ _
    have hgt := hstep.pending.weight_lt_of_ne (hpre _ hbefore)
    omega

/-- A reader that does the same in front of a seam and at it. -/
theorem cases (hfront : Echoes seam fresh cap (· ≠ seam.behind) reader reader' same)
    (hseam : Echoes seam fresh cap (· = seam.behind) reader reader' same) :
    Echoes seam fresh cap pre reader reader' same where
  shrinks := hfront.shrinks
  follows := by
    intro stream stream' after value hstep hlt _ hread hkeeps
    by_cases hbehind : stream.pending = seam.behind
    · exact hseam.follows hstep hlt hbehind hread hkeeps
    · exact hfront.follows hstep hlt hbehind hread hkeeps

theorem pure {a b : α} (h : same a b) :
    Echoes seam false cap pre (Pure.pure a) (Pure.pure b) same where
  shrinks := by
    intro stream after value hread
    obtain ⟨-, rfl⟩ := pure_eq_ok.1 hread
    exact Nat.le_refl _
  follows := by
    intro stream stream' after value hstep _ _ hread _
    obtain ⟨rfl, rfl⟩ := pure_eq_ok.1 hread
    exact ⟨b, stream', rfl, hstep, rfl, h⟩

theorem fail (h : ∀ {stream result}, reader stream ≠ .ok result) :
    Echoes seam fresh cap pre reader reader' same where
  shrinks := fun hread => absurd hread h
  follows := fun _ _ _ hread => absurd hread h

theorem expected (what what' : Expected) :
    Echoes seam fresh cap pre (Reader.expected what) (Reader.expected what') same :=
  .fail expected_ne_ok

/-- A reader and what goes on behind it.  Whatever the first reader may give, something has
    to be related to it, since it may have passed the seam. -/
theorem bind (h : Echoes seam fresh cap pre reader reader' same) (htotal : ∀ a, ∃ b, same a b)
    (hnext : ∀ a b, same a b → Echoes seam false cap (fun _ => True) (next a) (next' b) same') :
    Echoes seam fresh cap pre (reader >>= next) (reader' >>= next') same' where
  shrinks := by
    intro stream after value hread
    obtain ⟨a, between, hfirst, hrest⟩ := bind_eq_ok.1 hread
    obtain ⟨b, hb⟩ := htotal a
    exact Nat.le_trans ((hnext a b hb).shrinks hrest) (h.shrinks hfirst)
  follows := by
    intro stream stream' after value hstep hlt hpre hread hkeeps
    obtain ⟨a, between, hfirst, hrest⟩ := bind_eq_ok.1 hread
    have hshrinks : weight after.pending ≤ weight between.pending := by
      obtain ⟨b, hb⟩ := htotal a
      exact (hnext a b hb).shrinks hrest
    obtain ⟨b, between', hfirst', hstep', hquiet, hb⟩ :=
      h.follows hstep hlt hpre hfirst (Nat.le_trans hkeeps hshrinks)
    obtain ⟨value', after', hrest', hstep'', hquiet', hvalue⟩ := (hnext a b hb).follows hstep'
      (Nat.lt_of_le_of_lt (h.shrinks hfirst) hlt) trivial hrest hkeeps
    exact ⟨value', after', bind_eq_ok.2 ⟨b, between', hfirst', hrest'⟩, hstep'',
      hquiet'.trans hquiet, hvalue⟩

/-- A reader of which the result does not matter. -/
theorem bind_any (h : Echoes seam fresh cap pre reader reader' fun _ _ => True)
    (hnext : ∀ a b, Echoes seam false cap (fun _ => True) (next a) (next' b) same') :
    Echoes seam fresh cap pre (reader >>= next) (reader' >>= next') same' :=
  h.bind (fun a => ⟨a, trivial⟩) fun a b _ => hnext a b

/-- The next token is looked at in front of the seam. -/
theorem peekFront {next next' : Placed → Reader β}
    (hnext : ∀ placed placed', placed'.token = placed.token →
      Echoes seam fresh cap (seam.Faces placed.token) (next placed) (next' placed') same') :
    Echoes seam fresh cap (· ≠ seam.behind) (Reader.peek >>= next) (Reader.peek >>= next')
      same' where
  shrinks := by
    intro stream after value hread
    exact (hnext stream.head stream.head rfl).shrinks hread
  follows := by
    intro stream stream' after value hstep hlt hne hread hkeeps
    have hechoes := hstep.head hne
    obtain ⟨placed, -, rest, -, hpending, -⟩ := hstep.pending.uncons hne
    have hhead : stream.pending.head?.map (·.token) = some stream.head.token := by
      rw [TokenStream.head, hpending]
      rfl
    exact (hnext stream.head stream'.head hechoes.token).follows hstep hlt ⟨hne, hhead⟩ hread hkeeps

/-- The next token is looked at at the seam. -/
theorem peekSeam {next next' : Placed → Reader β}
    (hshrinks : ∀ placed {stream after value}, next placed stream = .ok (value, after) →
      weight after.pending ≤ weight stream.pending)
    (hnext : ∀ placed placed', Halt placed placed' →
      Echoes seam fresh cap (· = seam.behind) (next placed) (next' placed') same') :
    Echoes seam fresh cap (· = seam.behind) (Reader.peek >>= next) (Reader.peek >>= next')
      same' where
  shrinks := fun hread => hshrinks _ hread
  follows := by
    intro stream stream' after value hstep hlt hbehind hread hkeeps
    exact (hnext stream.head stream'.head (hstep.halt hbehind)).follows hstep hlt hbehind hread
      hkeeps

/-- The next token is looked at, perhaps at the seam. -/
theorem peek {next next' : Placed → Reader β}
    (hfront : ∀ placed placed', placed'.token = placed.token →
      Echoes seam fresh cap (seam.Faces placed.token) (next placed) (next' placed') same')
    (hseam : ∀ placed placed', Halt placed placed' →
      Echoes seam fresh cap (· = seam.behind) (next placed) (next' placed') same') :
    Echoes seam fresh cap pre (Reader.peek >>= next) (Reader.peek >>= next') same' :=
  .cases (.peekFront hfront) (.peekSeam (fun placed => (hfront placed placed rfl).shrinks) hseam)

theorem next_shrinks {stream after : TokenStream} {placed : Placed}
    (h : Reader.next stream = .ok (placed, after)) :
    weight after.pending ≤ weight stream.pending := by
  unfold Reader.next at h
  split at h
  · cases h
    exact Nat.le_refl _
  · next hpending =>
    cases h
    rw [hpending, weight_cons]
    exact Nat.le_add_left _ _

/-- A token is taken; if that passes no seam, then in both sources. -/
theorem nextThen {next next' : Placed → Reader β}
    (hnext : ∀ placed placed', placed'.token = placed.token →
      Echoes seam false cap (fun _ => True) (next placed) (next' placed') same') :
    Echoes seam fresh cap pre (Reader.next >>= next) (Reader.next >>= next') same' where
  shrinks := by
    intro stream after value hread
    obtain ⟨placed, between, hfirst, hrest⟩ := bind_eq_ok.1 hread
    exact Nat.le_trans ((hnext placed placed rfl).shrinks hrest) (next_shrinks hfirst)
  follows := by
    intro stream stream' after value hstep hlt _ hread hkeeps
    obtain ⟨placed, between, hfirst, hrest⟩ := bind_eq_ok.1 hread
    have hstays := Nat.le_trans hkeeps ((hnext placed placed rfl).shrinks hrest)
    have hless := Nat.lt_of_le_of_lt (next_shrinks hfirst) hlt
    obtain ⟨placed', between', hfirst', htoken, hstep', hquiet⟩ := hstep.next hfirst hstays
    obtain ⟨value', after', hrest', hafter, hquiet', hvalue⟩ :=
      (hnext placed placed' htoken).follows hstep' hless trivial hrest hkeeps
    exact ⟨value', after', bind_eq_ok.2 ⟨placed', between', hfirst', hrest'⟩, hafter,
      hquiet'.trans hquiet, hvalue⟩

/-- A token that is taken in front of the seam makes the stream shorter, and the seam is not
    reached behind a token that asks for more. -/
theorem nextOver {next next' : Placed → Reader β} {token : Token}
    (hnext : ∀ placed placed', placed'.token = placed.token →
      Echoes seam false cap (fun pending => token.asksForMore = true → pending ≠ seam.behind)
        (next placed) (next' placed') same') :
    Echoes seam fresh (cap + 1) (seam.Faces token) (Reader.next >>= next)
      (Reader.next >>= next') same' where
  shrinks := by
    intro stream after value hread
    obtain ⟨placed, between, hfirst, hrest⟩ := bind_eq_ok.1 hread
    exact Nat.le_trans ((hnext placed placed rfl).shrinks hrest) (next_shrinks hfirst)
  follows := by
    intro stream stream' after value hstep hlt hpre hread hkeeps
    obtain ⟨placed, between, placed', between', hfirst, hfirst', htoken, hstep', hquiet, hless,
      hasks⟩ := hstep.next_front hpre
    have hrest : next placed between = .ok (value, after) := by
      obtain ⟨_, _, hfirst'', hrest⟩ := bind_eq_ok.1 hread
      cases hfirst.symm.trans hfirst''
      exact hrest
    obtain ⟨value', after', hrest', hafter, hquiet', hvalue⟩ :=
      (hnext placed placed' htoken).follows hstep' (by omega) hasks hrest hkeeps
    exact ⟨value', after', bind_eq_ok.2 ⟨placed', between', hfirst', hrest'⟩, hafter,
      hquiet'.trans hquiet, hvalue⟩

/-- A loop that is bounded by a limit, and has turns enough in the second source for what is in
    front of the seam. -/
theorem loop {reader reader' : Nat → Reader α} {room : Nat}
    (hzero : ∀ {stream result}, reader 0 stream ≠ .ok result)
    (hhalt : ∀ {limit limit' cap : Nat}, cap ≤ limit' + 1 + weight seam.behind → cap ≤ room →
      Echoes seam false (cap - 1) (· ≠ seam.behind) (reader limit) (reader' limit') same →
      Echoes seam false cap (· ≠ seam.behind) (reader (limit + 1)) (reader' (limit' + 1)) same)
    (limit : Nat) {limit' : Nat} (hcap : cap ≤ limit' + weight seam.behind) (hroom : cap ≤ room) :
    Echoes seam false cap (· ≠ seam.behind) (reader limit) (reader' limit') same := by
  induction limit generalizing limit' cap with
  | zero => exact .fail hzero
  | succ limit ih =>
    cases limit' with
    | zero =>
      -- the loop is not begun, since there is something in front of the seam
      have hone : Echoes seam false 0 (· ≠ seam.behind) (reader (limit + 1)) (reader' 1) same :=
        hhalt (Nat.zero_le _) (Nat.zero_le _) (ih (Nat.zero_le _) (Nat.zero_le _))
      exact hone.of_cap_le (fun _ => id) (by omega)
    | succ limit' => exact hhalt hcap hroom (ih (by omega) (by omega))

/-- A reader that takes nothing, and another one that also notes nothing. -/
theorem quietThen (h : ∀ {stream after value}, reader stream = .ok (value, after) →
      after.pending = stream.pending ∧ after.finish = stream.finish ∧ after.readTo = stream.readTo)
    {b : α} (h' : ∀ stream', reader' stream' = .ok (b, stream'))
    (hnext : ∀ a, Echoes seam false cap pre (next a) (next' b) same') :
    Echoes seam false cap pre (reader >>= next) (reader' >>= next') same' where
  shrinks := by
    intro stream after value hread
    obtain ⟨a, between, hfirst, hrest⟩ := bind_eq_ok.1 hread
    rw [← (h hfirst).1]
    exact (hnext a).shrinks hrest
  follows := by
    intro stream stream' after value hstep hlt hpre hread hkeeps
    obtain ⟨a, between, hfirst, hrest⟩ := bind_eq_ok.1 hread
    obtain ⟨hpending, hfinish, hreadTo⟩ := h hfirst
    have hstep' : seam.InStep false between stream' := by
      refine ⟨hfinish.trans hstep.finish, hstep.finish', ?_⟩
      rw [hpending, hreadTo]
      exact hstep.pending
    rw [← hpending] at hlt hpre
    obtain ⟨value', after', hrest', hafter⟩ := (hnext a).follows hstep' hlt hpre hrest hkeeps
    exact ⟨value', after', bind_eq_ok.2 ⟨b, stream', h' stream', hrest'⟩, hafter⟩

end Echoes

end Reader

/-! ### Runs in step -/

/-- What a run may see of the token behind the next one: the same, or one of the two that come
    behind the seam, unless the next token asks for it. -/
inductive Glimpse (placed placed' : Placed) : Option Placed → Option Placed → Prop where
  | none : Glimpse placed placed' none none
  | same {following following' : Placed} (htoken : following'.token = following.token)
      (hgap : following'.span.start = placed'.span.stop ↔ following.span.start = placed.span.stop) :
      Glimpse placed placed' (some following) (some following')
  | halt {following following' : Placed} (h : Halt following following')
      (hsettled : placed.token.asksForMore = false) :
      Glimpse placed placed' (some following) (some following')

namespace Seam

variable {seam : Seam} {fresh : Bool} {low low' : Nat} {placed placed' : Placed}
  {tokens tokens' rest rest' : List Placed}

theorem Echo.glimpse (h : seam.Echo false placed.span.stop placed'.span.stop rest rest')
    (hsettled : rest = seam.behind → placed.token.asksForMore = false) :
    Glimpse placed placed' rest.head? rest'.head? := by
  by_cases hbehind : rest = seam.behind
  · have hbehind' := h.eq_behind' hbehind
    have hhalt := seam.halt
    have hnil := seam.nil_iff
    rw [← hbehind, ← hbehind'] at hhalt hnil
    cases rest with
    | nil =>
      rw [hnil.2 rfl]
      exact .none
    | cons following rest =>
      cases rest' with
      | nil => cases hnil.1 rfl
      | cons following' rest' => exact .halt hhalt (hsettled hbehind)
  · obtain ⟨_, _, _, _, rfl, rfl, hechoes, -⟩ := h.uncons hbehind
    exact .same hechoes.token (hechoes.gap rfl)

end Seam

section Steps

variable {σ : Type} {judge : σ → Placed → Option Placed → Judgement σ} {state later : σ}
  {placed : Placed} {rest : List Placed}

theorem scan_stop (h : judge state placed rest.head? = .stop) :
    scan judge state (placed :: rest) = ([], placed :: rest) := by
  rw [scan, h]

theorem scan_last (h : judge state placed rest.head? = .last) :
    scan judge state (placed :: rest) = ([placed], rest) := by
  rw [scan, h]

theorem scan_goOn (h : judge state placed rest.head? = .goOn later) :
    scan judge state (placed :: rest) = andTake placed (scan judge later rest) := by
  rw [scan, h]

end Steps

namespace Seam

variable {seam : Seam} {fresh : Bool} {low low' : Nat} {placed placed' : Placed}
  {tokens tokens' rest rest' : List Placed}

theorem Echo.nil (h : seam.Echo fresh low low' [] tokens') : tokens' = [] := by
  cases hbehind : seam.behind with
  | nil => rw [h.eq_behind' hbehind.symm, seam.nil_iff.2 hbehind]
  | cons _ _ =>
    have hlt := weight_lt hbehind
    have hle := h.weight_le
    rw [weight_nil] at hle
    omega

/-- At the seam there is a token in both sources, if there is one in the first. -/
theorem Echo.cons_behind (h : seam.Echo fresh low low' (placed :: rest) tokens')
    (hbehind : placed :: rest = seam.behind) :
    ∃ placed' rest', tokens' = placed' :: rest' ∧ Halt placed placed' := by
  have hhalt := seam.halt
  have hnil := seam.nil_iff
  rw [← hbehind, ← h.eq_behind' hbehind] at hhalt hnil
  obtain ⟨placed', rest', rfl⟩ : ∃ placed' rest', tokens' = placed' :: rest' :=
    List.exists_cons_of_ne_nil fun h => by cases hnil.1 h
  exact ⟨placed', rest', rfl, hhalt⟩

/-- Judgements by tokens, lines and gaps make a run that takes the same tokens in front of a
    seam, if it also stops at the seam in both sources. -/
theorem Echo.scan {σ : Type} {judge : σ → Placed → Option Placed → Judgement σ}
    (settled : σ → Prop) {state : σ} (h : seam.Echo fresh low low' tokens tokens')
    (hstart : settled state ∨ tokens ≠ seam.behind)
    (hkeeps : weight seam.behind ≤ weight (scan judge state tokens).2)
    (hjudge : ∀ {state placed placed' following? following?'}, placed'.token = placed.token →
      (fresh = false → placed'.afterNewline = placed.afterNewline) →
      Glimpse placed placed' following? following?' →
      judge state placed' following?' = judge state placed following?)
    (hgo : ∀ {state placed following? later}, judge state placed following? = .goOn later →
      settled later)
    (hstop : (scan judge state tokens).2 = seam.behind →
      ∀ {state placed placed' following? following?'}, settled state → Halt placed placed' →
        seam.behind'.head? = some placed' → judge state placed following? = .stop →
        judge state placed' following?' = .stop) :
    ((scan judge state tokens').1 = [] ↔ (scan judge state tokens).1 = []) ∧
      seam.Echo fresh (endOf low (scan judge state tokens).1)
        (endOf low' (scan judge state tokens').1) (scan judge state tokens).2
        (scan judge state tokens').2 := by
  induction tokens generalizing fresh low low' tokens' state with
  | nil =>
    cases h.nil
    exact ⟨Iff.rfl, h⟩
  | cons placed rest ih =>
    by_cases hbehind : placed :: rest = seam.behind
    · -- at the seam nothing is taken
      obtain ⟨placed', rest', rfl, hhalt⟩ := h.cons_behind hbehind
      have hhead : seam.behind'.head? = some placed' := by rw [← h.eq_behind' hbehind]; rfl
      have hlt := weight_lt hbehind.symm
      cases hjudgement : judge state placed rest.head? with
      | stop =>
        rw [scan_stop hjudgement] at hstop ⊢
        have hstop' : judge state placed' rest'.head? = .stop :=
          hstop hbehind (hstart.resolve_right (absurd hbehind)) hhalt hhead hjudgement
        rw [scan_stop hstop']
        exact ⟨Iff.rfl, h⟩
      | last =>
        rw [scan_last hjudgement] at hkeeps
        exact absurd hkeeps (Nat.not_le.2 hlt)
      | goOn later =>
        rw [scan_goOn hjudgement] at hkeeps
        exact absurd (Nat.le_trans hkeeps (weight_scan_le later rest)) (Nat.not_le.2 hlt)
    · obtain ⟨_, placed', _, rest', heq, rfl, hechoes, hsettled, hrest⟩ := h.uncons hbehind
      cases heq
      have hsame : judge state placed' rest'.head? = judge state placed rest.head? :=
        hjudge hechoes.token hechoes.afterNewline (hrest.glimpse hsettled)
      cases hjudgement : judge state placed rest.head? with
      | stop =>
        rw [scan_stop hjudgement, scan_stop (hsame.trans hjudgement)]
        exact ⟨Iff.rfl, h⟩
      | last =>
        rw [scan_last hjudgement, scan_last (hsame.trans hjudgement)]
        exact ⟨by simp, hrest.mono⟩
      | goOn later =>
        rw [scan_goOn hjudgement] at hkeeps hstop ⊢
        rw [scan_goOn (hsame.trans hjudgement)]
        simp only [andTake_fst, andTake_snd, endOf_cons] at hkeeps hstop ⊢
        obtain ⟨-, hleft⟩ := ih hrest (.inl (hgo hjudgement)) hkeeps
          (fun htoken hline => hjudge htoken fun _ => hline rfl) hstop
        exact ⟨by simp, hleft.mono⟩

end Seam

/-! ### The runs of readers -/

/-- In front of a seam, a run takes the same tokens in both sources. -/
structure Run.Echoes (seam : Seam) (pre : List Placed → Prop) (run : Run) : Prop where
  shrinks : ∀ tokens, weight (run tokens).2 ≤ weight tokens
  follows : ∀ {low low' : Nat} {tokens tokens' : List Placed},
    seam.Echo false low low' tokens tokens' → pre tokens →
    weight seam.behind ≤ weight (run tokens).2 →
    ((run tokens').1 = [] ↔ (run tokens).1 = []) ∧
      seam.Echo false (endOf low (run tokens).1) (endOf low' (run tokens').1) (run tokens).2
        (run tokens').2

theorem Run.Echoes.takeThen {seam : Seam} {pre : List Placed → Prop} {run : Run}
    (h : run.Echoes seam pre) {β : Type} {cap : Nat} {next next' : List Placed → Reader β}
    {same : β → β → Prop}
    (hnext : ∀ taken taken', (taken' = [] ↔ taken = []) →
      Reader.Echoes seam false cap (fun _ => True) (next taken) (next' taken') same) :
    Reader.Echoes seam false cap pre (Reader.take run >>= next) (Reader.take run >>= next')
      same where
  shrinks := by
    intro stream after value hread
    obtain ⟨taken, between, htake, hrest⟩ := Reader.bind_eq_ok.1 hread
    refine Nat.le_trans ((hnext taken taken Iff.rfl).shrinks hrest) ?_
    cases htake
    exact h.shrinks _
  follows := by
    intro stream stream' after value hstep hlt hpre hread hkeeps
    obtain ⟨taken, between, htake, hrest⟩ := Reader.bind_eq_ok.1 hread
    have hstays := Nat.le_trans hkeeps ((hnext taken taken Iff.rfl).shrinks hrest)
    cases htake
    obtain ⟨hnil, hleft⟩ := h.follows hstep.pending hpre hstays
    have hless := Nat.lt_of_le_of_lt (h.shrinks stream.pending) hlt
    have hstep' : seam.InStep false
        ⟨(run stream.pending).2, stream.finish, endOf stream.readTo (run stream.pending).1,
          stream.requests⟩
        ⟨(run stream'.pending).2, stream'.finish, endOf stream'.readTo (run stream'.pending).1,
          stream'.requests⟩ :=
      ⟨hstep.finish, hstep.finish', hleft⟩
    obtain ⟨value', after', hrest', hafter⟩ :=
      (hnext _ _ hnil).follows hstep' hless trivial hrest hkeeps
    exact ⟨value', after', Reader.bind_eq_ok.2 ⟨_, _, rfl, hrest'⟩, hafter⟩

theorem Run.Echoes.mono {seam : Seam} {pre pre' : List Placed → Prop} {run : Run}
    (h : run.Echoes seam pre) (hpre : ∀ tokens, pre' tokens → pre tokens) :
    run.Echoes seam pre' where
  shrinks := h.shrinks
  follows := fun hechoes hstart => h.follows hechoes (hpre _ hstart)

theorem scan_echoes {seam : Seam} {σ : Type} {judge : σ → Placed → Option Placed → Judgement σ}
    (settled : σ → Prop) (state : σ)
    (hjudge : ∀ {state placed placed' following? following?'}, placed'.token = placed.token →
      placed'.afterNewline = placed.afterNewline → Glimpse placed placed' following? following?' →
      judge state placed' following?' = judge state placed following?)
    (hgo : ∀ {state placed following? later}, judge state placed following? = .goOn later →
      settled later)
    (hstop : ∀ {state placed placed' following? following?'}, settled state →
      Halt placed placed' → judge state placed following? = .stop →
      judge state placed' following?' = .stop) :
    Run.Echoes seam (fun tokens => settled state ∨ tokens ≠ seam.behind) (scan judge state) where
  shrinks := weight_scan_le state
  follows := fun h hstart hkeeps =>
    h.scan settled hstart hkeeps (fun htoken hline => hjudge htoken (hline rfl)) hgo
      fun _ _ _ _ _ _ hsettled hhalt _ => hstop hsettled hhalt

namespace Halt

variable {placed placed' : Placed}

theorem isObserver_eq (h : Halt placed placed') :
    isObserver placed = false ∧ isObserver placed' = false := by
  refine ⟨?_, ?_⟩
  · rcases h.stop with hstop | hstop | hstop <;> simp [isObserver, hstop]
  · rcases h.stop' with hstop | hstop | hstop | ⟨word, hword, hstop⟩
    · simp [isObserver, hstop]
    · simp [isObserver, hstop]
    · simp [isObserver, hstop]
    · have hall : ∀ word ∈ introducerWords, isObserverWord word = false := by decide
      rw [isObserver, hstop]
      exact hall word hword

theorem endsExpr (h : Halt placed placed') {stopAtColon : Bool}
    {following? following?' : Option Placed}
    (hends : endsExpr stopAtColon false placed following? = true) :
    Memberwise.endsExpr stopAtColon false placed' following?' = true := by
  have hline : placed.token = .atSign → placed.afterNewline = true := fun hsign => by
    simpa [Memberwise.endsExpr, hsign] using hends
  rcases h.ends_of_line hline with hclose | hend | hline
  · simp [Memberwise.endsExpr, hclose]
  · simp [Memberwise.endsExpr, hend]
  · rcases h.stop' with hstop | hstop | hstop | ⟨word, -, hstop⟩ <;>
      simp [Memberwise.endsExpr, hstop, hline]

theorem endsType (h : Halt placed placed') (hends : endsType false placed = true) :
    Memberwise.endsType false placed' = true := by
  have hline : placed.token = .atSign → placed.afterNewline = true := fun hsign => by
    simpa [Memberwise.endsType, hsign] using hends
  rcases h.ends_of_line hline with hclose | hend | hline
  · simp [Memberwise.endsType, hclose]
  · simp [Memberwise.endsType, hend]
  · simp [Memberwise.endsType, hline]

theorem endsOther (h : Halt placed placed') (hends : endsOther false placed = true) :
    Memberwise.endsOther false placed' = true := by
  have hline : placed.token = .atSign → placed.afterNewline = true := fun hsign => by
    simpa [Memberwise.endsOther, hsign] using hends
  rcases h.ends_of_line hline with hclose | hend | hline
  · simp [Memberwise.endsOther, hclose]
  · simp [Memberwise.endsOther, hend]
  · rcases h.stop' with hstop | hstop | hstop | ⟨word, -, hstop⟩ <;>
      simp [Memberwise.endsOther, hstop, hline]

/-- Neither of two tokens behind a seam opens arguments. -/
theorem opensArguments_eq (h : Halt placed placed') (owner owner' : Span) :
    opensArguments owner placed = false ∧ opensArguments owner' placed' = false := by
  refine ⟨?_, ?_⟩
  · rcases h.stop with hstop | hstop | hstop <;> simp [opensArguments, hstop]
  · rcases h.stop' with hstop | hstop | hstop | ⟨word, -, hstop⟩ <;> simp [opensArguments, hstop]

theorem splitEquals?_eq (h : Halt placed placed') :
    splitEquals? placed = none ∧ splitEquals? placed' = none := by
  refine ⟨?_, ?_⟩
  · rcases h.stop with hstop | hstop | hstop <;> simp [splitEquals?, hstop]
  · rcases h.stop' with hstop | hstop | hstop | ⟨word, -, hstop⟩ <;> simp [splitEquals?, hstop]

end Halt

theorem Glimpse.endsExpr_eq {stopAtColon first : Bool} {placed placed' : Placed}
    {following? following?' : Option Placed} (h : Glimpse placed placed' following? following?')
    (htoken : placed'.token = placed.token)
    (hline : placed'.afterNewline = placed.afterNewline) :
    endsExpr stopAtColon first placed' following?' =
      endsExpr stopAtColon first placed following? := by
  have hobserver : following?'.any isObserver = following?.any isObserver := by
    cases h with
    | none => rfl
    | same h _ => simp only [Option.any_some, isObserver, h]
    | halt h _ => simp only [Option.any_some, h.isObserver_eq.1, h.isObserver_eq.2]
  rw [endsExpr, endsExpr, htoken, hline, hobserver]

section Runs

variable {seam : Seam}

theorem exprRun_echoes (stopAtColon first : Bool) (depth : Nat) :
    Run.Echoes seam (fun tokens => first = false ∨ tokens ≠ seam.behind)
      (exprRun stopAtColon first depth) := by
  rw [exprRun_eq_scan]
  refine scan_echoes (fun state => state.1 = false) (first, depth) ?_ ?_ ?_
  · intro state placed placed' following? following?' htoken hline hglimpse
    simp only [exprJudge, hglimpse.endsExpr_eq htoken hline, htoken]
  · intro state placed following? later hjudge
    rw [exprJudge] at hjudge
    split at hjudge <;> cases hjudge
    rfl
  · intro state placed placed' following? following?' hfirst hhalt hjudge
    rw [exprJudge] at hjudge ⊢
    split at hjudge
    · next hends =>
      rw [hfirst] at hends ⊢
      rw [if_pos ⟨hends.1, hhalt.endsExpr hends.2⟩]
    · cases hjudge

theorem collectionRun_echoes (depth : Nat) :
    Run.Echoes seam (fun _ => True) (collectionRun depth) := by
  rw [collectionRun_eq_scan]
  refine (scan_echoes (fun _ => True) _ ?_ (fun _ => trivial) ?_).mono fun _ => .inl
  · intro state placed placed' following? following?' htoken _ _
    simp only [collectionJudge, htoken]
  · intro state placed placed' following? following?' _ _ hjudge
    unfold collectionJudge at hjudge
    split at hjudge <;> cases hjudge

theorem genericRun_echoes (depth : Nat) :
    Run.Echoes seam (fun _ => True) (genericRun depth) := by
  rw [genericRun_eq_scan]
  refine (scan_echoes (fun _ => True) _ ?_ (fun _ => trivial) ?_).mono fun _ => .inl
  · intro state placed placed' following? following?' htoken _ _
    simp only [genericJudge, htoken]
  · intro state placed placed' following? following?' _ _ hjudge
    unfold genericJudge at hjudge
    split at hjudge
    · split at hjudge <;> cases hjudge
    · cases hjudge

theorem otherRun_echoes (first : Bool) (depth : Nat) :
    Run.Echoes seam (fun tokens => first = false ∨ tokens ≠ seam.behind)
      (otherRun first depth) := by
  rw [otherRun_eq_scan]
  refine scan_echoes (fun state => state.1 = false) (first, depth) ?_ ?_ ?_
  · intro state placed placed' following? following?' htoken hline _
    have hends : endsOther state.1 placed' = endsOther state.1 placed := by
      rw [endsOther, endsOther, htoken, hline]
    simp only [otherJudge, hends, htoken]
  · intro state placed following? later hjudge
    rw [otherJudge] at hjudge
    split at hjudge <;> cases hjudge
    rfl
  · intro state placed placed' following? following?' hfirst hhalt hjudge
    rw [otherJudge] at hjudge ⊢
    split at hjudge
    · next hends =>
      rw [hfirst] at hends ⊢
      rw [if_pos ⟨hends.1, hhalt.endsOther hends.2⟩]
    · cases hjudge

theorem requirementRun_echoes :
    Run.Echoes seam (fun _ => True)
      (List.span (·.token != .opening .curly)) := by
  rw [requirementRun_eq_scan]
  refine (scan_echoes (fun _ => True) _ ?_ (fun _ => trivial) ?_).mono fun _ => .inl
  · intro state placed placed' following? following?' htoken _ _
    simp only [requirementJudge, htoken]
  · intro state placed placed' following? following?' _ hhalt hjudge
    have hne : placed.token ≠ .opening .curly := hhalt.ne_of_stops (by simp) (by simp) (by simp)
    simp [requirementJudge, hne] at hjudge

theorem qualifierRun_echoes :
    Run.Echoes seam (fun _ => True) qualifierRun := by
  rw [qualifierRun_eq_scan]
  refine (scan_echoes (fun _ => True) _ ?_ (fun _ => trivial) ?_).mono fun _ => .inl
  · intro state placed placed' following? following?' htoken _ hglimpse
    unfold qualifierJudge
    rw [htoken]
    cases hglimpse with
    | none => rfl
    | same h _ => simp only [Option.any_some, h]
    | halt _ hsettled =>
      -- a point asks for more
      have hdot : placed.token ≠ .dot := by
        intro hdot
        rw [hdot] at hsettled
        cases hsettled
      simp [hdot]
  · intro state placed placed' following? following?' _ hhalt hjudge
    cases state with
    | true => cases hjudge
    | false =>
      have hdot : placed'.token ≠ .dot :=
        hhalt.ne_of_stops' (by simp) (by simp) (by simp) rfl
      simp [qualifierJudge, hdot]

/-- An operator that is parted in one source is parted in the other. -/
theorem Placed.Echoes.splitEquals? {low low' : Nat} {placed placed' : Placed}
    (h : placed.Echoes false low low' placed') :
    (splitEquals? placed = none ∧ splitEquals? placed' = none) ∨
      ∃ sign equals sign' equals', splitEquals? placed = some (sign, equals) ∧
        splitEquals? placed' = some (sign', equals') ∧ sign.Echoes false low low' sign' ∧
        equals.Echoes false sign.span.stop sign'.span.stop equals' ∧
        equals.span.stop = placed.span.stop ∧ equals'.span.stop = placed'.span.stop := by
  unfold Memberwise.splitEquals?
  rw [h.token]
  split
  · simp only
    split
    · next hcond =>
      refine .inr ⟨_, _, _, _, rfl, rfl, ⟨rfl, ?_, h.afterNewline, h.gap⟩, ⟨rfl, ?_, ?_, ?_⟩, rfl,
        rfl⟩
      · simpa [Token.spelling] using hcond.2.1
      · simp [Token.spelling]
      · exact fun _ => rfl
      · exact fun _ => iff_of_true rfl rfl
    · exact .inl ⟨rfl, rfl⟩
  · exact .inl ⟨rfl, rfl⟩

theorem asksForMore_of_splitEquals? {placed : Placed} {parts : Placed × Placed}
    (h : splitEquals? placed = some parts) : placed.token.asksForMore = true := by
  obtain ⟨text, -, -, htoken, -⟩ := splitEquals?_eq_some h
  simp [htoken, Token.asksForMore]

theorem typeRun_echoes (first : Bool) (depth : Nat) :
    Run.Echoes seam (fun tokens => first = false ∨ tokens ≠ seam.behind) (typeRun first depth) where
  shrinks := weight_typeRun_le first depth
  follows := by
    intro low low' tokens tokens' h hstart hkeeps
    induction tokens generalizing low low' tokens' first depth with
    | nil =>
      cases h.nil
      exact ⟨Iff.rfl, h⟩
    | cons placed rest ih =>
      by_cases hbehind : placed :: rest = seam.behind
      · -- at the seam nothing is taken
        obtain ⟨placed', rest', rfl, hhalt⟩ := h.cons_behind hbehind
        obtain rfl := hstart.resolve_right (absurd hbehind)
        have hlt := Seam.weight_lt hbehind.symm
        obtain ⟨hwhole, hwhole'⟩ := hhalt.splitEquals?_eq
        by_cases hends : depth = 0 ∧ endsType false placed = true
        · have hstop : typeRun false depth (placed :: rest) = ([], placed :: rest) := by
            simp [typeRun, hwhole, hends]
          have hstop' : typeRun false depth (placed' :: rest') = ([], placed' :: rest') := by
            simp [typeRun, hwhole', hends.1, hhalt.endsType hends.2]
          rw [hstop, hstop']
          exact ⟨Iff.rfl, h⟩
        · have htake : typeRun false depth (placed :: rest) =
              andTake placed (typeRun false (typeDepth placed.token depth) rest) := by
            simp only [typeRun, hwhole, if_neg hends]
          rw [htake, andTake_snd] at hkeeps
          have hle := Nat.le_trans hkeeps (weight_typeRun_le _ _ rest)
          exact absurd hle (Nat.not_le.2 hlt)
      · obtain ⟨_, placed', _, rest', heq, rfl, hechoes, hsettled, hrest⟩ := h.uncons hbehind
        cases heq
        have hline := hechoes.afterNewline rfl
        unfold typeRun at hkeeps ⊢
        rcases hechoes.splitEquals? with ⟨hwhole, hwhole'⟩ |
          ⟨sign, equals, sign', equals', hpart, hpart', hsign, hequals, hstop, hstop'⟩
        · have hends : endsType first placed' = endsType first placed := by
            rw [endsType, endsType, hechoes.token, hline]
          simp only [hwhole, hwhole', hends, hechoes.token] at hkeeps ⊢
          split at hkeeps
          · next hends =>
            rw [if_pos hends, if_pos hends]
            exact ⟨Iff.rfl, h⟩
          · next hends =>
            rw [if_neg hends, if_neg hends]
            simp only [andTake_fst, andTake_snd, endOf_cons] at hkeeps ⊢
            exact ⟨by simp, (ih false _ hrest (.inl rfl) hkeeps).2⟩
        · have hends : endsType first sign' = endsType first sign := by
            rw [endsType, endsType, hsign.token, hsign.afterNewline rfl]
          -- the seam is not reached behind the operator, so neither between its parts
          have hinside : rest ≠ seam.behind := fun hbehind => by
            rw [asksForMore_of_splitEquals? hpart] at hsettled
            cases hsettled hbehind
          have hback : seam.Echo false sign.span.stop sign'.span.stop (equals :: rest)
              (equals' :: rest') :=
            .cons hequals (absurd · hinside) (by rw [hstop, hstop']; exact hrest)
          have hbetween : equals :: rest ≠ seam.behind :=
            Seam.Echo.ne_of_weight_le hrest.weight_le
          simp only [hpart, hpart', hends, hsign.token] at hkeeps ⊢
          split at hkeeps
          · next hends =>
            rw [if_pos hends, if_pos hends]
            exact ⟨Iff.rfl, .cons hsign (absurd · hbetween) hback⟩
          · next hends =>
            rw [if_neg hends, if_neg hends]
            cases hdepth : typeDepth sign.token depth with
            | zero => exact ⟨by simp, hback⟩
            | succ inside =>
              simp only [hdepth, andTake_fst, andTake_snd, endOf_cons, hstop, hstop'] at hkeeps ⊢
              exact ⟨by simp, (ih false _ hrest (.inl rfl) hkeeps).2⟩

/-- A block that is closed in front of the seam is closed by the same brace in both sources. -/
theorem blockRun?_echoes {depth low low' : Nat} {tokens tokens' taken left : List Placed}
    (h : seam.Echo false low low' tokens tokens')
    (hrun : blockRun? depth tokens = some (taken, left))
    (hkeeps : weight seam.behind ≤ weight left) :
    ∃ taken' left', blockRun? depth tokens' = some (taken', left') ∧
      seam.Echo false (endOf low taken) (endOf low' taken') left left' := by
  induction tokens generalizing depth low low' tokens' taken with
  | nil => cases hrun
  | cons placed rest ih =>
    -- the token is taken, so it stands in front of the seam
    have hleft : weight left ≤ weight rest := by
      obtain ⟨htokens, last, hlast, -⟩ := blockRun?_eq_some hrun
      cases taken with
      | nil => cases hlast
      | cons _ taken =>
        rw [List.cons_append] at htokens
        rw [(List.cons.inj htokens).2, weight_append]
        exact Nat.le_add_left _ _
    obtain ⟨_, placed', _, rest', heq, rfl, hechoes, -, hrest⟩ :=
      h.uncons (Seam.Echo.ne_of_weight_le (Nat.le_trans hkeeps hleft))
    cases heq
    have hstep : ∀ {depth : Nat}, (blockRun? depth rest).map (andTake placed) = some (taken, left) →
        ∃ taken' left', (blockRun? depth rest').map (andTake placed') = some (taken', left') ∧
          seam.Echo false (endOf low taken) (endOf low' taken') left left' := by
      intro depth hmap
      obtain ⟨⟨inner, _⟩, hinner, heq⟩ := Option.map_eq_some_iff.1 hmap
      cases heq
      obtain ⟨inner', left', hinner', hechoes'⟩ := ih hrest hinner
      refine ⟨placed' :: inner', left', by rw [hinner']; rfl, ?_⟩
      rw [endOf_cons, endOf_cons]
      exact hechoes'
    unfold blockRun? at hrun ⊢
    rw [hechoes.token]
    split at hrun
    · cases hrun
      exact ⟨_, _, rfl, hrest⟩
    · exact hstep hrun
    · exact hstep hrun
    · exact hstep hrun

end Runs

end Memberwise
