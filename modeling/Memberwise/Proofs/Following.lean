/-
  Memberwise/Proofs/Following.lean
  ================================
  **Readers that see the same tokens do the same.**

  Two sources can have a stretch in common that stands further on in the second one.
  Where a reader keeps to that stretch in the first source, the same reader does the
  same in the second (`Follows`), whatever comes behind the stretch there, as long as
  the next two tokens behind it are the same: no reader looks further ahead.

  That a reader keeps to the stretch is told by the weight of what it leaves, which
  only gets less.
-/
import Memberwise.Proofs.Declarations

namespace Memberwise

/-! ### Tokens further on -/

/-- The same token, some bytes further on. -/
structure Placed.Moved (shift : Nat) (placed moved : Placed) : Prop where
  token : moved.token = placed.token
  afterNewline : moved.afterNewline = placed.afterNewline
  start : moved.span.start = placed.span.start + shift
  stop : moved.span.stop = placed.span.stop + shift

def Placed.moved (shift : Nat) (placed : Placed) : Placed :=
  { placed with
    span := { placed.span with
      start := placed.span.start + shift
      stop := placed.span.stop + shift } }

theorem Placed.moved_moved (shift : Nat) (placed : Placed) :
    placed.Moved shift (placed.moved shift) :=
  ⟨rfl, rfl, rfl, rfl⟩

theorem splitEquals?_moved {shift : Nat} {placed moved sign equals : Placed}
    (h : placed.Moved shift moved) (hstop : 0 < placed.span.stop)
    (hpart : splitEquals? placed = some (sign, equals)) :
    ∃ sign' equals', splitEquals? moved = some (sign', equals') ∧ sign.Moved shift sign' ∧
      equals.Moved shift equals' := by
  unfold splitEquals? at hpart ⊢
  rw [h.token]
  split at hpart
  · simp only at hpart ⊢
    split at hpart
    · next hcond =>
      simp only [Option.some.injEq, Prod.mk.injEq] at hpart
      obtain ⟨rfl, rfl⟩ := hpart
      rw [if_pos hcond]
      have hmiddle : moved.span.stop - 1 = placed.span.stop - 1 + shift := by
        have := h.stop
        omega
      exact ⟨_, _, rfl, ⟨rfl, h.afterNewline, h.start, hmiddle⟩, rfl, rfl, hmiddle, h.stop⟩
    · cases hpart
  · cases hpart

theorem splitEquals?_moved_none {shift : Nat} {placed moved : Placed}
    (h : placed.Moved shift moved) (hwhole : splitEquals? placed = none) :
    splitEquals? moved = none := by
  unfold splitEquals? at hwhole ⊢
  rw [h.token]
  split at hwhole
  · simp only at hwhole ⊢
    split at hwhole
    · cases hwhole
    · next hcond => rw [if_neg hcond]
  · rfl

/-- Behind some token, two streams go on with the same tokens, as far as they are looked at. -/
inductive Ahead (shift : Nat) (finish finish' : Placed) : Nat → List Placed → List Placed → Prop
    where
  | far {pending pending' : List Placed} : Ahead shift finish finish' 0 pending pending'
  | nil {n : Nat} (h : finish.Moved shift finish') : Ahead shift finish finish' n [] []
  | cons {n : Nat} {placed placed' : Placed} {rest rest' : List Placed}
      (h : placed.Moved shift placed') (hrest : Ahead shift finish finish' n rest rest') :
      Ahead shift finish finish' (n + 1) (placed :: rest) (placed' :: rest')

namespace Ahead

variable {shift n : Nat} {finish finish' : Placed} {pending pending' : List Placed}

theorem mono {m : Nat} (h : Ahead shift finish finish' n pending pending') (hle : m ≤ n) :
    Ahead shift finish finish' m pending pending' := by
  induction h generalizing m with
  | far =>
    obtain rfl : m = 0 := by omega
    exact .far
  | nil h => exact .nil h
  | cons h _ ih =>
    cases m with
    | zero => exact .far
    | succ m => exact .cons h (ih (Nat.le_of_succ_le_succ hle))

theorem headD (h : Ahead shift finish finish' (n + 1) pending pending') :
    (pending.headD finish).Moved shift (pending'.headD finish') := by
  cases h with
  | nil h => exact h
  | cons h _ => exact h

theorem tail (h : Ahead shift finish finish' (n + 1) pending pending') :
    Ahead shift finish finish' n pending.tail pending'.tail := by
  cases h with
  | nil h => exact .nil h
  | cons _ hrest => exact hrest

theorem head? (h : Ahead shift finish finish' (n + 1) pending pending') :
    Option.Rel (Placed.Moved shift) pending.head? pending'.head? := by
  cases h with
  | nil _ => exact .none
  | cons h _ => exact .some h

end Ahead

/-! ### Two streams in step -/

/-- A stretch that two sources have in common, in the second one further on, and what comes
    behind it in each of them. -/
structure Stretch (source source' : List Char) (finish finish' : Placed) where
  shift : Nat
  behind : List Placed
  behind' : List Placed
  ahead : Ahead shift finish finish' 2 behind behind'
  /-- The token behind the stretch is no operator that could be parted. -/
  whole : ∀ placed ∈ behind.head?, splitEquals? placed = none
  /-- Where the stretch begins. -/
  low : Nat
  text : ∀ start stop, low ≤ start → Text.isBoundary start source = true →
    stop ≤ (behind.headD finish).span.start →
    sourceText source' (start + shift) (stop + shift) = sourceText source start stop
  longer : source.length ≤ source'.length

namespace Stretch

variable {source source' : List Char} {finish finish' : Placed}
  {stretch : Stretch source source' finish finish'}

/-- The same tokens come next, up to the end of the stretch. -/
inductive Alike (stretch : Stretch source source' finish finish') :
    List Placed → List Placed → Prop where
  | behind : Alike stretch stretch.behind stretch.behind'
  | cons {placed placed' : Placed} {rest rest' : List Placed}
      (h : placed.Moved stretch.shift placed') (hrest : Alike stretch rest rest') :
      Alike stretch (placed :: rest) (placed' :: rest')

namespace Alike

variable {pending pending' : List Placed}

theorem ahead (h : stretch.Alike pending pending') :
    Ahead stretch.shift finish finish' 2 pending pending' := by
  induction h with
  | behind => exact stretch.ahead
  | cons h _ ih => exact .cons h (ih.mono (Nat.le_succ 1))

/-- Nothing can be taken from what is behind the stretch. -/
theorem cases_of_weight_le {placed : Placed} {rest : List Placed}
    (h : stretch.Alike (placed :: rest) pending')
    (hsolid : placed.token.spelling ≠ []) (hle : weight stretch.behind ≤ weight rest) :
    ∃ placed' rest', pending' = placed' :: rest' ∧ placed.Moved stretch.shift placed' ∧
      stretch.Alike rest rest' := by
  have hpos := List.length_pos_iff.2 hsolid
  generalize hpending : placed :: rest = pending at h
  cases h with
  | behind =>
    rw [← hpending, weight_cons] at hle
    omega
  | cons h hrest =>
    cases hpending
    exact ⟨_, _, rfl, h, hrest⟩

end Alike

structure InStep (stretch : Stretch source source' finish finish')
    (stream stream' : TokenStream) : Prop where
  ready : Ready source stream
  finish_eq : stream.finish = finish
  finish_eq' : stream'.finish = finish'
  low : stretch.low ≤ stream.readTo
  readTo : stream'.readTo = stream.readTo + stretch.shift
  pending : stretch.Alike stream.pending stream'.pending

structure Sees (stretch : Stretch source source' finish finish')
    (stream stream' : TokenStream) : Prop where
  head : stream.head.Moved stretch.shift stream'.head
  second : stream.second.Moved stretch.shift stream'.second
  following? : Option.Rel (Placed.Moved stretch.shift) stream.pending.tail.head?
    stream'.pending.tail.head?

namespace InStep

variable {stream stream' : TokenStream}

theorem sees (h : stretch.InStep stream stream') : stretch.Sees stream stream' := by
  have hahead := h.pending.ahead
  refine ⟨?_, ?_, hahead.tail.head?⟩
  · rw [TokenStream.head, TokenStream.head, h.finish_eq, h.finish_eq']
    exact hahead.headD
  · rw [TokenStream.second, TokenStream.second, h.finish_eq, h.finish_eq']
    exact hahead.tail.headD

theorem endOf_moved {shift low low' : Nat} {taken taken' : List Placed}
    (h : List.Forall₂ (Placed.Moved shift) taken taken') (hlow : low' = low + shift) :
    endOf low' taken' = endOf low taken + shift := by
  induction h generalizing low low' with
  | nil => exact hlow
  | cons h _ ih =>
    rw [endOf_cons, endOf_cons]
    exact ih h.stop

/-- Streams stay in step when the same tokens are taken from both. -/
theorem pass (h : stretch.InStep stream stream') {taken taken' left left' : List Placed}
    (hparts : Refines stream.pending (taken ++ left))
    (htaken : List.Forall₂ (Placed.Moved stretch.shift) taken taken')
    (hleft : stretch.Alike left left') (requests requests' : List Span) :
    stretch.InStep ⟨left, stream.finish, endOf stream.readTo taken, requests⟩
      ⟨left', stream'.finish, endOf stream'.readTo taken', requests'⟩ := by
  have hlaid := (hparts.laid h.ready.laid).1
  rw [Laid.append_iff] at hlaid
  refine ⟨⟨hlaid.2, h.ready.finish_token, h.ready.finish_span⟩, h.finish_eq, h.finish_eq', ?_,
    endOf_moved htaken h.readTo, hleft⟩
  exact Nat.le_trans h.low hlaid.1.le

/-- The next token stands no further on than the first one behind the stretch. -/
theorem head_le (h : stretch.InStep stream stream') :
    stream.head.span.start ≤ (stretch.behind.headD finish).span.start := by
  have hlaid := h.ready.laid
  have hfinish := h.ready.finish_span
  have hpending := h.pending
  rw [TokenStream.head, h.finish_eq]
  rw [h.finish_eq] at hfinish
  generalize stream.readTo = low at hlaid
  generalize stream.pending = pending at hlaid hpending ⊢
  generalize stream'.pending = pending' at hpending
  induction hpending generalizing low with
  | behind => exact Nat.le_refl _
  | @cons placed _ rest _ _ _ ih =>
    obtain ⟨-, hsits, hrest⟩ := hlaid
    have hlt := hsits.start_lt_stop
    have hbehind := ih _ hrest
    have hnext : placed.span.stop ≤ (rest.headD finish).span.start := by
      cases rest with
      | nil =>
        rw [List.headD_nil, hfinish]
        simpa [Span.across] using hrest.le
      | cons next rest => exact hrest.1
    exact Nat.le_trans (Nat.le_of_lt hlt) (Nat.le_trans hnext hbehind)

theorem readTo_le (h : stretch.InStep stream stream') :
    stream.readTo ≤ (stretch.behind.headD finish).span.start :=
  Nat.le_trans h.ready.readTo_le_head h.head_le

end InStep

end Stretch

/-! ### Readers in step -/

/-- In a stretch, a reader does what another one does further on: where the first one gives a
    result and keeps to the stretch, so does the second, and the results are related. -/
structure Reader.Follows {α : Type} {source source' : List Char} {finish finish' : Placed}
    (stretch : Stretch source source' finish finish') (reader reader' : Reader α)
    (same : α → α → Prop) : Prop where
  shrinks : ∀ {stream after value}, reader stream = .ok (value, after) →
    weight after.pending ≤ weight stream.pending
  follows : ∀ {stream stream' after value}, stretch.InStep stream stream' →
    reader stream = .ok (value, after) → weight stretch.behind ≤ weight after.pending →
    ∃ value' after', reader' stream' = .ok (value', after') ∧ stretch.InStep after after' ∧
      same value value'

namespace Reader.Follows

variable {α β : Type} {source source' : List Char} {finish finish' : Placed}
  {stretch : Stretch source source' finish finish'} {reader reader' : Reader α}
  {same : α → α → Prop} {next next' : α → Reader β} {same' : β → β → Prop}

theorem pure {a b : α} (h : same a b) :
    Follows stretch (Pure.pure a) (Pure.pure b) same where
  shrinks := by
    intro stream after value hread
    obtain ⟨-, rfl⟩ := pure_eq_ok.1 hread
    exact Nat.le_refl _
  follows := by
    intro stream stream' after value hstep hread _
    obtain ⟨rfl, rfl⟩ := pure_eq_ok.1 hread
    exact ⟨b, stream', rfl, hstep, h⟩

theorem fail (h : ∀ {stream result}, reader stream ≠ .ok result) :
    Follows stretch reader reader' same where
  shrinks := fun hread => absurd hread h
  follows := fun _ hread => absurd hread h

theorem expected (what what' : Expected) :
    Follows stretch (Reader.expected what) (Reader.expected what') same :=
  .fail expected_ne_ok

/-- A reader and what goes on behind it.  Whatever the first reader may give, something has
    to be related to it, since it may have left the stretch. -/
theorem bind (h : Follows stretch reader reader' same) (htotal : ∀ a, ∃ b, same a b)
    (hnext : ∀ a b, same a b → Follows stretch (next a) (next' b) same') :
    Follows stretch (reader >>= next) (reader' >>= next') same' where
  shrinks := by
    intro stream after value hread
    obtain ⟨a, between, hfirst, hrest⟩ := bind_eq_ok.1 hread
    obtain ⟨b, hb⟩ := htotal a
    exact Nat.le_trans ((hnext a b hb).shrinks hrest) (h.shrinks hfirst)
  follows := by
    intro stream stream' after value hstep hread hkeeps
    obtain ⟨a, between, hfirst, hrest⟩ := bind_eq_ok.1 hread
    have hshrinks : weight after.pending ≤ weight between.pending := by
      obtain ⟨b, hb⟩ := htotal a
      exact (hnext a b hb).shrinks hrest
    obtain ⟨b, between', hfirst', hstep', hb⟩ :=
      h.follows hstep hfirst (Nat.le_trans hkeeps hshrinks)
    obtain ⟨value', after', hrest', hstep'', hvalue⟩ := (hnext a b hb).follows hstep' hrest hkeeps
    exact ⟨value', after', bind_eq_ok.2 ⟨b, between', hfirst', hrest'⟩, hstep'', hvalue⟩

/-- A reader of which the result does not matter. -/
theorem bind_any (h : Follows stretch reader reader' fun _ _ => True)
    (hnext : ∀ a b, Follows stretch (next a) (next' b) same') :
    Follows stretch (reader >>= next) (reader' >>= next') same' :=
  h.bind (fun a => ⟨a, trivial⟩) fun a b _ => hnext a b

theorem get {next next' : TokenStream → Reader β}
    (hnext : ∀ stream stream', stretch.Sees stream stream' →
      Follows stretch (next stream) (next' stream') same') :
    Follows stretch (MonadState.get >>= next) (MonadState.get >>= next') same' where
  shrinks := by
    intro stream after value hread
    have hmoved := Placed.moved_moved stretch.shift
    have hsees : stretch.Sees stream
        ⟨stream.pending.map (·.moved stretch.shift), stream.finish.moved stretch.shift, 0, []⟩ := by
      obtain ⟨_ | ⟨first, _ | ⟨second, rest⟩⟩, finish, readTo, requests⟩ := stream
      · exact ⟨hmoved _, hmoved _, .none⟩
      · exact ⟨hmoved _, hmoved _, .none⟩
      · exact ⟨hmoved _, hmoved _, .some (hmoved _)⟩
    exact (hnext _ _ hsees).shrinks hread
  follows := by
    intro stream stream' after value hstep hread hkeeps
    exact (hnext stream stream' hstep.sees).follows hstep hread hkeeps

theorem peek {next next' : Placed → Reader β}
    (hnext : ∀ placed placed', placed.Moved stretch.shift placed' →
      Follows stretch (next placed) (next' placed') same') :
    Follows stretch (Reader.peek >>= next) (Reader.peek >>= next') same' := by
  have hget : Follows stretch (MonadState.get >>= fun stream => next stream.head)
      (MonadState.get >>= fun stream => next' stream.head) same' :=
    get fun _ _ hsees => hnext _ _ hsees.head
  exact hget

theorem next_moved :
    Follows stretch Reader.next Reader.next (Placed.Moved stretch.shift) where
  shrinks := by
    intro stream after value hread
    unfold Reader.next at hread
    split at hread
    · cases hread
      exact Nat.le_refl _
    · next hpending =>
      cases hread
      rw [hpending, weight_cons]
      exact Nat.le_add_left _ _
  follows := by
    intro stream stream' after value hstep hread hkeeps
    unfold Reader.next at hread
    split at hread
    · next hpending =>
      -- at the end of input both streams stay where they are
      cases hread
      have hahead := hstep.pending.ahead
      rw [hpending] at hahead
      cases hpending' : stream'.pending with
      | cons placed' rest' =>
        rw [hpending'] at hahead
        cases hahead
      | nil =>
        rw [hpending'] at hahead
        refine ⟨stream'.finish, stream', by unfold Reader.next; rw [hpending'], hstep, ?_⟩
        rw [hstep.finish_eq, hstep.finish_eq']
        exact hahead.headD
    · next placed rest hpending =>
      cases hread
      have hlaid := hstep.ready.laid
      have halike := hstep.pending
      rw [hpending] at hlaid halike
      obtain ⟨placed', rest', hpending', hmoved, hrest⟩ :=
        halike.cases_of_weight_le hlaid.2.1.1 hkeeps
      refine ⟨placed', _, by unfold Reader.next; rw [hpending'], ?_, hmoved⟩
      have hparts : Refines stream.pending ([value] ++ rest) := by
        rw [hpending]
        exact .refl _
      exact hstep.pass hparts (.cons hmoved .nil) hrest _ _

theorem nextThen {next next' : Placed → Reader β}
    (hnext : ∀ placed placed', placed.Moved stretch.shift placed' →
      Follows stretch (next placed) (next' placed') same') :
    Follows stretch (Reader.next >>= next) (Reader.next >>= next') same' :=
  next_moved.bind (fun placed => ⟨_, placed.moved_moved _⟩) hnext

end Reader.Follows

/-! ### Runs in step -/

/-- In every stretch, a run takes the same tokens from both sources. -/
structure Run.Local (run : Run) : Prop where
  refines : ∀ tokens, Refines tokens ((run tokens).1 ++ (run tokens).2)
  follows : ∀ {source source' : List Char} {finish finish' : Placed}
      {stretch : Stretch source source' finish finish'} {tokens tokens' : List Placed},
    stretch.Alike tokens tokens' → (∀ placed ∈ tokens, placed.Sits source) →
    weight stretch.behind ≤ weight (run tokens).2 →
    List.Forall₂ (Placed.Moved stretch.shift) (run tokens).1 (run tokens').1 ∧
      stretch.Alike (run tokens).2 (run tokens').2

section

variable {source source' : List Char} {finish finish' : Placed}
  {stretch : Stretch source source' finish finish'}

theorem Run.Local.take {run : Run} (h : run.Local) :
    Reader.Follows stretch (Reader.take run) (Reader.take run)
      (List.Forall₂ (Placed.Moved stretch.shift)) where
  shrinks := by
    intro stream after value hread
    have hweight := weight_of_refines (h.refines stream.pending)
    cases hread
    rw [weight_append] at hweight
    exact Nat.le_trans (Nat.le_add_left _ _) (Nat.le_of_eq hweight)
  follows := by
    intro stream stream' after value hstep hread hkeeps
    cases hread
    obtain ⟨htaken, hleft⟩ := h.follows hstep.pending
      (fun _ hmem => hstep.ready.laid.sits hmem) hkeeps
    exact ⟨_, _, rfl, hstep.pass (h.refines _) htaken hleft _ _, htaken⟩

theorem Run.Local.takeThen {run : Run} (h : run.Local) {β : Type}
    {next next' : List Placed → Reader β} {same : β → β → Prop}
    (hnext : ∀ taken taken', List.Forall₂ (Placed.Moved stretch.shift) taken taken' →
      Reader.Follows stretch (next taken) (next' taken') same) :
    Reader.Follows stretch (Reader.take run >>= next) (Reader.take run >>= next') same := by
  refine h.take.bind ?_ hnext
  intro taken
  refine ⟨taken.map (·.moved stretch.shift), List.forall₂_map_right_iff.2 ?_⟩
  exact List.forall₂_same.2 fun placed _ => placed.moved_moved _

end

/-- What a run does at a token: it ends in front of it, it ends behind it, or it goes on. -/
inductive Judgement (σ : Type) where
  | stop
  | last
  | goOn (state : σ)

/-- The run that takes tokens by some state and judges each by the token behind it. -/
def scan {σ : Type} (judge : σ → Placed → Option Placed → Judgement σ) : σ → Run
  | _, [] => ([], [])
  | state, placed :: rest =>
    match judge state placed rest.head? with
    | .stop => ([], placed :: rest)
    | .last => ([placed], rest)
    | .goOn state => andTake placed (scan judge state rest)

section Scan

variable {σ : Type} {judge : σ → Placed → Option Placed → Judgement σ}

theorem scan_append (state : σ) (tokens : List Placed) :
    (scan judge state tokens).1 ++ (scan judge state tokens).2 = tokens := by
  fun_induction scan judge state tokens <;> simp_all

/-- A run that takes a token leaves less than was behind it. -/
theorem weight_scan_le (state : σ) (tokens : List Placed) :
    weight (scan judge state tokens).2 ≤ weight tokens := by
  have hparts := congrArg weight (@scan_append _ judge state tokens)
  rw [weight_append] at hparts
  omega

/-- Judgements that do not depend on where tokens stand make a run that takes the same tokens
    further on. -/
theorem scan_local
    (hjudge : ∀ {shift state placed placed' following? following?'},
      placed.Moved shift placed' → Option.Rel (Placed.Moved shift) following? following?' →
      judge state placed' following?' = judge state placed following?) (state : σ) :
    Run.Local (scan judge state) where
  refines := by
    intro tokens
    rw [scan_append]
    exact .refl _
  follows := by
    intro source source' finish finish' stretch tokens tokens' halike hsits hkeeps
    induction tokens generalizing tokens' state with
    | nil =>
      have hahead := halike.ahead
      cases hahead
      exact ⟨.nil, halike⟩
    | cons placed rest ih =>
      have hahead := halike.ahead
      cases hahead with
      | @cons _ _ placed' _ rest' hmoved hrest =>
        have hsame : judge state placed' rest'.head? = judge state placed rest.head? :=
          hjudge hmoved hrest.head?
        unfold scan at hkeeps ⊢
        rw [hsame]
        cases hjudgement : judge state placed rest.head? with
        | stop => exact ⟨.nil, halike⟩
        | last =>
          simp only [hjudgement] at hkeeps
          obtain ⟨_, _, hcons, -, halike'⟩ :=
            halike.cases_of_weight_le (hsits placed List.mem_cons_self).1 hkeeps
          cases hcons
          exact ⟨.cons hmoved .nil, halike'⟩
        | goOn later =>
          simp only [hjudgement, andTake_snd] at hkeeps
          obtain ⟨_, _, hcons, -, halike'⟩ :=
            halike.cases_of_weight_le (hsits placed List.mem_cons_self).1
              (Nat.le_trans hkeeps (weight_scan_le later rest))
          cases hcons
          obtain ⟨htaken, hleft⟩ := ih later halike'
            (fun other hmem => hsits other (List.mem_cons_of_mem _ hmem)) hkeeps
          exact ⟨.cons hmoved htaken, hleft⟩

end Scan

theorem endsExpr_moved {shift : Nat} {stopAtColon first : Bool} {placed placed' : Placed}
    {following? following?' : Option Placed} (h : placed.Moved shift placed')
    (hfollowing : Option.Rel (Placed.Moved shift) following? following?') :
    endsExpr stopAtColon first placed' following?' =
      endsExpr stopAtColon first placed following? := by
  have hobserver : following?'.any isObserver = following?.any isObserver := by
    cases hfollowing with
    | none => rfl
    | some h => simp only [Option.any_some, isObserver, h.token]
  rw [endsExpr, endsExpr, h.token, h.afterNewline, hobserver]

/-- How the rest of an expression goes on, by whether a token is the first and by the depth of
    brackets. -/
def exprJudge (stopAtColon : Bool) (state : Bool × Nat) (placed : Placed)
    (following? : Option Placed) : Judgement (Bool × Nat) :=
  if state.2 = 0 ∧ endsExpr stopAtColon state.1 placed following? then .stop
  else .goOn (false, placed.token.depthAfter state.2)

theorem exprRun_eq_scan (stopAtColon first : Bool) (depth : Nat) :
    exprRun stopAtColon first depth = scan (exprJudge stopAtColon) (first, depth) := by
  funext tokens
  induction tokens generalizing first depth with
  | nil => rfl
  | cons placed rest ih =>
    rw [exprRun, scan, ih, exprJudge]
    split <;> rfl

theorem exprRun_local (stopAtColon first : Bool) (depth : Nat) :
    Run.Local (exprRun stopAtColon first depth) := by
  rw [exprRun_eq_scan]
  apply scan_local
  intro shift state placed placed' following? following?' h hfollowing
  simp only [exprJudge, endsExpr_moved h hfollowing, h.token]

def collectionJudge (depth : Nat) (placed : Placed) (_ : Option Placed) : Judgement Nat :=
  match placed.token, depth with
  | .closing _, 0 => .last
  | token, _ => .goOn (token.depthAfter depth)

theorem collectionRun_eq_scan (depth : Nat) : collectionRun depth = scan collectionJudge depth := by
  funext tokens
  fun_induction collectionRun depth tokens with
  | case1 => rfl
  | case2 placed rest bracket htoken => simp only [scan, collectionJudge, htoken]
  | case3 depth placed rest hinside ih =>
    have hjudge : ∀ following?,
        collectionJudge depth placed following? = .goOn (placed.token.depthAfter depth) := by
      intro following?
      rw [collectionJudge]
      exact hinside
    simp only [scan, hjudge, ih]

theorem collectionRun_local (depth : Nat) : Run.Local (collectionRun depth) := by
  rw [collectionRun_eq_scan]
  apply scan_local
  intro shift state placed placed' following? following?' h _
  simp only [collectionJudge, h.token]

def genericJudge (depth : Nat) (placed : Placed) (_ : Option Placed) : Judgement Nat :=
  match placed.token with
  | .operator text =>
    match angleDepth text depth with
    | 0 => .last
    | inside + 1 => .goOn (inside + 1)
  | _ => .goOn depth

theorem genericRun_eq_scan (depth : Nat) : genericRun depth = scan genericJudge depth := by
  funext tokens
  induction tokens generalizing depth with
  | nil => rfl
  | cons placed rest ih =>
    rw [genericRun, scan, genericJudge]
    cases placed.token with
    | operator text => cases hdepth : angleDepth text depth <;> simp only [hdepth, ih]
    | _ => simp only [ih]

theorem genericRun_local (depth : Nat) : Run.Local (genericRun depth) := by
  rw [genericRun_eq_scan]
  apply scan_local
  intro shift state placed placed' following? following?' h _
  simp only [genericJudge, h.token]

/-- How an item that is not taken apart goes on, by whether a token is the first and by the
    depth of brackets. -/
def otherJudge (state : Bool × Nat) (placed : Placed) (_ : Option Placed) :
    Judgement (Bool × Nat) :=
  if state.2 = 0 ∧ endsOther state.1 placed then .stop
  else .goOn (false, placed.token.depthAfter state.2)

theorem otherRun_eq_scan (first : Bool) (depth : Nat) :
    otherRun first depth = scan otherJudge (first, depth) := by
  funext tokens
  induction tokens generalizing first depth with
  | nil => rfl
  | cons placed rest ih =>
    rw [otherRun, scan, ih, otherJudge]
    split <;> rfl

theorem otherRun_local (first : Bool) (depth : Nat) : Run.Local (otherRun first depth) := by
  rw [otherRun_eq_scan]
  apply scan_local
  intro shift state placed placed' following? following?' h _
  have hends : endsOther state.1 placed' = endsOther state.1 placed := by
    rw [endsOther, endsOther, h.token, h.afterNewline]
  simp only [otherJudge, hends, h.token]

def requirementJudge (_ : Unit) (placed : Placed) (_ : Option Placed) : Judgement Unit :=
  if placed.token != .opening .curly then .goOn () else .stop

theorem requirementRun_eq_scan :
    List.span (·.token != .opening .curly) = scan requirementJudge () := by
  funext tokens
  induction tokens with
  | nil => rfl
  | cons placed rest ih =>
    rw [List.span_eq_takeWhile_dropWhile] at ih ⊢
    rw [scan, requirementJudge, List.takeWhile_cons, List.dropWhile_cons]
    split
    · simp only [← ih]
      rfl
    · rfl

theorem requirementRun_local : Run.Local (List.span (·.token != .opening .curly)) := by
  rw [requirementRun_eq_scan]
  apply scan_local
  intro shift state placed placed' following? following?' h _
  simp only [requirementJudge, h.token]

/-- How a name goes on with its qualifiers, by whether a point has been taken. -/
def qualifierJudge (behindPoint : Bool) (placed : Placed) (following? : Option Placed) :
    Judgement Bool :=
  if behindPoint then .goOn false
  else if placed.token = .dot ∧ following?.any (·.token.isName) then .goOn true
  else .stop

theorem qualifierRun_eq_scan : qualifierRun = scan qualifierJudge false := by
  funext tokens
  fun_induction qualifierRun tokens with
  | case1 point part rest hcond ih => simp [scan, qualifierJudge, hcond, ih]
  | case2 point part rest hcond =>
    rw [scan]
    simp [qualifierJudge, hcond]
  | case3 rest hshort =>
    rcases rest with _ | ⟨point, _ | ⟨part, more⟩⟩
    · rfl
    · simp [scan, qualifierJudge]
    · exact absurd rfl (hshort point part more)

theorem qualifierRun_local : Run.Local qualifierRun := by
  rw [qualifierRun_eq_scan]
  apply scan_local
  intro shift state placed placed' following? following?' h hfollowing
  have hname : following?'.any (·.token.isName) = following?.any (·.token.isName) := by
    cases hfollowing with
    | none => rfl
    | some h => simp only [Option.any_some, h.token]
  simp only [qualifierJudge, h.token, hname]

/-- How modifiers go on, by the depth of parentheses inside the argument of one; nothing if its
    opening parenthesis comes next. -/
def modifierJudge (depth? : Option Nat) (placed : Placed) (following? : Option Placed) :
    Judgement (Option Nat) :=
  match depth? with
  | none => .goOn (some 1)
  | some 0 =>
    match modifier? placed following? with
    | none => .stop
    | some _ => .goOn (if following?.any (opensArguments placed.span) then none else some 0)
  | some (depth + 1) =>
    match placed.token with
    | .opening .round => .goOn (some (depth + 2))
    | .closing .round => .goOn (some depth)
    | _ => .goOn (some (depth + 1))

theorem modifierRun_eq_scan (depth : Nat) (tokens : List Placed) :
    (modifierRun depth tokens).2 = scan modifierJudge (some depth) tokens := by
  fun_induction modifierRun depth tokens with
  | case1 => rfl
  | case2 placed isStatic hmodifier => simp [scan, modifierJudge, hmodifier, andTake]
  | case3 placed hmodifier => simp [scan, modifierJudge, hmodifier]
  | case4 placed following rest isStatic hmodifier hopens others parts hrun ih =>
    rw [hrun] at ih
    simp [scan, modifierJudge, hmodifier, hopens, ← ih]
  | case5 placed following rest isStatic hmodifier hopens others parts hrun ih =>
    rw [hrun] at ih
    rw [scan]
    simp [modifierJudge, hmodifier, hopens, ← ih]
  | case6 placed following rest hmodifier =>
    rw [scan]
    simp [modifierJudge, hmodifier]
  | case7 depth placed rest inside isStatic parts hrun ih =>
    rw [hrun] at ih
    rw [scan, modifierJudge]
    simp only [inside] at ih
    split at ih <;> simp_all

/-- Where the next token is parted, it belongs to the stretch. -/
theorem Stretch.Alike.cases_of_part {source source' : List Char} {finish finish' : Placed}
    {stretch : Stretch source source' finish finish'} {placed placed' : Placed}
    {parts : Placed × Placed} {rest rest' : List Placed}
    (h : stretch.Alike (placed :: rest) (placed' :: rest'))
    (hpart : splitEquals? placed = some parts) : stretch.Alike rest rest' := by
  generalize hpending : placed :: rest = pending at h
  generalize hpending' : placed' :: rest' = pending' at h
  cases h with
  | behind =>
    rw [stretch.whole placed (by rw [← hpending]; rfl)] at hpart
    cases hpart
  | cons _ hrest =>
    cases hpending
    cases hpending'
    exact hrest

theorem weight_typeRun_le (first : Bool) (depth : Nat) (tokens : List Placed) :
    weight (typeRun first depth tokens).2 ≤ weight tokens := by
  have hweight := weight_of_refines (typeRun_refines first depth tokens)
  rw [weight_append] at hweight
  omega

theorem endsType_moved {shift : Nat} {first : Bool} {placed placed' : Placed}
    (h : placed.Moved shift placed') : endsType first placed' = endsType first placed := by
  rw [endsType, endsType, h.token, h.afterNewline]

theorem typeRun_local (first : Bool) (depth : Nat) : Run.Local (typeRun first depth) where
  refines := typeRun_refines first depth
  follows := by
    intro source source' finish finish' stretch tokens tokens' halike hsits hkeeps
    induction tokens generalizing tokens' first depth with
    | nil =>
      have hahead := halike.ahead
      cases hahead
      exact ⟨.nil, halike⟩
    | cons placed rest ih =>
      have hahead := halike.ahead
      cases hahead with
      | @cons _ _ placed' _ rest' hmoved _ =>
        have hplaced := hsits placed List.mem_cons_self
        have hstop : 0 < placed.span.stop := Nat.zero_lt_of_lt hplaced.start_lt_stop
        -- what is left behind the token is still in step if the run stays in the stretch
        have hstays : ∀ first depth,
            weight stretch.behind ≤ weight (typeRun first depth rest).2 →
            List.Forall₂ (Placed.Moved stretch.shift) (typeRun first depth rest).1
                (typeRun first depth rest').1 ∧
              stretch.Alike (typeRun first depth rest).2 (typeRun first depth rest').2 := by
          intro first depth hkeeps
          obtain ⟨_, _, hcons, -, halike'⟩ := halike.cases_of_weight_le hplaced.1
            (Nat.le_trans hkeeps (weight_typeRun_le first depth rest))
          cases hcons
          exact ih first depth halike'
            (fun other hmem => hsits other (List.mem_cons_of_mem _ hmem)) hkeeps
        unfold typeRun at hkeeps ⊢
        cases hpart : splitEquals? placed with
        | none =>
          simp only [hpart, splitEquals?_moved_none hmoved hpart, endsType_moved hmoved,
            hmoved.token] at hkeeps ⊢
          split at hkeeps
          · next hends =>
            rw [if_pos hends, if_pos hends]
            exact ⟨.nil, halike⟩
          · next hends =>
            rw [if_neg hends, if_neg hends]
            obtain ⟨htaken, hleft⟩ := hstays _ _ hkeeps
            exact ⟨.cons hmoved htaken, hleft⟩
        | some parts =>
          obtain ⟨sign, equals⟩ := parts
          obtain ⟨sign', equals', hpart', hsign, hequals⟩ := splitEquals?_moved hmoved hstop hpart
          simp only [hpart, hpart', endsType_moved hsign, hsign.token] at hkeeps ⊢
          split at hkeeps
          · next hends =>
            rw [if_pos hends, if_pos hends]
            exact ⟨.nil, .cons hsign (.cons hequals (halike.cases_of_part hpart))⟩
          · next hends =>
            rw [if_neg hends, if_neg hends]
            cases hdepth : typeDepth sign.token depth with
            | zero =>
              exact ⟨.cons hsign .nil, .cons hequals (halike.cases_of_part hpart)⟩
            | succ inside =>
              simp only [hdepth, andTake_snd] at hkeeps
              obtain ⟨htaken, hleft⟩ := hstays _ _ hkeeps
              exact ⟨.cons hsign (.cons hequals htaken), hleft⟩

/-- A block that is closed in the stretch is closed by the same brace further on. -/
theorem blockRun?_follows {source source' : List Char} {finish finish' : Placed}
    {stretch : Stretch source source' finish finish'} {depth : Nat}
    {tokens tokens' taken left : List Placed} (halike : stretch.Alike tokens tokens')
    (hsits : ∀ placed ∈ tokens, placed.Sits source)
    (hrun : blockRun? depth tokens = some (taken, left))
    (hkeeps : weight stretch.behind ≤ weight left) :
    ∃ taken' left', blockRun? depth tokens' = some (taken', left') ∧
      List.Forall₂ (Placed.Moved stretch.shift) taken taken' ∧ stretch.Alike left left' := by
  induction tokens generalizing depth tokens' taken with
  | nil => cases hrun
  | cons placed rest ih =>
    -- the token is taken, so it belongs to the stretch
    have hleft : weight left ≤ weight rest := by
      obtain ⟨htokens, last, hlast, -⟩ := blockRun?_eq_some hrun
      cases taken with
      | nil => cases hlast
      | cons _ taken =>
        rw [List.cons_append] at htokens
        rw [(List.cons.inj htokens).2, weight_append]
        exact Nat.le_add_left _ _
    obtain ⟨placed', rest', rfl, hmoved, halike'⟩ := halike.cases_of_weight_le
      (hsits placed List.mem_cons_self).1 (Nat.le_trans hkeeps hleft)
    have hstep : ∀ {depth : Nat}, (blockRun? depth rest).map (andTake placed) = some (taken, left) →
        ∃ taken' left', (blockRun? depth rest').map (andTake placed') = some (taken', left') ∧
          List.Forall₂ (Placed.Moved stretch.shift) taken taken' ∧ stretch.Alike left left' := by
      intro depth h
      obtain ⟨⟨inner, _⟩, hinner, heq⟩ := Option.map_eq_some_iff.1 h
      cases heq
      obtain ⟨inner', left', hinner', htaken, halike''⟩ := ih halike'
        (fun other hmem => hsits other (List.mem_cons_of_mem _ hmem)) hinner
      exact ⟨placed' :: inner', left', by rw [hinner']; rfl, .cons hmoved htaken, halike''⟩
    unfold blockRun? at hrun ⊢
    rw [hmoved.token]
    split at hrun
    · cases hrun
      exact ⟨_, _, rfl, .cons hmoved .nil, halike'⟩
    · exact hstep hrun
    · exact hstep hrun
    · exact hstep hrun

end Memberwise
