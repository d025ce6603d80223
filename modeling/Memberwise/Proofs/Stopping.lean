/-
  Memberwise/Proofs/Stopping.lean
  ===============================
  **Every reader stops at a seam as before.**

  In front of a seam each reader does the same in both sources: this is proved reader by
  reader, along the text of each.  What may come at the seam is told apart there: a type,
  an expression or an argument is not begun at a seam, since the token in front of it
  would ask for more, and whatever may be left out is left out in both sources.

  The sources need not be equally long.  A loop has turns enough in the second one if they
  are as many as the characters in front of the seam.
-/
import Memberwise.Proofs.Seams

namespace Memberwise

/-- What a reader sees in front of a seam: the next token, and what the one behind it is to
    it. -/
structure TokenStream.Sees (stream stream' : TokenStream) : Prop where
  token : stream'.head.token = stream.head.token
  afterNewline : stream'.head.afterNewline = stream.head.afterNewline
  glimpse : Glimpse stream.head stream'.head stream.pending.tail.head? stream'.pending.tail.head?
  colon : stream'.second.token = .colon ↔ stream.second.token = .colon
  member : stream.head.token = .dot →
    Reader.implicitName? stream'.head stream'.second =
      Reader.implicitName? stream.head stream.second

theorem Glimpse.refl (placed : Placed) (following? : Option Placed) :
    Glimpse placed placed following? following? := by
  cases following? with
  | none => exact .none
  | some following => exact .same rfl Iff.rfl

theorem TokenStream.Sees.refl (stream : TokenStream) : stream.Sees stream :=
  ⟨rfl, rfl, .refl _ _, Iff.rfl, fun _ => rfl⟩

theorem Seam.InStep.sees {seam : Seam} {stream stream' : TokenStream}
    (h : seam.InStep false stream stream') (hne : stream.pending ≠ seam.behind) :
    stream.Sees stream' := by
  obtain ⟨placed, placed', rest, rest', hpending, hpending', hechoes, hsettled, hrest⟩ :=
    h.pending.uncons hne
  have hglimpse := hrest.glimpse hsettled
  have hsecond : stream.second = rest.head?.getD seam.finish := by
    rw [TokenStream.second, hpending, h.finish, List.tail_cons]
    cases rest <;> rfl
  have hsecond' : stream'.second = rest'.head?.getD seam.finish' := by
    rw [TokenStream.second, hpending', h.finish', List.tail_cons]
    cases rest' <;> rfl
  have hhead : stream.head = placed := by rw [TokenStream.head, hpending]; rfl
  have hhead' : stream'.head = placed' := by rw [TokenStream.head, hpending']; rfl
  refine ⟨by rw [hhead, hhead', hechoes.token], by rw [hhead, hhead', hechoes.afterNewline rfl], ?_,
    ?_, ?_⟩
  · rw [hhead, hhead', hpending, hpending']
    exact hglimpse
  · rw [hsecond, hsecond']
    generalize rest.head? = following? at hglimpse
    generalize rest'.head? = following?' at hglimpse
    cases hglimpse with
    | none => simp [seam.finish_token, seam.finish_token']
    | same htoken _ => simp only [Option.getD_some, htoken]
    | halt hhalt _ =>
      exact iff_of_false (hhalt.ne_of_stops' (by simp) (by simp) (by simp) rfl)
        (hhalt.ne_of_stops (by simp) (by simp) (by simp))
  · intro hdot
    rw [hhead, hhead', hsecond, hsecond']
    rw [hhead] at hdot
    generalize rest.head? = following? at hglimpse
    generalize rest'.head? = following?' at hglimpse
    cases hglimpse with
    | none => simp [Reader.implicitName?, seam.finish_token, seam.finish_token']
    | same htoken hgap => simp only [Reader.implicitName?, Option.getD_some, htoken, hgap]
    | halt _ hsettled =>
      -- a point asks for more
      rw [hdot] at hsettled
      cases hsettled

/-- Arguments open in both sources or in neither, and they open in front of the seam. -/
theorem Seam.InStep.opensArguments_eq {seam : Seam} {stream stream' : TokenStream}
    {span span' : Span} (h : seam.InStep false stream stream')
    (hend : stream.readTo = span.stop) (hend' : stream'.readTo = span'.stop) :
    opensArguments span' stream'.head = opensArguments span stream.head ∧
      (opensArguments span stream.head = true → seam.Faces (.opening .round) stream.pending) := by
  by_cases hbehind : stream.pending = seam.behind
  · obtain ⟨hclosed, hclosed'⟩ := (h.halt hbehind).opensArguments_eq span span'
    rw [hclosed, hclosed']
    exact ⟨rfl, fun hopened => by cases hopened⟩
  · have hechoes := h.head hbehind
    have hgap := hechoes.gap rfl
    rw [hend, hend'] at hgap
    have hsame : (stream'.head.span.start == span'.stop) =
        (stream.head.span.start == span.stop) := by
      rw [Bool.eq_iff_iff, beq_iff_eq, beq_iff_eq, hgap]
    refine ⟨by rw [opensArguments, opensArguments, hechoes.token, hsame], fun hopened => ?_⟩
    obtain ⟨placed, -, rest, -, hpending, -⟩ := h.pending.uncons hbehind
    refine ⟨hbehind, ?_⟩
    rw [opensArguments, Bool.and_eq_true, beq_iff_eq, TokenStream.head, hpending] at hopened
    rw [hpending, ← hopened.1]
    rfl

namespace Reader

variable {source source' : List Char} {seam : Seam} {fresh : Bool} {cap : Nat}
  {pre : List Placed → Prop} {β : Type} {same' : β → β → Prop}

/-! ### Small readers -/

theorem Echoes.getFront {next next' : TokenStream → Reader β}
    (hnext : ∀ stream stream', stream.Sees stream' →
      Echoes seam false cap (seam.Faces stream.head.token) (next stream) (next' stream') same') :
    Echoes seam false cap (· ≠ seam.behind) (MonadState.get >>= next) (MonadState.get >>= next')
      same' where
  shrinks := fun hread => (hnext _ _ (.refl _)).shrinks hread
  follows := by
    intro stream stream' after value hstep hlt hne hread hkeeps
    have hfaces : seam.Faces stream.head.token stream.pending := by
      obtain ⟨placed, -, rest, -, hpending, -⟩ := hstep.pending.uncons hne
      refine ⟨hne, ?_⟩
      rw [TokenStream.head, hpending]
      rfl
    exact (hnext _ _ (hstep.sees hne)).follows hstep hlt hfaces hread hkeeps

theorem Echoes.getAny {next next' : TokenStream → Reader β}
    (hnext : ∀ stream stream', Echoes seam false cap pre (next stream) (next' stream') same') :
    Echoes seam false cap pre (MonadState.get >>= next) (MonadState.get >>= next') same' where
  shrinks := fun {stream} _ _ hread => (hnext stream stream).shrinks hread
  follows := fun {stream stream'} _ _ hstep hlt hpre hread hkeeps =>
    (hnext stream stream').follows hstep hlt hpre hread hkeeps

/-- What is at the seam is no name. -/
theorem name_echoes : Echoes seam fresh cap pre name name fun pattern pattern' =>
    pattern'.name = pattern.name := by
  refine .peek (fun placed placed' htoken => ?_) fun placed placed' hhalt => ?_
  · rw [htoken]
    cases placed.token with
    | name text => exact .nextThen fun _ _ _ => .pure rfl
    | _ => exact .expected _ _
  · rcases hhalt.stop with hstop | hstop | hstop <;> rw [hstop] <;> exact .fail expected_ne_ok

theorem nameThen_echoes {next next' : Pattern → Reader β}
    (hnext : ∀ pattern pattern', pattern'.name = pattern.name →
      Echoes seam false cap (fun _ => True) (next pattern) (next' pattern') same') :
    Echoes seam fresh cap pre (name >>= next) (name >>= next') same' :=
  name_echoes.bind (fun pattern => ⟨pattern, rfl⟩) hnext

/-! ### Expressions and types -/

theorem type_echoes :
    Echoes seam false cap (· ≠ seam.behind) (type source) (type source') fun _ _ => True := by
  refine .peekFront fun first first' _ => ?_
  have hrun : Run.Echoes seam (seam.Faces first.token) (typeRun true 0) :=
    (typeRun_echoes true 0).mono fun _ hfaces => .inr hfaces.1
  refine hrun.takeThen fun taken taken' hnil => ?_
  cases hlast : taken.getLast? with
  | none => exact .fail expected_ne_ok
  | some last =>
    cases hlast' : taken'.getLast? with
    | some last' => exact .pure trivial
    | none =>
      rw [hnil.1 (List.getLast?_eq_none_iff.1 hlast')] at hlast
      cases hlast

/-- The literal that an expression starts with, and what goes on behind it.  If there is none,
    nothing has been taken. -/
theorem literalThen_echoes {elements elements' : Reader (Option (List Expr))}
    {next next' : Option Expr.Shape → Reader β}
    (helements : Echoes seam false cap (· ≠ seam.behind) elements elements' fun _ _ => True)
    (hnone : Echoes seam false (cap + 1) (· ≠ seam.behind) (next none) (next' none) same')
    (hsome : ∀ shape shape', Echoes seam false (cap + 1) (fun _ => True) (next (some shape))
      (next' (some shape')) same') :
    Echoes seam false (cap + 1) (· ≠ seam.behind) (literal? elements >>= next)
      (literal? elements' >>= next') same' := by
  have hsingle : ∀ {token : Token} (shape : Expr.Shape),
      Echoes seam false (cap + 1) (seam.Faces token)
      ((Reader.next >>= fun _ => pure (some shape)) >>= next)
      ((Reader.next >>= fun _ => pure (some shape)) >>= next') same' := by
    intro token shape
    simp only [bind_assoc, pure_bind]
    exact .nextThen fun _ _ _ => hsome shape shape
  have hnothing : ∀ {token : Token}, Echoes seam false (cap + 1) (seam.Faces token)
      (pure none >>= next) (pure none >>= next') same' := by
    intro token
    simp only [pure_bind]
    exact hnone.mono (fun _ hfaces => hfaces.1) (Nat.le_refl _)
  simp only [literal?, bind_assoc]
  refine .getFront fun stream stream' hsees => ?_
  have hmember := hsees.member
  rw [hsees.token]
  generalize stream.head.token = token at hmember ⊢
  split
  · exact hsingle _
  · exact hsingle _
  · exact hsingle _
  · exact hsingle _
  · exact hsingle _
  · exact hsingle _
  · simp only [bind_assoc]
    refine .nextOver fun _ _ _ => ?_
    refine (helements.mono (fun _ hinside => hinside rfl) (Nat.le_refl _)).bind_any
      fun items? items?' => ?_
    have hshape : ∀ shape shape', Echoes seam false cap (fun _ => True) (next (some shape))
        (next' (some shape')) same' :=
      fun shape shape' => (hsome shape shape').mono (fun _ => id) (Nat.le_succ cap)
    cases items? <;> cases items?' <;> exact hshape _ _
  · rw [hmember rfl]
    split
    · simp only [bind_assoc, pure_bind]
      exact .nextThen fun _ _ _ => .nextThen fun _ _ _ => hsome _ _
    · exact hnothing
  · exact hnothing

/-- The rest of an expression that starts with a literal may have been read at the seam. -/
theorem exprShape_some_echoes (stopAtColon : Bool) (shape shape' : Expr.Shape) :
    Echoes seam false cap pre (exprShape stopAtColon (some shape))
      (exprShape stopAtColon (some shape')) fun _ _ => True := by
  have hunfold : ∀ shape : Expr.Shape, exprShape stopAtColon (some shape) =
      MonadState.get >>= fun stream : TokenStream =>
        if endsExpr stopAtColon false stream.head stream.pending.tail.head? then pure shape
        else take (exprRun stopAtColon false 0) >>= fun _ => pure .other := fun _ => rfl
  have hrun : ∀ {pre : List Placed → Prop}, Echoes seam false cap pre
      (take (exprRun stopAtColon false 0) >>= fun _ => pure Expr.Shape.other)
      (take (exprRun stopAtColon false 0) >>= fun _ => pure Expr.Shape.other) fun _ _ => True := by
    intro pre
    have hechoes : Run.Echoes seam pre (exprRun stopAtColon false 0) :=
      (exprRun_echoes stopAtColon false 0).mono fun _ _ => .inl rfl
    exact hechoes.takeThen fun _ _ _ => .pure trivial
  have hall := @hrun fun _ => True
  rw [hunfold, hunfold]
  refine .cases (.getFront fun stream stream' hsees => ?_) ⟨?_, ?_⟩
  · rw [hsees.glimpse.endsExpr_eq hsees.token hsees.afterNewline]
    split
    · exact .pure trivial
    · exact hrun
  · intro stream after value hread
    rw [get_bind_eq_ok] at hread
    split at hread
    · exact Nat.le_of_eq (by rw [(pure_eq_ok.1 hread).2])
    · exact hall.shrinks hread
  · intro stream stream' after value hstep hlt hbehind hread hkeeps
    rw [get_bind_eq_ok] at hread
    have hhalt := hstep.halt hbehind
    split at hread
    · next hends =>
      obtain ⟨rfl, rfl⟩ := pure_eq_ok.1 hread
      refine ⟨shape', stream', ?_, hstep, rfl, trivial⟩
      rw [get_bind_eq_ok, if_pos (hhalt.endsExpr hends)]
      rfl
    · next hends =>
      -- then a token behind the seam would be taken
      exfalso
      cases hread
      change weight seam.behind ≤ weight (exprRun stopAtColon false 0 stream.pending).2 at hkeeps
      rw [TokenStream.head, hstep.finish] at hends
      rw [hbehind] at hends hkeeps
      cases hseam : seam.behind with
      | nil =>
        rw [hseam, List.headD_nil] at hends
        simp [endsExpr, seam.finish_token] at hends
      | cons placed rest =>
        have hlt := Seam.weight_lt hseam
        rw [hseam] at hends hkeeps
        have hgo : exprRun stopAtColon false 0 (placed :: rest) =
            andTake placed (exprRun stopAtColon false (placed.token.depthAfter 0) rest) := by
          rw [exprRun, if_neg]
          exact fun h => hends h.2
        rw [hgo, andTake_snd, exprRun_eq_scan] at hkeeps
        have hle := Nat.le_trans hkeeps (weight_scan_le _ rest)
        rw [hseam] at hlt
        omega

theorem exprRunThen_echoes (stopAtColon : Bool) :
    Echoes seam false cap (· ≠ seam.behind) (exprShape stopAtColon none)
      (exprShape stopAtColon none) fun _ _ => True := by
  have hrun : Run.Echoes seam (· ≠ seam.behind) (exprRun stopAtColon true 0) :=
    (exprRun_echoes stopAtColon true 0).mono fun _ => .inr
  exact hrun.takeThen fun _ _ _ => .pure trivial

theorem exprWith_echoes {elements elements' : Reader (Option (List Expr))}
    (helements : Echoes seam false cap (· ≠ seam.behind) elements elements' fun _ _ => True)
    (stopAtColon : Bool) :
    Echoes seam false (cap + 1) (· ≠ seam.behind) (exprWith source elements stopAtColon)
      (exprWith source' elements' stopAtColon) fun _ _ => True := by
  refine .peekFront fun first first' _ => ?_
  refine (literalThen_echoes helements ?_ fun shape shape' => ?_).mono (fun _ hfaces => hfaces.1)
    (Nat.le_refl _)
  · exact (exprRunThen_echoes stopAtColon).bind_any fun _ _ => .getAny fun _ _ => .pure trivial
  · exact (exprShape_some_echoes stopAtColon shape shape').bind_any fun _ _ =>
      .getAny fun _ _ => .pure trivial

theorem dictionary_echoes : Echoes seam false cap pre dictionary dictionary fun _ _ => True := by
  have hrun : Run.Echoes seam pre (collectionRun 0) :=
    (collectionRun_echoes 0).mono fun _ _ => trivial
  exact hrun.takeThen fun _ _ _ => .pure trivial

/-- Readers that look at the next token first are what they are for this token. -/
theorem Echoes.of_faces {α : Type} {same : α → α → Prop} {reader reader' other other' : Reader α}
    {token : Token} (h : Echoes seam false cap (seam.Faces token) other other' same)
    (hshrinks : ∀ {stream after value}, reader stream = .ok (value, after) →
      weight after.pending ≤ weight stream.pending)
    (hreader : ∀ {stream result}, stream.head.token = token → reader stream = .ok result →
      other stream = .ok result)
    (hreader' : ∀ {stream result}, stream.head.token = token → other' stream = .ok result →
      reader' stream = .ok result) :
    Echoes seam false cap (seam.Faces token) reader reader' same where
  shrinks := hshrinks
  follows := by
    intro stream stream' after value hstep hlt hfaces hread hkeeps
    have hhead : stream.head.token = token := by
      obtain ⟨placed, -, rest, -, hpending, -⟩ := hstep.pending.uncons hfaces.1
      have htoken := hfaces.2
      rw [hpending] at htoken
      rw [TokenStream.head, hpending]
      exact Option.some.inj htoken
    have hhead' : stream'.head.token = token := (hstep.head hfaces.1).token.trans hhead
    obtain ⟨value', after', hread', hafter⟩ :=
      h.follows hstep hlt hfaces (hreader hhead hread) hkeeps
    exact ⟨value', after', hreader' hhead' hread', hafter⟩

/-- The closing bracket of an array is taken in one turn. -/
theorem elements_close (limit' : Nat) {limit : Nat}
    (hshrinks : ∀ {stream after value}, elements source limit stream = .ok (value, after) →
      weight after.pending ≤ weight stream.pending) :
    Echoes seam false cap (seam.Faces (.closing .square)) (elements source limit)
      (elements source' (limit' + 1)) fun _ _ => True := by
  have hclose : Echoes seam false cap (seam.Faces (.closing .square))
      (next >>= fun _ => pure (some ([] : List Expr))) (next >>= fun _ => pure (some []))
      fun _ _ => True :=
    .nextThen fun _ _ _ => .pure trivial
  refine hclose.of_faces hshrinks ?_ ?_
  · intro stream result hhead hread
    cases limit with
    | zero => exact absurd hread tooLong_ne_ok
    | succ limit =>
      rw [elements, peek_bind_eq_ok, hhead] at hread
      exact hread
  · intro stream result hhead hread
    rw [elements, peek_bind_eq_ok, hhead]
    exact hread

/-- Turns enough for what is in front of the seam are enough to read it. -/
theorem elements_echoes {limit limit' : Nat} (hcap : cap ≤ limit' + weight seam.behind) :
    Echoes seam false cap (· ≠ seam.behind) (elements source limit) (elements source' limit')
      fun _ _ => True := by
  refine .loop tooLong_ne_ok (fun {limit limit' cap} hcap hroom hmore => ?_) limit hcap
    (Nat.le_refl cap)
  have hle : cap ≤ cap - 1 + 1 := by omega
  have hmap : ∀ {cap : Nat} {pre : List Placed → Prop}
      {reader reader' : Reader (Option (List Expr))} (element element' : Expr),
      Echoes seam false cap pre reader reader' (fun _ _ => True) →
      Echoes seam false cap pre (reader >>= fun items? => pure (items?.map (element :: ·)))
        (reader' >>= fun items? => pure (items?.map (element' :: ·))) fun _ _ => True :=
    fun _ _ h => h.bind_any fun _ _ => .pure trivial
  rw [elements, elements]
  refine .peekFront fun placed placed' htoken => ?_
  rw [htoken]
  split
  · exact .nextThen fun _ _ _ => .pure trivial
  · exact dictionary_echoes
  · exact .expected _ _
  · have hexpr : Echoes seam false cap (seam.Faces placed.token)
        (exprWith source (elements source limit) true)
        (exprWith source' (elements source' limit') true) fun _ _ => True :=
      (exprWith_echoes hmore true).mono (fun _ hfaces => hfaces.1) hle
    refine hexpr.bind_any fun element element' => .peek (fun placed placed' htoken => ?_)
      fun placed placed' hhalt => ?_
    · rw [htoken]
      split
      · next hcomma =>
        rw [hcomma]
        refine Echoes.mono (.nextOver fun _ _ _ => ?_) (fun _ => id) hle
        exact hmap element element' (hmore.mono (fun _ hinside => hinside rfl) (Nat.le_refl _))
      · next hclose =>
        rw [hclose]
        refine hmap element element' ?_
        cases limit' with
        | zero => exact hmore.of_cap_le (fun _ hfaces => hfaces.1) (by omega)
        | succ limit' => exact elements_close limit' hmore.shrinks
      · exact dictionary_echoes
      · exact .expected _ _
    · rcases hhalt.stop with hstop | hstop | hstop <;> rw [hstop] <;> exact .fail expected_ne_ok

theorem expr_echoes (hcap : cap ≤ readingLimit source' + weight seam.behind)
    (stopAtColon : Bool) :
    Echoes seam false cap (· ≠ seam.behind) (expr source stopAtColon) (expr source' stopAtColon)
      fun _ _ => True :=
  (exprWith_echoes (elements_echoes hcap) stopAtColon).mono (fun _ => id) (Nat.le_succ cap)

/-! ### Attributes and modifiers -/

theorem label?_eq_some {stream : TokenStream} {name colon : Placed} {label : String}
    {rest : List Placed} (hpending : stream.pending = name :: colon :: rest)
    (hname : name.token = .name label) (hcolon : colon.token = .colon) :
    label? stream =
      .ok (some label, ⟨rest, stream.finish, colon.span.stop, stream.requests⟩) := by
  have hhead : stream.head.token = .name label := by rw [TokenStream.head, hpending, ← hname]; rfl
  have hsecond : stream.second.token = .colon := by rw [TokenStream.second, hpending, ← hcolon]; rfl
  rw [label?, get_bind_eq_ok, hhead, hsecond]
  change (next stream >>= fun first => (next >>= fun _ => pure (some label)) first.2) = _
  rw [next, hpending]
  rfl

theorem label?_eq_none {stream : TokenStream}
    (h : ∀ label, stream.head.token = .name label → stream.second.token ≠ .colon) :
    label? stream = .ok (none, stream) := by
  rw [label?, get_bind_eq_ok]
  generalize stream.head.token = first at h
  generalize stream.second.token = second at h
  cases first with
  | name label =>
    cases second with
    | colon => exact absurd rfl (h label rfl)
    | _ => rfl
  | _ => rfl

theorem label?_shrinks {stream after : TokenStream} {found : Option String}
    (h : label? stream = .ok (found, after)) :
    weight after.pending ≤ weight stream.pending := by
  by_cases hlabel : ∀ label, stream.head.token = .name label → stream.second.token ≠ .colon
  · rw [label?_eq_none hlabel] at h
    cases h
    exact Nat.le_refl _
  · simp only [not_forall, not_not] at hlabel
    obtain ⟨label, hname, hcolon⟩ := hlabel
    rw [label?, get_bind_eq_ok, hname, hcolon] at h
    obtain ⟨_, between, hfirst, h⟩ := bind_eq_ok.1 h
    obtain ⟨_, _, hsecond, h⟩ := bind_eq_ok.1 h
    obtain ⟨-, rfl⟩ := pure_eq_ok.1 h
    exact Nat.le_trans (Echoes.next_shrinks hsecond) (Echoes.next_shrinks hfirst)

/-- Behind the label of an argument the seam is not reached yet. -/
theorem label?_inStep {stream stream' : TokenStream} (hstep : seam.InStep false stream stream')
    (hne : stream.pending ≠ seam.behind) :
    ∃ found after after', label? stream = .ok (found, after) ∧
      label? stream' = .ok (found, after') ∧ seam.InStep false after after' ∧
      after.pending ≠ seam.behind ∧ weight after.pending ≤ weight stream.pending ∧
      after'.requests = stream'.requests := by
  have hsees := hstep.sees hne
  by_cases hlabel : ∃ label, stream.head.token = .name label ∧ stream.second.token = .colon
  · obtain ⟨label, hname, hcolon⟩ := hlabel
    obtain ⟨name, name', rest, rest', hpending, hpending', hnames, -, hrest⟩ :=
      hstep.pending.uncons hne
    rw [TokenStream.head, hpending, List.headD_cons] at hname
    rw [TokenStream.second, hpending, List.tail_cons] at hcolon
    -- the colon stands in front of the seam, and it asks for more
    have hinside : rest ≠ seam.behind := by
      rintro rfl
      rw [hstep.finish] at hcolon
      exact absurd hcolon (seam.halt.ne_of_stops (by simp) (by simp) (by simp))
    obtain ⟨colon, colon', more, more', rfl, rfl, hcolons, hsettled, hmore⟩ := hrest.uncons hinside
    rw [List.headD_cons] at hcolon
    refine ⟨some label, _, _, label?_eq_some hpending hname hcolon,
      label?_eq_some hpending' (hnames.token.trans hname) (hcolons.token.trans hcolon),
      ⟨hstep.finish, hstep.finish', hmore⟩, ?_, ?_, rfl⟩
    · intro hbehind
      have hasks := hsettled hbehind
      rw [hcolon] at hasks
      cases hasks
    · change weight more ≤ weight stream.pending
      rw [hpending, weight_cons, weight_cons]
      omega
  · have hnone : ∀ label, stream.head.token = .name label → stream.second.token ≠ .colon :=
      fun label hname hcolon => hlabel ⟨label, hname, hcolon⟩
    refine ⟨none, stream, stream', label?_eq_none hnone, label?_eq_none fun label hname => ?_,
      hstep, hne, Nat.le_refl _, rfl⟩
    rw [hsees.token] at hname
    exact mt hsees.colon.1 (hnone label hname)

/-- The label of an argument, if there is one, and what goes on behind it in front of the
    seam. -/
theorem labelThen_echoes {next next' : Option String → Reader β}
    (hnext : ∀ label? label?', Echoes seam false cap (· ≠ seam.behind) (next label?)
      (next' label?') same') :
    Echoes seam false cap (· ≠ seam.behind) (label? >>= next) (label? >>= next') same' where
  shrinks := by
    intro stream after value hread
    obtain ⟨found, between, hlabel, hrest⟩ := bind_eq_ok.1 hread
    exact Nat.le_trans ((hnext found found).shrinks hrest) (label?_shrinks hlabel)
  follows := by
    intro stream stream' after value hstep hlt hne hread hkeeps
    obtain ⟨label?, between, hlabel, hrest⟩ := bind_eq_ok.1 hread
    obtain ⟨_, _, between', hfirst, hfirst', hstep', hinside, hle, hquiet⟩ :=
      label?_inStep hstep hne
    rw [hfirst] at hlabel
    cases hlabel
    obtain ⟨value', after', hrest', hafter, hquiet', hvalue⟩ :=
      (hnext label? label?).follows hstep' (Nat.lt_of_le_of_lt hle hlt) hinside hrest hkeeps
    exact ⟨value', after', bind_eq_ok.2 ⟨label?, between', hfirst', hrest'⟩, hafter,
      hquiet'.trans hquiet, hvalue⟩

theorem arguments_close (limit' : Nat) {limit : Nat}
    (hshrinks : ∀ {stream after value}, arguments source limit stream = .ok (value, after) →
      weight after.pending ≤ weight stream.pending) :
    Echoes seam false cap (seam.Faces (.closing .round)) (arguments source limit)
      (arguments source' (limit' + 1)) fun _ _ => True := by
  have hclose : Echoes seam false cap (seam.Faces (.closing .round)) (pure ([] : List Argument))
      (pure []) fun _ _ => True :=
    .pure trivial
  refine hclose.of_faces hshrinks ?_ ?_
  · intro stream result hhead hread
    cases limit with
    | zero => exact absurd hread tooLong_ne_ok
    | succ limit =>
      rw [arguments, peek_bind_eq_ok, hhead] at hread
      exact hread
  · intro stream result hhead hread
    rw [arguments, peek_bind_eq_ok, hhead]
    exact hread

theorem arguments_echoes {limit limit' : Nat} (hcap : cap ≤ limit' + weight seam.behind)
    (hroom : cap ≤ readingLimit source' + weight seam.behind) :
    Echoes seam false cap (· ≠ seam.behind) (arguments source limit) (arguments source' limit')
      fun _ _ => True := by
  refine .loop tooLong_ne_ok (fun {limit limit' cap} hcap hroom hmore => ?_) limit hcap hroom
  have hle : cap ≤ cap - 1 + 1 := by omega
  have hcons : ∀ {cap : Nat} {pre : List Placed → Prop}
      {reader reader' : Reader (List Argument)} (argument argument' : Argument),
      Echoes seam false cap pre reader reader' (fun _ _ => True) →
      Echoes seam false cap pre (reader >>= fun more => pure (argument :: more))
        (reader' >>= fun more => pure (argument' :: more)) fun _ _ => True :=
    fun _ _ h => h.bind_any fun _ _ => .pure trivial
  rw [arguments, arguments]
  refine .peekFront fun placed placed' htoken => ?_
  rw [htoken]
  split
  · exact .pure trivial
  · refine (labelThen_echoes fun label? label?' => ?_).mono (fun _ hfaces => hfaces.1)
      (Nat.le_refl _)
    refine (expr_echoes hroom false).bind_any fun value value' =>
      .peek (fun placed placed' htoken => ?_) fun placed placed' hhalt => ?_
    · rw [htoken]
      split
      · next hcomma =>
        rw [hcomma]
        refine Echoes.mono (.nextOver fun _ _ _ => ?_) (fun _ => id) hle
        exact hcons _ _ (hmore.mono (fun _ hinside => hinside rfl) (Nat.le_refl _))
      · next hclose =>
        rw [hclose]
        refine hcons _ _ ?_
        cases limit' with
        | zero => exact hmore.of_cap_le (fun _ hfaces => hfaces.1) (by omega)
        | succ limit' => exact arguments_close limit' hmore.shrinks
      · exact .expected _ _
    · rcases hhalt.stop with hstop | hstop | hstop <;> rw [hstop] <;> exact .fail expected_ne_ok

theorem name_readTo {stream after : TokenStream} {pattern : Pattern}
    (hfinish : stream.finish.token = .endOfInput) (h : name stream = .ok (pattern, after)) :
    after.readTo = pattern.span.stop := by
  rw [name, peek_bind_eq_ok] at h
  generalize htoken : stream.head.token = token at h
  split at h
  · obtain ⟨placed, between, hnext, h⟩ := bind_eq_ok.1 h
    obtain ⟨rfl, rfl⟩ := pure_eq_ok.1 h
    unfold next at hnext
    split at hnext
    · next hpending =>
      rw [TokenStream.head, hpending, List.headD_nil, hfinish] at htoken
      cases htoken
    · cases hnext
      rfl
  · exact absurd h expected_ne_ok

/-- A name, and what goes on behind it, by whether it is followed by arguments. -/
theorem nameOpens_echoes {next next' : Pattern → Bool → Reader β}
    (hopens : ∀ pattern pattern', pattern'.name = pattern.name →
      Echoes seam false cap (seam.Faces (.opening .round)) (next pattern true)
        (next' pattern' true) same')
    (hbare : ∀ pattern pattern', pattern'.name = pattern.name →
      Echoes seam false cap (fun _ => True) (next pattern false) (next' pattern' false) same') :
    Echoes seam fresh cap pre
      (name >>= fun pattern => peek >>= fun placed =>
        next pattern (opensArguments pattern.span placed))
      (name >>= fun pattern => peek >>= fun placed =>
        next' pattern (opensArguments pattern.span placed)) same' := by
  have hshrinks : ∀ {pattern placed stream after value},
      next pattern (opensArguments pattern.span placed) stream = .ok (value, after) →
      weight after.pending ≤ weight stream.pending := by
    intro pattern placed stream after value hread
    cases hopened : opensArguments pattern.span placed with
    | true =>
      rw [hopened] at hread
      exact (hopens pattern pattern rfl).shrinks hread
    | false =>
      rw [hopened] at hread
      exact (hbare pattern pattern rfl).shrinks hread
  have hname : Echoes seam fresh cap pre name name fun pattern pattern' =>
    pattern'.name = pattern.name := name_echoes
  constructor
  · intro stream after value hread
    obtain ⟨pattern, between, hfirst, hrest⟩ := bind_eq_ok.1 hread
    exact Nat.le_trans (hshrinks hrest) (hname.shrinks hfirst)
  · intro stream stream' after value hstep hlt hpre hread hkeeps
    obtain ⟨pattern, between, hfirst, hrest⟩ := bind_eq_ok.1 hread
    rw [peek_bind_eq_ok] at hrest
    obtain ⟨pattern', between', hfirst', hstep', hquiet, hsame⟩ :=
      hname.follows hstep hlt hpre hfirst (Nat.le_trans hkeeps (hshrinks hrest))
    have hless := Nat.lt_of_le_of_lt (hname.shrinks hfirst) hlt
    have hend := name_readTo (by rw [hstep.finish, seam.finish_token]) hfirst
    have hend' := name_readTo (by rw [hstep.finish', seam.finish_token']) hfirst'
    obtain ⟨hopened, hfaces⟩ := hstep'.opensArguments_eq hend hend'
    have hgo : ∃ value' after', next' pattern' (opensArguments pattern.span between.head) between' =
          .ok (value', after') ∧ seam.InStep false after after' ∧
        after'.requests = between'.requests ∧ same' value value' := by
      cases hcase : opensArguments pattern.span between.head with
      | true =>
        rw [hcase] at hrest
        exact (hopens pattern pattern' hsame).follows hstep' hless (hfaces hcase) hrest hkeeps
      | false =>
        rw [hcase] at hrest
        exact (hbare pattern pattern' hsame).follows hstep' hless trivial hrest hkeeps
    obtain ⟨value', after', hrest', hafter, hquiet', hvalue⟩ := hgo
    refine ⟨value', after', bind_eq_ok.2 ⟨pattern', between', hfirst', ?_⟩, hafter,
      hquiet'.trans hquiet, hvalue⟩
    rw [peek_bind_eq_ok, hopened]
    exact hrest'

def attrEnd (source : List Char) (sign : Placed) (name : Pattern) (opened : Bool) :
    Reader Attribute :=
  if opened then do
    let _ ← next
    let arguments ← arguments source (readingLimit source)
    let close ← next
    return ⟨name.name, arguments, sign.span.upTo close.span.stop⟩
  else
    return ⟨name.name, [], sign.span.upTo name.span.stop⟩

theorem attr_eq : attr source = next >>= fun sign => name >>= fun name => peek >>= fun placed =>
    attrEnd source sign name (opensArguments name.span placed) := rfl

theorem attr_echoes (hroom : cap ≤ readingLimit source' + weight seam.behind) :
    Echoes seam fresh cap pre (attr source) (attr source')
      fun attr attr' => attr'.name = attr.name := by
  rw [attr_eq, attr_eq]
  refine .nextThen fun sign sign' _ => nameOpens_echoes ?_ ?_
  · intro name name' hname
    have harguments : Echoes seam false cap (· ≠ seam.behind)
        (arguments source (readingLimit source)) (arguments source' (readingLimit source'))
        fun _ _ => True := arguments_echoes hroom hroom
    refine Echoes.mono (.nextOver fun _ _ _ => ?_) (fun _ => id) (Nat.le_succ cap)
    refine (harguments.mono (fun _ hinside => hinside rfl) (Nat.le_refl _)).bind_any fun _ _ => ?_
    exact .nextThen fun _ _ _ => .pure hname
  · intro name name' hname
    exact .pure hname

theorem modifierJudge_eq {state : Option Nat} {placed placed' : Placed}
    {following? following?' : Option Placed} (htoken : placed'.token = placed.token)
    (h : Glimpse placed placed' following? following?') :
    modifierJudge state placed' following?' = modifierJudge state placed following? := by
  have hmodifier : modifier? placed' following?' = modifier? placed following? := by
    rw [modifier?, modifier?, htoken]
    cases h with
    | none => rfl
    | same h _ =>
      unfold takesClass
      simp only [Option.any_some, h]
    | halt _ hsettled =>
      -- the word `class` asks for more
      split
      · next word hword =>
        have hclass : word ≠ "class" := by
          rintro rfl
          rw [hword] at hsettled
          cases hsettled
        simp [hclass]
      · rfl
  have hopens : following?'.any (opensArguments placed'.span) =
      following?.any (opensArguments placed.span) := by
    cases h with
    | none => rfl
    | @same following following' htoken hgap =>
      have hsame : (following'.span.start == placed'.span.stop) =
          (following.span.start == placed.span.stop) := by
        rw [Bool.eq_iff_iff, beq_iff_eq, beq_iff_eq, hgap]
      simp only [Option.any_some, opensArguments, htoken, hsame]
    | halt hhalt _ =>
      obtain ⟨hclosed, hclosed'⟩ := hhalt.opensArguments_eq placed.span placed'.span
      simp only [Option.any_some, hclosed, hclosed']
  obtain - | _ | depth := state
  · rfl
  · simp only [modifierJudge, hmodifier, hopens]
  · simp only [modifierJudge, htoken]

/-- Modifiers are taken up to the same token.  At the seam they end in both sources if no word
    that introduces an item comes there. -/
theorem modifiers_inStep {stream stream' after : TokenStream} {isStatic : Bool}
    (hstep : seam.InStep fresh stream stream') (hread : modifiers stream = .ok (isStatic, after))
    (hkeeps : weight seam.behind ≤ weight after.pending)
    (hcalm : after.pending = seam.behind → ¬ Introduces (seam.behind'.headD seam.finish')) :
    ∃ isStatic' after', modifiers stream' = .ok (isStatic', after') ∧
      seam.InStep fresh after after' ∧ after'.requests = stream'.requests := by
  have hrun : ∀ stream : TokenStream, modifiers stream = .ok ((modifierRun 0 stream.pending).1,
      ⟨(scan modifierJudge (some 0) stream.pending).2, stream.finish,
        endOf stream.readTo (scan modifierJudge (some 0) stream.pending).1, stream.requests⟩) := by
    intro stream
    rw [← modifierRun_eq_scan]
    rfl
  rw [hrun] at hread
  cases hread
  refine ⟨_, _, hrun stream', ⟨hstep.finish, hstep.finish', ?_⟩, rfl⟩
  refine (hstep.pending.scan (fun _ => True) (.inl trivial) hkeeps ?_ (fun _ => trivial) ?_).2
  · intro state placed placed' following? following?' htoken _ hglimpse
    exact modifierJudge_eq htoken hglimpse
  · intro hbehind state placed placed' following? following?' _ hhalt hhead hjudge
    match state with
    | none => cases hjudge
    | some (depth + 1) =>
      rw [modifierJudge] at hjudge
      split at hjudge <;> cases hjudge
    | some 0 =>
      have hcalm' := hcalm hbehind
      rw [List.headD_eq_head?_getD, hhead, Option.getD_some] at hcalm'
      have hnone : modifier? placed' following?' = none := by
        cases hmodifier : modifier? placed' following?' with
        | none => rfl
        | some isStatic => exact absurd (introduces_of_modifier? hmodifier) hcalm'
      simp only [modifierJudge, hnone]

/-! ### Members -/

theorem markers_quiet {attrs : List Attribute}
    (h : ∀ attr ∈ attrs, attr.name ≠ Request.codingKeyName) :
    ∃ found, ∀ stream, markers attrs stream = .ok (found, stream) := by
  induction attrs with
  | nil => exact ⟨[], fun _ => rfl⟩
  | cons first rest ih =>
    rw [List.forall_mem_cons] at h
    obtain ⟨found, hfound⟩ := ih h.2
    have hmarker : first.marker = .ok (.other first.name) := by
      rw [Attribute.marker, if_neg h.1]
    refine ⟨.other first.name :: found, fun stream => ?_⟩
    rw [markers, hmarker, bind_eq_ok]
    refine ⟨.other first.name, stream, rfl, bind_eq_ok.2 ⟨(), stream, ?_, bind_eq_ok.2
      ⟨found, stream, hfound stream, rfl⟩⟩⟩
    rw [note]
    simp [Marker.key?]

theorem accessorBlock_echoes :
    Echoes seam false cap pre accessorBlock accessorBlock fun _ _ => True := by
  refine .nextThen fun brace brace' _ => ?_
  -- what stands behind the brace is read in one go
  constructor
  · intro stream after accessors hread
    rw [get_bind_eq_ok] at hread
    cases hrun : blockRun? 0 stream.pending with
    | none =>
      rw [hrun] at hread
      exact absurd hread failAt_ne_ok
    | some run =>
      rw [hrun] at hread
      cases hread
      rw [(blockRun?_eq_some hrun).1, weight_append]
      exact Nat.le_add_left _ _
  · intro stream stream' after accessors hstep _ _ hread hkeeps
    rw [get_bind_eq_ok] at hread
    cases hrun : blockRun? 0 stream.pending with
    | none =>
      rw [hrun] at hread
      exact absurd hread failAt_ne_ok
    | some run =>
      rw [hrun] at hread
      cases hread
      obtain ⟨taken', left', hrun', hleft⟩ := blockRun?_echoes hstep.pending hrun hkeeps
      refine ⟨.ofBlock stream'.head.token taken', ⟨left', stream'.finish,
        endOf stream'.readTo taken', stream'.requests⟩, ?_,
        ⟨hstep.finish, hstep.finish', hleft⟩, rfl, trivial⟩
      rw [get_bind_eq_ok, hrun']
      rfl

theorem type?_echoes :
    Echoes seam false cap pre (type? source) (type? source') fun _ _ => True := by
  refine .peek (fun placed placed' htoken => ?_) fun placed placed' hhalt => ?_
  · rw [htoken]
    split
    · next hcolon =>
      rw [hcolon]
      refine Echoes.mono (.nextOver fun _ _ _ => ?_) (fun _ => id) (Nat.le_succ cap)
      exact (type_echoes.mono (fun _ hinside => hinside rfl) (Nat.le_refl _)).bind_any
        fun _ _ => .pure trivial
    · exact .pure trivial
  · rcases hhalt.stop with hstop | hstop | hstop <;>
      rcases hhalt.stop' with hstop' | hstop' | hstop' | ⟨word, -, hstop'⟩ <;>
      rw [hstop, hstop'] <;> exact .pure trivial

theorem initializer?_echoes (hroom : cap ≤ readingLimit source' + weight seam.behind) :
    Echoes seam false cap pre (initializer? source) (initializer? source') fun _ _ => True := by
  refine .peek (fun placed placed' htoken => ?_) fun placed placed' hhalt => ?_
  · rw [htoken]
    split
    · next hequals =>
      rw [hequals]
      refine Echoes.mono (.nextOver fun _ _ _ => ?_) (fun _ => id) (Nat.le_succ cap)
      exact ((expr_echoes hroom false).mono (fun _ hinside => hinside rfl) (Nat.le_refl _)).bind_any
        fun _ _ => .pure trivial
    · exact .pure trivial
  · rcases hhalt.stop with hstop | hstop | hstop <;>
      rcases hhalt.stop' with hstop' | hstop' | hstop' | ⟨word, -, hstop'⟩ <;>
      rw [hstop, hstop'] <;> exact .pure trivial

theorem accessors_echoes : Echoes seam false cap pre accessors accessors fun _ _ => True := by
  refine .peek (fun placed placed' htoken => ?_) fun placed placed' hhalt => ?_
  · rw [htoken]
    split
    · exact accessorBlock_echoes
    · exact .pure trivial
  · rcases hhalt.stop with hstop | hstop | hstop <;>
      rcases hhalt.stop' with hstop' | hstop' | hstop' | ⟨word, -, hstop'⟩ <;>
      rw [hstop, hstop'] <;> exact .pure trivial

theorem binding_echoes (hroom : cap ≤ readingLimit source' + weight seam.behind) :
    Echoes seam false cap pre (binding source) (binding source') fun _ _ => True := by
  refine nameThen_echoes fun _ _ _ => type?_echoes.bind_any fun _ _ => ?_
  exact (initializer?_echoes hroom).bind_any fun _ _ => accessors_echoes.bind_any fun _ _ =>
    .pure trivial

theorem bindings_echoes {limit limit' : Nat} (hcap : cap ≤ limit' + weight seam.behind)
    (hroom : cap ≤ readingLimit source' + weight seam.behind) :
    Echoes seam false cap (· ≠ seam.behind) (bindings source limit) (bindings source' limit')
      fun _ _ => True := by
  refine .loop tooLong_ne_ok (fun {limit limit' cap} hcap hroom hmore => ?_) limit hcap hroom
  rw [bindings, bindings]
  refine (binding_echoes hroom).bind_any fun first first' =>
    .peek (fun placed placed' htoken => ?_) fun placed placed' hhalt => ?_
  · rw [htoken]
    split
    · next hcomma =>
      rw [hcomma]
      refine Echoes.mono (.nextOver fun _ _ _ => ?_) (fun _ => id)
        (show cap ≤ cap - 1 + 1 by omega)
      exact (hmore.mono (fun _ hinside => hinside rfl) (Nat.le_refl _)).bind_any
        fun _ _ => .pure trivial
    · exact .pure trivial
  · rcases hhalt.stop with hstop | hstop | hstop <;>
      rcases hhalt.stop' with hstop' | hstop' | hstop' | ⟨word, -, hstop'⟩ <;>
      rw [hstop, hstop'] <;> exact .pure trivial

theorem other_echoes (start start' : Span) :
    Echoes seam false cap (· ≠ seam.behind) (other start) (other start') fun _ _ => True := by
  have hrun : Run.Echoes seam (· ≠ seam.behind) (otherRun true 0) :=
    (otherRun_echoes true 0).mono fun _ => .inr
  refine hrun.takeThen fun taken taken' hnil =>
    .peek (fun placed placed' htoken => ?_) fun placed placed' hhalt => ?_
  · rw [htoken]
    cases taken with
    | nil =>
      rw [hnil.2 rfl]
      cases placed.token with
      | semicolon => exact .nextThen fun _ _ _ => .pure trivial
      | _ => exact .pure trivial
    | cons first rest =>
      have hne : taken' ≠ [] := fun h => by cases hnil.1 h
      simp only [List.getLast?_eq_some_getLast hne,
        List.getLast?_eq_some_getLast (List.cons_ne_nil first rest)]
      exact .pure trivial
  · cases taken with
    | nil =>
      rw [hnil.2 rfl]
      rcases hhalt.stop with hstop | hstop | hstop <;>
        rcases hhalt.stop' with hstop' | hstop' | hstop' | ⟨word, -, hstop'⟩ <;>
        rw [hstop, hstop'] <;> exact .pure trivial
    | cons first rest =>
      have hne : taken' ≠ [] := fun h => by cases hnil.1 h
      simp only [List.getLast?_eq_some_getLast hne,
        List.getLast?_eq_some_getLast (List.cons_ne_nil first rest)]
      exact .pure trivial

/-- Where an item of no interest may not begin, nothing is taken. -/
theorem other_bare {start : Span} {stream : TokenStream}
    (hends : endsOther true stream.head = true) (hsemicolon : stream.head.token ≠ .semicolon) :
    other start stream = .ok (start.upTo start.start, stream) := by
  have hrun : otherRun true 0 stream.pending = ([], stream.pending) := by
    unfold TokenStream.head at hends
    cases hpending : stream.pending with
    | nil => rfl
    | cons placed rest =>
      rw [hpending] at hends
      simp [otherRun, show endsOther true placed = true from hends]
  have htake : take (otherRun true 0) stream = .ok ([], stream) := by
    unfold take
    rw [hrun]
    rfl
  rw [other, bind_eq_ok]
  refine ⟨[], stream, htake, ?_⟩
  rw [peek_bind_eq_ok]
  generalize stream.head.token = token at hsemicolon
  cases token with
  | semicolon => exact absurd rfl hsemicolon
  | _ => rfl

/-- Behind its first token, an item of no interest is a run like any other. -/
theorem other_goOn {stream : TokenStream} {placed : Placed} {rest : List Placed} (start : Span)
    (hpending : stream.pending = placed :: rest) (hgoes : ¬ endsOther true placed = true) :
    ∃ span, other start stream = .ok (span,
      ⟨(otherRun false (placed.token.depthAfter 0) rest).2, stream.finish,
        endOf placed.span.stop (otherRun false (placed.token.depthAfter 0) rest).1,
        stream.requests⟩) := by
  have hrun : otherRun true 0 stream.pending =
      andTake placed (otherRun false (placed.token.depthAfter 0) rest) := by
    rw [hpending, otherRun, if_neg fun h => hgoes h.2]
  have htake : take (otherRun true 0) stream = .ok
      (placed :: (otherRun false (placed.token.depthAfter 0) rest).1,
        ⟨(otherRun false (placed.token.depthAfter 0) rest).2, stream.finish,
          endOf placed.span.stop (otherRun false (placed.token.depthAfter 0) rest).1,
          stream.requests⟩) := by
    unfold take
    rw [hrun, ← endOf_cons stream.readTo]
    rfl
  refine ⟨start.upTo (List.getLast _ (List.cons_ne_nil placed
    (otherRun false (placed.token.depthAfter 0) rest).1)).span.stop, ?_⟩
  rw [other, bind_eq_ok]
  refine ⟨_, _, htake, ?_⟩
  rw [peek_bind_eq_ok, List.getLast?_eq_some_getLast (List.cons_ne_nil _ _)]
  rfl

/-- An item of no interest is as long in both sources, also where its first token has come to
    stand on another line. -/
theorem other_inStep {stream stream' after : TokenStream} {start start' span : Span}
    (hstep : seam.InStep fresh stream stream') (hne : stream.pending ≠ seam.behind)
    (hsemicolon : stream.head.token ≠ .semicolon)
    (hread : other start stream = .ok (span, after))
    (hkeeps : weight seam.behind ≤ weight after.pending) :
    ∃ span' after', other start' stream' = .ok (span', after') ∧ seam.InStep fresh after after' ∧
      after'.requests = stream'.requests := by
  obtain ⟨placed, placed', rest, rest', hpending, hpending', hechoes, -, hrest⟩ :=
    hstep.pending.uncons hne
  have hhead : stream.head = placed := by rw [TokenStream.head, hpending]; rfl
  have hhead' : stream'.head = placed' := by rw [TokenStream.head, hpending']; rfl
  have htoken : stream'.head.token = stream.head.token := by rw [hhead, hhead', hechoes.token]
  have hsame : endsOther true stream'.head = endsOther true stream.head := by
    rw [endsOther, endsOther, htoken]
    rfl
  by_cases hends : endsOther true stream.head = true
  · rw [other_bare hends hsemicolon] at hread
    cases hread
    exact ⟨_, stream', other_bare (hsame.trans hends) (by rw [htoken]; exact hsemicolon), hstep,
      rfl⟩
  · rw [hhead] at hends hsame
    rw [hhead'] at hsame
    obtain ⟨_, hfound⟩ := other_goOn start hpending hends
    rw [hread] at hfound
    cases hfound
    obtain ⟨span', hfound'⟩ := other_goOn start' hpending' (by rw [hsame]; exact hends)
    refine ⟨span', _, hfound', ⟨hstep.finish, hstep.finish', ?_⟩, rfl⟩
    rw [hechoes.token]
    exact ((otherRun_echoes false _).follows hrest (.inl rfl) hkeeps).2.mono

def memberEnd (source : List Char) (start : Span) (attrs : List Attribute) (isStatic : Bool)
    (keyword : Placed) : Reader BodyItem := do
  let markers ← markers attrs
  let bindings ← bindings source (readingLimit source)
  let mutability := if keyword.token = .name "let" then .immutable else .mutable
  return .property ⟨markers, isStatic, mutability, bindings, start.upTo (← get).readTo⟩

theorem property_eq {start : Span} {attrs : List Attribute} {isStatic : Bool} :
    property source start attrs isStatic = next >>= fun keyword => peek >>= fun placed =>
      match placed.token with
      | .name _ => memberEnd source start attrs isStatic keyword
      | _ => other start >>= fun span => pure (.other span) := rfl

/-- Attributes that fix no key say nothing of which a note is made. -/
theorem memberEnd_echoes (hroom : cap ≤ readingLimit source' + weight seam.behind)
    (start start' : Span) {attrs attrs' : List Attribute} (isStatic isStatic' : Bool)
    (keyword keyword' : Placed) (hquiet : ∀ attr ∈ attrs', attr.name ≠ Request.codingKeyName) :
    Echoes seam false cap (· ≠ seam.behind) (memberEnd source start attrs isStatic keyword)
      (memberEnd source' start' attrs' isStatic' keyword') fun _ _ => True := by
  obtain ⟨found, hfound⟩ := markers_quiet hquiet
  refine .quietThen (fun hread => ?_) hfound fun _ => ?_
  · obtain ⟨htakes, hpending, -⟩ := markers_takes hread
    exact ⟨hpending, htakes.finish, htakes.readTo⟩
  · exact (bindings_echoes hroom hroom).bind_any fun _ _ => .getAny fun _ _ => .pure trivial

/-- A member is read from its keyword on, which asks for more.  Its attributes matter if it is
    taken apart. -/
theorem property_inStep {stream stream' after : TokenStream} {keyword : String}
    {start start' : Span} {attrs attrs' : List Attribute} {isStatic isStatic' : Bool}
    {item : BodyItem} (hkeyword : keyword = "let" ∨ keyword = "var")
    (hroom : weight stream.pending ≤ readingLimit source' + weight seam.behind)
    (hstep : seam.InStep fresh stream stream') (hfaces : seam.Faces (.name keyword) stream.pending)
    (hread : property source start attrs isStatic stream = .ok (item, after))
    (hkeeps : weight seam.behind ≤ weight after.pending)
    (hquiet : (∃ member, item = .property member) →
      ∀ attr ∈ attrs', attr.name ≠ Request.codingKeyName) :
    ∃ item' after', property source' start' attrs' isStatic' stream' = .ok (item', after') ∧
      seam.InStep false after after' ∧ after'.requests = stream'.requests := by
  have hasks : (Token.name keyword).asksForMore = true := by
    rcases hkeyword with rfl | rfl <;> rfl
  obtain ⟨first, between, first', between', hnext, hnext', htoken, hstep', hquiet', hless,
    hinside⟩ := hstep.next_front hfaces
  have hne := hinside hasks
  have hrest : (peek >>= fun placed => match placed.token with
      | .name _ => memberEnd source start attrs isStatic first
      | _ => other start >>= fun span => pure (.other span) : Reader BodyItem) between =
        .ok (item, after) := by
    rw [property_eq] at hread
    obtain ⟨_, _, hnext'', hrest⟩ := bind_eq_ok.1 hread
    cases hnext.symm.trans hnext''
    exact hrest
  rw [peek_bind_eq_ok] at hrest
  have hsame := (hstep'.head hne).token
  have hmore : ∃ item' after', (peek >>= fun placed => match placed.token with
      | .name _ => memberEnd source' start' attrs' isStatic' first'
      | _ => other start' >>= fun span => pure (.other span) : Reader BodyItem) between' =
        .ok (item', after') ∧ seam.InStep false after after' ∧
        after'.requests = between'.requests := by
    simp only [peek_bind_eq_ok, hsame]
    generalize between.head.token = token at hrest ⊢
    have hother : Echoes seam false (weight stream.pending) (· ≠ seam.behind)
        (other start >>= fun span => pure (BodyItem.other span))
        (other start' >>= fun span => pure (BodyItem.other span)) fun _ _ => True :=
      (other_echoes start start').bind_any fun _ _ => .pure trivial
    cases token with
    | name word =>
      have hmember : ∃ member, item = .property member := by
        obtain ⟨_, _, -, hread⟩ := bind_eq_ok.1 hrest
        obtain ⟨_, _, -, hread⟩ := bind_eq_ok.1 hread
        rw [get_bind_eq_ok] at hread
        exact ⟨_, (pure_eq_ok.1 hread).1⟩
      have hend : Echoes seam false (weight stream.pending) (· ≠ seam.behind)
          (memberEnd source start attrs isStatic first)
          (memberEnd source' start' attrs' isStatic' first') fun _ _ => True :=
        memberEnd_echoes hroom start start' isStatic isStatic' first first' (hquiet hmember)
      obtain ⟨item', after', hread', hafter, hrequests, -⟩ :=
        hend.follows hstep' hless hne hrest hkeeps
      exact ⟨item', after', hread', hafter, hrequests⟩
    | _ =>
      obtain ⟨item', after', hread', hafter, hrequests, -⟩ :=
        hother.follows hstep' hless hne hrest hkeeps
      exact ⟨item', after', hread', hafter, hrequests⟩
  obtain ⟨item', after', hread', hafter, hrequests⟩ := hmore
  exact ⟨item', after', bind_eq_ok.2 ⟨first', between', hnext', hread'⟩, hafter,
    hrequests.trans hquiet'⟩

/-! ### Declarations -/

theorem attachments_quiet {attrs : List Attribute}
    (h : ∀ attr ∈ attrs, attr.request? = .ok none) (stream : TokenStream) :
    attachments attrs stream = .ok ([], stream) := by
  induction attrs with
  | nil => rfl
  | cons first rest ih =>
    rw [List.forall_mem_cons] at h
    rw [attachments, h.1]
    exact bind_eq_ok.2 ⟨none, stream, rfl, ih h.2⟩

theorem attachments_stays {attrs : List Attribute} {attached : List Attachment}
    {stream after : TokenStream} (h : attachments attrs stream = .ok (attached, after)) :
    after.pending = stream.pending ∧ after.finish = stream.finish ∧
      after.readTo = stream.readTo := by
  induction attrs generalizing stream attached with
  | nil =>
    obtain ⟨-, rfl⟩ := pure_eq_ok.1 h
    exact ⟨rfl, rfl, rfl⟩
  | cons first rest ih =>
    obtain ⟨request?, between, htyped, h⟩ := bind_eq_ok.1 h
    obtain ⟨-, rfl⟩ := typed_eq_ok.1 htyped
    cases request? with
    | none => exact ih h
    | some request =>
      obtain ⟨_, noted, hnote, h⟩ := bind_eq_ok.1 h
      obtain ⟨_, _, hmore, h⟩ := bind_eq_ok.1 h
      obtain ⟨-, rfl⟩ := pure_eq_ok.1 h
      cases hnote
      obtain ⟨hpending, hfinish, hreadTo⟩ := ih hmore
      exact ⟨hpending, hfinish, hreadTo⟩

theorem qualifiedName_echoes :
    Echoes seam false cap pre qualifiedName qualifiedName fun _ _ => True := by
  have hrun : Run.Echoes seam (fun _ => True) qualifierRun := qualifierRun_echoes
  exact nameThen_echoes fun _ _ _ => hrun.takeThen fun _ _ _ => .pure trivial

theorem genericClause_echoes :
    Echoes seam false cap pre genericClause genericClause fun _ _ => True := by
  refine .peek (fun placed placed' htoken => ?_) fun placed placed' hhalt => ?_
  · rw [htoken]
    have hrun : Run.Echoes seam (seam.Faces placed.token) (genericRun 0) :=
      (genericRun_echoes 0).mono fun _ _ => trivial
    split
    · split
      · exact hrun.takeThen fun _ _ _ => .pure trivial
      · exact .pure trivial
    · exact .pure trivial
  · rcases hhalt.stop with hstop | hstop | hstop <;>
      rcases hhalt.stop' with hstop' | hstop' | hstop' | ⟨word, -, hstop'⟩ <;>
      rw [hstop, hstop'] <;> exact .pure trivial

theorem types_echoes {limit limit' : Nat} (hcap : cap ≤ limit' + weight seam.behind) :
    Echoes seam false cap (· ≠ seam.behind) (types source limit) (types source' limit')
      fun _ _ => True := by
  refine .loop tooLong_ne_ok (fun {limit limit' cap} hcap _ hmore => ?_) limit hcap
    (Nat.le_refl cap)
  rw [types, types]
  refine type_echoes.bind_any fun _ _ =>
    .peek (fun placed placed' htoken => ?_) fun placed placed' hhalt => ?_
  · rw [htoken]
    split
    · next hcomma =>
      rw [hcomma]
      refine Echoes.mono (.nextOver fun _ _ _ => ?_) (fun _ => id) (show cap ≤ cap - 1 + 1 by omega)
      exact (hmore.mono (fun _ hinside => hinside rfl) (Nat.le_refl _)).bind_any
        fun _ _ => .pure trivial
    · exact .pure trivial
  · rcases hhalt.stop with hstop | hstop | hstop <;>
      rcases hhalt.stop' with hstop' | hstop' | hstop' | ⟨word, -, hstop'⟩ <;>
      rw [hstop, hstop'] <;> exact .pure trivial

theorem inheritance_echoes (hroom : cap ≤ readingLimit source' + weight seam.behind) :
    Echoes seam false cap pre (inheritance source) (inheritance source') fun _ _ => True := by
  refine .peek (fun placed placed' htoken => ?_) fun placed placed' hhalt => ?_
  · rw [htoken]
    split
    · next hcolon =>
      rw [hcolon]
      refine Echoes.mono (.nextOver fun _ _ _ => ?_) (fun _ => id) (Nat.le_succ cap)
      exact (types_echoes hroom).mono (fun _ hinside => hinside rfl) (Nat.le_refl _)
    · exact .pure trivial
  · rcases hhalt.stop with hstop | hstop | hstop <;>
      rcases hhalt.stop' with hstop' | hstop' | hstop' | ⟨word, -, hstop'⟩ <;>
      rw [hstop, hstop'] <;> exact .pure trivial

/-- No word that introduces an item begins a clause of requirements. -/
theorem requirements_echoes :
    Echoes seam false cap pre requirements requirements fun _ _ => True := by
  refine .peek (fun placed placed' htoken => ?_) fun placed placed' hhalt => ?_
  · rw [htoken]
    have hrun : Run.Echoes seam (seam.Faces placed.token)
        (List.span (·.token != .opening .curly)) := requirementRun_echoes.mono fun _ _ => trivial
    split
    · exact hrun.takeThen fun _ _ _ => .pure trivial
    · exact .pure trivial
  · have hwhere : placed'.token ≠ .name "where" := by
      rcases hhalt.stop' with hstop | hstop | hstop | ⟨word, hword, hstop⟩ <;> rw [hstop]
      · simp
      · simp
      · simp
      · have hnone : ∀ word ∈ introducerWords, word ≠ "where" := by decide
        simpa using hnone word hword
    rcases hhalt.stop with hstop | hstop | hstop <;> simp only [hstop] <;> exact .pure trivial

theorem openingBrace_echoes :
    Echoes seam false cap pre openingBrace openingBrace fun _ _ => True := by
  refine .peek (fun placed placed' htoken => ?_) fun placed placed' hhalt => ?_
  · rw [htoken]
    split
    · exact .nextThen fun _ _ _ => .pure trivial
    · exact .expected _ _
  · rcases hhalt.stop with hstop | hstop | hstop <;> rw [hstop] <;> exact .fail expected_ne_ok

/-- A header is read from its keyword on; attributes that request nothing attach nothing. -/
theorem header_echoes (hroom : cap ≤ readingLimit source' + weight seam.behind)
    (kind : Declaration.Kind) (start start' : Span) {attrs attrs' : List Attribute}
    (hquiet : ∀ attr ∈ attrs', attr.request? = .ok none) :
    Echoes seam fresh cap pre (header source kind start attrs) (header source' kind start' attrs')
      fun _ _ => True := by
  refine .nextThen fun _ _ _ => .quietThen attachments_stays (attachments_quiet hquiet) fun _ => ?_
  refine qualifiedName_echoes.bind_any fun _ _ => genericClause_echoes.bind_any fun _ _ => ?_
  refine (inheritance_echoes hroom).bind_any fun _ _ => requirements_echoes.bind_any fun _ _ => ?_
  exact openingBrace_echoes.bind_any fun _ _ => .pure trivial

end Reader

end Memberwise
