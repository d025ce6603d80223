/-
  Memberwise/Proofs/Faults.lean
  =============================
  **An error is where the thing it is about begins.**

  A reader of tokens reports an error at the token that comes next where it has come to, at
  the brace of a block that it has just taken, or at an attribute that it read before.  That
  passes from the parts of a reader to the whole (`Reader.Locates`), so what has to be said
  of each reader is only how it is put together.

  No reader comes to the end of its limit on the way: every turn of a loop takes a token, and
  a token has at least one character.  So that error is never reported, and the limits do not
  show.
-/
import Memberwise.Proofs.Openings
import Memberwise.Proofs.Progress

namespace Memberwise

/-! ### What readers report -/

/-- An attribute is read off a source, where its sign comes next. -/
def Attribute.ReadFrom (source : List Char) (attr : Attribute) : Prop :=
  ∃ stream after, stream.Reached source ∧ stream.head.token = .atSign ∧
    Reader.attr source stream = .ok (attr, after)

/-- What an error of a reader is about: the next token somewhere in a source, or an attribute
    of the source that requests something with arguments that do not fit. -/
inductive ReadError.Grounded (source : List Char) : ReadError → Prop where
  | expected {stream : TokenStream} {what : Expected} (hreached : stream.Reached source) :
      Grounded source (.malformed stream.head.span.position (.expected what stream.head.token))
  | openAccessors {stream : TokenStream} (hreached : stream.Reached source)
      (hbrace : stream.head.token = .opening .curly) :
      Grounded source (.malformed stream.head.span.position .openAccessors)
  | argument {attr : Attribute} {cause : ArgumentError} (hattr : attr.ReadFrom source)
      (hcause : attr.request? = .error cause ∨ attr.marker = .error cause) :
      Grounded source (.argument attr.span.position cause)

namespace Reader

/-- From a place on, a reader gives something and goes on to another place, or it reports an
    error that is grounded in the source. -/
inductive Locates {α : Type} (source : List Char) (stream : TokenStream) (reader : Reader α) :
    Prop where
  | fails {error : ReadError} (h : reader stream = .error error)
      (hgrounded : error.Grounded source)
  | gives {value : α} {after : TokenStream} (h : reader stream = .ok (value, after))
      (hreached : after.Reached source) (hle : weight after.pending ≤ weight stream.pending)

namespace Locates

variable {α β : Type} {source : List Char} {stream : TokenStream} {reader : Reader α}
  {f : α → Reader β}

theorem of_takes {value : α} {after : TokenStream} {taken : List Placed} {noted : List Span}
    (hreached : stream.Reached source) (h : reader stream = .ok (value, after))
    (htakes : Takes stream taken noted after) : Locates source stream reader := by
  refine .gives h (hreached.takes htakes) ?_
  rw [weight_of_takes htakes]
  exact Nat.le_add_left _ _

theorem pure (hreached : stream.Reached source) (value : α) :
    Locates source stream (Pure.pure value) :=
  .of_takes hreached rfl (.refl stream)

theorem expected (hreached : stream.Reached source) (what : Expected) :
    Locates source stream (Reader.expected what : Reader α) :=
  .fails rfl (.expected hreached)

theorem bind (h : Locates source stream reader)
    (hf : ∀ {value after}, reader stream = .ok (value, after) → after.Reached source →
      weight after.pending ≤ weight stream.pending → Locates source after (f value)) :
    Locates source stream (reader >>= f) := by
  have hbind : (reader >>= f) stream = reader stream >>= fun p => f p.1 p.2 := rfl
  cases h with
  | fails h hgrounded => exact .fails (by rw [hbind, h]; rfl) hgrounded
  | gives h hreached hle =>
    cases hf h hreached hle with
    | fails h' hgrounded => exact .fails (by rw [hbind, h]; exact h') hgrounded
    | gives h' hreached' hle' =>
      exact .gives (by rw [hbind, h]; exact h') hreached' (Nat.le_trans hle' hle)

theorem andPure {value : α → β} (h : Locates source stream reader) :
    Locates source stream (reader >>= fun a => Pure.pure (value a)) :=
  h.bind fun _ hreached _ => .pure hreached _

theorem get {f : TokenStream → Reader β} (h : Locates source stream (f stream)) :
    Locates source stream (MonadState.get >>= f) := by
  cases h with
  | fails h hgrounded => exact .fails h hgrounded
  | gives h hreached hle => exact .gives h hreached hle

theorem peek {f : Placed → Reader β} (h : Locates source stream (f stream.head)) :
    Locates source stream (Reader.peek >>= f) :=
  get (f := fun stream => f stream.head) h

theorem next (hreached : stream.Reached source) : Locates source stream Reader.next := by
  cases hpending : stream.pending with
  | nil =>
    have hnext : Reader.next stream = .ok (stream.finish, stream) := by rw [Reader.next, hpending]
    exact .of_takes hreached hnext (.refl stream)
  | cons placed rest =>
    have htakes : Takes stream [placed] []
        { stream with pending := rest, readTo := placed.span.stop } := by
      refine ⟨?_, rfl, rfl, (List.append_nil _).symm⟩
      rw [hpending]
      exact .refl _
    have hnext : Reader.next stream =
        .ok (placed, { stream with pending := rest, readTo := placed.span.stop }) := by
      rw [Reader.next, hpending]
    exact .of_takes hreached hnext htakes

/-- Behind a token that is taken fewer characters are left. -/
theorem nextThen {f : Placed → Reader β} (hreached : stream.Reached source)
    (hend : stream.head.token ≠ .endOfInput)
    (hf : ∀ {after}, after.Reached source → weight after.pending < weight stream.pending →
      Locates source after (f stream.head)) : Locates source stream (Reader.next >>= f) := by
  refine .bind (.next hreached) fun hnext hafter _ => ?_
  have hlt := (next_onward hreached.ready hend hnext).weight_lt hreached.ready
  obtain ⟨rfl, -, -⟩ := next_takes hreached.ready hend hnext
  exact hf hafter hlt

theorem take {run : Run} (hreached : stream.Reached source)
    (hrun : Refines stream.pending ((run stream.pending).1 ++ (run stream.pending).2)) :
    Locates source stream (Reader.take run) :=
  .of_takes hreached rfl ⟨hrun, rfl, rfl, (List.append_nil _).symm⟩

/-- A run that parts no token only splits the tokens. -/
theorem take_of_append {run : Run} (hreached : stream.Reached source)
    (hrun : ∀ tokens, (run tokens).1 ++ (run tokens).2 = tokens) :
    Locates source stream (Reader.take run) :=
  take hreached (Checked.refines_of_append (hrun _))

end Locates

section Readers

variable {source : List Char} {stream : TokenStream}

theorem name_locates (hreached : stream.Reached source) : Locates source stream name := by
  apply Locates.peek
  cases stream.head.token with
  | name text => exact .andPure (.next hreached)
  | _ => exact .expected hreached _

theorem note_locates (hreached : stream.Reached source) (spans : List Span) :
    Locates source stream (note spans) :=
  .of_takes hreached rfl (note_takes rfl).1

/-- An attribute of the source is typed one way or the other. -/
theorem typed_locates {α : Type} {attr : Attribute} {result : Except ArgumentError α}
    (hreached : stream.Reached source) (hattr : attr.ReadFrom source)
    (hresult : ∀ cause, result = .error cause →
      attr.request? = .error cause ∨ attr.marker = .error cause) :
    Locates source stream (typed attr.span result) := by
  cases result with
  | ok value => exact .of_takes hreached rfl (.refl stream)
  | error cause => exact .fails rfl (.argument hattr (hresult cause rfl))

/-! #### Types and expressions -/

theorem type_locates (hreached : stream.Reached source) :
    Locates source stream (type source) := by
  apply Locates.peek
  refine .bind (.take hreached (typeRun_refines _ _ _)) fun {taken _} _ hreached _ => ?_
  cases taken.getLast? with
  | some last => exact .pure hreached _
  | none => exact .expected hreached _

theorem literal?_locates {elements : Reader (Option (List Expr))}
    (hreached : stream.Reached source)
    (helements : ∀ {after}, after.Reached source → weight after.pending < weight stream.pending →
      Locates source after elements) : Locates source stream (literal? elements) := by
  have hsingle : ∀ shape : Expr.Shape,
      Locates source stream (next >>= fun _ => pure (some shape)) :=
    fun shape => .andPure (.next hreached)
  apply Locates.get
  generalize htoken : stream.head.token = token
  split
  case h_7 =>
    refine .nextThen hreached (by rw [htoken]; simp) fun hafter hlt => ?_
    refine .bind (helements hafter hlt) fun {found _} _ hreached _ => ?_
    cases found with
    | some items => exact .pure hreached _
    | none => exact .pure hreached _
  case h_8 =>
    cases implicitName? stream.head stream.second with
    | some name =>
      exact .bind (.next hreached) fun _ hreached _ => .andPure (.next hreached)
    | none => exact .pure hreached _
  case h_9 => exact .pure hreached _
  all_goals exact hsingle _

theorem exprShape_locates (hreached : stream.Reached source) (stopAtColon : Bool)
    (literal? : Option Expr.Shape) : Locates source stream (exprShape stopAtColon literal?) := by
  have hrest : ∀ {after : TokenStream} (first : Bool), after.Reached source →
      Locates source after
        (take (exprRun stopAtColon first 0) >>= fun _ => pure Expr.Shape.other) :=
    fun first hreached => .andPure (.take_of_append hreached (exprRun_append stopAtColon first 0))
  cases literal? with
  | none => exact hrest true hreached
  | some shape =>
    refine .bind (.get (.pure hreached _)) fun {ends _} _ hreached _ => ?_
    cases ends with
    | true => exact .pure hreached _
    | false => exact hrest false hreached

theorem exprWith_locates {elements : Reader (Option (List Expr))} (hreached : stream.Reached source)
    (helements : ∀ {after}, after.Reached source → weight after.pending < weight stream.pending →
      Locates source after elements) (stopAtColon : Bool) :
    Locates source stream (exprWith source elements stopAtColon) := by
  apply Locates.peek
  refine .bind (literal?_locates hreached helements) fun _ hreached _ => ?_
  refine .bind (exprShape_locates hreached _ _) fun _ hreached _ => ?_
  exact .get (.pure hreached _)

theorem dictionary_locates (hreached : stream.Reached source) :
    Locates source stream dictionary :=
  .andPure (.take_of_append hreached (collectionRun_append 0))

theorem elementOver_locates (hreached : stream.Reached source) (element : Expr) :
    Locates source stream (elementOver element) := by
  apply Locates.peek
  generalize stream.head.token = token
  split
  · exact .andPure (.next hreached)
  · exact .pure hreached _
  · exact .andPure (dictionary_locates hreached)
  · exact .expected hreached _

theorem elementTurn_locates {limit : Nat} (hreached : stream.Reached source)
    (helements : ∀ {after}, after.Reached source → weight after.pending < weight stream.pending →
      Locates source after (elements source limit)) :
    Locates source stream (elementTurn source limit) := by
  apply Locates.peek
  generalize stream.head.token = token
  split
  · exact .andPure (.next hreached)
  · exact .andPure (dictionary_locates hreached)
  · exact .expected hreached _
  · exact .bind (exprWith_locates hreached helements true) fun _ hreached _ =>
      elementOver_locates hreached _

/-- Elements are read to their end where fewer characters are left than the limit. -/
theorem elements_locates {limit : Nat} (hreached : stream.Reached source)
    (hlimit : weight stream.pending < limit) : Locates source stream (elements source limit) := by
  induction limit generalizing stream with
  | zero => exact absurd hlimit (Nat.not_lt_zero _)
  | succ limit ih =>
    rw [elements_succ]
    refine .bind (elementTurn_locates hreached fun hafter hlt => ih hafter (by omega)) ?_
    intro turn after hturn hafter _
    cases turn with
    | leave result => exact .pure hafter _
    | again element =>
      have hlt := (elementTurn_onward hreached.ready hturn).weight_lt hreached.ready
      exact .andPure (ih hafter (by omega))

theorem expr_locates (hreached : stream.Reached source) (stopAtColon : Bool) :
    Locates source stream (expr source stopAtColon) :=
  exprWith_locates hreached (fun hafter _ => elements_locates hafter hafter.weight_lt) stopAtColon

/-! #### Attributes and modifiers -/

theorem label?_locates (hreached : stream.Reached source) : Locates source stream label? := by
  apply Locates.get
  generalize stream.head.token = token
  generalize stream.second.token = token'
  split
  · exact .bind (.next hreached) fun _ hreached _ => .andPure (.next hreached)
  · exact .pure hreached _

theorem argumentOver_locates (hreached : stream.Reached source) :
    Locates source stream argumentOver := by
  apply Locates.peek
  generalize stream.head.token = token
  split
  · exact .andPure (.next hreached)
  · exact .pure hreached _
  · exact .expected hreached _

theorem argumentTurn_locates (hreached : stream.Reached source) :
    Locates source stream (argumentTurn source) := by
  apply Locates.peek
  generalize stream.head.token = token
  split
  · exact .pure hreached _
  · exact .bind (label?_locates hreached) fun _ hreached _ =>
      .bind (expr_locates hreached false) fun _ hreached _ =>
      .andPure (argumentOver_locates hreached)

theorem arguments_locates {limit : Nat} (hreached : stream.Reached source)
    (hlimit : weight stream.pending < limit) :
    Locates source stream (arguments source limit) := by
  induction limit generalizing stream with
  | zero => exact absurd hlimit (Nat.not_lt_zero _)
  | succ limit ih =>
    rw [arguments_succ]
    refine .bind (argumentTurn_locates hreached) ?_
    intro turn after hturn hafter _
    cases turn with
    | leave result => exact .pure hafter _
    | again argument =>
      have hlt := (argumentTurn_onward hreached.ready hturn).weight_lt hreached.ready
      exact .andPure (ih hafter (by omega))

theorem attr_locates (hreached : stream.Reached source) :
    Locates source stream (attr source) := by
  refine .bind (.next hreached) fun _ hreached _ => ?_
  refine .bind (name_locates hreached) fun {pattern after} _ hreached _ => .peek ?_
  cases opensArguments pattern.span after.head with
  | false => exact .pure hreached _
  | true =>
    exact .bind (.next hreached) fun _ hreached _ =>
      .bind (arguments_locates hreached hreached.weight_lt) fun _ hreached _ =>
      .andPure (.next hreached)

/-- An attribute takes its sign at least. -/
theorem attr_onward {attr : Attribute} {after : TokenStream} (hready : Ready source stream)
    (hsign : stream.head.token = .atSign) (h : Reader.attr source stream = .ok (attr, after)) :
    stream.Onward after := by
  obtain ⟨taken, htakes, sign, name, rest, -, rfl, -⟩ := attr_takes hready hsign h
  exact ⟨_, _, List.cons_ne_nil _ _, htakes⟩

/-- An attribute is where its sign is. -/
theorem attr_position {attr : Attribute} {after : TokenStream} (hready : Ready source stream)
    (hsign : stream.head.token = .atSign) (h : Reader.attr source stream = .ok (attr, after)) :
    attr.span.position = stream.head.span.position := by
  obtain ⟨taken, htakes, sign, name, rest, last, rfl, hwhole, -, -, -, hspan⟩ :=
    attr_takes hready hsign h
  obtain ⟨tail, hpending, -⟩ := htakes.pending.exists_cons (by rw [hwhole]; rfl)
  rw [hspan, TokenStream.head, hpending]
  rfl

theorem attributes_locates {limit : Nat} (hreached : stream.Reached source)
    (hlimit : weight stream.pending < limit) :
    Locates source stream (attributes source limit) := by
  induction limit generalizing stream with
  | zero => exact absurd hlimit (Nat.not_lt_zero _)
  | succ limit ih =>
    apply Locates.peek
    cases htoken : stream.head.token with
    | atSign =>
      refine .bind (attr_locates hreached) fun {_ after} hattr hafter _ => ?_
      have hlt := (attr_onward hreached.ready htoken hattr).weight_lt hreached.ready
      exact .andPure (ih hafter (by omega))
    | _ => exact .pure hreached _

/-- All attributes that are given are read off the source. -/
theorem attributes_readFrom {limit : Nat} {attrs : List Attribute} {after : TokenStream}
    (hreached : stream.Reached source)
    (h : attributes source limit stream = .ok (attrs, after)) :
    ∀ attr ∈ attrs, attr.ReadFrom source := by
  induction limit generalizing stream attrs with
  | zero => exact absurd h tooLong_ne_ok
  | succ limit ih =>
    rw [attributes, peek_bind_eq_ok] at h
    generalize htoken : stream.head.token = token at h
    split at h
    · simp only [bind_eq_ok, pure_eq_ok] at h
      obtain ⟨first, between, hfirst, more, _, hmore, rfl, rfl⟩ := h
      obtain ⟨taken, htakes, -⟩ := attr_takes hreached.ready htoken hfirst
      exact List.forall_mem_cons.2
        ⟨⟨stream, between, hreached, htoken, hfirst⟩, ih (hreached.takes htakes) hmore⟩
    · obtain ⟨rfl, -⟩ := pure_eq_ok.1 h
      exact List.forall_mem_nil _

theorem modifiers_locates (hreached : stream.Reached source) :
    Locates source stream modifiers := by
  have hrun := Checked.refines_of_append (modifierRun_append 0 stream.pending)
  exact .of_takes hreached rfl ⟨hrun, rfl, rfl, (List.append_nil _).symm⟩

/-! #### Members -/

/-- A block that is not closed is reported at its brace. -/
theorem accessorBlock_locates (hreached : stream.Reached source)
    (hbrace : stream.head.token = .opening .curly) : Locates source stream accessorBlock := by
  refine .nextThen hreached (by rw [hbrace]; simp) fun {after} hafter _ => .get ?_
  cases hrun : blockRun? 0 after.pending with
  | none => exact .fails rfl (.openAccessors hreached hbrace)
  | some parts =>
    obtain ⟨hpending, -⟩ := blockRun?_eq_some hrun
    exact .andPure (.take hafter (Checked.refines_of_append hpending.symm))

theorem type?_locates (hreached : stream.Reached source) :
    Locates source stream (type? source) := by
  apply Locates.peek
  cases stream.head.token with
  | colon =>
    exact .bind (.next hreached) fun _ hreached _ => .andPure (type_locates hreached)
  | _ => exact .pure hreached _

theorem initializer?_locates (hreached : stream.Reached source) :
    Locates source stream (initializer? source) := by
  apply Locates.peek
  cases stream.head.token with
  | equals =>
    exact .bind (.next hreached) fun _ hreached _ => .andPure (expr_locates hreached false)
  | _ => exact .pure hreached _

theorem accessors_locates (hreached : stream.Reached source) :
    Locates source stream accessors := by
  apply Locates.peek
  cases htoken : stream.head.token with
  | opening bracket =>
    cases bracket with
    | curly => exact accessorBlock_locates hreached htoken
    | _ => exact .pure hreached _
  | _ => exact .pure hreached _

theorem binding_locates (hreached : stream.Reached source) :
    Locates source stream (binding source) :=
  .bind (name_locates hreached) fun _ hreached _ =>
    .bind (type?_locates hreached) fun _ hreached _ =>
    .bind (initializer?_locates hreached) fun _ hreached _ =>
    .andPure (accessors_locates hreached)

theorem bindings_locates {limit : Nat} (hreached : stream.Reached source)
    (hlimit : weight stream.pending < limit) :
    Locates source stream (bindings source limit) := by
  induction limit generalizing stream with
  | zero => exact absurd hlimit (Nat.not_lt_zero _)
  | succ limit ih =>
    refine .bind (binding_locates hreached) fun {_ between} _ hbetween hle => .peek ?_
    cases htoken : between.head.token with
    | comma =>
      refine .nextThen hbetween (by rw [htoken]; simp) fun hafter hlt => ?_
      exact .andPure (ih hafter (by omega))
    | _ => exact .pure hbetween _

theorem other_locates (hreached : stream.Reached source) (start : Span) :
    Locates source stream (other start) := by
  refine .bind (.take_of_append hreached (otherRun_append true 0)) ?_
  intro taken after _ hafter _
  apply Locates.peek
  cases taken.getLast? with
  | some last => exact .pure hafter _
  | none =>
    cases after.head.token with
    | semicolon => exact .andPure (.next hafter)
    | _ => exact .pure hafter _

theorem markers_locates {attrs : List Attribute} (hreached : stream.Reached source)
    (hattrs : ∀ attr ∈ attrs, attr.ReadFrom source) :
    Locates source stream (markers attrs) := by
  induction attrs generalizing stream with
  | nil => exact .pure hreached _
  | cons first rest ih =>
    obtain ⟨hfirst, hrest⟩ := List.forall_mem_cons.1 hattrs
    exact .bind (typed_locates hreached hfirst fun _ => .inr) fun _ hreached _ =>
      .bind (note_locates hreached _) fun _ hreached _ =>
      .andPure (ih hreached hrest)

theorem property_locates {start : Span} {attrs : List Attribute} {isStatic : Bool}
    (hreached : stream.Reached source) (hattrs : ∀ attr ∈ attrs, attr.ReadFrom source) :
    Locates source stream (property source start attrs isStatic) := by
  refine .bind (.next hreached) fun {_ after} _ hreached _ => .peek ?_
  cases after.head.token with
  | name word =>
    exact .bind (markers_locates hreached hattrs) fun _ hreached _ =>
      .bind (bindings_locates hreached hreached.weight_lt) fun _ hreached _ =>
      .get (.pure hreached _)
  | _ => exact .andPure (other_locates hreached start)

/-! #### Declarations -/

theorem attachments_locates {attrs : List Attribute} (hreached : stream.Reached source)
    (hattrs : ∀ attr ∈ attrs, attr.ReadFrom source) :
    Locates source stream (attachments attrs) := by
  induction attrs generalizing stream with
  | nil => exact .pure hreached _
  | cons first rest ih =>
    obtain ⟨hfirst, hrest⟩ := List.forall_mem_cons.1 hattrs
    refine .bind (typed_locates hreached hfirst fun _ => .inl) fun {request? _} _ hreached _ => ?_
    cases request? with
    | some request =>
      exact .bind (note_locates hreached _) fun _ hreached _ =>
        .andPure (ih hreached hrest)
    | none => exact ih hreached hrest

theorem qualifiedName_locates (hreached : stream.Reached source) :
    Locates source stream qualifiedName :=
  .bind (name_locates hreached) fun _ hreached _ =>
    .andPure (.take_of_append hreached qualifierRun_append)

theorem genericClause_locates (hreached : stream.Reached source) :
    Locates source stream genericClause := by
  apply Locates.peek
  cases stream.head.token with
  | operator text =>
    dsimp only
    split
    · exact .andPure (.take_of_append hreached (genericRun_append 0))
    · exact .pure hreached _
  | _ => exact .pure hreached _

theorem types_locates {limit : Nat} (hreached : stream.Reached source)
    (hlimit : weight stream.pending < limit) :
    Locates source stream (types source limit) := by
  induction limit generalizing stream with
  | zero => exact absurd hlimit (Nat.not_lt_zero _)
  | succ limit ih =>
    refine .bind (type_locates hreached) fun {_ between} _ hbetween hle => .peek ?_
    cases htoken : between.head.token with
    | comma =>
      refine .nextThen hbetween (by rw [htoken]; simp) fun hafter hlt => ?_
      exact .andPure (ih hafter (by omega))
    | _ => exact .pure hbetween _

theorem inheritance_locates (hreached : stream.Reached source) :
    Locates source stream (inheritance source) := by
  apply Locates.peek
  cases stream.head.token with
  | colon =>
    exact .bind (.next hreached) fun _ hreached _ => types_locates hreached hreached.weight_lt
  | _ => exact .pure hreached _

theorem requirements_locates (hreached : stream.Reached source) :
    Locates source stream requirements := by
  have hrun : ∀ tokens : List Placed, (tokens.span (·.token != .opening .curly)).1 ++
      (tokens.span (·.token != .opening .curly)).2 = tokens := by
    intro tokens
    rw [List.span_eq_takeWhile_dropWhile, List.takeWhile_append_dropWhile]
  apply Locates.peek
  generalize stream.head.token = token
  split
  · exact .andPure (.take_of_append hreached hrun)
  · exact .pure hreached _

theorem openingBrace_locates (hreached : stream.Reached source) :
    Locates source stream openingBrace := by
  apply Locates.peek
  generalize stream.head.token = token
  split
  · exact .andPure (.next hreached)
  · exact .expected hreached _

theorem closingBrace_locates (hreached : stream.Reached source) (owner : String) :
    Locates source stream (closingBrace owner) := by
  apply Locates.peek
  generalize stream.head.token = token
  split
  · exact .andPure (.next hreached)
  · exact .expected hreached _

theorem header_locates {kind : Declaration.Kind} {start : Span} {attrs : List Attribute}
    (hreached : stream.Reached source) (hattrs : ∀ attr ∈ attrs, attr.ReadFrom source) :
    Locates source stream (header source kind start attrs) :=
  .bind (.next hreached) fun _ hreached _ =>
    .bind (attachments_locates hreached hattrs) fun _ hreached _ =>
    .bind (qualifiedName_locates hreached) fun _ hreached _ =>
    .bind (genericClause_locates hreached) fun _ hreached _ =>
    .bind (inheritance_locates hreached) fun _ hreached _ =>
    .bind (requirements_locates hreached) fun _ hreached _ =>
    .andPure (openingBrace_locates hreached)

theorem item_locates (hreached : stream.Reached source) : Locates source stream (item source) := by
  apply Locates.peek
  refine .bind (attributes_locates hreached hreached.weight_lt) ?_
  intro attrs between hattributes hbetween _
  have hattrs := attributes_readFrom hreached hattributes
  refine .bind (modifiers_locates hbetween) fun {isStatic here} _ hhere _ => .get ?_
  have hother : Locates source here
      (other stream.head.span >>= fun span => pure (Item.entry (.other span))) :=
    .andPure (other_locates hhere _)
  cases here.head.token with
  | semicolon => exact .andPure (.next hhere)
  | name word =>
    dsimp only
    split
    · exact .andPure (property_locates hhere hattrs)
    · split
      · exact .andPure (header_locates hhere hattrs)
      · exact hother
  | _ => exact hother

/-! #### Bodies -/

theorem wholeItem_locates {limit : Nat} (hreached : stream.Reached source)
    (hitems : ∀ {after found}, item source stream = .ok (found, after) → after.Reached source →
      Locates source after (items source limit)) :
    Locates source stream (wholeItem source limit) := by
  refine .bind (item_locates hreached) fun {found _} hitem hafter _ => ?_
  cases found with
  | separator => exact .pure hafter _
  | entry entry => exact .pure hafter _
  | opened header =>
    exact .bind (hitems hitem hafter) fun _ hreached _ =>
      .andPure (closingBrace_locates hreached _)

theorem items_locates {limit : Nat} (hreached : stream.Reached source)
    (hlimit : weight stream.pending < limit) : Locates source stream (items source limit) := by
  induction limit generalizing stream with
  | zero => exact absurd hlimit (Nat.not_lt_zero _)
  | succ limit ih =>
    have hmore : stream.head.token ≠ .closing .curly → stream.head.token ≠ .endOfInput →
        Locates source stream (do
          let item? ← wholeItem source limit
          return item?.toList ++ (← items source limit)) := by
      intro hbrace hend
      refine .bind (wholeItem_locates hreached fun hitem hafter => ih hafter ?_) ?_
      · have hlt := Checked.weight_lt_of_item hreached.ready hbrace hend hitem
        omega
      · intro item? after hwhole hafter _
        have hlt := (wholeItem_onward hreached.ready hbrace hend hwhole).weight_lt hreached.ready
        exact .andPure (ih hafter (by omega))
    rw [items_succ]
    apply Locates.peek
    generalize stream.head.token = token at hmore
    split
    · exact .pure hreached _
    · exact .pure hreached _
    · next hbrace hend => exact hmore hbrace hend

theorem outline_locates (hreached : stream.Reached source) :
    Locates source stream (outline source) := by
  refine .bind (items_locates hreached hreached.weight_lt) fun {_ after} _ hafter _ => .get ?_
  cases after.head.token with
  | closing bracket => exact .expected hafter _
  | _ => exact .pure hafter _

end Readers

end Reader

/-! ### Where errors are -/

/-- A token is a part of an operator that stands among some tokens. -/
def Placed.PartIn (tokens : List Placed) (placed : Placed) : Prop :=
  ∃ whole ∈ tokens, ∃ sign equals, splitEquals? whole = some (sign, equals) ∧
    (placed = sign ∨ placed = equals)

theorem Placed.PartIn.cons {tokens : List Placed} {placed : Placed} (h : placed.PartIn tokens)
    (first : Placed) : placed.PartIn (first :: tokens) := by
  obtain ⟨whole, hmem, hparts⟩ := h
  exact ⟨whole, List.mem_cons_of_mem _ hmem, hparts⟩

/-- A token that stands among others, some of which were parted, was there before, or it is a
    part of one that was. -/
theorem Refines.mem_or_partIn {a b : List Placed} {placed : Placed} (h : Refines a b)
    (hmem : placed ∈ b) : placed ∈ a ∨ placed.PartIn a := by
  induction h with
  | nil => cases hmem
  | keep first _ ih =>
    rcases List.mem_cons.1 hmem with rfl | hmem
    · exact .inl List.mem_cons_self
    · exact (ih hmem).imp (List.mem_cons_of_mem _) (.cons · _)
  | part hpart _ ih =>
    rcases List.mem_cons.1 hmem with hsign | hmem
    · exact .inr ⟨_, List.mem_cons_self, _, _, hpart, .inl hsign⟩
    · rcases List.mem_cons.1 hmem with hequals | hmem
      · exact .inr ⟨_, List.mem_cons_self, _, _, hpart, .inr hequals⟩
      · exact (ih hmem).imp (List.mem_cons_of_mem _) (.cons · _)

/-- What comes next is the end of input, a token of the source, or a part of one. -/
theorem TokenStream.Reached.head_cases {source : List Char} {stream : TokenStream}
    (h : stream.Reached source) :
    ∃ tokens, tokenize source = .ok tokens ∧
      (stream.head = tokens.finish ∨ stream.head ∈ tokens.body ∨
        stream.head.PartIn tokens.body) := by
  obtain ⟨tokens, taken, noted, htokens, htakes⟩ := h
  refine ⟨tokens, htokens, ?_⟩
  have hrefines := htakes.pending
  unfold TokenStream.head
  cases hpending : stream.pending with
  | nil => exact .inl htakes.finish
  | cons placed rest =>
    rw [hpending] at hrefines
    exact .inr (hrefines.mem_or_partIn (List.mem_append_right _ List.mem_cons_self))

theorem TokenStream.Reached.head_mem {source : List Char} {stream : TokenStream}
    (h : stream.Reached source) (hwhole : stream.head.token.isWhole = true)
    (hend : stream.head.token ≠ .endOfInput) :
    ∃ tokens, tokenize source = .ok tokens ∧ stream.head ∈ tokens.body := by
  obtain ⟨tokens, htokens, hfinish | hmem | ⟨whole, -, sign, equals, hpart, hfound⟩⟩ :=
    h.head_cases
  · rw [hfinish] at hend
    exact absurd (Ready.start htokens).finish_token hend
  · exact ⟨tokens, htokens, hmem⟩
  · -- both parts are operators
    obtain ⟨text, -, -, -, rfl, rfl⟩ := splitEquals?_eq_some hpart
    rcases hfound with heq | heq
    · rw [heq] at hwhole
      cases hwhole
    · rw [heq] at hwhole
      cases hwhole

def Token.StandsBetween (before : List Char) (token : Token) (after : List Char) : Prop :=
  ∃ tokens placed, tokenize (before ++ token.spelling ++ after) = .ok tokens ∧
    placed ∈ tokens.body ∧ placed.token = token ∧
    placed.span = Span.across before token.spelling

theorem Token.standsBetween_of_mem {source : List Char} {tokens : Tokens} {placed : Placed}
    (htokens : tokenize source = .ok tokens) (hmem : placed ∈ tokens.body) :
    ∃ before after, source = before ++ placed.token.spelling ++ after ∧
      placed.span = Span.across before placed.token.spelling ∧
      placed.token.StandsBetween before after := by
  obtain ⟨-, before, after, hsource, hspan⟩ := (Ready.start htokens).laid.sits hmem
  refine ⟨before, after, hsource, hspan, tokens, placed, ?_, hmem, rfl, hspan⟩
  rw [← hsource]
  exact htokens

/-- What begins between two parts of a source, and is what an error there is about. -/
inductive ReadError.Begins (before after : List Char) : ReadError → Prop where
  /-- A literal or a comment that does not end. -/
  | scan {error : ScanError} (hopens : error.Opens after) : Begins before after (.scan error)
  /-- An attribute, with its sign, whose arguments do not fit. -/
  | argument {place : Position} {cause : ArgumentError} {attr : Attribute}
      {stream later : TokenStream} {rest : List Char} (hafter : after = '@' :: rest)
      (hreached : stream.Reached (before ++ after)) (hsign : stream.head.token = .atSign)
      (hspan : stream.head.span = Span.across before ['@'])
      (hattr : Reader.attr (before ++ after) stream = .ok (attr, later))
      (hcause : attr.request? = .error cause ∨ attr.marker = .error cause) :
      Begins before after (.argument place cause)
  /-- A token that was not expected. -/
  | token {place : Position} {what : Expected} {token : Token} {rest : List Char}
      (hafter : after = token.spelling ++ rest) (htoken : token.StandsBetween before rest) :
      Begins before after (.malformed place (.expected what token))
  /-- An operator that ends in `=` and was parted, so that its first part was found. -/
  | sign {place : Position} {what : Expected} {sign rest : List Char} (hne : sign ≠ [])
      (hafter : after = sign ++ '=' :: rest)
      (htoken : (Token.operator (String.ofList (sign ++ ['=']))).StandsBetween before rest) :
      Begins before after (.malformed place (.expected what (.operator (String.ofList sign))))
  /-- The `=` at the end of an operator that was parted. -/
  | equals {place : Position} {what : Expected} {front sign rest : List Char} (hne : sign ≠ [])
      (hbefore : before = front ++ sign) (hafter : after = '=' :: rest)
      (htoken : (Token.operator (String.ofList (sign ++ ['=']))).StandsBetween front rest) :
      Begins before after (.malformed place (.expected what .equals))
  /-- The end of input. -/
  | endOfInput {place : Position} {what : Expected} (hafter : after = []) :
      Begins before after (.malformed place (.expected what .endOfInput))
  /-- The brace of a block of accessors that is not closed. -/
  | openAccessors {place : Position} {rest : List Char} (hafter : after = '\x7b' :: rest)
      (htoken : (Token.opening .curly).StandsBetween before rest) :
      Begins before after (.malformed place .openAccessors)

/-- An error is at a place in a source, and what it is about begins there. -/
def ReadError.BeginsIn (source : List Char) (error : ReadError) : Prop :=
  ∃ before after, source = before ++ after ∧ error.position = Position.behind before ∧
    error.Begins before after

section

variable {source : List Char} {tokens : Tokens} {placed sign equals : Placed}

theorem ReadError.beginsIn_of_mem (htokens : tokenize source = .ok tokens)
    (hmem : placed ∈ tokens.body) (what : Expected) :
    (malformed placed.span.position (.expected what placed.token)).BeginsIn source := by
  obtain ⟨before, after, hsource, hspan, hstands⟩ := Token.standsBetween_of_mem htokens hmem
  refine ⟨before, placed.token.spelling ++ after, ?_, ?_, .token rfl hstands⟩
  · rw [hsource, List.append_assoc]
  · rw [hspan]
    rfl

/-- The parts of an operator stand one behind the other in its place. -/
theorem splitEquals?_positions {before : List Char}
    (hpart : splitEquals? placed = some (sign, equals))
    (hspan : placed.span = Span.across before placed.token.spelling) :
    ∃ text : List Char, text ≠ [] ∧ placed.token = .operator (String.ofList (text ++ ['='])) ∧
      sign.token = .operator (String.ofList text) ∧
      sign.span.position = Position.behind before ∧
      equals.token = .equals ∧ equals.span.position = Position.behind (before ++ text) := by
  obtain ⟨text, hne, -, htoken, hsign, hequals⟩ := splitEquals?_eq_some hpart
  have hspelling : placed.token.spelling = text ++ ['='] := by
    rw [htoken]
    simp [Token.spelling]
  have hplaced : placed.Sits (before ++ placed.token.spelling ++ []) :=
    ⟨by simp [hspelling], before, [], rfl, hspan⟩
  obtain ⟨-, ⟨-, front, rest, hfront, hcovers⟩, -, -, -⟩ := splitEquals?_sits hpart hplaced
  have hwidth : Text.width front = Text.width (before ++ text) := by
    have hstart := congrArg Span.start hcovers
    have hsize : Text.width ['='] = 1 := rfl
    rw [hequals] at hstart
    simp only [Span.across, hspan, hspelling, Text.width_append, hsize] at hstart
    rw [Text.width_append]
    omega
  have hsame : before ++ text = front := by
    rw [hspelling, List.append_nil, ← List.append_assoc, List.append_assoc front] at hfront
    exact (Text.append_inj_of_width_eq hfront hwidth.symm).1
  refine ⟨text, hne, htoken, ?_, ?_, ?_, ?_⟩
  · rw [hsign]
  · rw [hsign]
    exact congrArg Span.position hspan
  · rw [hequals]
  · rw [hsame]
    exact congrArg Span.position hcovers

theorem ReadError.beginsIn_of_parts (htokens : tokenize source = .ok tokens)
    (hmem : placed ∈ tokens.body) (hpart : splitEquals? placed = some (sign, equals))
    (what : Expected) :
    (malformed sign.span.position (.expected what sign.token)).BeginsIn source ∧
      (malformed equals.span.position (.expected what equals.token)).BeginsIn source := by
  obtain ⟨before, after, hsource, hspan, hstands⟩ := Token.standsBetween_of_mem htokens hmem
  obtain ⟨text, hne, htoken, hsign, hsignPlace, hequals, hequalsPlace⟩ :=
    splitEquals?_positions hpart hspan
  rw [htoken] at hsource hstands
  have hparts : source = before ++ (text ++ '=' :: after) := by
    simpa [Token.spelling] using hsource
  constructor
  · rw [hsign]
    exact ⟨before, text ++ '=' :: after, hparts, hsignPlace, .sign hne rfl hstands⟩
  · rw [hequals]
    refine ⟨before ++ text, '=' :: after, ?_, hequalsPlace, .equals hne rfl rfl hstands⟩
    rw [hparts, List.append_assoc]

end

/-- **What an error of a reader is about begins where the error is.** -/
theorem ReadError.Grounded.beginsIn {source : List Char} {error : ReadError}
    (h : error.Grounded source) : error.BeginsIn source := by
  cases h with
  | @expected stream what hreached =>
    obtain ⟨tokens, htokens, hfinish | hmem | ⟨whole, hwhole, sign, equals, hpart, hfound⟩⟩ :=
      hreached.head_cases
    · have hready := Ready.start htokens
      refine ⟨source, [], (List.append_nil _).symm, ?_, ?_⟩
      · rw [hfinish]
        exact congrArg Span.position hready.finish_span
      · rw [hfinish, show tokens.finish.token = .endOfInput from hready.finish_token]
        exact .endOfInput rfl
    · exact beginsIn_of_mem htokens hmem what
    · obtain ⟨hsign, hequals⟩ := beginsIn_of_parts htokens hwhole hpart what
      rcases hfound with heq | heq
      · rw [heq]
        exact hsign
      · rw [heq]
        exact hequals
  | @openAccessors stream hreached hbrace =>
    obtain ⟨tokens, htokens, hmem⟩ :=
      hreached.head_mem (by rw [hbrace]; rfl) (by rw [hbrace]; simp)
    obtain ⟨before, after, hsource, hspan, hstands⟩ := Token.standsBetween_of_mem htokens hmem
    rw [hbrace] at hsource hspan hstands
    refine ⟨before, '\x7b' :: after, ?_, ?_, .openAccessors rfl hstands⟩
    · rw [hsource, List.append_assoc]
      rfl
    · exact congrArg Span.position hspan
  | @argument attr cause hattr hcause =>
    obtain ⟨stream, later, hreached, hsign, hread⟩ := hattr
    obtain ⟨tokens, htokens, hmem⟩ := hreached.head_mem (by rw [hsign]; rfl) (by rw [hsign]; simp)
    obtain ⟨before, after, hsource, hspan, -⟩ := Token.standsBetween_of_mem htokens hmem
    rw [hsign] at hsource hspan
    have hparts : source = before ++ '@' :: after := by
      rw [hsource, List.append_assoc]
      rfl
    refine ⟨before, '@' :: after, hparts, ?_, ?_⟩
    · have hattr := Reader.attr_position hreached.ready hsign hread
      exact hattr.trans (congrArg Span.position hspan)
    · rw [hparts] at hreached hread
      exact .argument rfl hreached hsign hspan hread hcause

/-- What comes of reading a source that is a sequence of tokens. -/
theorem Outline.ofSource_eq {source : List Char} {tokens : Tokens}
    (h : tokenize source = .ok tokens) :
    ofSource source = (Reader.outline source (.start tokens)).map Prod.fst := by
  unfold ofSource
  rw [h]
  rfl

/-- A source that cannot be read is no sequence of tokens, or the error is grounded in it. -/
theorem Outline.scan_or_grounded {source : List Char} {error : ReadError}
    (h : ofSource source = .error error) :
    (∃ cause, tokenize source = .error cause ∧ error = .scan cause) ∨ error.Grounded source := by
  cases htokens : tokenize source with
  | error cause =>
    unfold ofSource at h
    rw [htokens] at h
    cases h
    exact .inl ⟨cause, rfl, rfl⟩
  | ok tokens =>
    rw [ofSource_eq htokens] at h
    cases Reader.outline_locates (.start htokens) with
    | fails hfails hgrounded =>
      rw [hfails] at h
      cases h
      exact .inr hgrounded
    | gives hgives _ _ =>
      rw [hgives] at h
      cases h

/-- **Where a source cannot be read, the error is where the thing it is about begins.** -/
theorem Outline.ofSource_error {source : List Char} {error : ReadError}
    (h : ofSource source = .error error) : error.BeginsIn source := by
  rcases scan_or_grounded h with ⟨cause, htokens, rfl⟩ | hgrounded
  · obtain ⟨before, rest, hsource, hposition, hopens⟩ := tokenize_error htokens
    exact ⟨before, rest, hsource, hposition, .scan hopens⟩
  · exact hgrounded.beginsIn

def partedInheritance : String := "struct S: T?= \x7b\x7d"

theorem Outline.ofSource_error_parted :
    ofSource partedInheritance.toList =
        .error (.malformed ⟨1, 13⟩ (.expected .bodyStart .equals)) ∧
      (ReadError.malformed ⟨1, 13⟩ (.expected .bodyStart .equals)).BeginsIn
        partedInheritance.toList := by
  have hread : (ofSource partedInheritance.toList).map (fun _ => ()) =
      .error (.malformed ⟨1, 13⟩ (.expected .bodyStart .equals)) := by decide +kernel
  cases h : ofSource partedInheritance.toList with
  | error error =>
    rw [h] at hread
    cases hread
    exact ⟨rfl, ofSource_error h⟩
  | ok outline =>
    rw [h] at hread
    cases hread

/-! ### Reading comes to an end -/

/-- **Reading always goes on.**  Every turn of a loop leaves the next token further on, wherever
    a reader has come to; so all tokens of a source are read, and no reader comes to the end of
    its limit. -/
theorem Reader.reading_progresses (source : List Char) :
    (∀ stream : TokenStream, stream.Reached source → stream.Progresses source) ∧
      (∀ tokens, tokenize source = .ok tokens → tokens.finish.span = Span.across source []) ∧
      ∀ place, Outline.ofSource source ≠ .error (.malformed place .tooLong) := by
  refine ⟨fun _ hreached => hreached.progresses, fun _ htokens => ?_, fun place hlong => ?_⟩
  · exact (Ready.start htokens).finish_span
  · rcases Outline.scan_or_grounded hlong with ⟨_, -, hscan⟩ | hgrounded
    · cases hscan
    · cases hgrounded

/-- Where an operator is parted, its first part is taken and the `=` comes next. -/
theorem Reader.reading_progresses_parted :
    ∃ stream after : TokenStream, stream.Reached partedInheritance.toList ∧
      stream.head.token = .operator "?=" ∧ after.head.token = .equals ∧
      stream.head.span.start < after.head.span.start := by
  have htokens : tokenize partedInheritance.toList =
      .ok ⟨[⟨.name "struct", ⟨0, 6, 1, 1⟩, true⟩, ⟨.name "S", ⟨7, 8, 1, 8⟩, false⟩,
          ⟨.colon, ⟨8, 9, 1, 9⟩, false⟩, ⟨.name "T", ⟨10, 11, 1, 11⟩, false⟩] ++
        [⟨.operator "?=", ⟨11, 13, 1, 12⟩, false⟩, ⟨.opening .curly, ⟨14, 15, 1, 15⟩, false⟩,
          ⟨.closing .curly, ⟨15, 16, 1, 16⟩, false⟩],
        ⟨.endOfInput, ⟨16, 16, 1, 17⟩, false⟩⟩ := by decide +kernel
  let stream : TokenStream :=
    ⟨[⟨.operator "?=", ⟨11, 13, 1, 12⟩, false⟩, ⟨.opening .curly, ⟨14, 15, 1, 15⟩, false⟩,
      ⟨.closing .curly, ⟨15, 16, 1, 16⟩, false⟩], ⟨.endOfInput, ⟨16, 16, 1, 17⟩, false⟩, 11, []⟩
  have hreached : stream.Reached partedInheritance.toList :=
    ⟨_, _, [], htokens, .refl _, rfl, rfl, rfl⟩
  have hprogresses := (Reader.reading_progresses partedInheritance.toList).1 stream hreached
  have hturn : Reader.typeTurn false 0 stream =
      .ok (.again (⟨.operator "?", ⟨11, 12, 1, 12⟩, false⟩, 0), ⟨_, stream.finish, 12, []⟩) := rfl
  exact ⟨stream, _, hreached, rfl, rfl, hprogresses.type hturn⟩

end Memberwise
