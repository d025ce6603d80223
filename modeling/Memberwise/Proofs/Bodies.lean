/-
  Memberwise/Proofs/Bodies.lean
  =============================
  **Bodies end at the brace that closes them.**

  In a source whose brackets nest, and where no operator looks like an angle
  bracket, each reader takes tokens that close what they open.  This is said of
  readers as wholes (`Reader.Turns`), in a form that is closed under sequencing, so
  that a reader is treated by following its text.

  Two readers do not fit: a clause of requirements counts no brackets at all, and an
  item that is not taken apart may close brackets from outside.  Both only ever
  lower the braces that are open around them.  But every body that is opened must
  be closed for the source to be read, and at its end nothing is open, so no brace
  was lost on the way.
-/
import Memberwise.Proofs.Location
import Memberwise.Proofs.Nesting

namespace Memberwise

/-! ### Streams of tokens that nest -/

/-- A stream whose pending tokens nest behind some open brackets, and hold no angle
    brackets. -/
structure Nests (stack : List Bracket) (stream : TokenStream) : Prop where
  nest : nest stack stream.pending = some []
  plain : ∀ placed ∈ stream.pending, placed.token.isPlain = true
  finish : stream.finish.token = .endOfInput

theorem Nests.head_plain {stack : List Bracket} {stream : TokenStream} (h : Nests stack stream) :
    stream.head.token.isPlain = true := by
  unfold TokenStream.head
  cases hpending : stream.pending with
  | nil =>
    rw [List.headD_nil, h.finish]
    rfl
  | cons placed rest => exact h.plain placed (by rw [hpending]; exact List.mem_cons_self)

theorem Refines.plain {a b : List Placed} (h : Refines a b)
    (ha : ∀ placed ∈ a, placed.token.isPlain = true) :
    ∀ placed ∈ b, placed.token.isPlain = true := by
  induction h with
  | nil => exact ha
  | keep placed _ ih =>
    rw [List.forall_mem_cons] at ha ⊢
    exact ⟨ha.1, ih ha.2⟩
  | part hpart _ ih =>
    rw [List.forall_mem_cons] at ha
    have hsign := splitEquals?_isPlain hpart ha.1
    obtain ⟨text, -, -, -, rfl, rfl⟩ := splitEquals?_eq_some hpart
    exact List.forall_mem_cons.2 ⟨hsign, List.forall_mem_cons.2 ⟨rfl, ih ha.2⟩⟩

def TakesSuch (property : List Placed → Prop) (stream after : TokenStream) : Prop :=
  ∃ taken, property taken ∧ Refines stream.pending (taken ++ after.pending) ∧
    after.finish = stream.finish

namespace TakesSuch

variable {p q r : List Placed → Prop} {stream between after : TokenStream}

theorem refl (h : p []) (stream : TokenStream) : TakesSuch p stream stream :=
  ⟨[], h, .refl _, rfl⟩

theorem trans (hfront : TakesSuch p stream between) (hback : TakesSuch q between after)
    (hboth : ∀ {front back}, p front → q back → r (front ++ back)) :
    TakesSuch r stream after := by
  obtain ⟨front, hp, hrefines, hfinish⟩ := hfront
  obtain ⟨back, hq, hrefines', hfinish'⟩ := hback
  refine ⟨front ++ back, hboth hp hq, ?_, hfinish'.trans hfinish⟩
  rw [List.append_assoc]
  exact hrefines.trans ((Refines.refl front).append hrefines')

theorem mono (h : TakesSuch p stream after) (hpq : ∀ {taken}, p taken → q taken) :
    TakesSuch q stream after := by
  obtain ⟨taken, hp, htaken⟩ := h
  exact ⟨taken, hpq hp, htaken⟩

theorem of_takes {taken : List Placed} {noted : List Span} (h : Takes stream taken noted after)
    (hp : p taken) : TakesSuch p stream after :=
  ⟨taken, hp, h.pending, h.finish⟩

end TakesSuch

theorem Nests.taken {stack above : List Bracket} {stream after : TokenStream}
    (h : Nests stack stream)
    (htaken : TakesSuch (fun taken => Memberwise.nest stack taken = some above) stream after) :
    Nests above after := by
  obtain ⟨taken, hnest, hrefines, hfinish⟩ := htaken
  have hwhole := h.nest
  rw [hrefines.nest_eq, nest_append_eq_some] at hwhole
  obtain ⟨between, htaken, hafter⟩ := hwhole
  rw [hnest, Option.some.injEq] at htaken
  subst htaken
  have hplain := hrefines.plain h.plain
  exact ⟨hafter, fun placed hmem => hplain placed (List.mem_append_right _ hmem),
    hfinish ▸ h.finish⟩

theorem Nests.balanced {stack : List Bracket} {stream after : TokenStream} (h : Nests stack stream)
    (htaken : TakesSuch (fun taken => Memberwise.nest [] taken = some []) stream after) :
    Nests stack after :=
  h.taken (htaken.mono fun hnest => nest_lift hnest stack)

/-! ### Readers that turn brackets into brackets -/

namespace Reader

/-- From a stream with some property, a reader takes tokens that turn the open brackets
    `below` into `above`, whatever is open around them. -/
structure Turns {α : Type} (pre : TokenStream → Prop) (below above : List Bracket)
    (reader : Reader α) : Prop where
  takes {low : List Bracket} {stream after : TokenStream} {value : α} (hpre : pre stream)
    (hnests : Nests (below ++ low) stream) (hread : reader stream = .ok (value, after)) :
    TakesSuch (fun taken => nest below taken = some above) stream after

/-- From any stream, a reader closes what it opens. -/
abbrev Balanced {α : Type} (reader : Reader α) : Prop := Turns (fun _ => True) [] [] reader

namespace Turns

variable {α β : Type} {pre : TokenStream → Prop} {below between above : List Bracket}

/-- The same tokens are taken with more brackets open. -/
theorem lift {reader : Reader α} (h : Turns pre below above reader) (more : List Bracket) :
    Turns pre (below ++ more) (above ++ more) reader := by
  constructor
  intro low stream after value hstart hnests hread
  rw [List.append_assoc] at hnests
  exact (h.takes hstart hnests hread).mono fun hnest => nest_lift hnest more

theorem pure (value : α) : Turns pre below below (Pure.pure value : Reader α) := by
  constructor
  intro low stream after value' _ _ hread
  obtain ⟨-, rfl⟩ := pure_eq_ok.1 hread
  exact .refl (nest_nil below) after

/-- A reader that never succeeds takes nothing. -/
theorem fail {reader : Reader α} (h : ∀ {stream result}, ¬ reader stream = .ok result) :
    Turns pre below above reader := by
  constructor
  intro low stream after value _ _ hread
  exact absurd hread h

/-- What is known of the stream behind a first reader can be used by the next. -/
theorem bind_post {reader : Reader α} {f : α → Reader β} {post : TokenStream → Prop}
    (h : Turns pre below between reader)
    (hpost : ∀ {stream after value}, pre stream → reader stream = .ok (value, after) → post after)
    (hf : ∀ value, Turns post between above (f value)) :
    Turns pre below above (reader >>= f) := by
  constructor
  intro low stream after value hstart hnests hread
  obtain ⟨first, middle, hfirst, hrest⟩ := bind_eq_ok.1 hread
  have hfront := h.takes hstart hnests hfirst
  have hmiddle := hnests.taken (hfront.mono fun hnest => nest_lift hnest low)
  exact hfront.trans ((hf first).takes (hpost hstart hfirst) hmiddle hrest)
    fun hfront hback => nest_append_eq_some.2 ⟨between, hfront, hback⟩

theorem bind {reader : Reader α} {f : α → Reader β} (h : Turns pre below between reader)
    (hf : ∀ value, Turns (fun _ => True) between above (f value)) :
    Turns pre below above (reader >>= f) :=
  h.bind_post (fun _ _ => trivial) hf

theorem peek {f : Placed → Reader β}
    (h : ∀ placed, Turns (fun stream => stream.head = placed) below above (f placed)) :
    Turns pre below above (Reader.peek >>= f) := by
  constructor
  intro low stream after value _ hnests hread
  exact (h stream.head).takes rfl hnests (peek_bind_eq_ok.1 hread)

theorem get {f : TokenStream → Reader β} (h : ∀ stream, Turns (· = stream) below above (f stream)) :
    Turns pre below above (MonadState.get >>= f) := by
  constructor
  intro low stream after value _ hnests hread
  exact (h stream).takes rfl hnests (get_bind_eq_ok.1 hread)

/-- The next token decides what taking it does.  The end of input is never taken. -/
theorem next (h : ∀ {stream}, pre stream → stream.head.token.openAfter below = some above) :
    Turns pre below above Reader.next := by
  constructor
  intro low stream after value hstart hnests hread
  have hopen := h hstart
  unfold TokenStream.head at hopen
  unfold Reader.next at hread
  split at hread
  · next hpending =>
    obtain ⟨-, rfl⟩ := Prod.mk.inj (Except.ok.inj hread)
    rw [hpending, List.headD_nil, hnests.finish] at hopen
    exact .refl hopen stream
  · next placed rest hpending =>
    obtain ⟨-, rfl⟩ := Prod.mk.inj (Except.ok.inj hread)
    rw [hpending] at hopen
    refine ⟨[placed], (nest_singleton below placed).trans hopen, ?_, rfl⟩
    rw [hpending]
    exact .refl _

/-- A run that counts brackets takes what closes the brackets that it counts. -/
theorem take {run : Run} {counted : Bracket → Bool} {depth : Nat}
    (hrooted : Rooted counted below depth)
    (h : ∀ {stream}, pre stream → (∀ placed ∈ stream.pending, placed.token.isPlain = true) →
      Refines stream.pending ((run stream.pending).1 ++ (run stream.pending).2) ∧
        Counted counted depth (run stream.pending)) :
    Turns pre below [] (Reader.take run) := by
  constructor
  intro low stream after value hstart hnests hread
  obtain ⟨hrefines, hcounted⟩ := h hstart hnests.plain
  obtain ⟨rfl, -, htakes⟩ := take_takes hrefines hread
  have hnest := hnests.nest
  rw [hrefines.nest_eq] at hnest
  exact .of_takes htakes (hcounted.nest_eq_nil hrooted hnest)

/-- Where the next token is known, it decides what taking it does. -/
theorem next_head {placed : Placed} (h : placed.token.openAfter below = some above) :
    Turns (fun stream => stream.head = placed) below above Reader.next := by
  apply Turns.next
  rintro stream rfl
  exact h

theorem anywhere {reader : Reader α} (h : Turns (fun _ => True) below above reader) :
    Turns pre below above reader := by
  constructor
  intro low stream after value _ hnests hread
  exact h.takes trivial hnests hread

/-- A reader that closes what it opens does so among other brackets. -/
theorem balanced {reader : Reader α} (h : Balanced reader) : Turns pre below below reader :=
  (h.lift below).anywhere

end Turns

theorem head_of_next {stream after : TokenStream} {placed : Placed}
    (h : next stream = .ok (placed, after)) : after.head = stream.second := by
  unfold TokenStream.head TokenStream.second
  unfold next at h
  split at h
  · next hpending =>
    cases h
    rw [hpending]
    rfl
  · next hpending =>
    cases h
    rw [hpending]
    rfl

/-! ### Types and expressions -/

section Expressions

variable {source : List Char}

theorem type_balanced : Balanced (type source) := by
  refine .peek fun first => ?_
  refine (Turns.take .nil fun _ hplain =>
    ⟨typeRun_refines true 0 _, typeRun_counted true 0 hplain⟩).bind fun taken => ?_
  split
  · exact .pure _
  · exact .fail expected_ne_ok

theorem literal?_balanced {elements : Reader (Option (List Expr))}
    (helements : Turns (fun _ => True) [.square] [] elements) : Balanced (literal? elements) := by
  refine .get fun start => ?_
  -- a literal of one token is no bracket
  have hsingle : ∀ {shape : Expr.Shape}, start.head.token.openAfter [] = some [] →
      Turns (· = start) [] [] (next >>= fun _ => Pure.pure (some shape)) := by
    intro shape htoken
    exact (Turns.next (by rintro _ rfl; exact htoken)).bind fun _ => .pure _
  split
  case h_7 htoken =>
    refine (Turns.next (by rintro _ rfl; rw [htoken]; rfl)).bind fun _ => ?_
    refine helements.bind fun result => ?_
    cases result with
    | none => exact .pure _
    | some items => exact .pure _
  case h_8 htoken =>
    split
    · next name hname =>
      refine (Turns.next (by rintro _ rfl; rw [htoken]; rfl)).bind_post
        (by rintro _ _ _ rfl hnext; exact head_of_next hnext) fun _ => ?_
      refine (Turns.next_head ?_).bind fun _ => .pure _
      unfold implicitName? at hname
      split at hname
      · next hsecond => rw [hsecond]; rfl
      · cases hname
    · exact .pure _
  case h_9 => exact .pure _
  all_goals exact hsingle (by simp only [*]; rfl)

theorem exprRun_balanced (stopAtColon first : Bool) :
    Balanced (take (exprRun stopAtColon first 0)) :=
  .take .nil fun {stream} _ _ => ⟨by rw [exprRun_append]; exact .refl _,
    exprRun_counted stopAtColon first 0 stream.pending⟩

theorem exprShape_balanced (stopAtColon : Bool) (literal? : Option Expr.Shape) :
    Balanced (exprShape stopAtColon literal?) := by
  unfold exprShape
  split
  · have hends : Balanced (atExprEnd stopAtColon) := .get fun _ => .pure _
    refine hends.bind fun ends => ?_
    split
    · exact .pure _
    · exact (exprRun_balanced stopAtColon false).bind fun _ => .pure _
  · exact (exprRun_balanced stopAtColon true).bind fun _ => .pure _

theorem exprWith_balanced {elements : Reader (Option (List Expr))}
    (helements : Turns (fun _ => True) [.square] [] elements) (stopAtColon : Bool) :
    Balanced (exprWith source elements stopAtColon) := by
  refine .peek fun first => ?_
  refine (literal?_balanced helements).anywhere.bind fun literal => ?_
  refine (exprShape_balanced stopAtColon literal).bind fun shape => ?_
  exact .get fun _ => .pure _

theorem dictionary_turns : Turns (fun _ => True) [.square] [] dictionary := by
  have hrooted : Rooted (fun _ => true) [.square] 1 := .singleton rfl
  refine (Turns.take hrooted fun {stream} _ _ => ?_).bind fun _ => .pure _
  exact ⟨by rw [collectionRun_append]; exact .refl _, collectionRun_counted 0 stream.pending⟩

/-- What follows an opening bracket closes it. -/
theorem elements_turns (limit : Nat) :
    Turns (fun _ => True) [.square] [] (elements source limit) := by
  induction limit with
  | zero => exact .fail tooLong_ne_ok
  | succ limit ih =>
    refine .peek fun first => ?_
    split
    · next htoken => exact (Turns.next_head (by rw [htoken]; rfl)).bind fun _ => .pure _
    · exact dictionary_turns.anywhere
    · exact .fail expected_ne_ok
    · refine (exprWith_balanced ih true).balanced.bind fun element => ?_
      refine .peek fun next => ?_
      split
      · next htoken =>
        refine (Turns.next_head (by rw [htoken]; rfl)).bind fun _ => ?_
        exact ih.bind fun _ => .pure _
      · exact ih.anywhere.bind fun _ => .pure _
      · exact dictionary_turns.anywhere
      · exact .fail expected_ne_ok

theorem expr_balanced (stopAtColon : Bool) : Balanced (expr source stopAtColon) :=
  exprWith_balanced (elements_turns _) stopAtColon

end Expressions

/-! ### Attributes and modifiers -/

section Attributes

variable {source : List Char}

theorem name_balanced : Balanced name := by
  refine .peek fun first => ?_
  split
  · next htoken => exact (Turns.next_head (by rw [htoken]; rfl)).bind fun _ => .pure _
  · exact .fail expected_ne_ok

theorem label?_balanced : Balanced label? := by
  refine .get fun start => ?_
  split
  · next htoken hsecond =>
    refine (Turns.next (by rintro _ rfl; rw [htoken]; rfl)).bind_post
      (by rintro _ _ _ rfl hnext; exact head_of_next hnext) fun _ => ?_
    exact (Turns.next_head (by rw [hsecond]; rfl)).bind fun _ => .pure _
  · exact .pure _

theorem arguments_balanced (limit : Nat) : Balanced (arguments source limit) := by
  induction limit with
  | zero => exact .fail tooLong_ne_ok
  | succ limit ih =>
    refine .peek fun first => ?_
    split
    · exact .pure _
    · refine label?_balanced.anywhere.bind fun label => ?_
      refine (expr_balanced false).bind fun value => ?_
      refine .peek fun next => ?_
      split
      · next htoken =>
        refine (Turns.next_head (by rw [htoken]; rfl)).bind fun _ => ?_
        exact ih.bind fun _ => .pure _
      · exact ih.anywhere.bind fun _ => .pure _
      · exact .fail expected_ne_ok

/-- Arguments are read up to a closing parenthesis. -/
theorem arguments_head {limit : Nat} {stream after : TokenStream} {args : List Argument}
    (h : arguments source limit stream = .ok (args, after)) :
    after.head.token = .closing .round := by
  induction limit generalizing stream args with
  | zero => exact absurd h tooLong_ne_ok
  | succ limit ih =>
    rw [arguments, peek_bind_eq_ok] at h
    generalize htoken : stream.head.token = token at h
    split at h
    · obtain ⟨-, rfl⟩ := pure_eq_ok.1 h
      exact htoken
    · simp only [bind_eq_ok] at h
      obtain ⟨label, _, -, value, _, -, first, between, -, h⟩ := h
      generalize first.token = token' at h
      split at h
      · simp only [bind_eq_ok, pure_eq_ok] at h
        obtain ⟨_, _, -, more, _, hmore, -, rfl⟩ := h
        exact ih hmore
      · simp only [bind_eq_ok, pure_eq_ok] at h
        obtain ⟨more, _, hmore, -, rfl⟩ := h
        exact ih hmore
      · exact absurd h expected_ne_ok

theorem attr_turns {placed : Placed} (h : placed.token = .atSign) :
    Turns (fun stream => stream.head = placed) [] [] (attr source) := by
  refine (Turns.next_head (by rw [h]; rfl)).bind fun sign => ?_
  refine name_balanced.bind fun pattern => ?_
  refine .peek fun first => ?_
  split
  · next hopens =>
    have hopen : first.token = .opening .round := by
      simp only [opensArguments, Bool.and_eq_true, beq_iff_eq] at hopens
      exact hopens.1
    refine (Turns.next_head (by rw [hopen]; rfl)).bind fun _ => ?_
    refine (arguments_balanced _).balanced.bind_post (fun _ => arguments_head) fun args => ?_
    exact (Turns.next (by intro stream hclose; rw [hclose]; rfl)).bind fun _ => .pure _
  · exact .pure _

theorem attributes_balanced (limit : Nat) : Balanced (attributes source limit) := by
  induction limit with
  | zero => exact .fail tooLong_ne_ok
  | succ limit ih =>
    refine .peek fun first => ?_
    split
    · next htoken =>
      refine (attr_turns htoken).bind fun _ => ?_
      exact ih.bind fun _ => .pure _
    · exact .pure _

theorem modifiers_balanced : Balanced modifiers := by
  constructor
  intro low stream after value _ hnests hread
  have hparts := modifierRun_append 0 stream.pending
  have hcounted := modifierRun_counted 0 stream.pending
  have hnest := hnests.nest
  rw [← hparts] at hnest
  unfold modifiers at hread
  generalize modifierRun 0 stream.pending = parts at *
  obtain ⟨isStatic, taken, rest⟩ := parts
  cases hread
  refine ⟨taken, hcounted.nest_eq_nil .nil hnest, ?_, rfl⟩
  rw [← hparts]
  exact .refl _

end Attributes

/-! ### Members -/

section Members

variable {source : List Char}

theorem accessorBlock_turns {placed : Placed} (h : placed.token = .opening .curly) :
    Turns (fun stream => stream.head = placed) [] [] accessorBlock := by
  refine (Turns.next_head (by rw [h]; rfl)).bind fun brace => ?_
  refine .get fun start => ?_
  split
  · next run hrun =>
    have hrooted : Rooted (· == .curly) [.curly] 1 := .singleton rfl
    obtain ⟨hpending, -⟩ := blockRun?_eq_some hrun
    refine (Turns.take hrooted ?_).bind fun _ => .pure _
    rintro stream rfl -
    exact ⟨by rw [hpending]; exact .refl _, 0, blockRun?_counts hrun, .inl rfl⟩
  · exact .fail failAt_ne_ok

theorem accessors_balanced : Balanced accessors := by
  refine .peek fun first => ?_
  split
  · next htoken => exact accessorBlock_turns htoken
  · exact .pure _

theorem type?_balanced : Balanced (type? source) := by
  refine .peek fun first => ?_
  split
  · next htoken =>
    refine (Turns.next_head (by rw [htoken]; rfl)).bind fun _ => ?_
    exact type_balanced.bind fun _ => .pure _
  · exact .pure _

theorem initializer?_balanced : Balanced (initializer? source) := by
  refine .peek fun first => ?_
  split
  · next htoken =>
    refine (Turns.next_head (by rw [htoken]; rfl)).bind fun _ => ?_
    exact (expr_balanced false).bind fun _ => .pure _
  · exact .pure _

theorem binding_balanced : Balanced (binding source) := by
  refine name_balanced.bind fun pattern => ?_
  refine type?_balanced.bind fun written => ?_
  refine initializer?_balanced.bind fun value => ?_
  exact accessors_balanced.bind fun _ => .pure _

theorem bindings_balanced (limit : Nat) : Balanced (bindings source limit) := by
  induction limit with
  | zero => exact .fail tooLong_ne_ok
  | succ limit ih =>
    refine binding_balanced.bind fun first => ?_
    refine .peek fun next => ?_
    split
    · next htoken =>
      refine (Turns.next_head (by rw [htoken]; rfl)).bind fun _ => ?_
      exact ih.bind fun _ => .pure _
    · exact .pure _

theorem markers_balanced (attrs : List Attribute) : Balanced (markers attrs) := by
  constructor
  intro low stream after value _ _ hread
  exact .of_takes (markers_takes hread).1 rfl

end Members

/-! ### Readers that may lower the braces around them -/

/-- From a stream with some property, a reader takes tokens that leave no brace open that
    they open. -/
structure Falls {α : Type} (pre : TokenStream → Prop) (reader : Reader α) : Prop where
  takes {stack : List Bracket} {stream after : TokenStream} {value : α} (hpre : pre stream)
    (hnests : Nests stack stream) (hread : reader stream = .ok (value, after)) :
    ∃ above, TakesSuch (fun taken => Sinks stack taken above) stream after

end Reader

theorem Nests.sunk {stack above : List Bracket} {stream after : TokenStream}
    (h : Nests stack stream)
    (hsinks : TakesSuch (fun taken => Sinks stack taken above) stream after) :
    Nests above after :=
  h.taken (hsinks.mono fun hsinks => hsinks.stays.nest_eq)

namespace Reader

section Falls

variable {α β : Type} {pre : TokenStream → Prop} {source : List Char}

theorem Turns.falls {reader : Reader α} (h : Turns pre [] [] reader) : Falls pre reader := by
  constructor
  intro stack stream after value hstart hnests hread
  exact ⟨stack, (h.takes hstart hnests hread).mono fun hnest => .of_nest hnest stack⟩

theorem Falls.bind {reader : Reader α} {f : α → Reader β} (h : Falls pre reader)
    (hf : ∀ value, Falls (fun _ => True) (f value)) : Falls pre (reader >>= f) := by
  constructor
  intro stack stream after value hstart hnests hread
  obtain ⟨first, middle, hfirst, hrest⟩ := bind_eq_ok.1 hread
  obtain ⟨between, hfront⟩ := h.takes hstart hnests hfirst
  obtain ⟨above, hback⟩ := (hf first).takes trivial (hnests.sunk hfront) hrest
  exact ⟨above, hfront.trans hback Sinks.trans⟩

theorem Falls.peek {f : Placed → Reader β}
    (h : ∀ placed, Falls (fun stream => stream.head = placed) (f placed)) :
    Falls pre (Reader.peek >>= f) := by
  constructor
  intro stack stream after value _ hnests hread
  exact (h stream.head).takes rfl hnests (peek_bind_eq_ok.1 hread)

theorem Falls.anywhere {reader : Reader α} (h : Falls (fun _ => True) reader) :
    Falls pre reader := by
  constructor
  intro stack stream after value _ hnests hread
  exact h.takes trivial hnests hread

theorem other_falls (start : Span) : Falls (fun _ => True) (other start) := by
  have hrun : Falls (fun _ => True) (take (otherRun true 0)) := by
    constructor
    intro stack stream after value _ hnests hread
    have hparts := otherRun_append true 0 stream.pending
    obtain ⟨rfl, -, htakes⟩ := take_takes (by rw [hparts]; exact .refl _) hread
    obtain ⟨above, hsinks, hover⟩ := otherRun_sinks .nil hnests.nest
    exact ⟨above, .of_takes htakes ⟨hsinks, hover⟩⟩
  refine hrun.bind fun taken => .peek fun first => ?_
  generalize htoken : first.token = token
  split
  · exact (Turns.pure _).falls
  · exact ((Turns.next_head (by rw [htoken]; rfl)).bind fun _ => .pure _).falls
  · exact (Turns.pure _).falls

theorem property_falls {placed : Placed} {word : String} (h : placed.token = .name word)
    (start : Span) (attrs : List Attribute) (isStatic : Bool) :
    Falls (fun stream => stream.head = placed) (property source start attrs isStatic) := by
  have hkeyword : Turns (fun stream => stream.head = placed) [] [] next :=
    .next_head (by rw [h]; rfl)
  refine hkeyword.falls.bind fun keyword => .peek fun first => ?_
  split
  · refine Turns.falls ?_
    refine (markers_balanced attrs).anywhere.bind fun markers => ?_
    refine (bindings_balanced _).bind fun bindings => ?_
    exact .get fun _ => .pure _
  · exact (other_falls start).anywhere.bind fun _ => (Turns.pure _).falls

/-! ### Headers -/

theorem attachments_balanced (attrs : List Attribute) : Balanced (attachments attrs) := by
  constructor
  intro low stream after value _ _ hread
  exact .of_takes (attachments_takes hread).1 rfl

theorem qualifiedName_balanced : Balanced qualifiedName := by
  have hrun : Balanced (take qualifierRun) := .take .nil fun {stream} _ _ =>
    ⟨by rw [qualifierRun_append]; exact .refl _, qualifierRun_counted stream.pending⟩
  exact name_balanced.bind fun first => hrun.bind fun _ => .pure _

/-- There is no clause of generic parameters, since it would start with an angle bracket. -/
theorem genericClause_balanced : Balanced genericClause := by
  refine .peek fun first => ?_
  split
  · next text htoken =>
    split
    · next hangle =>
      constructor
      rintro low stream after value rfl hnests -
      have hplain := hnests.head_plain
      rw [htoken, Token.isPlain_operator] at hplain
      rcases hplain with rfl | ⟨hopen, -⟩
      · exact absurd hangle (by decide)
      · exact absurd (List.mem_of_head? hangle) hopen
    · exact .pure _
  · exact .pure _

theorem types_balanced (limit : Nat) : Balanced (types source limit) := by
  induction limit with
  | zero => exact .fail tooLong_ne_ok
  | succ limit ih =>
    refine type_balanced.bind fun first => .peek fun next => ?_
    split
    · next htoken =>
      refine (Turns.next_head (by rw [htoken]; rfl)).bind fun _ => ?_
      exact ih.bind fun _ => .pure _
    · exact .pure _

theorem inheritance_balanced : Balanced (inheritance source) := by
  refine .peek fun first => ?_
  split
  · next htoken => exact (Turns.next_head (by rw [htoken]; rfl)).bind fun _ => types_balanced _
  · exact .pure _

theorem requirements_falls : Falls (fun _ => True) requirements := by
  refine .peek fun first => ?_
  split
  · constructor
    intro stack stream after value _ hnests hread
    simp only [bind_eq_ok, pure_eq_ok] at hread
    obtain ⟨taken, _, htake, -, rfl⟩ := hread
    have hparts : ((stream.pending.span (·.token != .opening .curly)).1 ++
        (stream.pending.span (·.token != .opening .curly)).2) = stream.pending := by
      rw [List.span_eq_takeWhile_dropWhile, List.takeWhile_append_dropWhile]
    obtain ⟨htaken, -, htakes⟩ := take_takes (by rw [hparts]; exact .refl _) htake
    have hnest := hnests.nest
    rw [← hparts, ← htaken, nest_append_eq_some] at hnest
    obtain ⟨above, hnest, -⟩ := hnest
    refine ⟨above, .of_takes htakes (sinks_of_no_brace ?_ hnest)⟩
    intro placed hmem
    rw [htaken, List.span_eq_takeWhile_dropWhile] at hmem
    simpa using List.all_eq_true.1 List.all_takeWhile placed hmem
  · exact (Turns.pure _).falls

def headerFront (source : List Char) (attrs : List Attribute) :
    Reader (List Attachment × String × List String) := do
  let _ ← next
  let attachments ← attachments attrs
  let name ← qualifiedName
  genericClause
  let inherited ← inheritance source
  requirements
  return (attachments, name, inherited)

theorem header_eq (kind : Declaration.Kind) (start : Span) (attrs : List Attribute) :
    Reader.header source kind start attrs = headerFront source attrs >>= fun front =>
      openingBrace >>= fun brace =>
        Pure.pure ⟨kind, front.2.1, front.1, front.2.2, start, brace⟩ := by
  simp only [Reader.header, headerFront, bind_assoc, pure_bind]

theorem headerFront_falls {placed : Placed} {word : String} (h : placed.token = .name word)
    (attrs : List Attribute) :
    Falls (fun stream => stream.head = placed) (headerFront source attrs) := by
  have hkeyword : Turns (fun stream => stream.head = placed) [] [] next :=
    .next_head (by rw [h]; rfl)
  refine hkeyword.falls.bind fun _ => ?_
  refine (attachments_balanced attrs).falls.bind fun attached => ?_
  refine qualifiedName_balanced.falls.bind fun name => ?_
  refine genericClause_balanced.falls.bind fun _ => ?_
  refine inheritance_balanced.falls.bind fun inherited => ?_
  exact requirements_falls.bind fun _ => (Turns.pure _).falls

end Falls

end Reader

/-! ### Matched bodies -/

/-- The body of a declaration stands among some tokens, from a brace to the brace that
    closes it. -/
def Declaration.Matched (tokens : List Placed) (declaration : Declaration) : Prop :=
  ∃ front opening inside closing back, tokens = front ++ opening :: (inside ++ closing :: back) ∧
    opening.token = .opening .curly ∧ closing.token = .closing .curly ∧
    nest [] inside = some [] ∧ declaration.body = opening.span.upTo closing.span.stop

theorem Declaration.Matched.mono {tokens more : List Placed} {declaration : Declaration}
    (h : declaration.Matched tokens) (hwithin : tokens <:+: more) : declaration.Matched more := by
  obtain ⟨front, opening, inside, closing, back, rfl, hopening, hclosing, hnest, hbody⟩ := h
  obtain ⟨before, after, rfl⟩ := hwithin
  exact ⟨before ++ front, opening, inside, closing, back ++ after, by simp, hopening, hclosing,
    hnest, hbody⟩

/-- Matched bodies are matched also where operators are not parted yet. -/
theorem Declaration.Matched.of_refines {tokens tokens' : List Placed} {declaration : Declaration}
    (h : declaration.Matched tokens') (hrefines : Refines tokens tokens') :
    declaration.Matched tokens := by
  obtain ⟨front, opening, inside, closing, back, rfl, hopening, hclosing, hnest, hbody⟩ := h
  obtain ⟨front', rest, rfl, -, hrest⟩ :=
    hrefines.exists_append_cons (by rw [hopening]; rfl)
  obtain ⟨inside', back', rfl, hinside, -⟩ :=
    hrest.exists_append_cons (by rw [hclosing]; rfl)
  exact ⟨front', opening, inside', closing, back', rfl, hopening, hclosing,
    (hinside.nest_eq []).trans hnest, hbody⟩

/-- Items are read from tokens along which brackets sink; if no brace is lost on the way, all
    bodies in them are matched. -/
structure BodiesMatch (stack above : List Bracket) (items : List BodyItem) (taken : List Placed) :
    Prop where
  sinks : Sinks stack taken above
  matched : fromBrace above = fromBrace stack →
    ∀ declaration ∈ Declaration.nestedIn items, declaration.Matched taken

/-- Of three stacks, each at the end of the one before, the first and the last are equal only
    if all are. -/
theorem suffix_squeeze {a b c : List Bracket} (hab : a <:+ b) (hbc : b <:+ c) (h : a = c) :
    a = b ∧ b = c := by
  subst h
  have heq : b = a := hbc.eq_of_length_le hab.length_le
  exact ⟨heq.symm, heq⟩

namespace BodiesMatch

variable {stack low low' above : List Bracket} {items inner : List BodyItem}
  {front taken inside outside : List Placed}

theorem nil (stack : List Bracket) : BodiesMatch stack stack [] [] :=
  ⟨.refl stack, by simp [Declaration.nestedIn]⟩

theorem behind (h : BodiesMatch low above items taken) (hfront : Sinks stack front low) :
    BodiesMatch stack above items (front ++ taken) := by
  refine ⟨hfront.trans h.sinks, ?_⟩
  intro hlevel declaration hmem
  obtain ⟨hlevel, -⟩ := suffix_squeeze h.sinks.sinks hfront.sinks hlevel
  exact (h.matched hlevel declaration hmem).mono (List.suffix_append _ _).isInfix

/-- Behind a header the items of a body are read, up to a closing brace.  If that is not the
    brace that closes the body, then a brace is lost. -/
theorem nested {header : Header} {brace close : Placed} (hfront : Sinks stack front low)
    (hopening : brace.token = .opening .curly) (hbrace : header.brace = brace.span)
    (hinner : BodiesMatch (.curly :: low) (.curly :: low') inner inside)
    (hclosing : close.token = .closing .curly) (hrest : BodiesMatch low' above items outside) :
    BodiesMatch stack above (.nested (header.closed inner close.span) :: items)
      (front ++ brace :: (inside ++ close :: outside)) := by
  -- the brace that closes the body is the one that was opened, or one further out
  have hcloses : low' = low ∨ .curly :: low' <:+ fromBrace low := by
    rcases List.suffix_cons_iff.1 hinner.sinks.sinks with heq | hout
    · exact .inl (List.cons.inj heq).2
    · exact .inr (suffix_fromBrace hout)
  have hlower : fromBrace low' <:+ fromBrace low := by
    rcases hcloses with rfl | hout
    · exact List.suffix_refl _
    · exact (fromBrace_suffix low').trans ((List.suffix_cons _ _).trans hout)
  have htokens : front ++ brace :: (inside ++ close :: outside) =
      front ++ (brace :: (inside ++ [close]) ++ outside) := by simp
  constructor
  case sinks =>
    have hbelow := hrest.sinks.sinks.trans (fromBrace_suffix low')
    have hbetween := hrest.sinks.sinks.trans hlower
    have hbody : Over (fromBrace above) low (brace :: (inside ++ [close])) low' :=
      (hinner.sinks.stays.mono (hbelow.trans (List.suffix_cons _ _))).enclose hopening hclosing
        (hbetween.trans (fromBrace_suffix low)) hbelow
    rw [htokens]
    exact ⟨hbetween.trans hfront.sinks,
      (hfront.stays.mono hbetween).trans (hbody.trans hrest.sinks.stays)⟩
  case matched =>
    intro hlevel
    obtain ⟨hlevel, -⟩ := suffix_squeeze (hrest.sinks.sinks.trans hlower) hfront.sinks hlevel
    obtain ⟨hrestLevel, hlevel⟩ := suffix_squeeze hrest.sinks.sinks hlower hlevel
    obtain rfl : low' = low := by
      rcases hcloses with heq | hout
      · exact heq
      · -- then a brace is missing
        have hlong := hout.length_le
        have hshort := (fromBrace_suffix low').length_le
        rw [← hlevel, List.length_cons] at hlong
        omega
    have hdeclaration : (header.closed inner close.span).Matched
        (front ++ brace :: (inside ++ close :: outside)) :=
      ⟨front, brace, inside, close, outside, rfl, hopening, hclosing,
        hinner.sinks.stays.nest_eq_nil, by rw [Header.closed, hbrace]⟩
    have hinside : inside <:+: front ++ brace :: (inside ++ close :: outside) :=
      ⟨front ++ [brace], close :: outside, by simp⟩
    have houtside : outside <:+: front ++ brace :: (inside ++ close :: outside) :=
      ⟨front ++ brace :: (inside ++ [close]), [], by simp⟩
    rw [Declaration.nestedIn_nested, List.forall_mem_cons, List.forall_mem_append]
    refine ⟨hdeclaration, ?_, ?_⟩
    · intro declaration hmem
      exact (hinner.matched rfl declaration hmem).mono hinside
    · intro declaration hmem
      exact (hrest.matched hrestLevel declaration hmem).mono houtside

end BodiesMatch

/-! ### Items -/

/-- Along an item, as far as it is read without reading further items, brackets sink; only a
    brace that opens a body comes behind that. -/
def Item.Falls (stack : List Bracket) (stream after : TokenStream) : Item → Prop
  | .opened header => ∃ low brace,
    TakesSuch (fun taken => ∃ front, taken = front ++ [brace] ∧ Sinks stack front low) stream
      after ∧ brace.token = .opening .curly ∧ header.brace = brace.span
  | _ => ∃ above, TakesSuch (fun taken => Sinks stack taken above) stream after

theorem Item.Falls.behind {stack : List Bracket} {stream here after : TokenStream} {found : Item}
    (h : found.Falls stack here after)
    (hfront : TakesSuch (fun taken => nest [] taken = some []) stream here) :
    found.Falls stack stream after := by
  have hsinks : TakesSuch (fun taken => Sinks stack taken stack) stream here :=
    hfront.mono fun hnest => .of_nest hnest stack
  cases found with
  | opened header =>
    obtain ⟨low, brace, hrest, hopening, hbrace⟩ := h
    refine ⟨low, brace, hsinks.trans hrest ?_, hopening, hbrace⟩
    rintro front _ hfront ⟨back, rfl, hback⟩
    exact ⟨front ++ back, by simp, hfront.trans hback⟩
  | separator =>
    obtain ⟨above, hrest⟩ := h
    exact ⟨above, hsinks.trans hrest Sinks.trans⟩
  | entry item =>
    obtain ⟨above, hrest⟩ := h
    exact ⟨above, hsinks.trans hrest Sinks.trans⟩

namespace Reader

variable {source : List Char} {stack : List Bracket} {stream after : TokenStream}

theorem openingBrace_pending {span : Span} (hnests : Nests stack stream)
    (h : openingBrace stream = .ok (span, after)) :
    ∃ brace, brace.token = .opening .curly ∧ span = brace.span ∧
      stream.pending = brace :: after.pending ∧ after.finish = stream.finish := by
  rw [openingBrace, peek_bind_eq_ok] at h
  generalize htoken : stream.head.token = token at h
  split at h
  · simp only [bind_eq_ok, pure_eq_ok] at h
    obtain ⟨placed, _, hnext, rfl, rfl⟩ := h
    unfold TokenStream.head at htoken
    unfold next at hnext
    split at hnext
    · next hpending =>
      rw [hpending, List.headD_nil, hnests.finish] at htoken
      cases htoken
    · next hpending =>
      cases hnext
      rw [hpending] at htoken
      exact ⟨placed, htoken, rfl, hpending, rfl⟩
  · exact absurd h expected_ne_ok

theorem header_falls {kind : Declaration.Kind} {start : Span} {attrs : List Attribute}
    {header : Header} {word : String} (htoken : stream.head.token = .name word)
    (hnests : Nests stack stream)
    (h : Reader.header source kind start attrs stream = .ok (header, after)) :
    (Item.opened header).Falls stack stream after := by
  rw [header_eq, bind_eq_ok] at h
  obtain ⟨parts, between, hfront, h⟩ := h
  obtain ⟨low, hsinks⟩ := (headerFront_falls htoken attrs).takes rfl hnests hfront
  simp only [bind_eq_ok, pure_eq_ok] at h
  obtain ⟨span, _, hbrace, rfl, rfl⟩ := h
  obtain ⟨brace, hopening, rfl, hpending, hfinish⟩ :=
    openingBrace_pending (hnests.sunk hsinks) hbrace
  have htakes : TakesSuch (· = [brace]) between after :=
    ⟨[brace], rfl, by rw [hpending]; exact .refl _, hfinish⟩
  refine ⟨low, brace, hsinks.trans htakes ?_, hopening, rfl⟩
  rintro front _ hfront rfl
  exact ⟨front, rfl, hfront⟩

theorem item_falls {found : Item} (hnests : Nests stack stream)
    (h : Reader.item source stream = .ok (found, after)) : found.Falls stack stream after := by
  rw [Reader.item, peek_bind_eq_ok, bind_eq_ok] at h
  obtain ⟨attrs, afterAttrs, hattrs, h⟩ := h
  rw [bind_eq_ok] at h
  obtain ⟨isStatic, here, hmodifiers, h⟩ := h
  have hattrsTakes := (attributes_balanced _).takes trivial hnests hattrs
  have hafterAttrs := hnests.balanced hattrsTakes
  have hmodifiersTakes := modifiers_balanced.takes trivial hafterAttrs hmodifiers
  have hhere := hafterAttrs.balanced hmodifiersTakes
  refine Item.Falls.behind (Item.Falls.behind ?_ hmodifiersTakes) hattrsTakes
  rw [get_bind_eq_ok] at h
  have hother : (other stream.head.span >>= fun span => Pure.pure (Item.entry (.other span)))
      here = .ok (found, after) → found.Falls stack here after := by
    intro h
    simp only [bind_eq_ok, pure_eq_ok] at h
    obtain ⟨span, _, hspan, rfl, rfl⟩ := h
    exact (other_falls _).takes trivial hhere hspan
  generalize htoken : here.head.token = token at h
  split at h
  · simp only [bind_eq_ok, pure_eq_ok] at h
    obtain ⟨mark, _, hmark, rfl, rfl⟩ := h
    have hnext : Turns (fun stream => stream.head = here.head) [] [] next :=
      .next_head (by rw [htoken]; rfl)
    exact hnext.falls.takes rfl hhere hmark
  · next word =>
    split at h
    · simp only [bind_eq_ok, pure_eq_ok] at h
      obtain ⟨item, _, hproperty, rfl, rfl⟩ := h
      exact (property_falls htoken _ attrs isStatic).takes rfl hhere hproperty
    · generalize Declaration.Kind.ofKeyword? word = kind? at h
      generalize here.second.token.isName = named at h
      split at h
      · simp only [bind_eq_ok, pure_eq_ok] at h
        obtain ⟨header, _, hheader, rfl, rfl⟩ := h
        exact header_falls htoken hhere hheader
      · exact hother h
  · exact hother h

/-- **Along items that are read, bodies are matched**, unless a brace around them is lost. -/
theorem items_match {limit : Nat} {items : List BodyItem} (hready : Ready source stream)
    (hnests : Nests stack stream)
    (h : Reader.items source limit stream = .ok (items, after)) :
    ∃ above, TakesSuch (BodiesMatch stack above items) stream after := by
  induction limit generalizing stack stream items after with
  | zero => exact absurd h tooLong_ne_ok
  | succ limit ih =>
    rw [Reader.items, peek_bind_eq_ok] at h
    generalize htoken : stream.head.token = token at h
    have hnone : (Pure.pure [] : Reader (List BodyItem)) stream = .ok (items, after) →
        ∃ above, TakesSuch (BodiesMatch stack above items) stream after := by
      intro h
      obtain ⟨rfl, rfl⟩ := pure_eq_ok.1 h
      exact ⟨stack, .refl (.nil stack) after⟩
    split at h
    · exact hnone h
    · exact hnone h
    · rw [bind_eq_ok] at h
      obtain ⟨found, between, hitem, h⟩ := h
      obtain ⟨attrs, segments, tail, noted, htaken⟩ := item_takes hready hitem
      have hbetween := (hready.taken htaken.takes).2
      have hfalls := item_falls hnests hitem
      cases found with
      | separator =>
        obtain ⟨low, hfront⟩ := hfalls
        obtain ⟨above, hrest⟩ := ih hbetween (hnests.sunk hfront) h
        exact ⟨above, hfront.trans hrest fun hfront hrest => hrest.behind hfront⟩
      | entry entry =>
        obtain ⟨low, hfront⟩ := hfalls
        simp only [bind_eq_ok, pure_eq_ok] at h
        obtain ⟨more, _, hmore, rfl, rfl⟩ := h
        obtain ⟨above, hrest⟩ := ih hbetween (hnests.sunk hfront) hmore
        refine ⟨above, hfront.trans hrest fun hfront hrest => ?_⟩
        have hall := hrest.behind hfront
        exact ⟨hall.sinks, by rw [htaken.nestedIn_entry]; exact hall.matched⟩
      | opened header =>
        obtain ⟨low, brace, hfront, hopening, hbrace⟩ := hfalls
        simp only [bind_eq_ok, pure_eq_ok] at h
        obtain ⟨inner, closing, hinner, close, outside, hclose, more, _, hmore, rfl, rfl⟩ := h
        obtain ⟨_, _, hread⟩ := items_read hbetween hinner
        have hclosing := hread.ready_after
        obtain ⟨hcurly, rfl, hcloses⟩ := closingBrace_takes hclosing hclose
        have hinside : Nests (.curly :: low) between := by
          refine hnests.taken (hfront.mono ?_)
          rintro _ ⟨front, rfl, hsinks⟩
          refine nest_append_eq_some.2 ⟨low, hsinks.stays.nest_eq, ?_⟩
          rw [nest_singleton, hopening]
          rfl
        obtain ⟨level, hbody⟩ := ih hbetween hinside hinner
        have hlevel := hinside.sunk (hbody.mono BodiesMatch.sinks)
        -- the tokens nest, so the brace that comes next closes one
        obtain ⟨low', rfl⟩ : ∃ low', level = .curly :: low' := by
          have hnest := hlevel.nest
          rw [hcloses.pending.nest_eq] at hnest
          obtain ⟨low', hlow', -⟩ := nest_cons_eq_some.1 hnest
          rw [hcurly] at hlow'
          exact ⟨low', Token.openAfter_closing.1 hlow'⟩
        have hclosed : TakesSuch (· = [closing.head]) closing outside := .of_takes hcloses rfl
        have houtside : Nests low' outside := by
          refine hlevel.taken (hclosed.mono ?_)
          rintro _ rfl
          rw [nest_singleton, hcurly]
          exact Token.openAfter_closing.2 rfl
        obtain ⟨above, hrest⟩ := ih (hclosing.taken hcloses).2 houtside hmore
        have hbehind : TakesSuch (fun taken => ∃ back, taken = closing.head :: back ∧
            BodiesMatch low' above more back) closing after := by
          refine hclosed.trans hrest ?_
          rintro _ back rfl hback
          exact ⟨back, rfl, hback⟩
        have hwhole : TakesSuch (fun taken => ∃ inside back,
            taken = inside ++ closing.head :: back ∧
            BodiesMatch (.curly :: low) (.curly :: low') inner inside ∧
            BodiesMatch low' above more back) between after := by
          refine hbody.trans hbehind ?_
          rintro inside _ hinside ⟨back, rfl, hback⟩
          exact ⟨inside, back, rfl, hinside, hback⟩
        refine ⟨above, hfront.trans hwhole ?_⟩
        rintro _ _ ⟨front, rfl, hsinks⟩ ⟨inside, back, rfl, hinside, hback⟩
        rw [List.append_assoc]
        exact .nested hsinks hopening hbrace hinside hcurly hback

end Reader

/-! ### Whole sources -/

/-- **Every body ends at the brace that closes it**, if the brackets of the source nest and
    no operator but the arrow has an angle bracket in it. -/
theorem Outline.matched_of_ofSource {source : List Char} {outline : Outline} {tokens : Tokens}
    (h : Outline.ofSource source = .ok outline) (htokens : tokenize source = .ok tokens)
    (hnest : nest [] tokens.body = some [])
    (hplain : ∀ placed ∈ tokens.body, placed.token.isPlain = true) :
    ∀ declaration ∈ outline.allDeclarations, declaration.Matched tokens.body := by
  obtain ⟨tokens', items, after, htokens', hitems, hpending, hdeclarations, -⟩ :=
    Outline.ofSource_eq_ok h
  rw [htokens] at htokens'
  obtain rfl := Except.ok.inj htokens'
  have hnests : Nests [] (.start tokens) :=
    ⟨hnest, hplain, (tokenize_scanned htokens).finish_eq.1⟩
  obtain ⟨above, hmatch⟩ := Reader.items_match (.start htokens) hnests hitems
  -- at the end nothing is open
  have hend := (hnests.sunk (hmatch.mono BodiesMatch.sinks)).nest
  rw [hpending, nest_nil, Option.some.injEq] at hend
  subst hend
  obtain ⟨taken, hbodies, hrefines, -⟩ := hmatch
  rw [hpending, List.append_nil] at hrefines
  intro declaration hmem
  rw [Outline.allDeclarations, hdeclarations, ← Declaration.nestedIn_eq] at hmem
  exact (hbodies.matched rfl declaration hmem).of_refines hrefines

/-- A clause of requirements that leaves a parenthesis open, a block of observers with a brace
    in a string, and a declaration inside. -/
def openRequirements : String :=
  "struct S where (T \x7b var a = [1] \x7b didSet \x7b f(\"\x7d\") \x7d \x7d; " ++
    "enum E \x7b\x7d \x7d )"

theorem Outline.matched_open_requirements :
    ∃ outline tokens, Outline.ofSource openRequirements.toList = .ok outline ∧
      tokenize openRequirements.toList = .ok tokens ∧ outline.allDeclarations.length = 2 ∧
      ∀ declaration ∈ outline.allDeclarations, declaration.Matched tokens.body := by
  have hread : (Outline.ofSource openRequirements.toList).toOption.map
      (·.allDeclarations.length) = some 2 := by decide +kernel
  have hscan : (tokenize openRequirements.toList).toOption.any (fun tokens =>
      nest [] tokens.body == some [] && tokens.body.all (·.token.isPlain)) = true := by
    decide +kernel
  cases h : Outline.ofSource openRequirements.toList with
  | error cause =>
    rw [h] at hread
    cases hread
  | ok outline =>
    cases htokens : tokenize openRequirements.toList with
    | error cause =>
      rw [htokens] at hscan
      cases hscan
    | ok tokens =>
      rw [h] at hread
      rw [htokens] at hscan
      simp only [Except.toOption, Option.any_some, Bool.and_eq_true, beq_iff_eq,
        List.all_eq_true] at hscan
      exact ⟨outline, tokens, rfl, rfl, Option.some.inj hread,
        Outline.matched_of_ofSource h htokens hscan.1 hscan.2⟩

end Memberwise
