/-
  Memberwise/Proofs/Checked/Reading.lean
  ======================================
  **Reading a row of tokens, with every partial operation checked.**

  Every reader of rows agrees with that of the library, wherever it stands.  The limits that
  the library sets are never reached, since each turn of a loop passes a token.
-/
import Memberwise.Proofs.Checked.Agreement
import Memberwise.Proofs.Checked.Readers
import Memberwise.Proofs.Declarations

/-! ### What is read behind one of several -/

namespace Memberwise.Reader

def elementEnd (more : Reader (Option (List Expr))) (element : Expr) :
    Reader (Option (List Expr)) := do
  match (← peek).token with
  | .comma =>
    let _ ← next
    return (← more).map (element :: ·)
  | .closing .square => return (← more).map (element :: ·)
  | .colon => dictionary
  | _ => expected .elementEnd

def argumentEnd (more : Reader (List Argument)) (argument : Argument) :
    Reader (List Argument) := do
  match (← peek).token with
  | .comma =>
    let _ ← next
    return argument :: (← more)
  | .closing .round => return argument :: (← more)
  | _ => expected .argumentEnd

def itemEnd (more : Reader (List BodyItem)) : Item → Reader (List BodyItem)
  | .separator => more
  | .entry entry => return entry :: (← more)
  | .opened header => do
    let inner ← more
    let close ← closingBrace header.name
    return .nested (header.closed inner close) :: (← more)

end Memberwise.Reader

namespace Memberwise.Checked

/-! ### Agreement -/

section Agreement

variable {source : List Char} {s : Standing source}

theorem Standing.peek_row (s : Standing source) : peek s.row = some (.ok (s.stream.head, s.row)) :=
  peek_rowOf

theorem Standing.ahead_row (s : Standing source) :
    ahead 1 s.row = some (.ok (s.stream.second, s.row)) :=
  ahead_one_rowOf

theorem Standing.index_row (s : Standing source) :
    index s.row = some (.ok (s.passed.length, s.row)) :=
  index_rowOf

/-- A span of a source is sliced off it. -/
theorem given_slice {span : Span} (h : span.Lies source) (row : Row) :
    given (slice source span.start span.stop) row =
      some (.ok (Text.slice source span.start span.stop, row)) := by
  obtain ⟨hstart, hstop⟩ := h.boundary
  rw [slice, if_pos ⟨h.covers_slice.start_le_stop, hstart, hstop⟩, given_some]

theorem typed_agrees {α : Type} (span : Span) (result : Except ArgumentError α) :
    Agrees s (typed span result) (Reader.typed span result) := by
  cases result with
  | ok value => exact .gives (.refl s) rfl rfl
  | error cause => exact .fails rfl rfl

theorem note_agrees (spans : List Span) : Agrees s (note spans) (Reader.note spans) := by
  have htakes : Takes s.stream [] spans
      { s.stream with requests := s.stream.requests ++ spans } := ⟨.refl _, rfl, rfl, rfl⟩
  have hplain : Reader.note spans s.stream = .ok ((), (s.past htakes).stream) := rfl
  refine .gives ⟨[], spans, rfl, htakes⟩ hplain ?_
  simp [note, Standing.row, Standing.past, rowOf]

theorem name_agrees : Agrees s name Reader.name := by
  refine .peek ?_
  cases s.stream.head.token with
  | name text => exact .bind .next fun _ _ => .pure _
  | _ => exact .expected _

/-- A run that parts no token only splits the tokens. -/
theorem refines_of_append {tokens : List Placed} {parts : List Placed × List Placed}
    (h : parts.1 ++ parts.2 = tokens) : Refines tokens (parts.1 ++ parts.2) := by
  rw [h]
  exact .refl _

/-! #### Types and expressions -/

/-- What was read since a place has a text, which is sliced off the source. -/
theorem text_agrees {α : Type} {s' : Standing source} (h : s.Reaches s')
    (make : List Char → Nat → α) {stop : Nat}
    (hstop : stop = max s'.stream.readTo s.stream.head.span.start) :
    Agrees s' (do
      let stop ← consumedEnd s.passed.length s.stream.head.span.start
      let text ← given (slice source s.stream.head.span.start stop)
      return make text stop)
      (pure (make (Text.slice source s.stream.head.span.start stop) stop)) := by
  obtain ⟨hend, hlies⟩ := h.stop_eq
  rw [← hstop] at hend hlies
  refine .of_look (consumedEnd_rowOf h.passed_le) ?_
  rw [hend]
  exact .of_look (given_slice hlies _) (.pure _)

/-- The last of the tokens that a run takes ends where reading stops. -/
theorem last_taken {s' : Standing source} (h : s.Reaches s') {taken : List Placed}
    {final : Placed} (hpassed : s'.passed = s.passed ++ taken)
    (hlast : taken.getLast? = some final) :
    s'.left < s.left ∧ final.span.stop = s'.stream.readTo := by
  have hlt : s'.left < s.left := by
    rw [← h.passed_lt_iff, hpassed, List.length_append]
    have := List.length_pos_of_mem (List.mem_of_getLast? hlast)
    omega
  obtain ⟨hend, -⟩ := h.readTo_eq hlt 0
  rw [hpassed, List.drop_left, endOf_eq_of_getLast? hlast] at hend
  exact ⟨hlt, hend⟩

theorem type_agrees : Agrees s (type source) (Reader.type source) := by
  have hloop : typeRest s.passed.length (readingLimit source) 0 s.row =
      some (.ok ((), rowPast s.passed (typeRun true 0 s.stream.pending) s.stream.finish
        s.stream.requests)) :=
    typeRest_eq s.ends (fun _ hmem => s.ready.laid.sits hmem) (Nat.le_refl _)
      (beq_self_eq_true _) s.brackets_lt (Nat.lt_succ_of_le s.left_le)
  have hrun := typeRun_refines true 0 s.stream.pending
  refine .peek (.of_look s.index_row (.take hrun hloop fun {s'} hreaches hpassed _ => ?_))
  refine .of_look s'.index_row ?_
  generalize (typeRun true 0 s.stream.pending).1 = taken at hpassed
  cases hlast : taken.getLast? with
  | none =>
    rw [List.getLast?_eq_none_iff.1 hlast, List.append_nil] at hpassed
    rw [if_pos (congrArg List.length hpassed)]
    exact .expected _
  | some final =>
    obtain ⟨hlt, hstop⟩ := last_taken hreaches hpassed hlast
    obtain ⟨-, hbehind⟩ := hreaches.readTo_eq hlt 0
    have hmore := hreaches.passed_lt_iff.2 hlt
    rw [if_neg (by omega)]
    exact text_agrees hreaches (fun text stop =>
      (⟨String.ofList text, s.stream.head.span.upTo stop⟩ : WrittenType)) (by omega)

theorem exprShape_agrees {stopAtColon : Bool} {start : Nat} {literal? : Option Expr.Shape}
    (hstart : start ≤ s.passed.length) (hfirst : (s.passed.length == start) = literal?.isNone) :
    Agrees s (exprShape source stopAtColon start literal?)
      (Reader.exprShape stopAtColon literal?) := by
  have hrest : Agrees s
      (exprRest stopAtColon start (readingLimit source) 0 >>= fun _ => pure Expr.Shape.other)
      (Reader.take (exprRun stopAtColon literal?.isNone 0) >>= fun _ => pure .other) :=
    .take (refines_of_append (exprRun_append _ _ _ _))
      (exprRest_eq s.ends s.length_lt hstart hfirst) fun _ _ _ => .pure _
  cases literal? with
  | none => exact hrest
  | some shape =>
    have hends : endsExpr stopAtColon false s.stream.head (some s.stream.second) =
        endsExpr stopAtColon false s.stream.head s.stream.pending.tail.head? :=
      Ends.endsExpr_following s.ends.tail? _ _ _
    have hplain : Reader.exprShape stopAtColon (some shape) =
        get >>= fun stream =>
          if endsExpr stopAtColon false stream.head stream.pending.tail.head? then pure shape
          else Reader.take (exprRun stopAtColon false 0) >>= fun _ => pure .other := rfl
    rw [hplain]
    refine .of_look s.peek_row (.of_look s.ahead_row (.of_get ?_))
    rw [hends]
    split
    · exact .pure _
    · exact hrest

def ElementsAgree (source : List Char) (limit : Nat) : Prop :=
  ∀ {s : Standing source}, s.left < limit →
    Agrees s (elements source limit) (Reader.elements source limit)

theorem literal?_agrees {limit : Nat} (helements : ElementsAgree source limit)
    (hleft : s.left ≤ limit) :
    Agrees s (literal? (elements source limit))
      (Reader.literal? (Reader.elements source limit)) := by
  have hsingle : ∀ shape : Expr.Shape,
      Agrees s (next >>= fun _ => pure (some shape)) (Reader.next >>= fun _ => pure (some shape)) :=
    fun shape => .bind .next fun _ _ => .pure _
  rw [literal?, Reader.literal?]
  refine .of_look s.peek_row (.of_get ?_)
  cases htoken : s.stream.head.token with
  | name word =>
    by_cases htrue : word = "true"
    · subst htrue
      exact hsingle _
    by_cases hfalse : word = "false"
    · subst hfalse
      exact hsingle _
    by_cases hnil : word = "nil"
    · subst hnil
      exact hsingle _
    · have hshape : shape? (.name word) = none := by simp [shape?, htrue, hfalse, hnil]
      simp only [hshape]
      split
      case h_9 => exact .pure _
      all_goals simp_all
  | integer text => exact hsingle _
  | float text => exact hsingle _
  | string text => exact hsingle _
  | opening bracket =>
    cases bracket with
    | square =>
      refine .bind .next fun {_ s'} hreaches hnext => ?_
      have hlt := s.left_lt_of_next (by rw [htoken]; simp) hnext
      refine .bind (helements (by omega)) fun {result _} _ _ => ?_
      cases result with
      | some items => exact .pure _
      | none => exact .pure _
    | round => exact .pure _
    | curly => exact .pure _
  | dot =>
    refine .of_look s.ahead_row ?_
    cases Reader.implicitName? s.stream.head s.stream.second with
    | some name => exact .bind .next fun _ _ => .bind .next fun _ _ => .pure _
    | none => exact .pure _
  | _ => exact .pure _

theorem exprWith_agrees {limit : Nat} (helements : ElementsAgree source limit)
    (hleft : s.left ≤ limit) {stopAtColon : Bool} :
    Agrees s (exprWith source (elements source limit) stopAtColon)
      (Reader.exprWith source (Reader.elements source limit) stopAtColon) := by
  rw [exprWith, Reader.exprWith]
  refine .peek (.of_look s.index_row ?_)
  refine .bind (literal?_agrees helements hleft) fun {shape? s'} hreaches hliteral => ?_
  -- a token is passed just if there is a literal
  have hfirst : (s'.passed.length == s.passed.length) = shape?.isNone := by
    obtain ⟨taken, htakes, hnone, hsome⟩ :=
      Reader.literal?_takes (Reader.elements_reads limit) s.ready hliteral
    have hle := hreaches.passed_le
    have hiff := hreaches.passed_lt_iff
    cases shape? with
    | none =>
      have hsame : s'.left = s.left := by rw [Standing.left, hnone rfl, ← Standing.left]
      simp only [Option.isNone_none, beq_iff_eq]
      omega
    | some shape =>
      have hlt : s'.left < s.left := weight_lt_of_takes s.ready htakes (hsome shape rfl).1
      simp only [Option.isNone_some, beq_eq_false_iff_ne]
      omega
  refine .bind (exprShape_agrees hreaches.passed_le hfirst) fun {shape s''} hreaches' _ => ?_
  exact .of_get (text_agrees (hreaches.trans hreaches') (fun text stop =>
    (⟨shape, String.ofList text, s.stream.head.span.upTo stop⟩ : Expr)) rfl)

theorem dictionary_agrees : Agrees s (dictionary source) Reader.dictionary :=
  .take (refines_of_append (collectionRun_append _ _)) (collectionRest_eq s.ends s.length_lt)
    fun _ _ _ => .pure _

/-- Behind an element fewer characters are left, once a comma or a closing bracket has come. -/
theorem elementEnd_agrees {s₀ : Standing source} {limit : Nat}
    (helements : ElementsAgree source limit)
    (hleft : s₀.left ≤ limit) (hhead : s₀.stream.head.token ≠ .closing .square)
    (hreaches : s₀.Reaches s) (element : Expr) :
    Agrees s (elementEnd source (elements source limit) element)
      (Reader.elementEnd (Reader.elements source limit) element) := by
  have hle := hreaches.left_le
  have hmore : ∀ {s' : Standing source}, s'.left < limit →
      Agrees s' (elements source limit >>= fun items => pure (items.map (element :: ·)))
        (Reader.elements source limit >>= fun items => pure (items.map (element :: ·))) :=
    fun h => .bind (helements h) fun _ _ => .pure _
  refine .peek ?_
  cases htoken : s.stream.head.token with
  | comma =>
    refine .bind .next fun {_ s'} _ hnext => hmore ?_
    have hlt := s.left_lt_of_next (by rw [htoken]; simp) hnext
    omega
  | closing bracket =>
    cases bracket with
    | square =>
      refine hmore ?_
      have hlt := hreaches.left_lt_of_head (by rw [htoken]; rfl) (by rw [htoken]; exact hhead)
      omega
    | round => exact .expected _
    | curly => exact .expected _
  | colon => exact dictionary_agrees
  | _ => exact .expected _

theorem elements_agree (limit : Nat) : ElementsAgree source limit := by
  induction limit with
  | zero => exact fun h => absurd h (Nat.not_lt_zero _)
  | succ limit ih =>
    intro s hleft
    have helement : s.stream.head.token ≠ .closing .square → Agrees s
        (exprWith source (elements source limit) true >>=
          elementEnd source (elements source limit))
        (Reader.exprWith source (Reader.elements source limit) true >>=
          Reader.elementEnd (Reader.elements source limit)) := by
      intro hhead
      have hle : s.left ≤ limit := Nat.le_of_lt_succ hleft
      exact .bind (exprWith_agrees ih hle) fun {element _} hreaches _ =>
        elementEnd_agrees ih hle hhead hreaches element
    rw [elements, Reader.elements]
    refine .peek ?_
    cases htoken : s.stream.head.token with
    | closing bracket =>
      cases bracket with
      | square => exact .bind .next fun _ _ => .pure _
      | round => exact helement (by rw [htoken]; simp)
      | curly => exact helement (by rw [htoken]; simp)
    | colon => exact dictionary_agrees
    | endOfInput => exact .expected _
    | _ => exact helement (by rw [htoken]; simp)

theorem expr_agrees {stopAtColon : Bool} :
    Agrees s (expr source stopAtColon) (Reader.expr source stopAtColon) :=
  exprWith_agrees (elements_agree _) (Nat.le_succ_of_le s.left_le)

/-! #### Attributes and modifiers -/

theorem label?_agrees : Agrees s label? Reader.label? := by
  rw [label?, Reader.label?]
  refine .of_look s.peek_row (.of_look s.ahead_row (.of_get ?_))
  cases s.stream.head.token with
  | name label =>
    cases s.stream.second.token with
    | colon => exact .bind .next fun _ _ => .bind .next fun _ _ => .pure _
    | _ => exact .pure _
  | _ => exact .pure _

/-- Behind an argument fewer characters are left, once a comma or a closing parenthesis has
    come. -/
theorem argumentEnd_agrees {s₀ : Standing source} {limit : Nat}
    (harguments : ∀ {s' : Standing source}, s'.left < limit →
      Agrees s' (arguments source limit) (Reader.arguments source limit))
    (hleft : s₀.left ≤ limit) (hhead : s₀.stream.head.token ≠ .closing .round)
    (hreaches : s₀.Reaches s) (argument : Argument) :
    Agrees s (argumentEnd (arguments source limit) argument)
      (Reader.argumentEnd (Reader.arguments source limit) argument) := by
  have hle := hreaches.left_le
  have hmore : ∀ {s' : Standing source}, s'.left < limit →
      Agrees s' (arguments source limit >>= fun rest => pure (argument :: rest))
        (Reader.arguments source limit >>= fun rest => pure (argument :: rest)) :=
    fun h => .bind (harguments h) fun _ _ => .pure _
  refine .peek ?_
  cases htoken : s.stream.head.token with
  | comma =>
    refine .bind .next fun {_ s'} _ hnext => hmore ?_
    have hlt := s.left_lt_of_next (by rw [htoken]; simp) hnext
    omega
  | closing bracket =>
    cases bracket with
    | round =>
      refine hmore ?_
      have hlt := hreaches.left_lt_of_head (by rw [htoken]; rfl) (by rw [htoken]; exact hhead)
      omega
    | square => exact .expected _
    | curly => exact .expected _
  | _ => exact .expected _

theorem arguments_agree {limit : Nat} (hleft : s.left < limit) :
    Agrees s (arguments source limit) (Reader.arguments source limit) := by
  induction limit generalizing s with
  | zero => exact absurd hleft (Nat.not_lt_zero _)
  | succ limit ih =>
    have hargument : s.stream.head.token ≠ .closing .round → Agrees s
        (label? >>= fun label? => expr source false >>= fun value =>
          argumentEnd (arguments source limit) ⟨label?, value⟩)
        (Reader.label? >>= fun label? => Reader.expr source false >>= fun value =>
          Reader.argumentEnd (Reader.arguments source limit) ⟨label?, value⟩) := by
      intro hhead
      refine .bind label?_agrees fun hreaches _ => .bind expr_agrees fun hreaches' _ => ?_
      exact argumentEnd_agrees ih (Nat.le_of_lt_succ hleft) hhead (hreaches.trans hreaches') _
    rw [arguments, Reader.arguments]
    refine .peek ?_
    cases htoken : s.stream.head.token with
    | closing bracket =>
      cases bracket with
      | round => exact .pure _
      | square => exact hargument (by rw [htoken]; simp)
      | curly => exact hargument (by rw [htoken]; simp)
    | _ => exact hargument (by rw [htoken]; simp)

theorem attr_agrees : Agrees s (attr source) (Reader.attr source) := by
  refine .bind .next fun _ _ => .bind name_agrees fun {pattern s'} _ _ => .peek ?_
  cases opensArguments pattern.span s'.stream.head with
  | false => exact .pure _
  | true =>
    refine .bind .next fun {_ s''} _ _ => ?_
    exact .bind (arguments_agree (Nat.lt_succ_of_le s''.left_le)) fun _ _ =>
      .bind .next fun _ _ => .pure _

theorem attributes_agree {limit : Nat} (hleft : s.left < limit) :
    Agrees s (attributes source limit) (Reader.attributes source limit) := by
  induction limit generalizing s with
  | zero => exact absurd hleft (Nat.not_lt_zero _)
  | succ limit ih =>
    rw [attributes, Reader.attributes]
    refine .peek ?_
    cases htoken : s.stream.head.token with
    | atSign =>
      refine .bind attr_agrees fun {_ s'} _ hattr => .bind (ih ?_) fun _ _ => .pure _
      obtain ⟨taken, htakes, hwritten⟩ := Reader.attr_takes s.ready htoken hattr
      have hne : taken ≠ [] := by
        obtain ⟨sign, name, rest, -, rfl, -⟩ := hwritten
        exact List.cons_ne_nil _ _
      have hlt : s'.left < s.left := weight_lt_of_takes s.ready htakes hne
      omega
    | _ => exact .pure _

theorem modifiers_agree : Agrees s (modifiers (readingLimit source) false) Reader.modifiers := by
  have hrun := refines_of_append (modifierRun_append 0 s.stream.pending)
  have hplain : Reader.modifiers s.stream =
      .ok ((modifierRun 0 s.stream.pending).1, (s.pass _ hrun).stream) := rfl
  have hloop : modifiersFrom (readingLimit source) (readingLimit source) false 0 s.row = _ :=
    modifiersFrom_eq s.ends s.length_lt s.length_lt
  rw [Bool.false_or] at hloop
  exact .gives (s.reaches_pass hrun) hplain hloop

/-! #### Members -/

theorem accessorBlock_agrees : Agrees s (accessorBlock source) Reader.accessorBlock := by
  refine .bind .next fun {brace s'} _ _ => .of_look s'.peek_row (.of_get ?_)
  have hloop : accessorRest brace.span.position (readingLimit source) 1 0 s'.row = _ :=
    accessorRest_eq s'.ends s'.length_lt
  cases hrun : blockRun? 0 s'.stream.pending with
  | none =>
    rw [hrun] at hloop
    refine .fails rfl ?_
    rw [bind_apply, hloop]
    rfl
  | some parts =>
    obtain ⟨hpending, -⟩ := blockRun?_eq_some hrun
    have hparts := refines_of_append hpending.symm
    rw [hrun] at hloop
    have hplain : (Reader.take (fun _ => parts) >>= fun block =>
        (pure (.ofBlock s'.stream.head.token block) : Reader Accessors)) s'.stream =
          .ok (.ofBlock s'.stream.head.token parts.1, (s'.pass parts hparts).stream) := rfl
    refine .gives (s'.reaches_pass hparts) hplain ?_
    rw [bind_apply, hloop]
    rfl

theorem type?_agrees : Agrees s (type? source) (Reader.type? source) := by
  refine .peek ?_
  cases s.stream.head.token with
  | colon => exact .bind .next fun _ _ => .bind type_agrees fun _ _ => .pure _
  | _ => exact .pure _

theorem initializer?_agrees : Agrees s (initializer? source) (Reader.initializer? source) := by
  refine .peek ?_
  cases s.stream.head.token with
  | equals => exact .bind .next fun _ _ => .bind expr_agrees fun _ _ => .pure _
  | _ => exact .pure _

theorem accessors_agree : Agrees s (accessors source) Reader.accessors := by
  refine .peek ?_
  cases s.stream.head.token with
  | opening bracket =>
    cases bracket with
    | curly => exact accessorBlock_agrees
    | round => exact .pure _
    | square => exact .pure _
  | _ => exact .pure _

theorem binding_agrees : Agrees s (binding source) (Reader.binding source) :=
  .bind name_agrees fun _ _ => .bind type?_agrees fun _ _ =>
    .bind initializer?_agrees fun _ _ => .bind accessors_agree fun _ _ => .pure _

theorem bindings_agree {limit : Nat} (hleft : s.left < limit) :
    Agrees s (bindings source limit) (Reader.bindings source limit) := by
  induction limit generalizing s with
  | zero => exact absurd hleft (Nat.not_lt_zero _)
  | succ limit ih =>
    rw [bindings, Reader.bindings]
    refine .bind binding_agrees fun {first s'} hreaches _ => .peek ?_
    cases htoken : s'.stream.head.token with
    | comma =>
      refine .bind .next fun {_ s''} _ hnext => .bind (ih ?_) fun _ _ => .pure _
      have hle := hreaches.left_le
      have hlt := s'.left_lt_of_next (by rw [htoken]; simp) hnext
      omega
    | _ => exact .pure _

theorem markers_agree (attrs : List Attribute) :
    Agrees s (markers attrs) (Reader.markers attrs) := by
  induction attrs generalizing s with
  | nil => exact .pure _
  | cons first rest ih =>
    exact .bind (typed_agrees _ _) fun _ _ => .bind (note_agrees _) fun _ _ =>
      .bind ih fun _ _ => .pure _

/-- What began at the next token or earlier, and of which some was taken, ends where reading
    stopped. -/
theorem end_agrees {s' : Standing source} {start : Span} (h : s.Reaches s')
    (hlt : s'.left < s.left) (hstart : start.start ≤ s.stream.head.span.start) :
    Agrees s' (do
      return start.upTo (max (← consumedEnd s.passed.length start.start) start.start))
      (pure (start.upTo s'.stream.readTo)) := by
  obtain ⟨hend, hbehind⟩ := h.readTo_eq hlt start.start
  have hmax : max s'.stream.readTo start.start = s'.stream.readTo := by omega
  refine .of_look (consumedEnd_rowOf h.passed_le) ?_
  rw [hend, hmax]
  exact .pure _

/-- An item of no interest began where the next token stands, or earlier. -/
theorem other_agrees {start : Span} (hstart : start.start ≤ s.stream.head.span.start) :
    Agrees s (other source start) (Reader.other start) := by
  have hrun := refines_of_append (otherRun_append true 0 s.stream.pending)
  rw [other, Reader.other]
  refine .of_look s.index_row (.take hrun (otherRest_eq s.ends s.length_lt (Nat.le_refl _)
    (beq_self_eq_true _)) fun {s'} hreaches hpassed _ => ?_)
  refine .of_look s'.index_row (.peek ?_)
  generalize (otherRun true 0 s.stream.pending).1 = taken at hpassed
  cases hlast : taken.getLast? with
  | some final =>
    obtain ⟨hlt, hstop⟩ := last_taken hreaches hpassed hlast
    have hmore := hreaches.passed_lt_iff.2 hlt
    rw [if_neg (by omega)]
    simp only [hstop]
    exact end_agrees hreaches hlt hstart
  | none =>
    rw [List.getLast?_eq_none_iff.1 hlast, List.append_nil] at hpassed
    by_cases hsemicolon : s'.stream.head.token = .semicolon
    · rw [if_pos ⟨congrArg List.length hpassed, hsemicolon⟩]
      simp only [hsemicolon]
      refine .bind .next fun {placed s''} hreaches' hnext => ?_
      have hhead : s'.stream.head.token ≠ .endOfInput := by rw [hsemicolon]; simp
      obtain ⟨-, -, htakes⟩ := Reader.next_takes s'.ready hhead hnext
      have hstop : placed.span.stop = s''.stream.readTo := htakes.readTo.symm
      have hle := hreaches.left_le
      have hlt := s'.left_lt_of_next hhead hnext
      rw [hstop]
      exact end_agrees (hreaches.trans hreaches') (by omega) hstart
    · rw [if_neg fun h => hsemicolon h.2]
      have hnone : endOf start.start (s'.passed.drop s.passed.length) = start.start := by
        rw [hpassed, List.drop_length, endOf_nil]
      refine .of_look (consumedEnd_rowOf hreaches.passed_le) ?_
      rw [hnone, Nat.max_self]
      cases htoken : s'.stream.head.token with
      | semicolon => exact absurd htoken hsemicolon
      | _ => exact .pure _

theorem property_agrees {start : Span} {attrs : List Attribute} {isStatic : Bool}
    (hstart : start.start ≤ s.stream.head.span.start)
    (hhead : s.stream.head.token ≠ .endOfInput) :
    Agrees s (property source start attrs isStatic)
      (Reader.property source start attrs isStatic) := by
  refine .bind .next fun {keyword s'} hreaches hnext => .peek ?_
  have hlt := s.left_lt_of_next hhead hnext
  have hother : Agrees s' (other source start >>= fun span => pure (.other span))
      (Reader.other start >>= fun span => pure (BodyItem.other span)) := by
    refine .bind (other_agrees ?_) fun _ _ => .pure _
    obtain ⟨_, _, -, htakes⟩ := hreaches
    exact Nat.le_trans hstart (s.ready.head_start_le htakes)
  cases s'.stream.head.token with
  | name word =>
    refine .bind (markers_agree attrs) fun {_ s₁} hreaches₁ _ => ?_
    refine .bind (bindings_agree (Nat.lt_succ_of_le s₁.left_le)) fun {_ s₂} hreaches₂ _ => ?_
    -- at least the keyword has been passed
    have hpassed : s₂.passed ≠ [] := by
      have hlater := (hreaches₁.trans hreaches₂).passed_le
      have hmore := hreaches.passed_lt_iff.2 hlt
      exact List.ne_nil_of_length_pos (by omega)
    obtain ⟨final, hfinal, hstop⟩ := s₂.last_row hpassed
    refine .of_look hfinal (.of_get ?_)
    rw [hstop]
    exact .pure _
  | _ => exact hother

/-! #### Declarations -/

theorem attachments_agree (attrs : List Attribute) :
    Agrees s (attachments attrs) (Reader.attachments attrs) := by
  induction attrs generalizing s with
  | nil => exact .pure _
  | cons first rest ih =>
    refine .bind (typed_agrees _ _) fun {request? _} _ _ => ?_
    cases request? with
    | some request => exact .bind (note_agrees _) fun _ _ => .bind ih fun _ _ => .pure _
    | none => exact ih

theorem qualifiers_eq {passed pending : List Placed} {finish : Placed} {requests : List Span}
    {turns : Nat} (hends : Ends pending finish) (hturns : pending.length < turns)
    (known : String) :
    qualifiers turns known (rowOf passed pending finish requests) =
      some (.ok (known ++ String.join ((qualifierRun pending).1.map (·.token.text?.getD ".")),
        rowPast passed (qualifierRun pending) finish requests)) := by
  fun_induction qualifierRun pending generalizing passed known turns
  all_goals
    obtain ⟨turns, rfl⟩ := Nat.exists_eq_add_one_of_ne_zero (Nat.ne_zero_of_lt hturns)
    rw [qualifiers]
    simp only [bind_apply, peek_rowOf, andThen_ok, ahead_one_rowOf, ite_apply_row, pure_apply]
  case case1 point part rest hcond ih =>
    obtain ⟨hpoint, hpart⟩ := hcond
    obtain ⟨text, htext⟩ : ∃ text, part.token = .name text := by
      cases htoken : part.token with
      | name text => exact ⟨text, rfl⟩
      | _ =>
        rw [htoken] at hpart
        cases hpart
    have hname : name (rowOf (passed ++ [point]) (part :: rest) finish requests) =
        some (.ok (⟨text, part.span⟩,
          rowOf (passed ++ [point] ++ [part]) rest finish requests)) := by
      simp only [name, bind_apply, peek_rowOf, andThen_ok, List.headD_cons, htext,
        next_rowOf_cons hends.tail.head, pure_apply]
    have hjoin : known ++ "." ++ text ++ String.join ((qualifierRun rest).1.map
        (·.token.text?.getD ".")) = known ++ String.join
          ((andTake point (andTake part (qualifierRun rest))).1.map (·.token.text?.getD ".")) := by
      simp [hpoint, htext, Token.text?, String.append_assoc]
    rw [List.headD_cons, List.tail_cons, List.headD_cons, if_pos ⟨hpoint, hpart⟩,
      next_rowOf_cons hends.head, andThen_ok, bind_apply, hname, andThen_ok,
      ih hends.tail.tail (Nat.lt_of_succ_lt (Nat.lt_of_succ_lt_succ hturns)), hjoin,
      rowPast_andTake, rowPast_andTake]
  case case2 point part rest hcond =>
    rw [List.headD_cons, List.tail_cons, List.headD_cons, if_neg hcond, rowPast_nil]
    simp
  case case3 rest hshort =>
    -- the end of input is no name
    have hsecond : (rest.tail.headD finish).token.isName = false := by
      rcases rest with _ | ⟨point, _ | ⟨part, rest⟩⟩
      · simp [hends.finish_token, Token.isName]
      · simp [hends.finish_token, Token.isName]
      · exact absurd rfl (hshort point part rest)
    rw [hsecond, if_neg (by simp), rowPast_nil]
    simp

theorem qualifiedName_agrees : Agrees s (qualifiedName source) Reader.qualifiedName := by
  refine .bind name_agrees fun {first s'} _ _ => ?_
  have hrun := refines_of_append (qualifierRun_append s'.stream.pending)
  have hplain : (Reader.take qualifierRun >>= fun qualifiers =>
      (pure (first.name ++ String.join (qualifiers.map (·.token.text?.getD "."))) : Reader String))
        s'.stream = .ok (_, (s'.pass _ hrun).stream) := rfl
  exact .gives (s'.reaches_pass hrun) hplain (qualifiers_eq s'.ends s'.length_lt first.name)

theorem genericClause_agrees : Agrees s (genericClause source) Reader.genericClause := by
  have hrun := refines_of_append (genericRun_append 0 s.stream.pending)
  have hloop : genericRest (readingLimit source) 0 s.row = _ :=
    genericRest_eq s.ends s.length_lt s.brackets_lt
  refine .peek ?_
  cases s.stream.head.token with
  | operator text =>
    dsimp only
    split
    · exact .take hrun hloop fun _ _ _ => .pure _
    · exact .pure _
  | _ => exact .pure _

theorem types_agree {limit : Nat} (hleft : s.left < limit) :
    Agrees s (types source limit) (Reader.types source limit) := by
  induction limit generalizing s with
  | zero => exact absurd hleft (Nat.not_lt_zero _)
  | succ limit ih =>
    rw [types, Reader.types]
    refine .bind type_agrees fun {first s'} hreaches _ => .peek ?_
    cases htoken : s'.stream.head.token with
    | comma =>
      refine .bind .next fun {_ s''} _ hnext => .bind (ih ?_) fun _ _ => .pure _
      have hle := hreaches.left_le
      have hlt := s'.left_lt_of_next (by rw [htoken]; simp) hnext
      omega
    | _ => exact .pure _

theorem inheritance_agrees : Agrees s (inheritance source) (Reader.inheritance source) := by
  refine .peek ?_
  cases s.stream.head.token with
  | colon =>
    exact .bind .next fun {_ s'} _ _ => types_agree (Nat.lt_succ_of_le s'.left_le)
  | _ => exact .pure _

theorem requirements_agree : Agrees s (requirements source) Reader.requirements := by
  have hrun : Refines s.stream.pending
      ((s.stream.pending.span (·.token != .opening .curly)).1 ++
        (s.stream.pending.span (·.token != .opening .curly)).2) := by
    apply refines_of_append
    rw [List.span_eq_takeWhile_dropWhile, List.takeWhile_append_dropWhile]
  refine .peek ?_
  cases s.stream.head.token with
  | name word =>
    by_cases hword : word = "where"
    · subst hword
      exact .take hrun (requirementsRest_eq s.ends s.length_lt) fun _ _ _ => .pure _
    · simp only [hword, if_false]
      split
      · simp_all
      · exact .pure _
  | _ => exact .pure _

theorem openingBrace_agrees : Agrees s openingBrace Reader.openingBrace := by
  refine .peek ?_
  cases s.stream.head.token with
  | opening bracket =>
    cases bracket with
    | curly => exact .bind .next fun _ _ => .pure _
    | round => exact .expected _
    | square => exact .expected _
  | _ => exact .expected _

theorem closingBrace_agrees (owner : String) :
    Agrees s (closingBrace owner) (Reader.closingBrace owner) := by
  refine .peek ?_
  cases s.stream.head.token with
  | closing bracket =>
    cases bracket with
    | curly => exact .bind .next fun _ _ => .pure _
    | round => exact .expected _
    | square => exact .expected _
  | _ => exact .expected _

theorem header_agrees {kind : Declaration.Kind} {start : Span} {attrs : List Attribute} :
    Agrees s (header source kind start attrs) (Reader.header source kind start attrs) :=
  .bind .next fun _ _ => .bind (attachments_agree attrs) fun _ _ =>
    .bind qualifiedName_agrees fun _ _ => .bind genericClause_agrees fun _ _ =>
    .bind inheritance_agrees fun _ _ => .bind requirements_agree fun _ _ =>
    .bind openingBrace_agrees fun _ _ => .pure _

theorem item_agrees : Agrees s (item source) (Reader.item source) := by
  refine .peek ?_
  refine .bind (attributes_agree (Nat.lt_succ_of_le s.left_le)) fun {attrs s₁} hreaches₁ _ => ?_
  refine .bind modifiers_agree fun {isStatic s'} hreaches₂ _ => ?_
  have hstart : s.stream.head.span.start ≤ s'.stream.head.span.start := by
    obtain ⟨_, _, -, htakes⟩ := hreaches₁.trans hreaches₂
    exact s.ready.head_start_le htakes
  have hother : Agrees s'
      (other source s.stream.head.span >>= fun span => pure (Item.entry (.other span)))
      (Reader.other s.stream.head.span >>= fun span => pure (Item.entry (.other span))) :=
    .bind (other_agrees hstart) fun _ _ => .pure _
  refine .of_look s'.peek_row (.of_get ?_)
  cases htoken : s'.stream.head.token with
  | semicolon => exact .bind .next fun _ _ => .pure _
  | name word =>
    refine .of_look s'.ahead_row ?_
    by_cases hword : word = "let" ∨ word = "var"
    · simp only [if_pos hword]
      exact .bind (property_agrees hstart (by rw [htoken]; simp)) fun _ _ => .pure _
    · simp only [if_neg hword]
      cases Declaration.Kind.ofKeyword? word with
      | none => exact hother
      | some kind =>
        cases s'.stream.second.token.isName with
        | true => exact .bind header_agrees fun _ _ => .pure _
        | false => exact hother
  | _ => exact hother

/-! #### Bodies -/

/-- An item of no interest is not empty, unless a brace closes or the input ends. -/
theorem weight_lt_of_other {stream after : TokenStream} {start span : Span}
    (hready : Ready source stream) (hbrace : stream.head.token ≠ .closing .curly)
    (hend : stream.head.token ≠ .endOfInput) (hsemicolon : stream.head.token ≠ .semicolon)
    (h : Reader.other start stream = .ok (span, after)) :
    weight after.pending < weight stream.pending := by
  obtain ⟨rest, hpending, -⟩ := hready.pending_eq hend
  obtain ⟨taken, between, htake, h⟩ := Reader.bind_eq_ok.1 h
  have hrun := otherRun_append true 0 stream.pending
  obtain ⟨htaken, -, htakes⟩ := Reader.take_takes (by rw [hrun]; exact .refl _) htake
  -- the first token ends an item only if it is one of these three
  have hgoes : endsOther true stream.head = false := by
    unfold endsOther
    cases htoken : stream.head.token with
    | endOfInput => exact absurd htoken hend
    | semicolon => exact absurd htoken hsemicolon
    | closing bracket =>
      cases bracket with
      | curly => exact absurd htoken hbrace
      | round => rfl
      | square => rfl
    | opening bracket => cases bracket <;> rfl
    | _ => rfl
  have hne : taken ≠ [] := by
    rw [htaken, hpending, otherRun, hgoes, if_neg (by simp)]
    exact List.cons_ne_nil _ _
  have hlt := weight_lt_of_takes hready htakes hne
  rw [List.getLast?_eq_some_getLast hne] at h
  obtain ⟨-, rfl⟩ := Reader.pure_eq_ok.1 h
  exact hlt

/-- **An item takes at least one token**, unless a brace closes or the input ends. -/
theorem weight_lt_of_item {stream after : TokenStream} {found : Item}
    (hready : Ready source stream) (hbrace : stream.head.token ≠ .closing .curly)
    (hend : stream.head.token ≠ .endOfInput)
    (h : Reader.item source stream = .ok (found, after)) :
    weight after.pending < weight stream.pending := by
  rw [Reader.item, Reader.peek_bind_eq_ok, Reader.bind_eq_ok] at h
  obtain ⟨attrs, afterAttrs, hattrs, h⟩ := h
  obtain ⟨segments, hattrsTakes, -⟩ := Reader.attributes_takes hready hattrs
  rw [Reader.bind_eq_ok] at h
  obtain ⟨isStatic, here, hmodifiers, h⟩ := h
  obtain ⟨modifiers, hmodifiersTakes, -⟩ := Reader.modifiers_takes hmodifiers
  have hfront := hattrsTakes.trans hmodifiersTakes
  have hhere := (hready.taken hfront).2
  have hweight := weight_of_takes hfront
  rw [Reader.get_bind_eq_ok] at h
  -- if attributes and modifiers lead to a brace or to the end, they are what was taken
  have hother : here.head.token ≠ .semicolon →
      (Reader.other stream.head.span >>= fun span => pure (Item.entry (.other span))) here =
        .ok (found, after) → weight after.pending < weight stream.pending := by
    intro hsemicolon h
    simp only [Reader.bind_eq_ok, Reader.pure_eq_ok] at h
    obtain ⟨span, _, hspan, -, rfl⟩ := h
    by_cases hstop : here.head.token = .closing .curly ∨ here.head.token = .endOfInput
    · obtain ⟨taken, htakes, -⟩ := Reader.other_takes hhere hspan
      have hafter := weight_of_takes htakes
      have hlt : weight here.pending < weight stream.pending := by
        rcases hstop with hstop | hstop
        · exact weight_lt_of_head hready hfront (by rw [hstop]; rfl) (by rw [hstop]; exact hbrace)
        · exact weight_lt_of_head hready hfront (by rw [hstop]; rfl) (by rw [hstop]; exact hend)
      omega
    · rw [not_or] at hstop
      have hlt := weight_lt_of_other hhere hstop.1 hstop.2 hsemicolon hspan
      omega
  generalize htoken : here.head.token = token at h hother
  split at h
  · simp only [Reader.bind_eq_ok, Reader.pure_eq_ok] at h
    obtain ⟨mark, _, hmark, -, rfl⟩ := h
    obtain ⟨-, -, htakes⟩ := Reader.next_takes hhere (by rw [htoken]; simp) hmark
    have hlt := weight_lt_of_takes hhere htakes (List.cons_ne_nil _ _)
    omega
  · next word =>
    split at h
    · simp only [Reader.bind_eq_ok, Reader.pure_eq_ok] at h
      obtain ⟨entry, _, hproperty, -, rfl⟩ := h
      obtain ⟨_, _, htakes, -⟩ := Reader.property_takes hhere (by rw [htoken]; simp) hproperty
      have hlt := weight_lt_of_takes hhere htakes (List.cons_ne_nil _ _)
      omega
    · generalize Declaration.Kind.ofKeyword? word = kind? at h
      generalize here.second.token.isName = named at h
      split at h
      · simp only [Reader.bind_eq_ok, Reader.pure_eq_ok] at h
        obtain ⟨header, _, hheader, -, rfl⟩ := h
        obtain ⟨_, _, htakes, -⟩ := Reader.header_takes hhere (by rw [htoken]; simp) hheader
        have hlt := weight_lt_of_takes hhere htakes (List.cons_ne_nil _ _)
        omega
      · exact hother (by simp) h
  · next hsemicolon _ => exact hother hsemicolon h

theorem itemEnd_agrees {limit : Nat}
    (hitems : ∀ {s' : Standing source}, s'.left < limit →
      Agrees s' (items source limit) (Reader.items source limit))
    (hleft : s.left < limit) (found : Item) :
    Agrees s (itemEnd (items source limit) found)
      (Reader.itemEnd (Reader.items source limit) found) := by
  cases found with
  | separator => exact hitems hleft
  | entry entry => exact .bind (hitems hleft) fun _ _ => .pure _
  | opened header =>
    refine .bind (hitems hleft) fun hreaches _ => ?_
    refine .bind (closingBrace_agrees _) fun {_ s'} hreaches' _ => ?_
    have hle := (hreaches.trans hreaches').left_le
    exact .bind (hitems (by omega)) fun _ _ => .pure _

theorem items_agree {limit : Nat} (hleft : s.left < limit) :
    Agrees s (items source limit) (Reader.items source limit) := by
  induction limit generalizing s with
  | zero => exact absurd hleft (Nat.not_lt_zero _)
  | succ limit ih =>
    have hitem : s.stream.head.token ≠ .closing .curly → s.stream.head.token ≠ .endOfInput →
        Agrees s (item source >>= itemEnd (items source limit))
          (Reader.item source >>= Reader.itemEnd (Reader.items source limit)) := by
      intro hbrace hend
      refine .bind item_agrees fun {found s'} hreaches hitem => itemEnd_agrees ih ?_ found
      have hlt : s'.left < s.left := weight_lt_of_item s.ready hbrace hend hitem
      omega
    rw [items, Reader.items]
    refine .peek ?_
    cases htoken : s.stream.head.token with
    | closing bracket =>
      cases bracket with
      | curly => exact .pure _
      | round => exact hitem (by rw [htoken]; simp) (by rw [htoken]; simp)
      | square => exact hitem (by rw [htoken]; simp) (by rw [htoken]; simp)
    | endOfInput => exact .pure _
    | _ => exact hitem (by rw [htoken]; simp) (by rw [htoken]; simp)

theorem wholeOutline_agrees : Agrees s (wholeOutline source) (Reader.outline source) := by
  refine .bind (items_agree (Nat.lt_succ_of_le s.left_le)) fun {items s'} _ _ => ?_
  refine .of_look s'.peek_row (.of_get ?_)
  cases s'.stream.head.token with
  | closing bracket => exact .expected _
  | _ => exact .gives (.refl s') rfl rfl

end Agreement

/-- **Reading is defined on every source whose brackets can be counted**: the index never leaves
    the row, no count leaves its range, and the texts of types and expressions are sliced off the
    source at places between characters. -/
theorem outline_eq {source : List Char} (hcountable : Countable source) :
    outline source = some (Outline.ofSource source) := by
  rw [outline, tokenize_eq, Outline.ofSource]
  cases htokens : Memberwise.tokenize source with
  | error error => rfl
  | ok tokens =>
    have hplainRun : ((Except.ok tokens : Except ScanError Tokens).mapError ReadError.scan >>=
        fun tokens => (Reader.outline source).run (.start tokens) >>= fun p => .ok p.1) =
          (Reader.outline source (Standing.start hcountable htokens).stream).map Prod.fst := rfl
    have hrow : (⟨tokens.toList, 0, []⟩ : Row) = (Standing.start hcountable htokens).row := rfl
    cases wholeOutline_agrees (s := .start hcountable htokens) with
    | fails hplain hchecked =>
      rw [hplain] at hplainRun
      simp only [Option.bind_eq_bind, Option.bind_some, hrow, hchecked]
      exact congrArg some hplainRun.symm
    | gives hreaches hplain hchecked =>
      rw [hplain] at hplainRun
      simp only [Option.bind_eq_bind, Option.bind_some, hrow, hchecked]
      exact congrArg some hplainRun.symm

end Memberwise.Checked
