/-
  Memberwise/Proofs/Progress.lean
  ===============================
  **Every turn of a loop takes a token.**

  A reader may take nothing: an expression may be empty, and so may an item of no interest.
  What keeps the loops going is what such a reader leaves behind.  A turn is over at a comma,
  which is taken, or at a closing bracket, which was not there when the turn began.

  The number of pending tokens says nothing, since parting an operator makes it grow.  The
  parts stand one behind the other in the place of the operator, however, so where the next
  token starts only ever goes up, and it goes up strictly as soon as one is taken.

  The loops are given here by their turns, and each loop is shown to be its turn and then the
  loop again.
-/
import Memberwise.Proofs.Checked.Reading

namespace Memberwise

/-! ### Where reading can come to -/

namespace TokenStream

/-- A stream that reading the tokens of a source can come to.  Operators may have been parted
    on the way. -/
def Reached (source : List Char) (stream : TokenStream) : Prop :=
  ∃ tokens taken noted, tokenize source = .ok tokens ∧ Takes (.start tokens) taken noted stream

/-- Reading goes on from a stream to another one by taking at least one token. -/
def Onward (stream after : TokenStream) : Prop :=
  ∃ taken noted, taken ≠ [] ∧ Takes stream taken noted after

variable {source : List Char} {stream between after : TokenStream} {taken : List Placed}
  {noted : List Span}

theorem Reached.start {tokens : Tokens} (h : tokenize source = .ok tokens) :
    (TokenStream.start tokens).Reached source :=
  ⟨tokens, [], [], h, .refl _⟩

theorem Reached.takes (h : stream.Reached source) (htakes : Takes stream taken noted after) :
    after.Reached source := by
  obtain ⟨tokens, front, notedFront, htokens, hfront⟩ := h
  exact ⟨tokens, _, _, htokens, hfront.trans htakes⟩

theorem Reached.ready (h : stream.Reached source) : Ready source stream := by
  obtain ⟨tokens, taken, noted, htokens, htakes⟩ := h
  exact ((Ready.start htokens).taken htakes).2

/-- Fewer characters are left than any loop may have turns. -/
theorem Reached.weight_lt (h : stream.Reached source) :
    weight stream.pending < readingLimit source := by
  have hle := Checked.weight_le_of_laid h.ready.laid
  have hparts := congrArg List.length (Text.takeBytes_append_dropBytes stream.readTo source)
  rw [List.length_append] at hparts
  unfold readingLimit
  omega

theorem Onward.trans_takes (h : stream.Onward between) (htakes : Takes between taken noted after) :
    stream.Onward after := by
  obtain ⟨front, notedFront, hne, hfront⟩ := h
  exact ⟨_, _, fun hnil => hne (List.append_eq_nil_iff.1 hnil).1, hfront.trans htakes⟩

theorem Onward.of_takes (htakes : Takes stream taken noted between) (h : between.Onward after) :
    stream.Onward after := by
  obtain ⟨back, notedBack, hne, hback⟩ := h
  exact ⟨_, _, fun hnil => hne (List.append_eq_nil_iff.1 hnil).2, htakes.trans hback⟩

/-- Where fewer characters are left, a token has been taken. -/
theorem Onward.of_weight_lt (htakes : Takes stream taken noted after)
    (hlt : weight after.pending < weight stream.pending) : stream.Onward after := by
  refine ⟨taken, noted, ?_, htakes⟩
  rintro rfl
  have hweight := weight_of_takes htakes
  rw [weight_nil] at hweight
  omega

theorem Onward.weight_lt (h : stream.Onward after) (hready : Ready source stream) :
    weight after.pending < weight stream.pending := by
  obtain ⟨taken, noted, hne, htakes⟩ := h
  exact weight_lt_of_takes hready htakes hne

/-- **Once a token is taken, the next one starts further on.** -/
theorem Onward.head_start_lt (h : stream.Onward after) (hready : Ready source stream) :
    stream.head.span.start < after.head.span.start := by
  obtain ⟨taken, noted, hne, htakes⟩ := h
  have hlt := hready.head_lt_readTo htakes hne
  have hle := (hready.taken htakes).2.readTo_le_head
  omega

end TokenStream

namespace Reader

/-! ### Turns -/

inductive Turn (α β : Type) where
  /-- The loop has found something and goes on. -/
  | again (found : α)
  /-- The loop is left. -/
  | leave (result : β)

def argumentOver : Reader Unit := do
  match (← peek).token with
  | .comma =>
    let _ ← next
    return ()
  | .closing .round => return ()
  | _ => expected .argumentEnd

def argumentTurn (source : List Char) : Reader (Turn Argument (List Argument)) := do
  match (← peek).token with
  | .closing .round => return .leave []
  | _ =>
    let label? ← label?
    let value ← expr source false
    argumentOver
    return .again ⟨label?, value⟩

/-- Ends a turn behind an element: a comma is taken, and a closing bracket is left.  A colon
    shows that there are no elements. -/
def elementOver (element : Expr) : Reader (Turn Expr (Option (List Expr))) := do
  match (← peek).token with
  | .comma =>
    let _ ← next
    return .again element
  | .closing .square => return .again element
  | .colon => return .leave (← dictionary)
  | _ => expected .elementEnd

def elementTurn (source : List Char) (limit : Nat) :
    Reader (Turn Expr (Option (List Expr))) := do
  match (← peek).token with
  | .closing .square =>
    let _ ← next
    return .leave (some [])
  | .colon => return .leave (← dictionary)
  | .endOfInput => expected .arrayEnd
  | _ => elementOver (← exprWith source (elements source limit) true)

/-- Reads an item with all that is in it; a semicolon gives none. -/
def wholeItem (source : List Char) (limit : Nat) : Reader (Option BodyItem) := do
  match ← item source with
  | .separator => return none
  | .entry entry => return some entry
  | .opened header =>
    let inner ← items source limit
    let close ← closingBrace header.name
    return some (.nested (header.closed inner close))

def partFirst : List Placed → List Placed
  | [] => []
  | placed :: rest =>
    match splitEquals? placed with
    | some (sign, equals) => sign :: equals :: rest
    | none => placed :: rest

/-- A turn of taking a type: the next token is parted if it can be, and taken unless the type
    ends in front of it.  The depth behind it is given with it. -/
def typeTurn (first : Bool) (depth : Nat) : Reader (Turn (Placed × Nat) Unit) := fun stream =>
  let stream := { stream with pending := partFirst stream.pending }
  match stream.pending with
  | [] => .ok (.leave (), stream)
  | placed :: rest =>
    if depth = 0 ∧ endsType first placed then .ok (.leave (), stream)
    else
      .ok (.again (placed, typeDepth placed.token depth),
        { stream with pending := rest, readTo := placed.span.stop })

/-! ### Loops are their turns -/

theorem argumentEnd_eq (more : Reader (List Argument)) (argument : Argument) :
    argumentEnd more argument = do
      argumentOver
      return argument :: (← more) := by
  rw [argumentEnd, argumentOver, bind_assoc]
  refine bind_congr fun placed => ?_
  generalize placed.token = token
  cases token with
  | comma => simp only [bind_assoc, pure_bind]
  | closing bracket => cases bracket <;> rfl
  | _ => rfl

/-- **Reading arguments is a turn, and then reading arguments.** -/
theorem arguments_succ (source : List Char) (limit : Nat) :
    arguments source (limit + 1) = do
      match ← argumentTurn source with
      | .leave result => return result
      | .again argument => return argument :: (← arguments source limit) := by
  have hmore : (do
      let label? ← label?
      let value ← expr source false
      argumentEnd (arguments source limit) ⟨label?, value⟩) = (do
      let label? ← label?
      let value ← expr source false
      argumentOver
      return Argument.mk label? value :: (← arguments source limit)) :=
    bind_congr fun _ => bind_congr fun _ => argumentEnd_eq _ _
  rw [arguments, argumentTurn, bind_assoc]
  refine bind_congr fun placed => ?_
  generalize placed.token = token
  cases token with
  | closing bracket =>
    cases bracket with
    | round => rfl
    | _ => simp only [bind_assoc, pure_bind]; exact hmore
  | _ => simp only [bind_assoc, pure_bind]; exact hmore

theorem elementEnd_eq (more : Reader (Option (List Expr))) (element : Expr) :
    elementEnd more element = do
      match ← elementOver element with
      | .leave result => return result
      | .again element => return (← more).map (element :: ·) := by
  rw [elementEnd, elementOver, bind_assoc]
  refine bind_congr fun placed => ?_
  generalize placed.token = token
  cases token with
  | comma => simp only [bind_assoc, pure_bind]
  | closing bracket => cases bracket <;> rfl
  | colon => simp only [bind_assoc, pure_bind, bind_pure]
  | _ => rfl

/-- **Reading elements is a turn, and then reading elements.** -/
theorem elements_succ (source : List Char) (limit : Nat) :
    elements source (limit + 1) = do
      match ← elementTurn source limit with
      | .leave result => return result
      | .again element => return (← elements source limit).map (element :: ·) := by
  have hmore : (exprWith source (elements source limit) true >>=
        elementEnd (elements source limit)) =
      exprWith source (elements source limit) true >>= fun element => do
        match ← elementOver element with
        | .leave result => return result
        | .again element => return (← elements source limit).map (element :: ·) :=
    bind_congr fun _ => elementEnd_eq _ _
  rw [elements, elementTurn, bind_assoc]
  refine bind_congr fun placed => ?_
  generalize placed.token = token
  cases token with
  | closing bracket =>
    cases bracket with
    | square => simp only [bind_assoc, pure_bind]
    | _ => simp only [bind_assoc]; exact hmore
  | colon => simp only [bind_assoc, pure_bind, bind_pure]
  | endOfInput => rfl
  | _ => simp only [bind_assoc]; exact hmore

/-- Going on behind an item is going on behind all that is in it. -/
theorem itemEnd_eq (source : List Char) (limit : Nat) :
    (item source >>= itemEnd (items source limit)) = do
      let item? ← wholeItem source limit
      return item?.toList ++ (← items source limit) := by
  rw [wholeItem, bind_assoc]
  refine bind_congr fun found => ?_
  cases found with
  | separator =>
    simp only [itemEnd, pure_bind, Option.toList_none, List.nil_append, bind_pure]
  | entry entry => simp only [itemEnd, pure_bind, Option.toList_some, List.singleton_append]
  | opened header =>
    simp only [itemEnd, bind_assoc, pure_bind, Option.toList_some, List.singleton_append]

/-- **Reading items is reading a whole item, and then reading items.** -/
theorem items_succ (source : List Char) (limit : Nat) :
    items source (limit + 1) = do
      match (← peek).token with
      | .closing .curly | .endOfInput => return []
      | _ =>
        let item? ← wholeItem source limit
        return item?.toList ++ (← items source limit) := by
  have hmore := itemEnd_eq source limit
  rw [items]
  refine bind_congr fun placed => ?_
  generalize placed.token = token
  cases token with
  | closing bracket =>
    cases bracket with
    | curly => rfl
    | _ => exact hmore
  | endOfInput => rfl
  | _ => exact hmore

/-- A type is taken by parting the first token if it can be, and then either ending in front of
    it or taking it and going on. -/
theorem typeRun_eq (first : Bool) (depth : Nat) (tokens : List Placed) :
    typeRun first depth tokens =
      match partFirst tokens with
      | [] => ([], [])
      | placed :: rest =>
        if depth = 0 ∧ endsType first placed then ([], placed :: rest)
        else andTake placed (typeRun false (typeDepth placed.token depth) rest) := by
  cases tokens with
  | nil => rfl
  | cons placed rest =>
    rw [typeRun, partFirst]
    cases hpart : splitEquals? placed with
    | none => rfl
    | some parts =>
      obtain ⟨sign, equals⟩ := parts
      obtain ⟨-, hequals⟩ := splitEquals?_sign hpart
      obtain ⟨-, -, -, -, -, rfl⟩ := splitEquals?_eq_some hpart
      dsimp only
      split
      · rfl
      · -- behind the sign, the `=` ends the type or lies inside brackets
        rw [typeRun, hequals]
        generalize typeDepth sign.token depth = inside
        cases inside with
        | zero => rfl
        | succ inside => rfl

/-- **Taking a type is a turn, and then taking a type.** -/
theorem take_typeRun (first : Bool) (depth : Nat) :
    take (typeRun first depth) = do
      match ← typeTurn first depth with
      | .leave _ => return []
      | .again (placed, inside) => return placed :: (← take (typeRun false inside)) := by
  funext stream
  change take (typeRun first depth) stream = typeTurn first depth stream >>= fun p => _
  rw [take, typeTurn, typeRun_eq]
  cases partFirst stream.pending with
  | nil => rfl
  | cons placed rest =>
    dsimp only
    split
    · rfl
    · -- the last token taken behind the first is the last of all
      have hlast := endOf_cons stream.readTo placed
        (typeRun false (typeDepth placed.token depth) rest).1
      unfold endOf at hlast
      rw [andTake_fst, andTake_snd, hlast]
      rfl

/-! ### Turns take tokens -/

section Turns

variable {source : List Char} {stream after : TokenStream}

theorem next_onward (hready : Ready source stream) (hhead : stream.head.token ≠ .endOfInput)
    {placed : Placed} (h : next stream = .ok (placed, after)) : stream.Onward after := by
  obtain ⟨-, -, htakes⟩ := next_takes hready hhead h
  exact ⟨_, _, List.cons_ne_nil _ _, htakes⟩

/-- A turn that was not begun at a closing bracket is over in front of one only behind a
    token. -/
theorem onward_of_head (hready : Ready source stream) {taken : List Placed} {noted : List Span}
    (htakes : Takes stream taken noted after) {bracket : Bracket}
    (hafter : after.head.token = .closing bracket) (hhead : stream.head.token ≠ .closing bracket) :
    stream.Onward after := by
  apply TokenStream.Onward.of_weight_lt htakes
  apply Checked.weight_lt_of_head hready htakes
  · rw [hafter]
    rfl
  · rw [hafter]
    exact hhead

/-- **A turn of reading arguments that goes on takes a token.** -/
theorem argumentTurn_onward {argument : Argument} (hready : Ready source stream)
    (h : argumentTurn source stream = .ok (.again argument, after)) : stream.Onward after := by
  rw [argumentTurn, peek_bind_eq_ok] at h
  generalize htoken : stream.head.token = token at h
  split at h
  · cases (pure_eq_ok.1 h).1
  · next hclose =>
    simp only [bind_eq_ok, pure_eq_ok] at h
    obtain ⟨label?, between, hlabel, value, here, hvalue, _, _, hover, -, rfl⟩ := h
    obtain ⟨front, hfront⟩ := label?_takes hready hlabel
    obtain ⟨back, hback, -⟩ := expr_takes (hready.taken hfront).2 hvalue
    have htakes := hfront.trans hback
    rw [argumentOver, peek_bind_eq_ok] at hover
    generalize hhere : here.head.token = token' at hover
    split at hover
    · simp only [bind_eq_ok, pure_eq_ok] at hover
      obtain ⟨comma, _, hcomma, -, rfl⟩ := hover
      have hend : here.head.token ≠ .endOfInput := by rw [hhere]; simp
      exact .of_takes htakes (next_onward (hready.taken htakes).2 hend hcomma)
    · obtain ⟨-, rfl⟩ := pure_eq_ok.1 hover
      exact onward_of_head hready htakes hhere (by rw [htoken]; exact hclose)
    · exact absurd hover expected_ne_ok

/-- **A turn of reading elements that goes on takes a token.** -/
theorem elementTurn_onward {limit : Nat} {element : Expr} (hready : Ready source stream)
    (h : elementTurn source limit stream = .ok (.again element, after)) : stream.Onward after := by
  rw [elementTurn, peek_bind_eq_ok] at h
  generalize htoken : stream.head.token = token at h
  split at h
  · simp only [bind_eq_ok, pure_eq_ok] at h
    obtain ⟨_, _, -, hleave, -⟩ := h
    cases hleave
  · simp only [bind_eq_ok, pure_eq_ok] at h
    obtain ⟨_, _, -, hleave, -⟩ := h
    cases hleave
  · exact absurd h expected_ne_ok
  · next hclose _ _ =>
    rw [bind_eq_ok] at h
    obtain ⟨found, here, hfound, hover⟩ := h
    obtain ⟨taken, htakes, -⟩ := exprWith_takes (elements_reads limit) hready hfound
    rw [elementOver, peek_bind_eq_ok] at hover
    generalize hhere : here.head.token = token' at hover
    split at hover
    · simp only [bind_eq_ok, pure_eq_ok] at hover
      obtain ⟨comma, _, hcomma, -, rfl⟩ := hover
      have hend : here.head.token ≠ .endOfInput := by rw [hhere]; simp
      exact .of_takes htakes (next_onward (hready.taken htakes).2 hend hcomma)
    · obtain ⟨-, rfl⟩ := pure_eq_ok.1 hover
      exact onward_of_head hready htakes hhere (by rw [htoken]; exact hclose)
    · simp only [bind_eq_ok, pure_eq_ok] at hover
      obtain ⟨_, _, -, hleave, -⟩ := hover
      cases hleave
    · exact absurd hover expected_ne_ok

/-- **A whole item takes a token**, unless a brace closes or the input ends. -/
theorem wholeItem_onward {limit : Nat} {item? : Option BodyItem} (hready : Ready source stream)
    (hbrace : stream.head.token ≠ .closing .curly) (hend : stream.head.token ≠ .endOfInput)
    (h : wholeItem source limit stream = .ok (item?, after)) : stream.Onward after := by
  rw [wholeItem, bind_eq_ok] at h
  obtain ⟨found, between, hitem, h⟩ := h
  obtain ⟨attrs, segments, tail, noted, htaken⟩ := item_takes hready hitem
  have honward := TokenStream.Onward.of_weight_lt htaken.takes
    (Checked.weight_lt_of_item hready hbrace hend hitem)
  cases found with
  | separator =>
    obtain ⟨-, rfl⟩ := pure_eq_ok.1 h
    exact honward
  | entry entry =>
    obtain ⟨-, rfl⟩ := pure_eq_ok.1 h
    exact honward
  | opened header =>
    simp only [bind_eq_ok, pure_eq_ok] at h
    obtain ⟨inner, closing, hinner, close, _, hclose, -, rfl⟩ := h
    obtain ⟨_, _, hread⟩ := items_read (hready.taken htaken.takes).2 hinner
    obtain ⟨-, -, hcloses⟩ := closingBrace_takes hread.ready_after hclose
    exact honward.trans_takes (hread.takes.2.trans hcloses)

/-- What stands first is parted, and the rest is as it was. -/
theorem refines_partFirst (tokens : List Placed) : Refines tokens (partFirst tokens) := by
  cases tokens with
  | nil => exact .nil
  | cons placed rest =>
    rw [partFirst]
    cases hpart : splitEquals? placed with
    | none => exact .refl _
    | some parts => exact .part hpart (.refl rest)

/-- **A turn of taking a type that goes on takes a token**, also where an operator is parted. -/
theorem typeTurn_onward {first : Bool} {depth inside : Nat} {placed : Placed}
    (h : typeTurn first depth stream = .ok (.again (placed, inside), after)) :
    stream.Onward after := by
  have hrefines := refines_partFirst stream.pending
  unfold typeTurn at h
  generalize hparted : partFirst stream.pending = parted at h hrefines
  cases parted with
  | nil => cases h
  | cons head rest =>
    dsimp only at h
    split at h
    · cases h
    · cases h
      exact ⟨[placed], [], List.cons_ne_nil _ _, hrefines, rfl, rfl, (List.append_nil _).symm⟩

end Turns

end Reader

/-- Wherever a reader has come to, an item leaves the next token further on, and so does every
    turn of a loop that goes on.  That these are the turns of the loops is said by
    `Reader.items_succ`, `Reader.arguments_succ`, `Reader.elements_succ` and
    `Reader.take_typeRun`. -/
structure TokenStream.Progresses (source : List Char) (stream : TokenStream) : Prop where
  item : ∀ {limit : Nat} {item? : Option BodyItem} {after : TokenStream},
    stream.head.token ≠ .closing .curly → stream.head.token ≠ .endOfInput →
    Reader.wholeItem source limit stream = .ok (item?, after) →
    stream.head.span.start < after.head.span.start
  argument : ∀ {argument : Argument} {after : TokenStream},
    Reader.argumentTurn source stream = .ok (.again argument, after) →
    stream.head.span.start < after.head.span.start
  element : ∀ {limit : Nat} {element : Expr} {after : TokenStream},
    Reader.elementTurn source limit stream = .ok (.again element, after) →
    stream.head.span.start < after.head.span.start
  type : ∀ {first : Bool} {depth inside : Nat} {placed : Placed} {after : TokenStream},
    Reader.typeTurn first depth stream = .ok (.again (placed, inside), after) →
    stream.head.span.start < after.head.span.start

theorem TokenStream.Reached.progresses {source : List Char} {stream : TokenStream}
    (h : stream.Reached source) : stream.Progresses source where
  item := fun hbrace hend hitem =>
    (Reader.wholeItem_onward h.ready hbrace hend hitem).head_start_lt h.ready
  argument := fun hturn => (Reader.argumentTurn_onward h.ready hturn).head_start_lt h.ready
  element := fun hturn => (Reader.elementTurn_onward h.ready hturn).head_start_lt h.ready
  type := fun hturn => (Reader.typeTurn_onward hturn).head_start_lt h.ready

end Memberwise
