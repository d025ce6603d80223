/-
  Memberwise/Proofs/Checked/Rows.lean
  ===================================
  **Passing tokens in a row, with every partial operation checked.**

  A stream gives its tokens away one by one.  Here all the tokens of a source stay in a
  row, the end of input last, and a reader has an index into it.  Looking a token up is
  undefined outside the row, and so is putting a token into it.  The end of input is never
  passed, which is what keeps the index inside.

  Each of the runs of tokens that are taken whole has a loop over the row here.  A loop is
  given a number of turns and is undefined when they are used up.  One that counts brackets
  takes one off its count as a partial operation.

  The library counts the brackets of types and of generic clauses in natural numbers.  Here
  these counts are signed words of 32 bits, and a sum or a difference that leaves the range
  is undefined (`word`).  The two agree in every source of fewer than `2 ^ 31` brackets that
  are counted (`Countable`).
-/
import Mathlib.Data.List.TakeDrop
import Memberwise.Proofs.Checked.Scanning
import Memberwise.Proofs.Readers

namespace Memberwise.Checked

/-! ### Readers of rows -/

/-- The tokens of a source, the index of the next one, and the requests noted so far. -/
structure Row where
  tokens : List Placed
  index : Nat
  requests : List Span

/-- A reader of tokens in a row.  Where it is defined, it gives a result or an error. -/
abbrev RowReader := StateT Row (ExceptT ReadError Option)

section Basics

variable {α β : Type}

def given (value? : Option α) : RowReader α := fun row => value?.map fun value => .ok (value, row)

/-- What a loop comes to that has no turns left. -/
def undefined : RowReader α := fun _ => none

def failAt (place : Position) (fault : Fault) : RowReader α :=
  fun _ => some (.error (.malformed place fault))

def index : RowReader Nat := fun row => some (.ok (row.index, row))

def tokenAt (i : Nat) : RowReader Placed := fun row => given row.tokens[i]? row

def peek : RowReader Placed := do tokenAt (← index)

/-- The token a number of places behind the next one, or the last one there is. -/
def ahead (n : Nat) : RowReader Placed := fun row =>
  (do tokenAt (min (row.index + n) (← given (sub row.tokens.length 1))) : RowReader Placed) row

/-- Takes the next token.  The end of input is not passed. -/
def next : RowReader Placed := do
  let placed ← peek
  if placed.token = .endOfInput then return placed
  else fun row => some (.ok (placed, { row with index := row.index + 1 }))

def last : RowReader Placed := do tokenAt (← given (sub (← index) 1))

/-- Where the last token ended, or `fallback` if none was passed since `start`. -/
def consumedEnd (start fallback : Nat) : RowReader Nat := do
  if start < (← index) then return (← last).span.stop
  else return fallback

def expected (what : Expected) : RowReader α := do
  let placed ← peek
  failAt placed.span.position (.expected what placed.token)

def replace (placed : Placed) : RowReader Unit := fun row =>
  if row.index < row.tokens.length then
    some (.ok ((), { row with tokens := row.tokens.set row.index placed }))
  else none

def insertBehind (placed : Placed) : RowReader Unit := fun row =>
  if row.index + 1 ≤ row.tokens.length then
    some (.ok ((), { row with tokens := row.tokens.insertIdx (row.index + 1) placed }))
  else none

/-- What comes of a reader once another has come to a result. -/
def andThen : Option (Except ReadError (α × Row)) → (α → RowReader β) →
    Option (Except ReadError (β × Row))
  | none, _ => none
  | some (.error error), _ => some (.error error)
  | some (.ok (value, row)), f => f value row

@[simp] theorem bind_apply (x : RowReader α) (f : α → RowReader β) (row : Row) :
    (x >>= f) row = andThen (x row) f := by
  change (x row >>= fun outcome => _ : Option _) = _
  cases x row with
  | none => rfl
  | some outcome => cases outcome <;> rfl

@[simp] theorem pure_apply (value : α) (row : Row) :
    (pure value : RowReader α) row = some (.ok (value, row)) := rfl

@[simp] theorem andThen_ok (value : α) (row : Row) (f : α → RowReader β) :
    andThen (some (.ok (value, row))) f = f value row := rfl

@[simp] theorem andThen_error (error : ReadError) (f : α → RowReader β) :
    andThen (some (.error error)) f = some (.error error) := rfl

@[simp] theorem given_some (value : α) (row : Row) :
    given (some value) row = some (.ok (value, row)) := rfl

@[simp] theorem failAt_apply (place : Position) (fault : Fault) (row : Row) :
    (failAt place fault : RowReader α) row = some (.error (.malformed place fault)) := rfl

@[simp] theorem ite_apply_row (p : Prop) [Decidable p] (x y : RowReader α) (row : Row) :
    (if p then x else y) row = if p then x row else y row := by split <;> rfl

end Basics

/-! ### Readers of a row whose first tokens have been passed -/

def rowOf (passed pending : List Placed) (finish : Placed) (requests : List Span) : Row :=
  ⟨passed ++ pending ++ [finish], passed.length, requests⟩

def rowPast (passed : List Placed) (parts : List Placed × List Placed) (finish : Placed)
    (requests : List Span) : Row :=
  rowOf (passed ++ parts.1) parts.2 finish requests

section Passed

variable {passed pending rest : List Placed} {placed finish : Placed} {requests : List Span}

@[simp] theorem rowPast_nil :
    rowPast passed ([], pending) finish requests = rowOf passed pending finish requests := by
  rw [rowPast, List.append_nil]

@[simp] theorem rowPast_andTake {parts : List Placed × List Placed} :
    rowPast passed (andTake placed parts) finish requests =
      rowPast (passed ++ [placed]) parts finish requests := by
  rw [rowPast, rowPast, andTake_fst, andTake_snd, List.append_assoc, List.singleton_append]

@[simp] theorem index_rowOf :
    index (rowOf passed pending finish requests) =
      some (.ok (passed.length, rowOf passed pending finish requests)) := rfl

theorem getElem?_rowOf (n : Nat) :
    (rowOf passed pending finish requests).tokens[passed.length + n]? =
      (pending ++ [finish])[n]? := by
  rw [rowOf, List.append_assoc, List.getElem?_append_right (Nat.le_add_right _ _),
    Nat.add_sub_cancel_left]

theorem tokenAt_rowOf {n : Nat} (h : (pending ++ [finish])[n]? = some placed) :
    tokenAt (passed.length + n) (rowOf passed pending finish requests) =
      some (.ok (placed, rowOf passed pending finish requests)) := by
  rw [tokenAt, getElem?_rowOf, h, given_some]

@[simp] theorem peek_rowOf :
    peek (rowOf passed pending finish requests) =
      some (.ok (pending.headD finish, rowOf passed pending finish requests)) := by
  have h : (pending ++ [finish])[0]? = some (pending.headD finish) := by cases pending <;> rfl
  rw [peek, bind_apply, index_rowOf, andThen_ok, ← Nat.add_zero passed.length, tokenAt_rowOf h]

@[simp] theorem ahead_one_rowOf :
    ahead 1 (rowOf passed pending finish requests) =
      some (.ok (pending.tail.headD finish, rowOf passed pending finish requests)) := by
  have hlength : (rowOf passed pending finish requests).tokens.length =
      passed.length + pending.length + 1 := by
    simp [rowOf, Nat.add_assoc]
  have hlast : sub (rowOf passed pending finish requests).tokens.length 1 =
      some (passed.length + pending.length) := by
    rw [hlength, sub_of_le (by omega), Nat.add_sub_cancel]
  have hmin : min ((rowOf passed pending finish requests).index + 1)
      (passed.length + pending.length) = passed.length + min 1 pending.length := by
    simp only [rowOf]
    omega
  have h : (pending ++ [finish])[min 1 pending.length]? = some (pending.tail.headD finish) := by
    match pending with
    | [] => rfl
    | [_] => rfl
    | _ :: _ :: more => simp
  rw [ahead, bind_apply, hlast, given_some, andThen_ok, hmin, tokenAt_rowOf h]

theorem next_rowOf_cons (hplaced : placed.token ≠ .endOfInput) :
    next (rowOf passed (placed :: rest) finish requests) =
      some (.ok (placed, rowOf (passed ++ [placed]) rest finish requests)) := by
  have hrow : (⟨passed ++ placed :: rest ++ [finish], passed.length + 1, requests⟩ : Row) =
      rowOf (passed ++ [placed]) rest finish requests := by simp [rowOf]
  simp only [next, bind_apply, peek_rowOf, andThen_ok, List.headD_cons, ite_apply_row, hplaced,
    if_false]
  rw [← hrow]
  rfl

theorem next_rowOf_nil (hfinish : finish.token = .endOfInput) :
    next (rowOf passed [] finish requests) =
      some (.ok (finish, rowOf passed [] finish requests)) := by
  simp [next, hfinish]

theorem last_rowOf (hpassed : passed ≠ []) :
    last (rowOf passed pending finish requests) =
      some (.ok (passed.getLast hpassed, rowOf passed pending finish requests)) := by
  have hpos := List.length_pos_iff.2 hpassed
  have htoken : (rowOf passed pending finish requests).tokens[passed.length - 1]? =
      some (passed.getLast hpassed) := by
    rw [rowOf, List.append_assoc, List.getElem?_append_left (by omega), List.getLast_eq_getElem,
      List.getElem?_eq_getElem]
  rw [last, bind_apply, index_rowOf, andThen_ok, bind_apply, sub_of_le (by omega), given_some,
    andThen_ok, tokenAt, htoken, given_some]

theorem consumedEnd_rowOf {start fallback : Nat} (hstart : start ≤ passed.length) :
    consumedEnd start fallback (rowOf passed pending finish requests) =
      some (.ok (endOf fallback (passed.drop start),
        rowOf passed pending finish requests)) := by
  simp only [consumedEnd, bind_apply, index_rowOf, andThen_ok, ite_apply_row]
  split
  · next hlt =>
    have hpassed : passed ≠ [] := by
      rintro rfl
      simp at hlt
    have hlast : (passed.drop start).getLast? = some (passed.getLast hpassed) := by
      rw [List.getLast?_drop, if_neg (by omega), List.getLast?_eq_some_getLast hpassed]
    rw [last_rowOf hpassed, andThen_ok, pure_apply, endOf_eq_of_getLast? hlast]
  · next hle =>
    rw [List.drop_of_length_le (by omega), endOf_nil]
    rfl

theorem expected_rowOf {α : Type} {what : Expected} :
    (expected what : RowReader α) (rowOf passed pending finish requests) =
      some (.error (.malformed (pending.headD finish).span.position
        (.expected what (pending.headD finish).token))) := by
  simp [expected]

theorem replace_rowOf {other : Placed} :
    replace other (rowOf passed (placed :: rest) finish requests) =
      some (.ok ((), rowOf passed (other :: rest) finish requests)) := by
  simp [replace, rowOf]

theorem insertBehind_rowOf {other : Placed} :
    insertBehind other (rowOf passed (placed :: rest) finish requests) =
      some (.ok ((), rowOf passed (placed :: other :: rest) finish requests)) := by
  have htokens : (passed ++ placed :: rest ++ [finish]).insertIdx (passed.length + 1) other =
      passed ++ placed :: other :: rest ++ [finish] := by
    induction passed with
    | nil => rfl
    | cons first passed ih => simpa using ih
  rw [insertBehind, if_pos (by simp [rowOf]), rowOf, htokens]
  rfl

end Passed

/-! ### Loops -/

/-- Passes the rest of an expression that began at index `start`. -/
def exprRest (stopAtColon : Bool) (start : Nat) : Nat → Nat → RowReader Unit
  | 0, _ => undefined
  | turns + 1, depth => do
    let placed ← peek
    let first := (← index) == start
    if depth = 0 ∧ endsExpr stopAtColon first placed (some (← ahead 1)) then return ()
    else if placed.token = .endOfInput then return ()
    else
      let _ ← next
      exprRest stopAtColon start turns (placed.token.depthAfter depth)

def otherRest (start : Nat) : Nat → Nat → RowReader Unit
  | 0, _ => undefined
  | turns + 1, depth => do
    let placed ← peek
    let first := (← index) == start
    if depth = 0 ∧ endsOther first placed then return ()
    else if placed.token = .endOfInput then return ()
    else
      let _ ← next
      otherRest start turns (placed.token.depthAfter depth)

/-- Passes the rest of a collection, at a depth that counts its own bracket. -/
def collectionRest : Nat → Nat → RowReader Unit
  | 0, _ => undefined
  | turns + 1, depth => do
    match (← next).token with
    | .opening _ => collectionRest turns (depth + 1)
    | .closing _ =>
      let depth ← given (sub depth 1)
      if depth = 0 then return () else collectionRest turns depth
    | .endOfInput => return ()
    | _ => collectionRest turns depth

def parentheses : Nat → Nat → RowReader Unit
  | 0, _ => undefined
  | turns + 1, depth => do
    match (← next).token with
    | .opening .round => parentheses turns (depth + 1)
    | .closing .round =>
      let depth ← given (sub depth 1)
      if depth = 0 then return () else parentheses turns depth
    | .endOfInput => return ()
    | _ => parentheses turns depth

def modifiers : Nat → Bool → RowReader Bool
  | 0, _ => undefined
  | turns + 1, isStatic => do
    let placed ← peek
    match modifier? placed (some (← ahead 1)) with
    | none => return isStatic
    | some static =>
      let _ ← next
      if opensArguments placed.span (← peek) then
        parentheses turns 0
        modifiers turns (isStatic || static)
      else modifiers turns (isStatic || static)

/-- Passes a block of accessors whose brace stands at a position, at a depth that counts
    this brace; gives the accessor words in it. -/
def accessorRest (opened : Position) : Nat → Nat → Nat → RowReader (List String)
  | 0, _, _ => undefined
  | turns + 1, braces, brackets => do
    match (← next).token with
    | .endOfInput => failAt opened .openAccessors
    | .opening .curly => accessorRest opened turns (braces + 1) brackets
    | .closing .curly =>
      let braces ← given (sub braces 1)
      if braces = 0 then return [] else accessorRest opened turns braces brackets
    | .opening _ => accessorRest opened turns braces (brackets + 1)
    | .closing _ => accessorRest opened turns braces (brackets - 1)
    | .name word =>
      let words ← accessorRest opened turns braces brackets
      return if braces = 1 ∧ brackets = 0 ∧ accessorWords.contains word then word :: words
        else words
    | _ => accessorRest opened turns braces brackets

def requirementsRest : Nat → RowReader Unit
  | 0 => undefined
  | turns + 1 => do
    let placed ← peek
    if placed.token = .opening .curly ∨ placed.token = .endOfInput then return ()
    else
      let _ ← next
      requirementsRest turns

/-- A number as a signed word of 32 bits; outside their range there is none. -/
def word (n : Int) : Option Int := if -0x80000000 ≤ n ∧ n < 0x80000000 then some n else none

/-- A number of characters cast to a signed word, which keeps no more than its low bits. -/
def castWord (n : Nat) : Int := Int.bmod n 0x100000000

/-- Balance of angle brackets behind an operator.  Both counts are cast, and neither the sum
    nor the difference may leave the words. -/
def angles (text : String) (depth : Int) : Option Int := do
  let opened ← word (depth + castWord (charCount '<' text))
  word (opened - castWord (charCount '>' text))

def genericRest : Nat → Int → RowReader Unit
  | 0, _ => undefined
  | turns + 1, depth => do
    match (← next).token with
    | .operator text =>
      let depth ← given (angles text depth)
      if depth ≤ 0 then return () else genericRest turns depth
    | .endOfInput => return ()
    | _ => genericRest turns depth

def sign? (text : List Char) : Option (Option (List Char)) :=
  if 1 < Text.width text ∧ text.getLast? = some '=' then do
    let sign ← sliceUpTo text (← sub (Text.width text) 1)
    some (if sign.all (fun c => c == '?' || c == '!' || c == '>') then some sign else none)
  else some none

def partEquals : RowReader Unit := do
  let placed ← peek
  match placed.token with
  | .operator text =>
    match ← given (sign? text.toList) with
    | some sign =>
      let middle ← given (sub placed.span.stop 1)
      replace ⟨.operator (String.ofList sign), placed.span.upTo middle, placed.afterNewline⟩
      let inside ← given (sub middle placed.span.start)
      insertBehind ⟨.equals, ⟨middle, placed.span.stop, placed.span.line,
        placed.span.column + inside⟩, false⟩
    | none => return ()
  | _ => return ()

def typeDepth : Token → Int → Option Int
  | .opening .round, depth | .opening .square, depth => word (depth + 1)
  | .closing .round, depth | .closing .square, depth => word (depth - 1)
  | .operator text, depth =>
    if text = "->" then some depth else (angles text depth).map fun depth => max depth 0
  | _, depth => some depth

def typeRest (start : Nat) : Nat → Int → RowReader Unit
  | 0, _ => undefined
  | turns + 1, depth => do
    partEquals
    let placed ← peek
    let first := (← index) == start
    if depth = 0 ∧ endsType first placed then return ()
    else if placed.token = .endOfInput then return ()
    else
      let depth ← given (typeDepth placed.token depth)
      let _ ← next
      typeRest start turns depth

/-! ### The loops pass what the runs take -/

section Loops

variable {passed pending : List Placed} {finish : Placed} {requests : List Span} {turns : Nat}

/-- A row is sound if the end of input stands at its end and nowhere else. -/
structure Ends (pending : List Placed) (finish : Placed) : Prop where
  finish_token : finish.token = .endOfInput
  solid : ∀ placed ∈ pending, placed.token ≠ .endOfInput

namespace Ends

variable {placed : Placed} {rest : List Placed}

theorem head (h : Ends (placed :: rest) finish) : placed.token ≠ .endOfInput :=
  h.solid placed List.mem_cons_self

theorem tail? (h : Ends pending finish) : Ends pending.tail finish :=
  ⟨h.finish_token, fun other hother => h.solid other (List.mem_of_mem_tail hother)⟩

theorem tail (h : Ends (placed :: rest) finish) : Ends rest finish := h.tail?

/-- The end of input is no word. -/
theorem any_following (h : Ends pending finish) {p : Placed → Bool}
    (hp : ∀ {other : Placed}, other.token = .endOfInput → p other = false) :
    (some (pending.headD finish)).any p = pending.head?.any p := by
  cases pending with
  | nil => exact hp h.finish_token
  | cons _ _ => rfl

theorem endsExpr_following (h : Ends pending finish) (stopAtColon first : Bool) (placed : Placed) :
    endsExpr stopAtColon first placed (some (pending.headD finish)) =
      endsExpr stopAtColon first placed pending.head? := by
  have hobserver : (some (pending.headD finish)).any isObserver = pending.head?.any isObserver := by
    refine h.any_following fun hother => ?_
    simp [isObserver, hother]
  unfold endsExpr
  rw [hobserver]

theorem modifier?_following (h : Ends pending finish) (placed : Placed) :
    modifier? placed (some (pending.headD finish)) = modifier? placed pending.head? := by
  have hclass : (some (pending.headD finish)).any takesClass = pending.head?.any takesClass := by
    refine h.any_following fun hother => ?_
    simp [takesClass, hother]
  unfold modifier?
  rw [hclass]

end Ends

theorem exprRest_eq (hends : Ends pending finish) {stopAtColon first : Bool} {start depth : Nat}
    (hturns : pending.length < turns) (hstart : start ≤ passed.length)
    (hfirst : (passed.length == start) = first) :
    exprRest stopAtColon start turns depth (rowOf passed pending finish requests) =
      some (.ok ((),
        rowPast passed (exprRun stopAtColon first depth pending) finish requests)) := by
  fun_induction exprRun stopAtColon first depth pending generalizing passed turns
  all_goals
    obtain ⟨turns, rfl⟩ := Nat.exists_eq_add_one_of_ne_zero (Nat.ne_zero_of_lt hturns)
    rw [exprRest]
    simp only [bind_apply, peek_rowOf, andThen_ok, index_rowOf, ahead_one_rowOf, ite_apply_row,
      pure_apply, hfirst]
  case case1 first depth =>
    simp only [List.headD_nil, hends.finish_token, if_true, ite_self, rowPast_nil]
  case case2 first depth placed rest hend =>
    rw [List.headD_cons, List.tail_cons, hends.tail.endsExpr_following, if_pos hend, rowPast_nil]
  case case3 first depth placed rest hend ih =>
    rw [List.headD_cons, List.tail_cons, hends.tail.endsExpr_following, if_neg hend,
      if_neg hends.head, next_rowOf_cons hends.head, andThen_ok, rowPast_andTake]
    exact ih hends.tail (Nat.lt_of_succ_lt_succ hturns) (by simp; omega) (by simp; omega)

theorem otherRest_eq (hends : Ends pending finish) {first : Bool} {start depth : Nat}
    (hturns : pending.length < turns) (hstart : start ≤ passed.length)
    (hfirst : (passed.length == start) = first) :
    otherRest start turns depth (rowOf passed pending finish requests) =
      some (.ok ((), rowPast passed (otherRun first depth pending) finish requests)) := by
  fun_induction otherRun first depth pending generalizing passed turns
  all_goals
    obtain ⟨turns, rfl⟩ := Nat.exists_eq_add_one_of_ne_zero (Nat.ne_zero_of_lt hturns)
    rw [otherRest]
    simp only [bind_apply, peek_rowOf, andThen_ok, index_rowOf, ite_apply_row, pure_apply, hfirst]
  case case1 first depth =>
    simp only [List.headD_nil, hends.finish_token, if_true, ite_self, rowPast_nil]
  case case2 first depth placed rest hend =>
    rw [List.headD_cons, if_pos hend, rowPast_nil]
  case case3 first depth placed rest hend ih =>
    rw [List.headD_cons, if_neg hend, if_neg hends.head, next_rowOf_cons hends.head, andThen_ok,
      rowPast_andTake]
    exact ih hends.tail (Nat.lt_of_succ_lt_succ hturns) (by simp; omega) (by simp; omega)

theorem collectionRest_eq (hends : Ends pending finish) (hturns : pending.length < turns)
    {depth : Nat} :
    collectionRest turns (depth + 1) (rowOf passed pending finish requests) =
      some (.ok ((), rowPast passed (collectionRun depth pending) finish requests)) := by
  fun_induction collectionRun depth pending generalizing passed turns
  all_goals
    obtain ⟨turns, rfl⟩ := Nat.exists_eq_add_one_of_ne_zero (Nat.ne_zero_of_lt hturns)
    rw [collectionRest]
  case case1 depth =>
    simp only [bind_apply, next_rowOf_nil hends.finish_token, andThen_ok, hends.finish_token,
      pure_apply, rowPast_nil]
  case case2 placed rest bracket htoken =>
    simp only [bind_apply, next_rowOf_cons hends.head, andThen_ok, htoken]
    rfl
  case case3 depth placed rest hclosed ih =>
    rw [bind_apply, next_rowOf_cons hends.head, andThen_ok, rowPast_andTake,
      ← ih hends.tail (Nat.lt_of_succ_lt_succ hturns)]
    cases htoken : placed.token with
    | closing bracket =>
      -- the count is one above that of the run, so it does not come to zero here
      obtain ⟨inside, rfl⟩ := Nat.exists_eq_succ_of_ne_zero (hclosed bracket htoken)
      rfl
    | endOfInput => exact absurd htoken hends.head
    | _ => rfl

/-- Passes what is left of the argument of a modifier, and the modifiers behind it. -/
def modifiersFrom (inside turns : Nat) (isStatic : Bool) : Nat → RowReader Bool
  | 0 => modifiers turns isStatic
  | depth + 1 => do
    parentheses inside (depth + 1)
    modifiers turns isStatic

theorem modifiersFrom_succ {inside : Nat} {isStatic : Bool} {depth : Nat} {placed : Placed}
    {rest : List Placed} (hplaced : placed.token ≠ .endOfInput) :
    modifiersFrom (inside + 1) turns isStatic (depth + 1)
        (rowOf passed (placed :: rest) finish requests) =
      modifiersFrom inside turns isStatic
        (match placed.token with
          | .opening .round => depth + 2
          | .closing .round => depth
          | _ => depth + 1)
        (rowOf (passed ++ [placed]) rest finish requests) := by
  rw [modifiersFrom, bind_apply, parentheses, bind_apply, next_rowOf_cons hplaced, andThen_ok]
  cases htoken : placed.token with
  | opening bracket => cases bracket <;> exact (bind_apply _ _ _).symm
  | closing bracket =>
    cases bracket with
    | round =>
      cases depth with
      | zero => rfl
      | succ depth => exact (bind_apply _ _ _).symm
    | square => exact (bind_apply _ _ _).symm
    | curly => exact (bind_apply _ _ _).symm
  | endOfInput => exact absurd htoken hplaced
  | _ => exact (bind_apply _ _ _).symm

theorem modifiersFrom_nil (hfinish : finish.token = .endOfInput) {inside : Nat} {isStatic : Bool}
    {depth : Nat} :
    modifiersFrom (inside + 1) (turns + 1) isStatic depth (rowOf passed [] finish requests) =
      some (.ok (isStatic, rowOf passed [] finish requests)) := by
  have hmodifiers : modifiers (turns + 1) isStatic (rowOf passed [] finish requests) =
      some (.ok (isStatic, rowOf passed [] finish requests)) := by
    rw [modifiers]
    simp only [bind_apply, peek_rowOf, ahead_one_rowOf, andThen_ok, List.headD_nil, modifier?,
      hfinish, pure_apply]
  cases depth with
  | zero => exact hmodifiers
  | succ depth =>
    rw [modifiersFrom, bind_apply, parentheses, bind_apply, next_rowOf_nil hfinish, andThen_ok,
      hfinish]
    exact hmodifiers

theorem modifiersFrom_zero_of_none {inside : Nat} {isStatic : Bool} {placed : Placed}
    {rest : List Placed} (hends : Ends (placed :: rest) finish)
    (hmodifier : modifier? placed rest.head? = none) :
    modifiersFrom inside (turns + 1) isStatic 0 (rowOf passed (placed :: rest) finish requests) =
      some (.ok (isStatic, rowOf passed (placed :: rest) finish requests)) := by
  rw [modifiersFrom, modifiers]
  simp only [bind_apply, peek_rowOf, ahead_one_rowOf, andThen_ok, List.headD_cons, List.tail_cons,
    hends.tail.modifier?_following, hmodifier, pure_apply]

/-- A modifier is passed, and the parenthesis that opens its argument. -/
theorem modifiersFrom_zero_of_some {inside : Nat} {isStatic static : Bool} {placed : Placed}
    {rest : List Placed} (hends : Ends (placed :: rest) finish)
    (hmodifier : modifier? placed rest.head? = some static) :
    modifiersFrom inside (turns + 1) isStatic 0 (rowOf passed (placed :: rest) finish requests) =
      (if opensArguments placed.span (rest.headD finish) then do
          parentheses turns 0
          modifiers turns (isStatic || static)
        else modifiers turns (isStatic || static))
        (rowOf (passed ++ [placed]) rest finish requests) := by
  rw [modifiersFrom, modifiers]
  simp only [bind_apply, peek_rowOf, ahead_one_rowOf, andThen_ok, List.headD_cons, List.tail_cons,
    hends.tail.modifier?_following, hmodifier, next_rowOf_cons hends.head]

theorem modifiersFrom_eq (hends : Ends pending finish) {inside : Nat}
    (hinside : pending.length < inside) (hturns : pending.length < turns) {isStatic : Bool}
    {depth : Nat} :
    modifiersFrom inside turns isStatic depth (rowOf passed pending finish requests) =
      some (.ok (isStatic || (modifierRun depth pending).1,
        rowPast passed (modifierRun depth pending).2 finish requests)) := by
  fun_induction modifierRun depth pending generalizing passed isStatic inside turns
  all_goals
    obtain ⟨inside, rfl⟩ := Nat.exists_eq_add_one_of_ne_zero (Nat.ne_zero_of_lt hinside)
    obtain ⟨turns, rfl⟩ := Nat.exists_eq_add_one_of_ne_zero (Nat.ne_zero_of_lt hturns)
  case case1 depth => rw [modifiersFrom_nil hends.finish_token, rowPast_nil, Bool.or_false]
  case case2 placed static hmodifier =>
    have hopens : opensArguments placed.span finish = false := by
      simp [opensArguments, hends.finish_token]
    obtain ⟨turns, rfl⟩ := Nat.exists_eq_add_one_of_ne_zero
      (Nat.ne_zero_of_lt (Nat.lt_of_succ_lt_succ hturns))
    rw [modifiersFrom_zero_of_some hends hmodifier, List.headD_nil, hopens]
    have hend : modifiersFrom (inside + 1) (turns + 1) (isStatic || static) 0
        (rowOf (passed ++ [placed]) [] finish requests) = _ := modifiersFrom_nil hends.finish_token
    exact hend
  case case3 placed hmodifier =>
    rw [modifiersFrom_zero_of_none hends hmodifier, rowPast_nil, Bool.or_false]
  case case4 placed following rest static hmodifier hopens others parts hrun ih =>
    simp only [List.length_cons] at hturns
    obtain ⟨more, rfl⟩ : ∃ more, turns = more + 1 := ⟨turns - 1, by omega⟩
    rw [modifiersFrom_zero_of_some hends hmodifier, List.headD_cons, if_pos hopens]
    have hround : following.token = .opening .round := by
      simp only [opensArguments, Bool.and_eq_true, beq_iff_eq] at hopens
      exact hopens.1
    have hopened : (do parentheses (more + 1) 0; modifiers (more + 1) (isStatic || static))
        (rowOf (passed ++ [placed]) (following :: rest) finish requests) =
          modifiersFrom more (more + 1) (isStatic || static) 1
            (rowOf (passed ++ [placed] ++ [following]) rest finish requests) := by
      rw [bind_apply, parentheses, bind_apply, next_rowOf_cons hends.tail.head, andThen_ok, hround]
      exact (bind_apply _ _ _).symm
    rw [hopened, ih hends.tail.tail (by omega) (by omega), hrun, Bool.or_assoc, rowPast_andTake,
      rowPast_andTake]
  case case5 placed following rest static hmodifier hopens others parts hrun ih =>
    have hrest := Nat.lt_of_succ_lt_succ hturns
    rw [modifiersFrom_zero_of_some hends hmodifier, List.headD_cons, if_neg hopens]
    refine (ih hends.tail hrest hrest).trans ?_
    rw [hrun, Bool.or_assoc, rowPast_andTake]
  case case6 placed following rest hmodifier =>
    rw [modifiersFrom_zero_of_none hends hmodifier, rowPast_nil, Bool.or_false]
  case case7 depth placed rest behind others parts hrun ih =>
    rw [modifiersFrom_succ hends.head]
    refine (ih hends.tail (Nat.lt_of_succ_lt_succ hinside)
      (Nat.lt_of_succ_lt hturns)).trans ?_
    rw [hrun, rowPast_andTake]

def blockResult (opened : Position) (braces brackets : Nat) (passed : List Placed)
    (finish : Placed) (requests : List Span) :
    Option (List Placed × List Placed) → Except ReadError (List String × Row)
  | some (block, rest) =>
    .ok (accessorsIn braces brackets block, rowPast passed (block, rest) finish requests)
  | none => .error (.malformed opened .openAccessors)

theorem blockResult_andTake {opened : Position} {braces brackets braces' brackets' : Nat}
    {placed : Placed} {parts? : Option (List Placed × List Placed)}
    (h : ∀ block, accessorsIn braces brackets (placed :: block) =
      accessorsIn braces' brackets' block) :
    blockResult opened braces brackets passed finish requests (parts?.map (andTake placed)) =
      blockResult opened braces' brackets' (passed ++ [placed]) finish requests parts? := by
  cases parts? with
  | none => rfl
  | some parts =>
    simp only [Option.map_some, blockResult, andTake, h, rowPast, List.append_assoc,
      List.singleton_append]

theorem accessorRest_eq (hends : Ends pending finish) (hturns : pending.length < turns)
    {opened : Position} {braces brackets : Nat} :
    accessorRest opened turns (braces + 1) brackets (rowOf passed pending finish requests) =
      some (blockResult opened braces brackets passed finish requests
        (blockRun? braces pending)) := by
  fun_induction blockRun? braces pending generalizing passed brackets turns
  all_goals
    obtain ⟨turns, rfl⟩ := Nat.exists_eq_add_one_of_ne_zero (Nat.ne_zero_of_lt hturns)
    rw [accessorRest, bind_apply]
  case case1 depth =>
    simp only [next_rowOf_nil hends.finish_token, andThen_ok, hends.finish_token, failAt_apply]
    rfl
  case case2 placed rest htoken =>
    rw [next_rowOf_cons hends.head, andThen_ok, htoken]
    simp only [blockResult, accessorsIn, htoken]
    rfl
  case case3 placed rest depth htoken ih =>
    rw [next_rowOf_cons hends.head, andThen_ok, htoken, blockResult_andTake,
      ← ih hends.tail (Nat.lt_of_succ_lt_succ hturns)]
    · rfl
    · intro block
      simp only [accessorsIn, htoken]
      rfl
  case case4 depth placed rest htoken ih =>
    rw [next_rowOf_cons hends.head, andThen_ok, htoken, blockResult_andTake,
      ← ih hends.tail (Nat.lt_of_succ_lt_succ hturns)]
    intro block
    simp only [accessorsIn, htoken]
  case case5 placed rest depth hclosed hclosing hopening ih =>
    have hrest := Nat.lt_of_succ_lt_succ hturns
    -- the token is no brace, so the depth of braces stays
    have hstay : ∀ {brackets'}, (∀ block, accessorsIn depth brackets (placed :: block) =
        accessorsIn depth brackets' block) →
        accessorRest opened turns (depth + 1) brackets'
            (rowOf (passed ++ [placed]) rest finish requests) =
          some (blockResult opened depth brackets passed finish requests
            ((blockRun? depth rest).map (andTake placed))) := by
      intro brackets' h
      rw [blockResult_andTake h, ih hends.tail hrest]
    rw [next_rowOf_cons hends.head, andThen_ok]
    cases htoken : placed.token with
    | name word =>
      simp only [bind_apply, ih hends.tail hrest]
      cases blockRun? depth rest with
      | none => rfl
      | some parts =>
        simp only [Option.map_some, blockResult, andTake, accessorsIn, htoken, andThen_ok,
          pure_apply, Nat.add_eq_right, rowPast, List.append_assoc, List.singleton_append]
    | opening bracket =>
      cases bracket with
      | curly => exact absurd htoken hopening
      | round => exact hstay fun block => by simp only [accessorsIn, htoken]
      | square => exact hstay fun block => by simp only [accessorsIn, htoken]
    | closing bracket =>
      cases bracket with
      | curly =>
        cases depth with
        | zero => exact absurd rfl (hclosed htoken)
        | succ depth => exact absurd rfl (hclosing depth htoken)
      | round => exact hstay fun block => by simp only [accessorsIn, htoken]
      | square => exact hstay fun block => by simp only [accessorsIn, htoken]
    | endOfInput => exact absurd htoken hends.head
    | _ => exact hstay fun block => by simp only [accessorsIn, htoken]

theorem requirementsRest_eq (hends : Ends pending finish) (hturns : pending.length < turns) :
    requirementsRest turns (rowOf passed pending finish requests) =
      some (.ok ((), rowPast passed (pending.span (·.token != .opening .curly)) finish
        requests)) := by
  rw [List.span_eq_takeWhile_dropWhile]
  obtain ⟨turns, rfl⟩ := Nat.exists_eq_add_one_of_ne_zero (Nat.ne_zero_of_lt hturns)
  induction pending generalizing passed turns with
  | nil =>
    rw [requirementsRest]
    simp only [bind_apply, peek_rowOf, andThen_ok, List.headD_nil, hends.finish_token, pure_apply,
      ite_apply_row, or_true, if_true, List.takeWhile_nil, List.dropWhile_nil, rowPast_nil]
  | cons placed rest ih =>
    have hrest := Nat.lt_of_succ_lt_succ hturns
    obtain ⟨turns, rfl⟩ := Nat.exists_eq_add_one_of_ne_zero (Nat.ne_zero_of_lt hrest)
    rw [requirementsRest]
    simp only [bind_apply, peek_rowOf, andThen_ok, List.headD_cons, ite_apply_row, hends.head,
      or_false, next_rowOf_cons hends.head, ih hends.tail _ hrest]
    by_cases hbrace : placed.token = .opening .curly
    · simp [hbrace]
    · simp [hbrace, rowPast]

/-! ### Counted brackets -/

/-- A bracket that the readers of types and of generic clauses count as opened, or an angle
    bracket that closes one. -/
def isCounted (c : Char) : Bool := c == '(' || c == '[' || c == '<' || c == '>'

/-- A source in which the counts of brackets stay within a word. -/
def Countable (source : List Char) : Prop := source.countP isCounted < 0x80000000

instance (source : List Char) : Decidable (Countable source) := inferInstanceAs (Decidable (_ < _))

def brackets (tokens : List Placed) : Nat :=
  (tokens.flatMap (·.token.spelling)).countP isCounted

@[simp] theorem brackets_cons (placed : Placed) (rest : List Placed) :
    brackets (placed :: rest) = placed.token.spelling.countP isCounted + brackets rest := by
  rw [brackets, List.flatMap_cons, List.countP_append, brackets]

/-- A word holds every balance of fewer than `2 ^ 31` brackets. -/
theorem word_of_lt {n : Int} (hlow : -0x80000000 < n) (hhigh : n < 0x80000000) : word n = some n :=
  if_pos ⟨Int.le_of_lt hlow, hhigh⟩

theorem castWord_of_lt {n : Nat} (h : n < 0x80000000) : castWord n = n :=
  Int.bmod_eq_of_le (by omega) (by omega)

theorem charCount_le {c : Char} (hc : isCounted c = true) (text : String) :
    charCount c text ≤ (Token.operator text).spelling.countP isCounted := by
  refine List.countP_mono_left fun other _ hother => ?_
  rw [eq_of_beq hother]
  exact hc

/-- While few brackets have been counted, no balance leaves the range of a word. -/
theorem angles_eq {text : String} {depth : Nat}
    (h : depth + (Token.operator text).spelling.countP isCounted < 0x80000000) :
    angles text depth = some ((depth : Int) + charCount '<' text - charCount '>' text) := by
  have hopen := charCount_le (c := '<') rfl text
  have hclose := charCount_le (c := '>') rfl text
  have hopened : word (depth + charCount '<' text) = some ((depth : Int) + charCount '<' text) :=
    word_of_lt (by omega) (by omega)
  rw [angles, castWord_of_lt (by omega), castWord_of_lt (by omega), hopened]
  exact word_of_lt (by omega) (by omega)

theorem angleDepth_le (text : String) (depth : Nat) :
    angleDepth text depth ≤ depth + (Token.operator text).spelling.countP isCounted := by
  have hopen := charCount_le (c := '<') rfl text
  rw [angleDepth]
  omega

theorem genericRest_eq (hends : Ends pending finish) (hturns : pending.length < turns)
    {depth : Nat} (hbound : depth + brackets pending < 0x80000000) :
    genericRest turns depth (rowOf passed pending finish requests) =
      some (.ok ((), rowPast passed (genericRun depth pending) finish requests)) := by
  fun_induction genericRun depth pending generalizing passed turns
  all_goals
    obtain ⟨turns, rfl⟩ := Nat.exists_eq_add_one_of_ne_zero (Nat.ne_zero_of_lt hturns)
    rw [genericRest, bind_apply]
  case case1 depth =>
    simp only [next_rowOf_nil hends.finish_token, andThen_ok, hends.finish_token, pure_apply,
      rowPast_nil]
  case case2 depth placed rest text htoken hdepth =>
    rw [brackets_cons, htoken] at hbound
    have hhere : depth + (Token.operator text).spelling.countP isCounted < 0x80000000 := by omega
    have hclosed : (depth : Int) + charCount '<' text - charCount '>' text ≤ 0 := by
      rw [angleDepth] at hdepth
      omega
    rw [next_rowOf_cons hends.head, andThen_ok, htoken]
    simp only [bind_apply, angles_eq hhere, given_some, andThen_ok, if_pos hclosed, pure_apply]
    rfl
  case case3 depth placed rest text htoken inside hdepth ih =>
    have hle := angleDepth_le text depth
    rw [brackets_cons, htoken] at hbound
    have hhere : depth + (Token.operator text).spelling.countP isCounted < 0x80000000 := by omega
    have hinside : (depth : Int) + charCount '<' text - charCount '>' text =
        ((inside + 1 : Nat) : Int) := by
      rw [angleDepth] at hdepth
      omega
    rw [next_rowOf_cons hends.head, andThen_ok, htoken, rowPast_andTake,
      ← ih hends.tail (Nat.lt_of_succ_lt_succ hturns) (by omega)]
    simp only [bind_apply, angles_eq hhere, given_some, andThen_ok, hinside, ite_apply_row]
    rw [if_neg (by omega)]
  case case4 depth placed rest hoperator ih =>
    rw [brackets_cons] at hbound
    rw [next_rowOf_cons hends.head, andThen_ok, rowPast_andTake,
      ← ih hends.tail (Nat.lt_of_succ_lt_succ hturns) (by omega)]
    cases htoken : placed.token with
    | operator text => exact absurd htoken (hoperator text)
    | endOfInput => exact absurd htoken hends.head
    | _ => rfl

/-! ### Types -/

theorem sign?_eq (text : List Char) :
    sign? text = some (if text.getLast? = some '=' ∧ text.dropLast ≠ [] ∧
        text.dropLast.all (fun c => c == '?' || c == '!' || c == '>') then some text.dropLast
      else none) := by
  by_cases hlast : text.getLast? = some '='
  · obtain ⟨front, rfl⟩ := List.getLast?_eq_some_iff.1 hlast
    have hwidth : Text.width (front ++ ['=']) = Text.width front + 1 := Text.width_append _ _
    rw [sign?, hwidth, List.dropLast_concat]
    by_cases hfront : front = []
    · simp [hfront]
    · have hpos := Text.width_pos hfront
      rw [if_pos ⟨by omega, hlast⟩, sub_of_le (Nat.le_add_left 1 _), Nat.add_sub_cancel]
      simp only [Option.bind_eq_bind, Option.bind_some, sliceUpTo_append, hlast, hfront, ne_eq,
        not_false_eq_true, true_and]
  · rw [sign?, if_neg fun h => hlast h.2, if_neg fun h => hlast h.1]

/-- The next token is parted where it stands. -/
theorem partEquals_rowOf {source : List Char} {placed : Placed} {rest : List Placed}
    (hsits : placed.Sits source) :
    partEquals (rowOf passed (placed :: rest) finish requests) =
      some (.ok ((), rowOf passed (match splitEquals? placed with
          | some (sign, equals) => sign :: equals :: rest
          | none => placed :: rest) finish requests)) := by
  have hlt := hsits.start_lt_stop
  rw [partEquals, bind_apply, peek_rowOf, andThen_ok, List.headD_cons]
  cases htoken : placed.token with
  | operator text =>
    simp only [splitEquals?, htoken, bind_apply, sign?_eq, given_some, andThen_ok]
    split
    · simp only [bind_apply, sub_of_le (by omega : 1 ≤ placed.span.stop), given_some, andThen_ok,
        replace_rowOf, sub_of_le (by omega : placed.span.start ≤ placed.span.stop - 1),
        insertBehind_rowOf]
    · rfl
  | _ =>
    simp only [splitEquals?, htoken]
    rfl

theorem partEquals_of_some {source : List Char} {placed sign equals : Placed} {rest : List Placed}
    (hsits : placed.Sits source) (hpart : splitEquals? placed = some (sign, equals)) :
    partEquals (rowOf passed (placed :: rest) finish requests) =
      some (.ok ((), rowOf passed (sign :: equals :: rest) finish requests)) := by
  rw [partEquals_rowOf hsits, hpart]

theorem partEquals_of_none {source : List Char} {placed : Placed} {rest : List Placed}
    (hsits : placed.Sits source) (hpart : splitEquals? placed = none) :
    partEquals (rowOf passed (placed :: rest) finish requests) =
      some (.ok ((), rowOf passed (placed :: rest) finish requests)) := by
  rw [partEquals_rowOf hsits, hpart]

theorem partEquals_rowOf_nil (hfinish : finish.token = .endOfInput) :
    partEquals (rowOf passed [] finish requests) =
      some (.ok ((), rowOf passed [] finish requests)) := by
  simp only [partEquals, bind_apply, peek_rowOf, andThen_ok, List.headD_nil, hfinish, pure_apply]

/-- A bracket is closed in a type only where one is open. -/
theorem typeDepth_eq {placed : Placed} {first : Bool} {depth : Nat}
    (hend : ¬ (depth = 0 ∧ endsType first placed = true))
    (hbound : depth + placed.token.spelling.countP isCounted < 0x80000000) :
    typeDepth placed.token depth = some ↑(Memberwise.typeDepth placed.token depth) := by
  cases htoken : placed.token with
  | opening bracket =>
    rw [htoken] at hbound
    cases bracket with
    | round => exact word_of_lt (by omega) (Int.ofNat_lt.2 hbound)
    | square => exact word_of_lt (by omega) (Int.ofNat_lt.2 hbound)
    | curly => rfl
  | closing bracket =>
    have hpos : 1 ≤ depth := by
      have hends : endsType first placed = true := by simp [endsType, htoken]
      by_contra hzero
      exact hend ⟨by omega, hends⟩
    have hless : word (depth - 1) = some ((depth - 1 : Nat) : Int) := by
      rw [word_of_lt (by omega) (by omega), Int.ofNat_sub hpos]
      rfl
    cases bracket with
    | round => exact hless
    | square => exact hless
    | curly => rfl
  | operator text =>
    rw [htoken] at hbound
    simp only [typeDepth, Memberwise.typeDepth, angles_eq hbound, Option.map_some]
    split
    · rfl
    · rw [angleDepth]
      exact congrArg some (by omega)
  | _ => rfl

theorem typeDepth_le (placed : Placed) (depth : Nat) :
    Memberwise.typeDepth placed.token depth ≤
      depth + placed.token.spelling.countP isCounted := by
  cases placed.token with
  | opening bracket => cases bracket <;> exact Nat.le_refl _
  | closing bracket => cases bracket <;> simp [Memberwise.typeDepth] <;> omega
  | operator text =>
    have hle := angleDepth_le text depth
    simp only [Memberwise.typeDepth]
    split <;> omega
  | _ => exact Nat.le_add_right _ _

/-- The parts of an operator have the counted brackets of the operator. -/
theorem splitEquals?_brackets {placed sign equals : Placed}
    (h : splitEquals? placed = some (sign, equals)) :
    placed.token.spelling.countP isCounted = sign.token.spelling.countP isCounted +
      equals.token.spelling.countP isCounted := by
  obtain ⟨text, -, -, htoken, rfl, rfl⟩ := splitEquals?_eq_some h
  rw [htoken]
  simp [Token.spelling]

/-- A type ends in front of a token that stands outside all brackets. -/
theorem typeRest_stop {start : Nat} {placed : Placed} {rest before : List Placed}
    (hparts : partEquals (rowOf passed before finish requests) =
      some (.ok ((), rowOf passed (placed :: rest) finish requests)))
    (hend : endsType (passed.length == start) placed = true) :
    typeRest start (turns + 1) 0 (rowOf passed before finish requests) =
      some (.ok ((), rowOf passed (placed :: rest) finish requests)) := by
  rw [typeRest]
  simp only [bind_apply, hparts, andThen_ok, peek_rowOf, index_rowOf, List.headD_cons,
    ite_apply_row, hend, and_self, if_true, pure_apply]

/-- One token of a type is passed. -/
theorem typeRest_step {start depth : Nat} {placed : Placed} {rest before : List Placed}
    (hplaced : placed.token ≠ .endOfInput)
    (hparts : partEquals (rowOf passed before finish requests) =
      some (.ok ((), rowOf passed (placed :: rest) finish requests)))
    (hend : ¬ (depth = 0 ∧ endsType (passed.length == start) placed = true))
    (hbound : depth + placed.token.spelling.countP isCounted < 0x80000000) :
    typeRest start (turns + 1) depth (rowOf passed before finish requests) =
      typeRest start turns (Memberwise.typeDepth placed.token depth : Nat)
        (rowOf (passed ++ [placed]) rest finish requests) := by
  rw [typeRest]
  simp only [bind_apply, hparts, andThen_ok, peek_rowOf, index_rowOf, List.headD_cons,
    ite_apply_row, Int.natCast_eq_zero, if_neg hend, if_neg hplaced, typeDepth_eq hend hbound,
    given_some, next_rowOf_cons hplaced]

theorem typeRest_eq {source : List Char} (hends : Ends pending finish)
    (hsits : ∀ placed ∈ pending, placed.Sits source) {first : Bool} {start depth : Nat}
    (hstart : start ≤ passed.length) (hfirst : (passed.length == start) = first)
    (hbound : depth + brackets pending < 0x80000000) (hturns : weight pending < turns) :
    typeRest start turns depth (rowOf passed pending finish requests) =
      some (.ok ((), rowPast passed (typeRun first depth pending) finish requests)) := by
  -- behind the first token the index is not that of the start
  have hlater : ∀ {passed : List Placed} (placed : Placed), start ≤ passed.length →
      start ≤ (passed ++ [placed]).length ∧ ((passed ++ [placed]).length == start) = false := by
    intro passed placed h
    exact ⟨by simp; omega, by simp; omega⟩
  fun_induction typeRun first depth pending generalizing passed turns
  all_goals
    obtain ⟨turns, rfl⟩ := Nat.exists_eq_add_one_of_ne_zero (Nat.ne_zero_of_lt hturns)
  case case1 first depth =>
    rw [typeRest]
    simp only [bind_apply, partEquals_rowOf_nil hends.finish_token, andThen_ok, peek_rowOf,
      index_rowOf, List.headD_nil, hends.finish_token, pure_apply, if_true, ite_self, rowPast_nil]
  case case2 first depth placed rest sign equals hpart hend =>
    rw [← hfirst] at hend
    rw [hend.1, rowPast_nil]
    exact typeRest_stop (partEquals_of_some (hsits placed List.mem_cons_self) hpart) hend.2
  case case3 first depth placed rest sign equals hpart hend hdepth =>
    have hplaced := hsits placed List.mem_cons_self
    obtain ⟨hsign, hequals, -⟩ := splitEquals?_sits hpart hplaced
    obtain ⟨hweight, htoken⟩ := splitEquals?_weight hpart
    have hcount := splitEquals?_brackets hpart
    rw [← hfirst] at hend
    rw [brackets_cons] at hbound
    rw [weight_cons] at hturns
    obtain ⟨turns, rfl⟩ : ∃ more, turns = more + 1 := ⟨turns - 1, by omega⟩
    rw [typeRest_step hsign.ne_endOfInput (partEquals_of_some hplaced hpart) hend (by omega),
      hdepth]
    -- an `=` outside all brackets ends the type
    refine typeRest_stop (partEquals_of_none hequals (splitEquals?_sign hpart).2) ?_
    simp [endsType, htoken]
  case case4 first depth placed rest sign equals hpart hend inside hdepth ih =>
    have hplaced := hsits placed List.mem_cons_self
    obtain ⟨hsign, hequals, -⟩ := splitEquals?_sits hpart hplaced
    obtain ⟨hweight, htoken⟩ := splitEquals?_weight hpart
    have hcount := splitEquals?_brackets hpart
    have hle := typeDepth_le sign depth
    have hpos := List.length_pos_iff.2 hsign.1
    rw [← hfirst] at hend
    rw [brackets_cons] at hbound
    rw [weight_cons] at hturns
    obtain ⟨turns, rfl⟩ : ∃ more, turns = more + 1 := ⟨turns - 1, by omega⟩
    rw [typeRest_step hsign.ne_endOfInput (partEquals_of_some hplaced hpart) hend (by omega),
      hdepth, typeRest_step hequals.ne_endOfInput
        (partEquals_of_none hequals (splitEquals?_sign hpart).2) (by simp) (by omega), htoken,
      rowPast_andTake, rowPast_andTake]
    obtain ⟨hstart, -⟩ := hlater sign hstart
    obtain ⟨hstart, hfirst⟩ := hlater equals hstart
    exact ih hends.tail (fun other hother => hsits other (List.mem_cons_of_mem placed hother))
      hstart hfirst (by omega) (by omega)
  case case5 first depth placed rest hpart hend =>
    rw [← hfirst] at hend
    rw [hend.1, rowPast_nil]
    exact typeRest_stop (partEquals_of_none (hsits placed List.mem_cons_self) hpart) hend.2
  case case6 first depth placed rest hpart hend ih =>
    have hplaced := hsits placed List.mem_cons_self
    have hle := typeDepth_le placed depth
    have hpos := List.length_pos_iff.2 hplaced.1
    rw [← hfirst] at hend
    rw [brackets_cons] at hbound
    rw [weight_cons] at hturns
    rw [typeRest_step hplaced.ne_endOfInput (partEquals_of_none hplaced hpart) hend (by omega),
      rowPast_andTake]
    obtain ⟨hstart, hfirst⟩ := hlater placed hstart
    exact ih hends.tail (fun other hother => hsits other (List.mem_cons_of_mem placed hother))
      hstart hfirst (by omega) (by omega)

end Loops

end Memberwise.Checked
