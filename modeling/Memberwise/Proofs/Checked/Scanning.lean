/-
  Memberwise/Proofs/Checked/Scanning.lean
  =======================================
  **Cutting a source into tokens, with every partial operation checked.**

  The definitions of the library are total: a difference below zero is zero, and a text
  is cut wherever it is asked for.  Here the same work is done with operations that are
  partial.  A difference below zero is undefined (`sub`), and so is a slice whose ends are
  in the wrong order, outside the text or inside a character (`slice`).  A place in the
  source is a byte offset, and whatever stands behind it is sliced off the source anew.
  A loop has as many turns as the source has characters, and one more; it is undefined if
  these do not do.

  `tokenize_eq` says that nothing of this ever happens: the checked scanner is defined on
  every source, and its result is that of `Memberwise.tokenize`.
-/
import Memberwise.Proofs.Counting

namespace Memberwise.Checked

/-! ### Partial operations -/

def sub (a b : Nat) : Option Nat := if b ≤ a then some (a - b) else none

theorem sub_of_le {a b : Nat} (h : b ≤ a) : sub a b = some (a - b) := if_pos h

/-- The text between two byte offsets; undefined unless they stand in this order, in the
    text and between characters. -/
def slice (text : List Char) (start stop : Nat) : Option (List Char) :=
  if start ≤ stop ∧ Text.isBoundary start text = true ∧ Text.isBoundary stop text = true then
    some (Text.slice text start stop)
  else none

def sliceFrom (text : List Char) (start : Nat) : Option (List Char) :=
  slice text start (Text.width text)

def sliceUpTo (text : List Char) (stop : Nat) : Option (List Char) := slice text 0 stop

theorem slice_append {a b c : List Char} {start stop : Nat} (hstart : start = Text.width a)
    (hstop : stop = Text.width (a ++ b)) : slice (a ++ b ++ c) start stop = some b := by
  have hwidth := Text.width_append a b
  have hfirst : Text.isBoundary start (a ++ b ++ c) = true := by
    rw [List.append_assoc]
    exact Text.isBoundary_of_width hstart.symm
  have hlast : Text.isBoundary stop (a ++ b ++ c) = true := Text.isBoundary_of_width hstop.symm
  rw [slice, if_pos ⟨by omega, hfirst, hlast⟩, Text.slice_append hstart.symm (by omega)]

theorem sliceFrom_append {a b : List Char} {start : Nat} (hstart : start = Text.width a) :
    sliceFrom (a ++ b) start = some b := by
  have hslice := slice_append (c := []) hstart (rfl : Text.width (a ++ b) = _)
  rwa [List.append_nil] at hslice

theorem sliceUpTo_append {a b : List Char} {stop : Nat} (hstop : stop = Text.width a) :
    sliceUpTo (a ++ b) stop = some a :=
  slice_append (a := []) (b := a) rfl hstop

-- ends out of order, outside the text and inside a character
example : slice ['a', 'é'] 1 0 = none ∧ slice ['a', 'é'] 0 4 = none ∧
    slice ['a', 'é'] 0 2 = none ∧ slice ['a', 'é'] 1 3 = some ['é'] := by decide

/-! ### Places -/

structure Place where
  offset : Nat
  line : Nat
  lineStart : Nat
  passedNewline : Bool
deriving DecidableEq, Repr

namespace Place

def start : Place := ⟨0, 1, 0, true⟩

def rest (source : List Char) (place : Place) : Option (List Char) :=
  sliceFrom source place.offset

def behind (place : Place) (c : Char) : Place :=
  let offset := place.offset + c.utf8Size
  if c = '\n' then ⟨offset, place.line + 1, offset, true⟩ else { place with offset := offset }

/-- The place one character further; the end stays where it is. -/
def step (source : List Char) (place : Place) : Option Place := do
  match ← place.rest source with
  | [] => some place
  | c :: _ => some (place.behind c)

def advance (source : List Char) : Nat → Place → Option Place
  | 0, place => some place
  | n + 1, place => do advance source n (← place.step source)

/-- Line and byte column of a place. -/
def position (place : Place) : Option Position := do
  let column ← sub place.offset place.lineStart
  some ⟨place.line, column + 1⟩

def forgetNewline (place : Place) : Place := { place with passedNewline := false }

def ofCursor (cursor : Cursor) : Place :=
  ⟨cursor.offset, cursor.line, cursor.lineStart, cursor.passedNewline⟩

end Place

/-! ### Gaps -/

/-- Where the reader of a gap stands.  A block comment knows where it was opened. -/
inductive Mode where
  | between
  | lineComment
  | blockComment (opened : Position) (depth : Nat)

def gap (source : List Char) : Nat → Mode → Place → Option (Except ScanError Place)
  | 0, _, _ => none
  | turns + 1, mode, place => do
    match mode, ← place.rest source with
    | .between, '/' :: '/' :: _ => gap source turns .lineComment (← place.advance source 2)
    | .between, '/' :: '*' :: _ =>
      gap source turns (.blockComment (← place.position) 1) (← place.advance source 2)
    | .between, c :: _ =>
      if Token.isSeparator c then gap source turns .between (← place.advance source 1)
      else some (.ok place)
    | .between, [] => some (.ok place)
    | .lineComment, c :: _ =>
      gap source turns (if c = '\n' then .between else .lineComment) (← place.advance source 1)
    | .lineComment, [] => some (.ok place)
    | .blockComment opened depth, '/' :: '*' :: _ =>
      gap source turns (.blockComment opened (depth + 1)) (← place.advance source 2)
    | .blockComment opened depth, '*' :: '/' :: _ =>
      let depth ← sub depth 1
      gap source turns (if depth = 0 then .between else .blockComment opened depth)
        (← place.advance source 2)
    | .blockComment opened depth, _ :: _ =>
      gap source turns (.blockComment opened depth) (← place.advance source 1)
    | .blockComment opened _, [] => some (.error (.unterminatedComment opened))

/-! ### String literals -/

/-- Something that is open inside a string literal, with the position of the literal it
    belongs to.  The parenthesis of an interpolation counts. -/
inductive Frame where
  | line (opened : Position)
  | block (opened : Position)
  | interpolation (opened : Position) (depth : Nat)

/-- Passes a string literal.  The error is the position of a literal that does not end. -/
def quotation (source : List Char) :
    Nat → List Frame → Place → Option (Except Position Place)
  | 0, _, _ => none
  | turns + 1, stack, place => do
    match stack, ← place.rest source with
    | [], _ => some (.ok place)
    | .line opened :: _, [] => some (.error opened)
    | .line _ :: outer, '"' :: _ => quotation source turns outer (← place.advance source 1)
    | .line opened :: _, '\n' :: _ => some (.error opened)
    | .line opened :: _, ['\\'] => some (.error opened)
    | .line opened :: _, '\\' :: '\n' :: _ => some (.error opened)
    | .line opened :: outer, '\\' :: '(' :: _ =>
      quotation source turns (.interpolation opened 1 :: .line opened :: outer)
        (← place.advance source 2)
    | .line opened :: outer, '\\' :: _ :: _ =>
      quotation source turns (.line opened :: outer) (← place.advance source 2)
    | .line opened :: outer, _ :: _ =>
      quotation source turns (.line opened :: outer) (← place.advance source 1)
    | .block opened :: _, [] => some (.error opened)
    | .block _ :: outer, '"' :: '"' :: '"' :: _ =>
      quotation source turns outer (← place.advance source 3)
    | .block opened :: _, ['\\'] => some (.error opened)
    | .block opened :: outer, '\\' :: _ :: _ =>
      quotation source turns (.block opened :: outer) (← place.advance source 2)
    | .block opened :: outer, _ :: _ =>
      quotation source turns (.block opened :: outer) (← place.advance source 1)
    | .interpolation opened _ :: _, [] => some (.error opened)
    | .interpolation opened depth :: outer, '(' :: _ =>
      quotation source turns (.interpolation opened (depth + 1) :: outer) (← place.advance source 1)
    | .interpolation opened depth :: outer, ')' :: _ =>
      let depth ← sub depth 1
      quotation source turns (if depth = 0 then outer else .interpolation opened depth :: outer)
        (← place.advance source 1)
    | .interpolation opened depth :: outer, '"' :: '"' :: '"' :: _ =>
      quotation source turns (.block (← place.position) :: .interpolation opened depth :: outer)
        (← place.advance source 3)
    | .interpolation opened depth :: outer, '"' :: _ =>
      quotation source turns (.line (← place.position) :: .interpolation opened depth :: outer)
        (← place.advance source 1)
    | .interpolation opened depth :: outer, _ :: _ =>
      quotation source turns (.interpolation opened depth :: outer) (← place.advance source 1)

/-! ### Numbers -/

def known (source : List Char) (start : Place) (read : Nat) : Option (List Char) := do
  let stop ← start.advance source read
  slice source start.offset stop.offset

/-- Finishes a number of which `read` characters are known.  Marks of an exponent are
    looked for behind the first `skip` bytes. -/
def withExponent (isMark : Char → Bool) (skip : Nat) (source : List Char) (start : Place)
    (text : List Char) (read : Nat) : Option (Bool × Nat) := do
  let known ← known source start read
  let digits ← sliceFrom known skip
  match known.getLast?.any isMark, Token.signedRun? (text.drop read) with
  | true, some run => some (true, read + run)
  | _, _ => some (digits.any isMark, read)

/-- Reads the number at a place: whether it is a floating-point number, and its length. -/
def numeral (source : List Char) (start : Place) (text : List Char) : Option (Bool × Nat) :=
  let read := Token.numberRun text
  match text with
  | '0' :: 'x' :: _ => withExponent Token.isBinaryMark 2 source start text read
  | '0' :: 'o' :: _ => do let _ ← known source start read; some (false, read)
  | '0' :: 'b' :: _ => do let _ ← known source start read; some (false, read)
  | _ =>
    match Token.fractionEnd? text read with
    | some stop => do
      let (_, length) ← withExponent Token.isDecimalMark 0 source start text stop
      some (true, length)
    | none => withExponent Token.isDecimalMark 0 source start text read

/-! ### Tokens -/

/-- Passes the string literal at a place, given what stands behind its first quote. -/
def literal (source : List Char) (place : Place) (rest : List Char) :
    Option (Except Position Place) := do
  let opened ← place.position
  match rest with
  | '"' :: '"' :: _ =>
    place.forgetNewline.advance source 3 >>= quotation source (source.length + 1) [.block opened]
  | _ =>
    place.forgetNewline.advance source 1 >>= quotation source (source.length + 1) [.line opened]

/-- Passes the lexeme at a place, given its first character and the rest.  The result is
    the token as a function of its text, and the place behind it. -/
def lexeme (source : List Char) (place : Place) (first : Char) (rest : List Char) :
    Option (Except Position ((String → Token) × Place)) :=
  if first = '"' then do
    let passed ← literal source place rest
    some (passed.map fun after => (.string, after))
  else if ¬ Token.isNameStart first ∧ first.isDigit then do
    let (isFloat, length) ← numeral source place (first :: rest)
    let after ← place.forgetNewline.advance source length
    some (.ok (if isFloat then .float else .integer, after))
  else
    match Token.lexeme first rest with
    | .error _ => none
    | .ok found => do
      let after ← place.forgetNewline.advance source found.length
      some (.ok (found.token, after))

def readToken (source : List Char) (place : Place) :
    Option (Except ScanError (Placed × Place)) := do
  let start ← place.position
  match ← place.rest source with
  | [] =>
    some (.ok (⟨.endOfInput, ⟨place.offset, place.offset, start.line, start.column⟩,
      place.passedNewline⟩, place.forgetNewline))
  | first :: rest =>
    match ← lexeme source place first rest with
    | .error opened => some (.error (.unterminatedString opened))
    | .ok (token, after) => do
      let text ← slice source place.offset after.offset
      some (.ok (⟨token (String.ofList text),
        ⟨place.offset, after.offset, start.line, start.column⟩, place.passedNewline⟩, after))

def nextToken (source : List Char) (place : Place) :
    Option (Except ScanError (Placed × Place)) := do
  match ← gap source (source.length + 1) .between place with
  | .error error => some (.error error)
  | .ok place => readToken source place

def tokensFrom (source : List Char) : Nat → Place → Option (Except ScanError Tokens)
  | 0, _ => none
  | turns + 1, place => do
    match ← nextToken source place with
    | .error error => some (.error error)
    | .ok (placed, after) =>
      match placed.token with
      | .endOfInput => some (.ok ⟨[], placed⟩)
      | _ =>
        let more ← tokensFrom source turns after
        some (more.map fun more => ⟨placed :: more.body, more.finish⟩)

def tokenize (source : List Char) : Option (Except ScanError Tokens) :=
  tokensFrom source (source.length + 1) .start

/-! ### The checked scanner is defined -/

section Agreement

variable {source : List Char} {cursor : Cursor}

/-- A cursor somewhere in a source. -/
def In (source : List Char) (cursor : Cursor) : Prop := ∃ before, cursor.Behind source before

namespace In

theorem start (source : List Char) : In source (.start source) := ⟨[], Cursor.behind_start source⟩

theorem rest_eq (h : In source cursor) :
    (Place.ofCursor cursor).rest source = some cursor.rest := by
  obtain ⟨before, hbehind⟩ := h
  have hsource := hbehind.source_eq
  rw [Place.rest, hsource]
  exact sliceFrom_append hbehind.offset_eq

/-- What is still to come is enough turns for a loop. -/
theorem length_lt (h : In source cursor) : cursor.rest.length < source.length + 1 := by
  obtain ⟨before, hbehind⟩ := h
  rw [hbehind.source_eq, List.length_append]
  omega

theorem position_eq (h : In source cursor) :
    (Place.ofCursor cursor).position = some cursor.position := by
  obtain ⟨before, hbehind⟩ := h
  have hle : cursor.lineStart ≤ cursor.offset := by
    have := hbehind.lineStart_eq
    have := hbehind.offset_eq
    omega
  simp only [Place.position, Place.ofCursor, sub_of_le hle]
  rfl

theorem step (h : In source cursor) :
    In source cursor.step ∧ (Place.ofCursor cursor).step source = some (.ofCursor cursor.step) := by
  rw [Place.step, h.rest_eq]
  cases hrest : cursor.rest with
  | nil =>
    have hstay : cursor.step = cursor := by rw [Cursor.step, hrest]
    rw [hstay]
    exact ⟨h, rfl⟩
  | cons c rest =>
    obtain ⟨before, hbehind⟩ := h
    refine ⟨⟨_, (hbehind.step hrest).1⟩, ?_⟩
    simp only [Option.bind_eq_bind, Option.bind_some, Place.behind, Cursor.step, hrest,
      Place.ofCursor]
    split <;> rfl

theorem advance (h : In source cursor) (n : Nat) :
    In source (cursor.advance n) ∧
      (Place.ofCursor cursor).advance source n = some (.ofCursor (cursor.advance n)) := by
  induction n generalizing cursor with
  | zero => exact ⟨h, rfl⟩
  | succ n ih =>
    obtain ⟨hstep, heq⟩ := h.step
    obtain ⟨hrest, hplace⟩ := ih hstep
    refine ⟨hrest, ?_⟩
    rw [Place.advance, heq]
    exact hplace

theorem forgetNewline (h : In source cursor) : In source cursor.forgetNewline := by
  obtain ⟨before, hbehind⟩ := h
  exact ⟨before, hbehind.forgetNewline⟩

theorem rest_advance (cursor : Cursor) (n : Nat) :
    (cursor.advance n).rest = cursor.rest.drop n := by
  induction n generalizing cursor with
  | zero => rfl
  | succ n ih =>
    rw [Cursor.advance, ih, Cursor.step]
    cases hrest : cursor.rest with
    | nil => simp [hrest]
    | cons c rest =>
      simp only [List.drop_succ_cons]
      split <;> rfl

theorem advance_add (cursor : Cursor) (a b : Nat) :
    cursor.advance (a + b) = (cursor.advance a).advance b := by
  induction a generalizing cursor with
  | zero => rw [Nat.zero_add]; rfl
  | succ a ih =>
    rw [Nat.succ_add]
    exact ih cursor.step

end In

/-! #### Gaps -/

def modeAt (start : Cursor) : Token.GapMode → Mode
  | .between => .between
  | .lineComment => .lineComment
  | .blockComment opened depth => .blockComment (start.advance opened).position (depth + 1)

def gapResult (start : Cursor) : Except Nat Nat → Except ScanError Place
  | .ok n => .ok (.ofCursor (start.advance n))
  | .error opened => .error (.unterminatedComment (start.advance opened).position)

/-- Reading goes on at the place behind some characters that come next. -/
theorem In.goOn {α : Type} {start : Cursor} (h : In source start) {read : Nat} (front : List Char)
    {rest : List Char} {f : Place → Option α} {result : Option α}
    (hrest : (start.advance read).rest = front ++ rest)
    (hf : (start.advance (read + front.length)).rest = rest →
      f (.ofCursor (start.advance (read + front.length))) = result) :
    ((Place.ofCursor (start.advance read)).advance source front.length >>= f) = result := by
  rw [((h.advance read).1.advance _).2, ← In.advance_add]
  apply hf
  rw [In.advance_add, In.rest_advance, hrest, List.drop_left]

theorem gapFrom_eq {start : Cursor} (hstart : In source start) {mode : Token.GapMode}
    {read turns : Nat} {text : List Char} (htext : (start.advance read).rest = text)
    (hturns : text.length < turns) :
    gap source turns (modeAt start mode) (.ofCursor (start.advance read)) =
      some (gapResult start (Token.gapFrom mode read text)) := by
  fun_induction Token.gapFrom mode read text generalizing turns
  all_goals
    obtain ⟨turns, rfl⟩ := Nat.exists_eq_add_one_of_ne_zero (Nat.ne_zero_of_lt hturns)
    rw [gap, (hstart.advance _).1.rest_eq, htext]
    simp only [List.length_cons, List.length_nil] at hturns
  case' case3 | case4 | case9 | case10 =>
    simp only [modeAt, Option.bind_eq_bind, Option.bind_some]
  case case1 read rest ih =>
    exact hstart.goOn ['/', '/'] htext fun hrest => ih hrest (by omega)
  case case2 read rest ih =>
    rw [(hstart.advance _).1.position_eq]
    exact hstart.goOn ['/', '*'] htext fun hrest => ih hrest (by omega)
  case case3 read c rest hline hblock hsep ih =>
    rw [if_pos hsep]
    exact hstart.goOn [c] htext fun hrest => ih hrest (by omega)
  case case4 read c rest hline hblock hsep =>
    rw [if_neg hsep]
    rfl
  case case5 => rfl
  case case6 read c rest ih =>
    refine hstart.goOn [c] htext fun hrest => ?_
    rw [← ih hrest (by omega : rest.length < turns)]
    split <;> rfl
  case case7 => rfl
  case case8 opened depth read rest ih =>
    exact hstart.goOn ['/', '*'] htext fun hrest => ih hrest (by omega)
  case case9 opened depth read rest ih =>
    -- the depth is that of the model and one more
    rw [sub_of_le (Nat.le_add_left 1 depth)]
    cases depth with
    | zero => exact hstart.goOn ['*', '/'] htext fun hrest => ih hrest (by omega)
    | succ depth => exact hstart.goOn ['*', '/'] htext fun hrest => ih hrest (by omega)
  case case10 opened depth read c rest hopen hclose ih =>
    exact hstart.goOn [c] htext fun hrest => ih hrest (by omega)
  case case11 => rfl

theorem gap_eq (h : In source cursor) :
    gap source (source.length + 1) .between (.ofCursor cursor) =
      some (gapResult cursor (Token.gapLength cursor.rest)) := by
  have hgap : gap source (source.length + 1) (modeAt cursor .between)
      (.ofCursor (cursor.advance 0)) = _ := gapFrom_eq h rfl h.length_lt
  exact hgap

/-! #### String literals -/

def frameAt (start : Cursor) : Token.Quotation → Frame
  | .line opened => .line (start.advance opened).position
  | .block opened => .block (start.advance opened).position
  | .interpolation opened depth => .interpolation (start.advance opened).position (depth + 1)

def quotationResult (start : Cursor) : Except Token.Unclosed Nat → Except Position Place
  | .ok n => .ok (.ofCursor (start.advance n))
  | .error unclosed => .error (start.advance unclosed.opened).position

/-- A literal is passed step by step. -/
theorem quotationFrom_eq {start : Cursor} (hstart : In source start)
    {stack : List Token.Quotation} {read turns : Nat} {text : List Char}
    (htext : (start.advance read).rest = text) (hturns : text.length < turns) :
    quotation source turns (stack.map (frameAt start)) (.ofCursor (start.advance read)) =
      some (quotationResult start (Token.quotationFrom stack read text)) := by
  fun_induction Token.quotationFrom stack read text generalizing turns
  all_goals
    obtain ⟨turns, rfl⟩ := Nat.exists_eq_add_one_of_ne_zero (Nat.ne_zero_of_lt hturns)
    rw [quotation, (hstart.advance _).1.rest_eq, htext]
  case case1 => rfl
  all_goals simp only [List.length_cons, List.length_nil] at hturns
  -- where a character is not known, what it is not decides on the turn
  case' case8 | case9 | case14 | case20 | case21 =>
    simp only [List.map_cons, frameAt, Option.bind_eq_bind, Option.bind_some]
  case case3 opened outer read rest ih =>
    exact hstart.goOn ['"'] htext fun hrest => ih hrest (by omega)
  case case7 opened outer read rest ih =>
    exact hstart.goOn ['\\', '('] htext fun hrest => ih hrest (by omega)
  case case8 opened outer read c rest hline hopen ih =>
    exact hstart.goOn ['\\', c] htext fun hrest => ih hrest (by omega)
  case case9 opened outer read c rest _ _ _ _ _ _ ih =>
    exact hstart.goOn [c] htext fun hrest => ih hrest (by omega)
  case case11 opened outer read rest ih =>
    exact hstart.goOn ['"', '"', '"'] htext fun hrest => ih hrest (by omega)
  case case13 opened outer read c rest ih =>
    exact hstart.goOn ['\\', c] htext fun hrest => ih hrest (by omega)
  case case14 opened outer read c rest hquotes hlast hescape ih =>
    exact hstart.goOn [c] htext fun hrest => ih hrest (by omega)
  case case16 opened depth outer read rest ih =>
    exact hstart.goOn ['('] htext fun hrest => ih hrest (by omega)
  case case17 opened outer read rest ih =>
    exact hstart.goOn [')'] htext fun hrest => ih hrest (by omega)
  case case18 opened outer read rest depth ih =>
    exact hstart.goOn [')'] htext fun hrest => ih hrest (by omega)
  case case19 opened depth outer read rest ih =>
    rw [(hstart.advance _).1.position_eq]
    exact hstart.goOn ['"', '"', '"'] htext fun hrest => ih hrest (by omega)
  case case20 opened depth outer read rest hquotes ih =>
    rw [(hstart.advance _).1.position_eq]
    exact hstart.goOn ['"'] htext fun hrest => ih hrest (by omega)
  case case21 opened depth outer read c rest _ _ _ _ ih =>
    exact hstart.goOn [c] htext fun hrest => ih hrest (by omega)
  all_goals rfl

/-- Whether line feeds are remembered or forgotten has no bearing on positions. -/
theorem position_forgetNewline (cursor : Cursor) (n : Nat) :
    (cursor.forgetNewline.advance n).position = (cursor.advance n).position := by
  have hsame : ∀ {a b : Cursor}, a.forgetNewline = b.forgetNewline →
      (a.advance n).forgetNewline = (b.advance n).forgetNewline := by
    induction n with
    | zero => exact fun h => h
    | succ n ih =>
      intro a b h
      refine ih ?_
      simp only [Cursor.forgetNewline, Cursor.mk.injEq, and_true] at h
      obtain ⟨hrest, hoffset, hline, hstart⟩ := h
      simp only [Cursor.step, hrest, hoffset, hline]
      split
      · simp only [Cursor.forgetNewline, hrest, hoffset, hline, hstart]
      · split <;> simp only [Cursor.forgetNewline, hstart]
  have hfields := hsame (a := cursor.forgetNewline) (b := cursor) rfl
  have hposition := congrArg Cursor.position hfields
  exact hposition

theorem quotation_eq (h : In source cursor) (front : List Char) {rest : List Char}
    (hrest : cursor.rest = front ++ rest) (stack : List Token.Quotation) :
    ((Place.ofCursor cursor).forgetNewline.advance source front.length >>=
        quotation source (source.length + 1) (stack.map (frameAt cursor.forgetNewline))) =
      some (quotationResult cursor.forgetNewline
        (Token.quotationFrom stack front.length rest)) := by
  have hstart : (cursor.forgetNewline.advance 0).rest = front ++ rest := hrest
  refine h.forgetNewline.goOn front hstart fun htext => ?_
  rw [Nat.zero_add] at htext ⊢
  refine quotationFrom_eq h.forgetNewline htext ?_
  have hturns := h.length_lt
  rw [hrest, List.length_append] at hturns
  omega

/-! #### Numbers -/

theorem slice_advance (h : In source cursor) {n : Nat} (hn : n ≤ cursor.rest.length) :
    slice source cursor.offset (cursor.advance n).offset = some (cursor.rest.take n) := by
  obtain ⟨before, hbehind⟩ := h
  have hfar := hbehind.advance_take hn
  rw [hfar.source_eq]
  exact slice_append hbehind.offset_eq hfar.offset_eq

theorem known_eq (h : In source cursor) {n : Nat} (hn : n ≤ cursor.rest.length) :
    known source (.ofCursor cursor) n = some (cursor.rest.take n) := by
  rw [known, (h.advance n).2]
  exact slice_advance h hn

theorem withExponent_eq (h : In source cursor) {isMark : Char → Bool} {skip read : Nat}
    {digits : List Char} (hread : read ≤ cursor.rest.length)
    (hdigits : sliceFrom (cursor.rest.take read) skip = some digits)
    (hmarks : digits.any isMark = (cursor.rest.take read).any isMark) :
    withExponent isMark skip source (.ofCursor cursor) cursor.rest read =
      some (Token.withExponent isMark cursor.rest read) := by
  rw [withExponent, known_eq h hread]
  simp only [Option.bind_eq_bind, Option.bind_some, hdigits, hmarks, Token.withExponent]
  cases (cursor.rest.take read).getLast?.any isMark with
  | false => rfl
  | true => cases Token.signedRun? (cursor.rest.drop read) <;> rfl

theorem withExponent_decimal (h : In source cursor) {read : Nat}
    (hread : read ≤ cursor.rest.length) :
    withExponent Token.isDecimalMark 0 source (.ofCursor cursor) cursor.rest read =
      some (Token.withExponent Token.isDecimalMark cursor.rest read) :=
  withExponent_eq h hread (sliceFrom_append (a := []) rfl) rfl

theorem numeral_eq (h : In source cursor) :
    numeral source (.ofCursor cursor) cursor.rest = some (Token.numeral cursor.rest) := by
  have hread := Token.numberRun_le cursor.rest
  -- of a number with no exponent only the length counts
  have hplain : Token.numeral cursor.rest = (false, Token.numberRun cursor.rest) →
      (do
        let _ ← known source (.ofCursor cursor) (Token.numberRun cursor.rest)
        some (false, Token.numberRun cursor.rest)) = some (Token.numeral cursor.rest) := by
    intro hnumeral
    rw [hnumeral, known_eq h hread]
    rfl
  unfold numeral
  split
  · next rest hrest =>
    -- the two characters of the prefix are there, and neither of them is a mark
    have htake : cursor.rest.take (Token.numberRun cursor.rest) =
        ['0', 'x'] ++ rest.take (Token.numberRun rest) := by
      rw [hrest]
      rfl
    have hdigits : sliceFrom (cursor.rest.take (Token.numberRun cursor.rest)) 2 =
        some (rest.take (Token.numberRun rest)) := by
      rw [htake]
      exact sliceFrom_append rfl
    have hnumeral : Token.numeral cursor.rest =
        Token.withExponent Token.isBinaryMark cursor.rest (Token.numberRun cursor.rest) := by
      rw [hrest]
      rfl
    rw [hnumeral]
    refine withExponent_eq h hread hdigits ?_
    rw [htake]
    rfl
  · next rest hrest =>
    refine hplain ?_
    rw [hrest]
    rfl
  · next rest hrest =>
    refine hplain ?_
    rw [hrest]
    rfl
  · next hx ho hb =>
    rw [Token.numeral]
    · cases hstop : Token.fractionEnd? cursor.rest (Token.numberRun cursor.rest) with
      | some stop =>
        simp only [hstop, withExponent_decimal h (Token.fractionEnd?_bounds hstop).2]
        rfl
      | none =>
        simp only [hstop]
        exact withExponent_decimal h hread
    · exact hx
    · exact ho
    · exact hb

/-! #### Tokens -/

/-- Only string literals can be open at the end. -/
theorem lexeme_ne_error {first : Char} {rest : List Char} {unclosed : Token.Unclosed}
    (hfirst : first ≠ '"') : Token.lexeme first rest ≠ .error unclosed := by
  intro h
  unfold Token.lexeme at h
  split at h
  case h_11 => split at h <;> cases h
  case h_12 => exact hfirst rfl
  case h_15 =>
    split at h
    · cases h
    · split at h
      · split at h <;> cases h
      · split at h <;> cases h
  all_goals cases h

theorem lexeme_of_isDigit {first : Char} {rest : List Char}
    (hname : ¬ Token.isNameStart first = true) (hdigit : first.isDigit = true) :
    Token.lexeme first rest =
      .ok ⟨if (Token.numeral (first :: rest)).1 then .float else .integer,
        (Token.numeral (first :: rest)).2⟩ := by
  unfold Token.lexeme
  split
  case h_15 =>
    rw [if_neg hname, if_pos hdigit]
    split <;> next hnumeral => simp [hnumeral]
  all_goals exact absurd hdigit (by decide)

theorem literal_eq (h : In source cursor) {rest : List Char} (hrest : cursor.rest = '"' :: rest) :
    literal source (.ofCursor cursor) rest =
      some (quotationResult cursor.forgetNewline (Token.quotationLength rest)) := by
  have hopened : cursor.position = (cursor.forgetNewline.advance 0).position :=
    (position_forgetNewline cursor 0).symm
  by_cases hthree : ∃ more, rest = '"' :: '"' :: more
  · obtain ⟨more, rfl⟩ := hthree
    rw [literal, h.position_eq, hopened]
    exact quotation_eq h ['"', '"', '"'] hrest [.block 0]
  · have hlength : Token.quotationLength rest = Token.quotationFrom [.line 0] 1 rest := by
      unfold Token.quotationLength
      split
      · next more => exact absurd ⟨more, rfl⟩ hthree
      · rfl
    have hline : literal source (.ofCursor cursor) rest = (do
        let opened ← (Place.ofCursor cursor).position
        (Place.ofCursor cursor).forgetNewline.advance source 1 >>=
          quotation source (source.length + 1) [.line opened]) := by
      unfold literal
      split
      · next more => exact absurd ⟨more, rfl⟩ hthree
      · rfl
    rw [hline, hlength, h.position_eq, hopened]
    exact quotation_eq h ['"'] hrest [.line 0]

def lexemeResult (cursor : Cursor) :
    Except Token.Unclosed Token.Lexeme → Except Position ((String → Token) × Place)
  | .ok found => .ok (found.token, .ofCursor (cursor.forgetNewline.advance found.length))
  | .error unclosed => .error (cursor.advance unclosed.opened).position

theorem lexeme_eq (h : In source cursor) {first : Char} {rest : List Char}
    (hrest : cursor.rest = first :: rest) :
    lexeme source (.ofCursor cursor) first rest =
      some (lexemeResult cursor (Token.lexeme first rest)) := by
  have hplace : ∀ n, (Place.ofCursor cursor).forgetNewline.advance source n = _ :=
    fun n => (h.forgetNewline.advance n).2
  unfold lexeme
  split
  · next hquote =>
    subst hquote
    have hlexeme : Token.lexeme '"' rest =
        (Token.quotationLength rest).map fun length => ⟨.string, length⟩ := rfl
    rw [literal_eq h hrest, hlexeme]
    cases Token.quotationLength rest with
    | ok length => rfl
    | error unclosed =>
      simp only [Option.bind_eq_bind, Option.bind_some, quotationResult, Except.map, lexemeResult,
        position_forgetNewline]
  · next hquote =>
    split
    · next hdigit =>
      rw [← hrest, numeral_eq h, lexeme_of_isDigit hdigit.1 hdigit.2, ← hrest]
      simp only [Option.bind_eq_bind, Option.bind_some, hplace]
      rfl
    · next hdigit =>
      cases hfound : Token.lexeme first rest with
      | error unclosed => exact absurd hfound (lexeme_ne_error hquote)
      | ok found =>
        simp only [hplace]
        rfl

def readResult : Except ScanError Placed × Cursor → Except ScanError (Placed × Place)
  | (.ok placed, after) => .ok (placed, .ofCursor after)
  | (.error error, _) => .error error

theorem readToken_eq (h : In source cursor) :
    readToken source (.ofCursor cursor) = some (readResult cursor.readToken) := by
  rw [readToken, h.position_eq, h.rest_eq]
  simp only [Option.bind_eq_bind, Option.bind_some, Cursor.readToken]
  cases hrest : cursor.rest with
  | nil => rfl
  | cons first rest =>
    simp only [lexeme_eq h hrest, Option.bind_some]
    cases hfound : Token.lexeme first rest with
    | error unclosed => rfl
    | ok found =>
      have hle : found.length ≤ cursor.rest.length := by
        rw [hrest, List.length_cons]
        exact (Token.lexeme_spelling hfound).2.1
      have htext : slice source (Place.ofCursor cursor).offset
          (Place.ofCursor (cursor.forgetNewline.advance found.length)).offset =
            some ((first :: rest).take found.length) := by
        rw [← hrest]
        exact slice_advance h.forgetNewline hle
      simp only [lexemeResult, htext, Option.bind_some]
      rfl

theorem nextToken_eq (h : In source cursor) :
    nextToken source (.ofCursor cursor) = some (readResult cursor.next) := by
  rw [nextToken, gap_eq h, Cursor.next]
  cases Token.gapLength cursor.rest with
  | error opened => rfl
  | ok length => exact readToken_eq (h.advance length).1

/-- A cursor that has read a token stands in the source, with less of it to come. -/
theorem In.next (h : In source cursor) {placed : Placed} {after : Cursor}
    (hnext : cursor.next = (.ok placed, after)) (hend : placed.token ≠ .endOfInput) :
    In source after ∧ after.rest.length < cursor.rest.length := by
  obtain ⟨before, hbehind⟩ := h
  obtain ⟨gap, rest, hrest, -, hover | ⟨-, text, tail, rfl, hreads, -, -, hafter, htail, -⟩⟩ :=
    Cursor.next_eq_ok hbehind hnext
  · obtain ⟨-, -, rfl⟩ := hover
    exact absurd rfl hend
  · refine ⟨⟨_, hafter⟩, ?_⟩
    have hpos := List.length_pos_iff.2 hreads.ne_nil
    rw [htail, hrest, List.length_append, List.length_append]
    omega

theorem tokensFrom_eq (h : In source cursor) {limit : Nat} (hlimit : cursor.rest.length < limit) :
    tokensFrom source limit (.ofCursor cursor) = some (Memberwise.tokensFrom limit cursor) := by
  induction limit generalizing cursor with
  | zero => omega
  | succ limit ih =>
    rw [tokensFrom, nextToken_eq h, Memberwise.tokensFrom]
    cases hnext : cursor.next with
    | mk outcome after =>
      cases outcome with
      | error error => rfl
      | ok placed =>
        simp only [readResult, Option.bind_eq_bind, Option.bind_some]
        by_cases hend : placed.token = .endOfInput
        · rw [hend]
        · obtain ⟨hafter, hlt⟩ := h.next hnext hend
          rw [ih hafter (by omega)]
          cases htoken : placed.token with
          | endOfInput => exact absurd htoken hend
          | _ => rfl

end Agreement

/-- **Cutting a source into tokens is defined on every source**: no column and no depth goes
    below zero, and no text is sliced off the source at a wrong place. -/
theorem tokenize_eq (source : List Char) :
    tokenize source = some (Memberwise.tokenize source) :=
  tokensFrom_eq (In.start source) (Nat.lt_succ_self _)

end Memberwise.Checked
