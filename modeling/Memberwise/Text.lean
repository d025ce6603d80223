/-
  Memberwise/Text.lean
  ====================
  **Texts, and places in them.**

  A text is a list of characters, and a place in it is the number of bytes that
  the characters before it take in UTF-8.  This file measures texts in bytes and
  cuts them at byte offsets.  Cuts are recursive on the characters, so an offset
  inside a character is never taken apart: `isBoundary` tells such offsets from
  the ones that stand between two characters.

  A line ends at a line feed, and a carriage return directly before the line feed
  belongs to the ending.  A carriage return anywhere else is an ordinary character.
  The ending of the last line opens no further line.

  Blank are the characters with the Unicode property White_Space.  The property
  covers more than the four characters that separate tokens: form feeds,
  non-breaking spaces and the line and paragraph separators are blank too.

  A span is a stretch of source between two byte offsets, together with the line
  and the column of its start.  Lines and columns count from one, and columns
  count bytes.  Nodes that no source text stands behind have a span with line zero.
-/

namespace Memberwise

namespace Text

/-! ### Bytes -/

/-- Number of bytes that a text takes in UTF-8. -/
def width : List Char → Nat
  | [] => 0
  | c :: rest => c.utf8Size + width rest

/-- What follows byte offset `n`.  An offset inside a character counts as the
    offset after it. -/
def dropBytes : Nat → List Char → List Char
  | _, [] => []
  | 0, c :: rest => c :: rest
  | n + 1, c :: rest => dropBytes (n + 1 - c.utf8Size) rest

/-- What stands before byte offset `n`.  An offset inside a character counts as
    the offset after it. -/
def takeBytes : Nat → List Char → List Char
  | _, [] => []
  | 0, _ :: _ => []
  | n + 1, c :: rest => c :: takeBytes (n + 1 - c.utf8Size) rest

/-- Whether byte offset `n` lies in the text and between two characters, the two
    ends of the text included. -/
def isBoundary : Nat → List Char → Bool
  | 0, _ => true
  | _ + 1, [] => false
  | n + 1, c :: rest => decide (c.utf8Size ≤ n + 1) && isBoundary (n + 1 - c.utf8Size) rest

def slice (text : List Char) (start stop : Nat) : List Char :=
  takeBytes (stop - start) (dropBytes start text)

/-! Measures and cuts of concatenations. -/

@[simp] theorem width_append (a b : List Char) : width (a ++ b) = width a + width b := by
  induction a with
  | nil => simp [width]
  | cons c rest ih => simp [width, ih, Nat.add_assoc]

/-- The two parts of a cut make up the text, wherever the cut falls. -/
@[simp] theorem takeBytes_append_dropBytes (n : Nat) (text : List Char) :
    takeBytes n text ++ dropBytes n text = text := by
  fun_induction takeBytes n text with
  | case1 => simp [dropBytes]
  | case2 => simp [dropBytes]
  | case3 n c rest ih => simp [dropBytes, ih]

/-- Cutting at the width of the first part gives the second part back. -/
@[simp] theorem dropBytes_width_append (a b : List Char) : dropBytes (width a) (a ++ b) = b := by
  induction a with
  | nil => cases b <;> simp [width, dropBytes]
  | cons c rest ih =>
    -- a character takes at least one byte, so the offset is not zero here
    obtain ⟨m, hm⟩ : ∃ m, c.utf8Size + width rest = m + 1 :=
      ⟨c.utf8Size + width rest - 1, by have := c.utf8Size_pos; omega⟩
    have hw : m + 1 - c.utf8Size = width rest := by omega
    simp only [width, List.cons_append, hm, dropBytes, hw, ih]

/-- Cutting at the width of the first part gives the first part back. -/
@[simp] theorem takeBytes_width_append (a b : List Char) : takeBytes (width a) (a ++ b) = a := by
  have h := takeBytes_append_dropBytes (width a) (a ++ b)
  rw [dropBytes_width_append] at h
  exact List.append_cancel_right h

/-! ### Lines -/

/-- The lines of a text, without their endings. -/
def lines : List Char → List (List Char)
  | [] => []
  | '\n' :: rest => [] :: lines rest
  | '\r' :: '\n' :: rest => [] :: lines rest
  | c :: rest =>
    match lines rest with
    | [] => [[c]]
    | line :: more => (c :: line) :: more

def lastLine (text : List Char) : List Char := (text.reverse.takeWhile (· != '\n')).reverse

def hasReturnedLine : List Char → Bool
  | [] => false
  | '\r' :: '\n' :: _ => true
  | _ :: rest => hasReturnedLine rest

/-- A text with `ending` in place of each line feed. -/
def withLineEnding (ending : List Char) (text : List Char) : List Char :=
  text.flatMap fun c => if c = '\n' then ending else [c]

/-! ### Blanks -/

/-- Whether a character has the Unicode property White_Space. -/
def isBlank (c : Char) : Bool :=
  let n := c.toNat
  (0x09 ≤ n && n ≤ 0x0D) || n == 0x20 || n == 0x85 || n == 0xA0 || n == 0x1680 ||
  (0x2000 ≤ n && n ≤ 0x200A) || n == 0x2028 || n == 0x2029 || n == 0x202F || n == 0x205F ||
  n == 0x3000

def leadingBlanks (text : List Char) : List Char := text.takeWhile isBlank

def trimEnd (text : List Char) : List Char := (text.reverse.dropWhile isBlank).reverse

end Text

/-! ### Spans -/

/-- A line and a column, both counted from one. -/
structure Position where
  line : Nat
  column : Nat
deriving DecidableEq, Repr

def Position.text (place : Position) : String :=
  toString place.line ++ ":" ++ toString place.column

/-- The bytes of a source text from `start` up to `stop`; `line` and `column` are
    those of `start`. -/
structure Span where
  start : Nat
  stop : Nat
  line : Nat
  column : Nat
deriving DecidableEq, Repr

namespace Span

def nowhere : Span := ⟨0, 0, 0, 0⟩

def isNowhere (span : Span) : Bool := span.line == 0

def position (span : Span) : Position := ⟨span.line, span.column⟩

def upTo (span : Span) (stop : Nat) : Span := { span with stop := stop }

end Span

end Memberwise
