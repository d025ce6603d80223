/-
  Memberwise/Token/Scan.lean
  ==========================
  **From source text to placed tokens.**

  A cursor moves over the characters one by one and keeps count of what lies
  behind it: the bytes, the line feeds, and the offset at which the line began.
  It also remembers whether it has passed a line feed since it was last told to
  forget it.

  A gap is made of spaces, tabs, carriage returns, line feeds and comments.  A
  line comment runs up to a line feed or to the end of the text.  Block comments
  nest, and one that is still open at the end of the text is an error that points
  at its outermost opening.  The reader of a gap goes over the characters once;
  its mode tells which comment it is in.

  Reading a token passes the gap in front of it, reads the lexeme behind the gap
  and gives the token its span.  A string or a comment that does not end is an
  error; the cursor is then left where the reader gave up, from where reading can
  go on.
-/
import Memberwise.Token.Lexeme

namespace Memberwise

/-! ### Cursors -/

structure Cursor where
  /-- What is still to be read. -/
  rest : List Char
  /-- Number of bytes read. -/
  offset : Nat
  /-- Line of the place, counted from one. -/
  line : Nat
  /-- Offset at which that line starts. -/
  lineStart : Nat
  /-- Whether a line feed was passed since the last token began. -/
  passedNewline : Bool
deriving DecidableEq, Repr

namespace Cursor

/-- The start of a text.  The first token counts as being on a new line. -/
def start (text : List Char) : Cursor := ⟨text, 0, 1, 0, true⟩

/-- The place one character further; the end stays where it is. -/
def step (place : Cursor) : Cursor :=
  match place.rest with
  | [] => place
  | c :: rest =>
    let offset := place.offset + c.utf8Size
    if c = '\n' then ⟨rest, offset, place.line + 1, offset, true⟩
    else { place with rest := rest, offset := offset }

def advance (place : Cursor) : Nat → Cursor
  | 0 => place
  | n + 1 => place.step.advance n

/-- Line and byte column of a place. -/
def position (place : Cursor) : Position :=
  ⟨place.line, place.offset - place.lineStart + 1⟩

def spanTo (place stop : Cursor) : Span :=
  ⟨place.offset, stop.offset, place.position.line, place.position.column⟩

def forgetNewline (place : Cursor) : Cursor := { place with passedNewline := false }

end Cursor

/-! ### Gaps -/

namespace Token

def isSeparator (c : Char) : Bool := c == ' ' || c == '\t' || c == '\r' || c == '\n'

inductive GapMode where
  | between
  | lineComment
  /-- Inside a block comment whose outermost `/*` was `opened` characters into the
      gap, with `depth` further comments nested around the place. -/
  | blockComment (opened depth : Nat)
deriving DecidableEq, Repr

/-- The mode behind the end of a block comment that has `depth` comments around
    it. -/
def GapMode.afterBlock (opened : Nat) : Nat → GapMode
  | 0 => .between
  | depth + 1 => .blockComment opened depth

/-- Reads a gap on from a place `read` characters into it.  The result is the
    number of characters of the whole gap; the error is the number of characters
    in front of the block comment that is never closed. -/
def gapFrom : GapMode → Nat → List Char → Except Nat Nat
  | .between, read, '/' :: '/' :: rest => gapFrom .lineComment (read + 2) rest
  | .between, read, '/' :: '*' :: rest => gapFrom (.blockComment read 0) (read + 2) rest
  | .between, read, c :: rest =>
    if isSeparator c then gapFrom .between (read + 1) rest else .ok read
  | .between, read, [] => .ok read
  | .lineComment, read, c :: rest =>
    gapFrom (if c = '\n' then .between else .lineComment) (read + 1) rest
  | .lineComment, read, [] => .ok read
  | .blockComment opened depth, read, '/' :: '*' :: rest =>
    gapFrom (.blockComment opened (depth + 1)) (read + 2) rest
  | .blockComment opened depth, read, '*' :: '/' :: rest =>
    gapFrom (.afterBlock opened depth) (read + 2) rest
  | .blockComment opened depth, read, _ :: rest =>
    gapFrom (.blockComment opened depth) (read + 1) rest
  | .blockComment opened _, _, [] => .error opened

/-- Number of characters of the gap that a text starts with, or the number of
    characters in front of a block comment that is never closed. -/
def gapLength (text : List Char) : Except Nat Nat := gapFrom .between 0 text

end Token

/-! ### Tokens -/

/-- Why a text is no sequence of tokens.  Both errors point at the opening. -/
inductive ScanError where
  | unterminatedString (start : Position)
  | unterminatedComment (start : Position)
deriving DecidableEq, Repr

namespace ScanError

def position : ScanError → Position
  | unterminatedString start | unterminatedComment start => start

def message : ScanError → String
  | unterminatedString start => "unterminated string literal starting at " ++ start.text
  | unterminatedComment start => "unterminated block comment starting at " ++ start.text

end ScanError

namespace Cursor

def endToken (place : Cursor) : Placed :=
  ⟨.endOfInput, place.spanTo place, place.passedNewline⟩

def readToken (place : Cursor) : Except ScanError Placed × Cursor :=
  let fresh := place.forgetNewline
  match place.rest with
  | [] => (.ok place.endToken, fresh)
  | first :: rest =>
    match Token.lexeme first rest with
    | .error unclosed =>
      (.error (.unterminatedString (place.advance unclosed.opened).position),
        fresh.advance unclosed.read)
    | .ok lexeme =>
      let after := fresh.advance lexeme.length
      let text := String.ofList ((first :: rest).take lexeme.length)
      (.ok ⟨lexeme.token text, place.spanTo after, place.passedNewline⟩, after)

/-- Reads the next token.  At the end of the text that is the end of input, as
    often as it is asked for. -/
def next (place : Cursor) : Except ScanError Placed × Cursor :=
  match Token.gapLength place.rest with
  | .error opened =>
    (.error (.unterminatedComment (place.advance opened).position),
      place.advance place.rest.length)
  | .ok length => (place.advance length).readToken

end Cursor

/-- The tokens of a whole text, the end of input apart. -/
structure Tokens where
  body : List Placed
  finish : Placed
deriving DecidableEq, Repr

/-- All tokens in order; the last one is the end of input. -/
def Tokens.toList (tokens : Tokens) : List Placed := tokens.body ++ [tokens.finish]

def tokensFrom : Nat → Cursor → Except ScanError Tokens
  | 0, place => .ok ⟨[], place.endToken⟩
  | limit + 1, place =>
    match place.next with
    | (.error error, _) => .error error
    | (.ok placed, after) =>
      match placed.token with
      | .endOfInput => .ok ⟨[], placed⟩
      | _ => (tokensFrom limit after).map fun more => ⟨placed :: more.body, more.finish⟩

/-- The tokens of a source text.  Each token takes at least one character, so the
    limit is never reached. -/
def tokenize (source : List Char) : Except ScanError Tokens :=
  tokensFrom (source.length + 1) (.start source)

/-- The outcomes of reading a number of tokens one after another, going on after
    errors and after the end of input. -/
def readTokens : Nat → Cursor → List (Except ScanError Placed)
  | 0, _ => []
  | count + 1, place =>
    let (outcome, after) := place.next
    outcome :: readTokens count after

end Memberwise
