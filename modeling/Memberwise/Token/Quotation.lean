/-
  Memberwise/Token/Quotation.lean
  ===============================
  **String literals.**

  A literal starts with one quote or with three.  One with three quotes runs to
  the next three quotes, whatever lines it crosses, and a backslash in it keeps
  the character behind it from being read.  One with a single quote ends on its
  line; it may hold interpolations `\( … )`, in which parentheses balance and
  further literals of both kinds may stand.

  The reader of a literal goes over the characters once.  It keeps a stack of
  what is open at the place where it stands, innermost first, and is done when
  the stack is empty.
-/

namespace Memberwise.Token

/-- Something that is open inside a string literal.  Each entry keeps the place
    of the literal it belongs to, in characters from the start of the outermost
    one. -/
inductive Quotation where
  /-- A literal with single quotes. -/
  | line (opened : Nat)
  /-- A literal with three quotes. -/
  | block (opened : Nat)
  /-- An interpolation, with `depth` parentheses open in it. -/
  | interpolation (opened depth : Nat)
deriving DecidableEq, Repr

/-- A literal that does not end: where it opened, and how far it was read. -/
structure Unclosed where
  opened : Nat
  read : Nat
deriving DecidableEq, Repr

/-- Reads a string literal on from a place `read` characters into it, with the
    given things open.  The result is the number of characters of the whole
    literal. -/
def quotationFrom : List Quotation → Nat → List Char → Except Unclosed Nat
  | [], read, _ => .ok read
  | .line opened :: outer, read, text =>
    match text with
    | [] => .error ⟨opened, read⟩
    | '"' :: rest => quotationFrom outer (read + 1) rest
    | '\n' :: _ => .error ⟨opened, read + 1⟩
    | '\\' :: [] => .error ⟨opened, read + 1⟩
    | '\\' :: '\n' :: _ => .error ⟨opened, read + 2⟩
    | '\\' :: '(' :: rest =>
      quotationFrom (.interpolation opened 0 :: .line opened :: outer) (read + 2) rest
    | '\\' :: _ :: rest => quotationFrom (.line opened :: outer) (read + 2) rest
    | _ :: rest => quotationFrom (.line opened :: outer) (read + 1) rest
  | .block opened :: outer, read, text =>
    match text with
    | [] => .error ⟨opened, read⟩
    | '"' :: '"' :: '"' :: rest => quotationFrom outer (read + 3) rest
    | '\\' :: [] => .error ⟨opened, read + 1⟩
    | '\\' :: _ :: rest => quotationFrom (.block opened :: outer) (read + 2) rest
    | _ :: rest => quotationFrom (.block opened :: outer) (read + 1) rest
  | .interpolation opened depth :: outer, read, text =>
    match text with
    | [] => .error ⟨opened, read⟩
    | '(' :: rest => quotationFrom (.interpolation opened (depth + 1) :: outer) (read + 1) rest
    | ')' :: rest =>
      match depth with
      | 0 => quotationFrom outer (read + 1) rest
      | depth + 1 => quotationFrom (.interpolation opened depth :: outer) (read + 1) rest
    | '"' :: '"' :: '"' :: rest =>
      quotationFrom (.block read :: .interpolation opened depth :: outer) (read + 3) rest
    | '"' :: rest =>
      quotationFrom (.line read :: .interpolation opened depth :: outer) (read + 1) rest
    | _ :: rest => quotationFrom (.interpolation opened depth :: outer) (read + 1) rest

/-- Number of characters of the string literal that starts with a quote and goes
    on with `rest`. -/
def quotationLength (rest : List Char) : Except Unclosed Nat :=
  match rest with
  | '"' :: '"' :: more => quotationFrom [.block 0] 3 more
  | _ => quotationFrom [.line 0] 1 rest

end Memberwise.Token
