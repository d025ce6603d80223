/-
  Memberwise/Reading/Stream.lean
  ==============================
  **Readers of tokens.**

  A reader takes tokens from the front of a stream, and gives a result or an
  error.  The stream knows where the last token taken ended, and it collects the
  spans of the attributes that turned out to request something.  The end of input
  is not among the pending tokens; it stands behind them and is never taken.
-/
import Memberwise.Member
import Memberwise.ReadError

namespace Memberwise

structure TokenStream where
  /-- The tokens still to be read. -/
  pending : List Placed
  /-- The end of input. -/
  finish : Placed
  /-- Where the last token taken ends. -/
  readTo : Nat
  /-- Spans of the attributes that request something, in source order. -/
  requests : List Span
deriving DecidableEq, Repr

namespace TokenStream

def start (tokens : Tokens) : TokenStream := ⟨tokens.body, tokens.finish, 0, []⟩

def head (stream : TokenStream) : Placed := stream.pending.headD stream.finish

def second (stream : TokenStream) : Placed := stream.pending.tail.headD stream.finish

end TokenStream

abbrev Reader := StateT TokenStream (Except ReadError)

/-- A way to part a list of tokens: those to take, and those to leave. -/
abbrev Run := List Placed → List Placed × List Placed

namespace Reader

def failAt {α : Type} (place : Position) (fault : Fault) : Reader α :=
  fun _ => .error (.malformed place fault)

def expected {α : Type} (what : Expected) : Reader α :=
  fun stream =>
    .error (.malformed stream.head.span.position (.expected what stream.head.token))

def tooLong {α : Type} : Reader α :=
  fun stream => .error (.malformed stream.head.span.position .tooLong)

def peek : Reader Placed := fun stream => .ok (stream.head, stream)

/-- Takes the next token.  The end of input is given as often as it is asked for. -/
def next : Reader Placed := fun stream =>
  match stream.pending with
  | [] => .ok (stream.finish, stream)
  | placed :: rest => .ok (placed, { stream with pending := rest, readTo := placed.span.stop })

def take (run : Run) : Reader (List Placed) := fun stream =>
  let (taken, rest) := run stream.pending
  let readTo := (taken.getLast?.map (·.span.stop)).getD stream.readTo
  .ok (taken, { stream with pending := rest, readTo := readTo })

def name : Reader Pattern := do
  match (← peek).token with
  | .name text => return ⟨text, (← next).span⟩
  | _ => expected .name

def note (spans : List Span) : Reader Unit := fun stream =>
  .ok ((), { stream with requests := stream.requests ++ spans })

def typed {α : Type} (span : Span) (result : Except ArgumentError α) : Reader α :=
  fun stream =>
    match result with
    | .ok value => .ok (value, stream)
    | .error cause => .error (.argument span.position cause)

end Reader

end Memberwise
