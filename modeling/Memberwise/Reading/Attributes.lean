/-
  Memberwise/Reading/Attributes.lean
  ==================================
  **Reading attributes and modifiers.**

  Attributes come first, modifiers behind them.  A parenthesis belongs to an
  attribute or a modifier only if it follows without a gap.
-/
import Memberwise.Attribute
import Memberwise.Reading.Expression

namespace Memberwise.Reader

def label? : Reader (Option String) := do
  let stream ← get
  match stream.head.token, stream.second.token with
  | .name label, .colon => let _ ← next; let _ ← next; return some label
  | _, _ => return none

/-- Reads arguments up to the closing parenthesis, which is left. -/
def arguments (source : List Char) : Nat → Reader (List Argument)
  | 0 => tooLong
  | limit + 1 => do
    match (← peek).token with
    | .closing .round => return []
    | _ =>
      let label? ← label?
      let value ← expr source false
      match (← peek).token with
      | .comma =>
        let _ ← next
        return ⟨label?, value⟩ :: (← arguments source limit)
      | .closing .round => return ⟨label?, value⟩ :: (← arguments source limit)
      | _ => expected .argumentEnd

def attr (source : List Char) : Reader Attribute := do
  let sign ← next
  let name ← name
  if opensArguments name.span (← peek) then
    let _ ← next
    let arguments ← arguments source (readingLimit source)
    let close ← next
    return ⟨name.name, arguments, sign.span.upTo close.span.stop⟩
  else
    return ⟨name.name, [], sign.span.upTo name.span.stop⟩

def attributes (source : List Char) : Nat → Reader (List Attribute)
  | 0 => tooLong
  | limit + 1 => do
    match (← peek).token with
    | .atSign =>
      let first ← attr source
      return first :: (← attributes source limit)
    | _ => return []

/-- Takes modifiers as long as there are any; gives whether one of them makes a
    member static. -/
def modifiers : Reader Bool := fun stream =>
  let (isStatic, run) := modifierRun 0 stream.pending
  (take (fun _ => run) stream).map fun (_, after) => (isStatic, after)

end Memberwise.Reader
