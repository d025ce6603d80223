/-
  Memberwise/Text/Terminal.lean
  =============================
  **Text for a terminal.**

  A failure is reported with pieces of the source and with file names in it, which
  may hold characters that a terminal acts upon: escape, bell, backspace, form
  feed, delete, and the controls between ASCII and Latin-1.  Such characters are
  written by their code.  All others stay as they are, line feeds and tabs among
  them, and so do backslashes.
-/
import Memberwise.Text.Printable

namespace Memberwise.Text

/-- Whether a terminal acts upon an ASCII character, beyond the layout of lines. -/
def isShortCommand (c : Char) : Bool := [0x07, 0x08, 0x0C, 0x1B, 0x7F].contains c.toNat

def isLongCommand (c : Char) : Bool := 0x80 ≤ c.toNat && c.toNat ≤ 0x9F

def isCommand (c : Char) : Bool := isShortCommand c || isLongCommand c

def tamedChar (c : Char) : List Char :=
  let digits := hexDigits c.toNat
  if isShortCommand c then ['\\', 'x'] ++ List.replicate (2 - digits.length) '0' ++ digits
  else if isLongCommand c then ['\\', 'u', '\x7b'] ++ digits ++ ['\x7d']
  else [c]

def tamed (text : String) : String := String.ofList (text.toList.flatMap tamedChar)

/-! ### Nothing is left to act upon -/

/-- Commands are below U+00A0. -/
theorem toNat_lt_of_isCommand {c : Char} (h : isCommand c = true) : c.toNat < 0xA0 := by
  simp only [isCommand, isShortCommand, isLongCommand, List.contains_cons, List.contains_nil,
    Bool.or_false, Bool.or_eq_true, Bool.and_eq_true, beq_iff_eq, decide_eq_true_eq] at h
  omega

/-- The digits of a command are no commands. -/
theorem isCommand_hexDigits {n : Nat} (hn : n < 0xA0) {c : Char} (hc : c ∈ hexDigits n) :
    isCommand c = false := by
  have all : ((List.range 0xA0).all fun n => (hexDigits n).all (!isCommand ·)) = true := by
    decide +kernel
  have digits := List.all_eq_true.1 all n (List.mem_range.2 hn)
  simpa using List.all_eq_true.1 digits c hc

/-- What a terminal gets for a character holds no command. -/
theorem isCommand_tamedChar {c d : Char} (hd : d ∈ tamedChar c) : isCommand d = false := by
  have digits (h : isCommand c = true) (hd : d ∈ hexDigits c.toNat) : isCommand d = false :=
    isCommand_hexDigits (toNat_lt_of_isCommand h) hd
  simp only [tamedChar] at hd
  split at hd
  · next h =>
    simp only [List.mem_append, List.mem_cons, List.not_mem_nil, List.mem_replicate, or_false]
      at hd
    rcases hd with ((rfl | rfl) | ⟨-, rfl⟩) | hd
    · decide
    · decide
    · decide
    · exact digits (by simp [isCommand, h]) hd
  · split at hd
    · next h =>
      simp only [List.mem_append, List.mem_cons, List.not_mem_nil, or_false] at hd
      rcases hd with ((rfl | rfl | rfl) | hd) | rfl
      · decide
      · decide
      · decide
      · exact digits (by simp [isCommand, h]) hd
      · decide
    · next hs hl =>
      -- what is neither kind of command stands for itself
      rw [List.mem_singleton.1 hd]
      simp [isCommand, hs, hl]

/-- What a terminal gets holds no command. -/
theorem isCommand_tamed {text : String} {d : Char} (hd : d ∈ (tamed text).toList) :
    isCommand d = false := by
  simp only [tamed, String.toList_ofList, List.mem_flatMap] at hd
  obtain ⟨c, -, hc⟩ := hd
  exact isCommand_tamedChar hc

end Memberwise.Text
