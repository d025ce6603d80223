/-
  Memberwise/Proofs/Numerals.lean
  ===============================
  **Numbers that are read whole.**

  The reader of numbers looks at no digits.  It goes over letters, digits and underscores
  alike, and which sort of number they make is decided afterwards, by the marks among them and
  by what follows.  Numbers are given here by their parts instead: digits of a base, a
  fraction, and an exponent with or without a sign (`Numeral`).

  Digits of a base are no marks of its exponents, so a mark among the characters that are
  read in one go shows an exponent.  What is read in one go ends in front of the point of a
  fraction, or in front of the sign of an exponent; an exponent without a sign is part of it.

  A hexadecimal number may have a fraction in front of its exponent, and then it is not read
  whole: the reader knows fractions of decimal numbers only, and stops at the point.
-/
import Memberwise.Proofs.Interpolations

namespace Memberwise

namespace Token

/-! ### Numbers by their parts -/

/-- A digit, and behind it digits and underscores. -/
structure Digits (isDigit : Char → Bool) where
  first : Char
  more : List Char
  first_isDigit : isDigit first = true
  more_isDigit : ∀ c ∈ more, isDigit c = true ∨ c = '_'

def Digits.text {isDigit : Char → Bool} (digits : Digits isDigit) : List Char :=
  digits.first :: digits.more

inductive Radix where
  | hexadecimal
  | octal
  | binary
deriving DecidableEq

namespace Radix

def letter : Radix → Char
  | hexadecimal => 'x'
  | octal => 'o'
  | binary => 'b'

def digits : Radix → List Char
  | hexadecimal => "0123456789abcdefABCDEF".toList
  | octal => "01234567".toList
  | binary => "01".toList

def isDigit (radix : Radix) (c : Char) : Bool := radix.digits.contains c

def written (radix : Radix) (digits : Digits radix.isDigit) : List Char :=
  '0' :: radix.letter :: digits.text

end Radix

structure Exponent (isMark : Char → Bool) where
  mark : Char
  sign? : Option Char
  power : Digits Char.isDigit
  mark_isMark : isMark mark = true
  sign_eq : ∀ sign ∈ sign?, sign = '+' ∨ sign = '-'

inductive Numeral where
  | decimal (digits : Digits Char.isDigit) (fraction? : Option (Digits Char.isDigit))
      (exponent? : Option (Exponent isDecimalMark))
  | prefixed (radix : Radix) (digits : Digits radix.isDigit)
  | hexadecimal (digits : Digits Radix.hexadecimal.isDigit)
      (fraction? : Option (Digits Radix.hexadecimal.isDigit)) (exponent : Exponent isBinaryMark)

def fractionText {isDigit : Char → Bool} : Option (Digits isDigit) → List Char
  | some digits => '.' :: digits.text
  | none => []

def exponentText {isMark : Char → Bool} : Option (Exponent isMark) → List Char
  | some exponent => exponent.mark :: (exponent.sign?.toList ++ exponent.power.text)
  | none => []

namespace Numeral

def text : Numeral → List Char
  | decimal digits fraction? exponent? =>
    digits.text ++ fractionText fraction? ++ exponentText exponent?
  | prefixed radix digits => radix.written digits
  | hexadecimal digits fraction? exponent =>
    Radix.hexadecimal.written digits ++ fractionText fraction? ++ exponentText (some exponent)

def isFloat : Numeral → Bool
  | decimal _ fraction? exponent? => fraction?.isSome || exponent?.isSome
  | prefixed _ _ => false
  | hexadecimal _ _ _ => true

def token (number : Numeral) : Token :=
  (if number.isFloat then Token.float else .integer) (String.ofList number.text)

/-- What stands in front of the point of a hexadecimal number, if it has one. -/
def beforePoint? : Numeral → Option (List Char)
  | hexadecimal digits (some _) _ => some (Radix.hexadecimal.written digits)
  | _ => none

end Numeral

def EndsRun (after : List Char) : Prop := ∀ c ∈ after.head?, isNumberPart c = false

structure EndsNumber (after : List Char) : Prop where
  run : EndsRun after
  no_point : after.head? ≠ some '.'

/-! ### Characters of numbers -/

theorem isNumberPart_of_isDigit {c : Char} (h : c.isDigit = true) : isNumberPart c = true := by
  simp [isNumberPart, Char.isAlphanum, h]

theorem not_isNameStart_of_isDigit {c : Char} (h : c.isDigit = true) :
    ¬ isNameStart c = true := by
  intro hstart
  change (decide ('0'.val ≤ c.val) && decide (c.val ≤ '9'.val)) = true at h
  change ((((decide ('A'.val ≤ c.val ∧ c.val ≤ 'Z'.val) ||
    (decide ('a'.val ≤ c.val) && decide (c.val ≤ 'z'.val))) || c == '_') || c == '$') ||
    decide (0x80 ≤ c.toNat)) = true at hstart
  simp only [Bool.or_eq_true, Bool.and_eq_true, decide_eq_true_eq, UInt32.le_iff_toNat_le,
    beq_iff_eq] at h hstart
  change 48 ≤ c.toNat ∧ c.toNat ≤ 57 at h
  change (((65 ≤ c.toNat ∧ c.toNat ≤ 90 ∨ 97 ≤ c.toNat ∧ c.toNat ≤ 122) ∨ c = '_') ∨ c = '$') ∨
    0x80 ≤ c.toNat at hstart
  rcases hstart with ((hletter | rfl) | rfl) | hother
  · omega
  · revert h; decide
  · revert h; decide
  · omega

theorem ne_of_isDigit {c d : Char} (h : c.isDigit = true) (hd : d.isDigit = false) : c ≠ d := by
  rintro rfl
  rw [h] at hd
  cases hd

/-- No gap starts with a digit. -/
theorem noGap_of_isDigit {c : Char} (h : c.isDigit = true) (rest : List Char) :
    NoGap (c :: rest) := by
  have hblank : c ≠ ' ' ∧ c ≠ '\t' ∧ c ≠ '\r' ∧ c ≠ '\n' :=
    ⟨ne_of_isDigit h (by decide), ne_of_isDigit h (by decide), ne_of_isDigit h (by decide),
      ne_of_isDigit h (by decide)⟩
  exact noGap_of_ne ⟨by simp [isSeparator, hblank], ne_of_isDigit h (by decide)⟩ rest

theorem Radix.isNumberPart_of_isDigit {radix : Radix} {c : Char} (h : radix.isDigit c = true) :
    isNumberPart c = true := by
  have hall : radix.digits.all isNumberPart = true := by cases radix <;> decide
  exact List.all_eq_true.1 hall c (List.contains_iff_mem.1 h)

/-- What holds of the digits of a base and of the underscore holds of all characters of some
    digits. -/
theorem Digits.forall_mem {isDigit p : Char → Bool} (digits : Digits isDigit)
    (hdigit : ∀ c, isDigit c = true → p c = true) (hunderscore : p '_' = true) :
    ∀ c ∈ digits.text, p c = true := by
  intro c hc
  rcases List.mem_cons.1 hc with rfl | hmore
  · exact hdigit _ digits.first_isDigit
  · rcases digits.more_isDigit c hmore with hc | rfl
    · exact hdigit c hc
    · exact hunderscore

theorem Digits.isNumberPart (digits : Digits Char.isDigit) :
    ∀ c ∈ digits.text, isNumberPart c = true :=
  digits.forall_mem (fun _ => isNumberPart_of_isDigit) (by decide)

theorem Radix.isNumberPart_written (radix : Radix) (digits : Digits radix.isDigit) :
    ∀ c ∈ radix.written digits, isNumberPart c = true := by
  intro c hc
  rcases List.mem_cons.1 hc with rfl | hc
  · decide
  · rcases List.mem_cons.1 hc with rfl | hc
    · cases radix <;> decide
    · exact digits.forall_mem (fun _ => Radix.isNumberPart_of_isDigit) (by decide) c hc

theorem numberRun_append {front rest : List Char} (hfront : ∀ c ∈ front, isNumberPart c = true)
    (hrest : EndsRun rest) : numberRun (front ++ rest) = front.length :=
  takeWhile_append_length.2 ⟨hfront, hrest⟩

theorem EndsRun.append {text after : List Char} (hafter : EndsRun after) (htext : EndsRun text) :
    EndsRun (text ++ after) := by
  cases text with
  | nil => exact hafter
  | cons c text => exact htext

theorem EndsNumber.append {text after : List Char} (hafter : EndsNumber after)
    (htext : EndsNumber text) : EndsNumber (text ++ after) := by
  cases text with
  | nil => exact hafter
  | cons c text => exact ⟨htext.run, htext.no_point⟩

/-! ### Exponents -/

/-- Characters that mark an exponent are read with the digits, but are no decimal digits
    themselves. -/
structure MarksExponent (isMark : Char → Bool) : Prop where
  part : ∀ c, isMark c = true → isNumberPart c = true
  no_digit : ∀ c, c.isDigit = true → isMark c = false
  no_underscore : isMark '_' = false

theorem marksExponent_of_pair {lower upper : Char}
    (hpart : isNumberPart lower = true ∧ isNumberPart upper = true)
    (hdigit : lower.isDigit = false ∧ upper.isDigit = false)
    (hunderscore : '_' ≠ lower ∧ '_' ≠ upper) :
    MarksExponent fun c => c == lower || c == upper where
  part := by
    intro c hc
    rcases Bool.or_eq_true_iff.1 hc with hlower | hupper
    · rw [beq_iff_eq.1 hlower]
      exact hpart.1
    · rw [beq_iff_eq.1 hupper]
      exact hpart.2
  no_digit := by
    intro c hc
    rw [Bool.or_eq_false_iff, beq_eq_false_iff_ne, beq_eq_false_iff_ne]
    exact ⟨ne_of_isDigit hc hdigit.1, ne_of_isDigit hc hdigit.2⟩
  no_underscore := by
    rw [Bool.or_eq_false_iff, beq_eq_false_iff_ne, beq_eq_false_iff_ne]
    exact hunderscore

theorem marksExponent_decimal : MarksExponent isDecimalMark :=
  marksExponent_of_pair (by decide) (by decide) (by decide)

theorem marksExponent_binary : MarksExponent isBinaryMark :=
  marksExponent_of_pair (by decide) (by decide) (by decide)

theorem Digits.no_mark {isMark : Char → Bool} (h : MarksExponent isMark)
    (digits : Digits Char.isDigit) : ∀ c ∈ digits.text, isMark c = false := by
  have hno : ∀ c ∈ digits.text, (!isMark c) = true :=
    digits.forall_mem (fun c hc => by rw [h.no_digit c hc, Bool.not_false])
      (by rw [h.no_underscore, Bool.not_false])
  intro c hc
  simpa using hno c hc

/-- The part of an exponent that is read in one go with the digits in front of it: the mark
    alone in front of a sign, and else all of it. -/
def joinedText {isMark : Char → Bool} : Option (Exponent isMark) → List Char
  | some ⟨mark, none, power, _, _⟩ => mark :: power.text
  | some ⟨mark, some _, _, _, _⟩ => [mark]
  | none => []

def signedText {isMark : Char → Bool} : Option (Exponent isMark) → List Char
  | some ⟨_, some sign, power, _, _⟩ => sign :: power.text
  | _ => []

section Exponents

variable {isMark : Char → Bool} {front after : List Char}

theorem exponentText_eq (exponent? : Option (Exponent isMark)) :
    exponentText exponent? = joinedText exponent? ++ signedText exponent? := by
  rcases exponent? with _ | ⟨mark, _ | sign, power, _, _⟩
  · rfl
  · simp [exponentText, joinedText, signedText]
  · simp [exponentText, joinedText, signedText]

theorem isNumberPart_joinedText (h : MarksExponent isMark)
    (exponent? : Option (Exponent isMark)) : ∀ c ∈ joinedText exponent?, isNumberPart c = true := by
  rcases exponent? with _ | ⟨mark, _ | sign, power, hmark, -⟩
  · exact fun _ hc => nomatch hc
  · exact List.forall_mem_cons.2 ⟨h.part mark hmark, power.isNumberPart⟩
  · exact List.forall_mem_singleton.2 (h.part mark hmark)

theorem endsNumber_signedText (exponent? : Option (Exponent isMark)) :
    EndsNumber (signedText exponent?) := by
  rcases exponent? with _ | ⟨mark, _ | sign, power, -, hsign⟩
  · exact ⟨nofun, nofun⟩
  · exact ⟨nofun, nofun⟩
  · constructor
    · rintro c ⟨⟩
      rcases hsign _ rfl with rfl | rfl <;> decide
    · rcases hsign _ rfl with rfl | rfl <;> exact fun hpoint => nomatch hpoint

/-- A sign belongs to a number only directly behind a mark. -/
theorem withExponent_of_last (after : List Char) (hlast : front.getLast?.any isMark = false) :
    withExponent isMark (front ++ after) front.length = (front.any isMark, front.length) := by
  rw [withExponent, List.take_left]
  simp only [hlast]

theorem withExponent_of_sign {run : Nat} (hlast : front.getLast?.any isMark = true)
    (hrun : signedRun? after = some run) :
    withExponent isMark (front ++ after) front.length = (true, front.length + run) := by
  rw [withExponent, List.take_left, List.drop_left]
  simp only [hlast, hrun]

/-- Behind characters that are no marks, a number has an exponent just if one is written. -/
theorem withExponent_append (h : MarksExponent isMark) (hfront : ∀ c ∈ front, isMark c = false)
    (exponent? : Option (Exponent isMark)) (hafter : EndsRun after) :
    withExponent isMark (front ++ joinedText exponent? ++ (signedText exponent? ++ after))
        (front ++ joinedText exponent?).length =
      (exponent?.isSome, (front ++ exponentText exponent?).length) := by
  have hnone : front.any isMark = false := by simpa using hfront
  rw [exponentText_eq]
  rcases exponent? with _ | ⟨mark, _ | sign, power, hmark, hsign⟩
  · have hlast : front.getLast?.any isMark = false := by
      rw [Option.any_eq_false]
      intro c hc
      rw [hfront c (List.mem_of_getLast? hc)]
    simpa [joinedText, signedText, hnone] using withExponent_of_last after hlast
  · -- the last digit of the power is no mark
    have hlast : (front ++ mark :: power.text).getLast?.any isMark = false := by
      have hne : power.text ≠ [] := List.cons_ne_nil _ _
      rw [List.getLast?_append, List.getLast?_cons, List.getLast?_eq_some_getLast hne]
      exact power.no_mark h _ (List.getLast_mem hne)
    have hany : (front ++ mark :: power.text).any isMark = true := by simp [hmark]
    have hread := withExponent_of_last after hlast
    rw [hany] at hread
    simpa [joinedText, signedText] using hread
  · have hlast : (front ++ [mark]).getLast?.any isMark = true := by
      rw [List.getLast?_concat]
      exact hmark
    have hrun : signedRun? (sign :: power.text ++ after) = some (power.text.length + 1) := by
      have hpower := numberRun_append power.isNumberPart hafter
      rw [List.cons_append, signedRun?_cons, if_pos (hsign sign rfl), hpower]
    have hread := withExponent_of_sign hlast hrun
    have hlength : (front ++ [mark]).length + (power.text.length + 1) =
        (front ++ ([mark] ++ sign :: power.text)).length := by
      simp only [List.length_append, List.length_cons, List.length_nil]
      omega
    rw [hlength] at hread
    rw [List.append_assoc] at hread ⊢
    exact hread

end Exponents

/-! ### Reading a number -/

section Numbers

variable {after : List Char}

/-- Behind a point and a digit, a fraction goes up to the sign of an exponent. -/
theorem fractionEnd?_append {isMark : Char → Bool} (h : MarksExponent isMark)
    (front : List Char) (fraction : Digits Char.isDigit) (exponent? : Option (Exponent isMark))
    (hafter : EndsRun after) :
    fractionEnd? (front ++ ('.' :: fraction.text ++ joinedText exponent? ++
        (signedText exponent? ++ after))) front.length =
      some (front ++ '.' :: fraction.text ++ joinedText exponent?).length := by
  have hparts : ∀ c ∈ fraction.text ++ joinedText exponent?, isNumberPart c = true :=
    List.forall_mem_append.2 ⟨fraction.isNumberPart, isNumberPart_joinedText h exponent?⟩
  have hends := hafter.append (endsNumber_signedText exponent?).run
  have hrun := numberRun_append hparts hends
  have hdrop : (front ++ ('.' :: fraction.text ++ joinedText exponent? ++
      (signedText exponent? ++ after))).drop front.length =
        '.' :: fraction.first :: (fraction.more ++ joinedText exponent? ++
          (signedText exponent? ++ after)) := by
    rw [List.drop_left]
    rfl
  rw [fractionEnd?_of_drop hdrop, if_pos fraction.first_isDigit]
  have hsame : fraction.first :: (fraction.more ++ joinedText exponent? ++
      (signedText exponent? ++ after)) =
        fraction.text ++ joinedText exponent? ++ (signedText exponent? ++ after) := rfl
  rw [hsame, hrun]
  simp only [List.length_append, List.length_cons]
  congr 1
  omega

/-- In front of what ends a number there is no fraction. -/
theorem fractionEnd?_of_endsNumber {front : List Char} (hafter : EndsNumber after) :
    fractionEnd? (front ++ after) front.length = none := by
  apply fractionEnd?_eq_none
  intro c rest hdrop
  rw [List.drop_left] at hdrop
  exact absurd (congrArg List.head? hdrop) hafter.no_point

/-- A text without a prefix is read as a decimal number. -/
theorem numeral_of_unprefixed {text : List Char}
    (h : ∀ radix : Radix, text.take 2 ≠ ['0', radix.letter]) :
    numeral text =
      match fractionEnd? text (numberRun text) with
      | some stop => (true, (withExponent isDecimalMark text stop).2)
      | none => withExponent isDecimalMark text (numberRun text) := by
  have hhexadecimal : ¬ text.take 2 = ['0', 'x'] := h .hexadecimal
  have hother : ¬ (text.take 2 = ['0', 'o'] ∨ text.take 2 = ['0', 'b']) :=
    not_or_intro (h .octal) (h .binary)
  have hcases := numeral_eq text
  rw [if_neg hhexadecimal, if_neg hother] at hcases
  exact hcases

/-- A decimal number has no prefix. -/
theorem decimal_take_two (digits : Digits Char.isDigit) (fraction? : Option (Digits Char.isDigit))
    (exponent? : Option (Exponent isDecimalMark)) (hafter : EndsNumber after) (radix : Radix) :
    ((Numeral.decimal digits fraction? exponent?).text ++ after).take 2 ≠ ['0', radix.letter] := by
  have hletter : isNumberPart radix.letter = true ∧ radix.letter.isDigit = false ∧
      radix.letter ≠ '_' ∧ radix.letter ≠ '.' ∧ isDecimalMark radix.letter = false := by
    cases radix <;> decide
  obtain ⟨hpart, hdigit, hunderscore, hpoint, hmark⟩ := hletter
  intro htwo
  obtain ⟨first, more, hfirst, hmore⟩ := digits
  have hsecond : (more ++ (fractionText fraction? ++ (exponentText exponent? ++ after))).head? =
      some radix.letter := by
    simp only [Numeral.text, Digits.text, List.cons_append, List.append_assoc,
      List.take_succ_cons, List.cons.injEq] at htwo
    have hone := htwo.2
    rwa [List.take_one, Option.toList_eq_singleton_iff] at hone
  cases more with
  | cons c more =>
    obtain rfl : c = radix.letter := Option.some.inj hsecond
    rcases hmore _ List.mem_cons_self with hc | hc
    · rw [hdigit] at hc
      cases hc
    · exact hunderscore hc
  | nil =>
    rcases fraction? with _ | fraction
    · rcases exponent? with _ | exponent
      · have hends := hafter.run radix.letter hsecond
        rw [hpart] at hends
        cases hends
      · have hexponent := exponent.mark_isMark
        rw [Option.some.inj hsecond, hmark] at hexponent
        cases hexponent
    · exact hpoint (Option.some.inj hsecond).symm

/-- The exponent of a number is read in two parts. -/
theorem append_exponentText {isMark : Char → Bool} (front : List Char)
    (exponent? : Option (Exponent isMark)) :
    front ++ exponentText exponent? ++ after =
      front ++ joinedText exponent? ++ (signedText exponent? ++ after) := by
  rw [exponentText_eq]
  simp only [List.append_assoc]

theorem Radix.no_binaryMark (digits : Digits Radix.hexadecimal.isDigit) :
    ∀ c ∈ Radix.hexadecimal.written digits, isBinaryMark c = false := by
  have hall : Radix.hexadecimal.digits.all (!isBinaryMark ·) = true := by decide
  have hdigits : ∀ c ∈ digits.text, (!isBinaryMark c) = true :=
    digits.forall_mem
      (fun c hc => List.all_eq_true.1 hall c (List.contains_iff_mem.1 hc)) (by decide)
  intro c hc
  rcases List.mem_cons.1 hc with rfl | hc
  · decide
  · rcases List.mem_cons.1 hc with rfl | hc
    · decide
    · simpa using hdigits c hc

/-- A decimal number is read whole. -/
theorem numeral_decimal (digits : Digits Char.isDigit) (fraction? : Option (Digits Char.isDigit))
    (exponent? : Option (Exponent isDecimalMark)) (hafter : EndsNumber after) :
    numeral ((Numeral.decimal digits fraction? exponent?).text ++ after) =
      ((Numeral.decimal digits fraction? exponent?).isFloat,
        (Numeral.decimal digits fraction? exponent?).text.length) := by
  have hmarks := marksExponent_decimal
  have hends := hafter.append (endsNumber_signedText exponent?)
  rw [numeral_of_unprefixed (decimal_take_two digits fraction? exponent? hafter)]
  cases fraction? with
  | none =>
    have htext : (Numeral.decimal digits none exponent?).text =
        digits.text ++ exponentText exponent? := by
      rw [Numeral.text, fractionText, List.append_nil]
    have hparts : ∀ c ∈ digits.text ++ joinedText exponent?, isNumberPart c = true :=
      List.forall_mem_append.2 ⟨digits.isNumberPart, isNumberPart_joinedText hmarks exponent?⟩
    rw [htext, append_exponentText, numberRun_append hparts hends.run,
      fractionEnd?_of_endsNumber hends]
    exact withExponent_append hmarks (digits.no_mark hmarks) exponent? hafter.run
  | some fraction =>
    have hfront : ∀ c ∈ digits.text ++ '.' :: fraction.text, isDecimalMark c = false :=
      List.forall_mem_append.2 ⟨digits.no_mark hmarks,
        List.forall_mem_cons.2 ⟨by decide, fraction.no_mark hmarks⟩⟩
    have hexponent := withExponent_append hmarks hfront exponent? hafter.run
    have htext : (Numeral.decimal digits (some fraction) exponent?).text ++ after =
        digits.text ++ '.' :: fraction.text ++ joinedText exponent? ++
          (signedText exponent? ++ after) := append_exponentText _ exponent?
    -- the digits in front of the point are read first
    have hpoint : digits.text ++ '.' :: fraction.text ++ joinedText exponent? ++
        (signedText exponent? ++ after) =
          digits.text ++ ('.' :: fraction.text ++ joinedText exponent? ++
            (signedText exponent? ++ after)) := by
      simp only [List.append_assoc]
    have hrun : numberRun (digits.text ++ ('.' :: fraction.text ++ joinedText exponent? ++
        (signedText exponent? ++ after))) = digits.text.length := by
      apply numberRun_append digits.isNumberPart
      rintro c ⟨⟩
      decide
    have hfraction := fractionEnd?_append hmarks digits.text fraction exponent? hafter.run
    rw [htext, hpoint, hrun, hfraction, ← hpoint]
    exact congrArg (Prod.mk true) (congrArg Prod.snd hexponent)

/-- A hexadecimal number is read in one go up to the sign of an exponent. -/
theorem numeral_hexadecimal (digits : Digits Radix.hexadecimal.isDigit) (rest : List Char) :
    numeral (Radix.hexadecimal.written digits ++ rest) =
      withExponent isBinaryMark (Radix.hexadecimal.written digits ++ rest)
        (numberRun (Radix.hexadecimal.written digits ++ rest)) := rfl

/-- Behind its digits, a hexadecimal number goes on with an exponent only. -/
theorem numeral_hexadecimal_append (digits : Digits Radix.hexadecimal.isDigit)
    (exponent? : Option (Exponent isBinaryMark)) (hafter : EndsRun after) :
    numeral (Radix.hexadecimal.written digits ++ exponentText exponent? ++ after) =
      (exponent?.isSome, (Radix.hexadecimal.written digits ++ exponentText exponent?).length) := by
  have hmarks := marksExponent_binary
  have hends := hafter.append (endsNumber_signedText exponent?).run
  have hparts : ∀ c ∈ Radix.hexadecimal.written digits ++ joinedText exponent?,
      isNumberPart c = true :=
    List.forall_mem_append.2 ⟨Radix.hexadecimal.isNumberPart_written digits,
      isNumberPart_joinedText hmarks exponent?⟩
  have hrun := numberRun_append hparts hends
  have hexponent := withExponent_append hmarks (Radix.no_binaryMark digits) exponent? hafter
  rw [append_exponentText, ← hexponent, ← hrun, List.append_assoc]
  exact numeral_hexadecimal digits _

/-- A number with a prefix and nothing else is read whole. -/
theorem numeral_prefixed (radix : Radix) (digits : Digits radix.isDigit)
    (hafter : EndsRun after) :
    numeral (radix.written digits ++ after) = (false, (radix.written digits).length) := by
  have hrun := numberRun_append (radix.isNumberPart_written digits) hafter
  cases radix with
  | hexadecimal =>
    have hread := numeral_hexadecimal_append digits none hafter
    rwa [exponentText, List.append_nil] at hread
  | octal => exact congrArg (Prod.mk false) hrun
  | binary => exact congrArg (Prod.mk false) hrun

/-- A number is read whole, or up to the point that it has behind hexadecimal digits. -/
theorem Numeral.numeral_text (number : Numeral) (hafter : EndsNumber after) :
    numeral (number.text ++ after) =
      match number.beforePoint? with
      | none => (number.isFloat, number.text.length)
      | some text => (false, text.length) := by
  cases number with
  | decimal digits fraction? exponent? =>
    exact numeral_decimal digits fraction? exponent? hafter
  | prefixed radix digits => exact numeral_prefixed radix digits hafter.run
  | hexadecimal digits fraction? exponent =>
    cases fraction? with
    | none =>
      have hread := numeral_hexadecimal_append digits (some exponent) hafter.run
      rw [Numeral.text, fractionText, List.append_nil]
      exact hread
    | some fraction =>
      have hpoint : EndsRun ('.' :: (fraction.text ++ exponentText (some exponent) ++ after)) := by
        rintro c ⟨⟩
        decide
      have hread := numeral_prefixed .hexadecimal digits hpoint
      rw [Numeral.text, List.append_assoc, List.append_assoc]
      rwa [List.append_assoc] at hread

theorem Numeral.text_eq_cons (number : Numeral) :
    ∃ first rest, number.text = first :: rest ∧ first.isDigit = true := by
  cases number with
  | decimal digits fraction? exponent? =>
    exact ⟨digits.first, _, rfl, digits.first_isDigit⟩
  | prefixed radix digits => exact ⟨'0', _, rfl, by decide⟩
  | hexadecimal digits fraction? exponent => exact ⟨'0', _, rfl, by decide⟩

/-- The token of the characters that are read as a number. -/
theorem Reads.of_numeral {float : Bool} {first : Char} {rest : List Char}
    (hdigit : first.isDigit = true)
    (hread : numeral (first :: rest ++ after) = (float, (first :: rest).length)) :
    ((if float then Token.float else .integer) (String.ofList (first :: rest))).Reads
      (first :: rest) after := by
  have hlexeme : lexeme first (rest ++ after) =
      .ok ⟨if float then .float else .integer, (first :: rest).length⟩ := by
    rw [Checked.lexeme_of_isDigit (not_isNameStart_of_isDigit hdigit) hdigit, ← List.cons_append,
      hread]
  exact ⟨first, rest ++ after, _, rfl, hlexeme, rfl, rfl⟩

end Numbers

end Token

/-! ### Finding numbers -/

namespace Cursor

/-- The next token at a place behind `before` is `token`, written as `text`, and reading goes
    on right behind that text. -/
def FindsToken (place : Cursor) (source before text : List Char) (token : Token) : Prop :=
  ∃ stop : Cursor, stop.Behind source (before ++ text) ∧
    place.next = (.ok ⟨token, Span.across before text, place.passedNewline⟩, stop)

section Finding

variable {source before text after : List Char} {place : Cursor} {token : Token}

theorem Behind.findsToken (hplace : place.Behind source before)
    (hrest : place.rest = text ++ after) (hreads : token.Reads text after)
    (hgap : Token.NoGap (text ++ after)) : place.FindsToken source before text token := by
  obtain ⟨first, rest, found, htext, hfound, hlength, rfl⟩ := hreads
  obtain ⟨hstop, -⟩ := hplace.forgetNewline.advance hrest
  have hnogap : Token.gapLength place.rest = .ok 0 := by
    rw [hrest]
    exact hgap 0
  have htake : (first :: rest).take text.length = text := by rw [← htext, List.take_left]
  refine ⟨_, hstop, ?_⟩
  rw [Cursor.next, hnogap]
  simp only [Cursor.advance, readToken, hrest, htext, hfound, hlength, htake,
    hplace.spanTo hstop]

theorem FindsToken.unique {text' : List Char} {token' : Token}
    (h : place.FindsToken source before text token)
    (h' : place.FindsToken source before text' token') : token = token' := by
  obtain ⟨_, -, hnext⟩ := h
  obtain ⟨_, -, hnext'⟩ := h'
  rw [hnext] at hnext'
  injection hnext' with hplaced
  injection hplaced with hplaced
  injection hplaced

/-- What is read as a number is found as one. -/
theorem Behind.findsToken_numeral {float : Bool} {first : Char} {rest : List Char}
    (hplace : place.Behind source before) (hrest : place.rest = first :: rest ++ after)
    (hdigit : first.isDigit = true)
    (hread : Token.numeral (first :: rest ++ after) = (float, (first :: rest).length)) :
    place.FindsToken source before (first :: rest)
      ((if float then Token.float else .integer) (String.ofList (first :: rest))) :=
  hplace.findsToken hrest (Token.Reads.of_numeral hdigit hread)
    (Token.noGap_of_isDigit hdigit (rest ++ after))

theorem Behind.findsNumeral {number : Token.Numeral} (hplace : place.Behind source before)
    (hrest : place.rest = number.text ++ after) (hafter : Token.EndsNumber after)
    (hwhole : number.beforePoint? = none) :
    place.FindsToken source before number.text number.token := by
  have hread := number.numeral_text hafter
  obtain ⟨first, rest, htext, hdigit⟩ := number.text_eq_cons
  rw [hwhole, htext] at hread
  rw [Token.Numeral.token, htext]
  rw [htext] at hrest
  exact hplace.findsToken_numeral hrest hdigit hread

theorem Behind.findsNumeral_beforePoint {number : Token.Numeral}
    (hplace : place.Behind source before) (hrest : place.rest = number.text ++ after)
    (hafter : Token.EndsNumber after) (hpoint : text ∈ number.beforePoint?) :
    number.isFloat = true ∧
      place.FindsToken source before text (.integer (String.ofList text)) := by
  have hread := number.numeral_text hafter
  rw [hpoint] at hread
  cases number with
  | decimal digits fraction? exponent? => cases hpoint
  | prefixed radix digits => cases hpoint
  | hexadecimal digits fraction? exponent =>
    cases fraction? with
    | none => cases hpoint
    | some fraction =>
      obtain rfl : Token.Radix.hexadecimal.written digits = text := Option.some.inj hpoint
      rw [Token.Numeral.text, List.append_assoc, List.append_assoc] at hread hrest
      exact ⟨rfl, hplace.findsToken_numeral hrest (by decide : '0'.isDigit = true) hread⟩

/-- **A number is one token of its sort exactly if it has no point behind hexadecimal digits.**
    With such a point, what stands in front of it is read as an integer. -/
theorem Behind.findsNumeral_iff {number : Token.Numeral} (hplace : place.Behind source before)
    (hrest : place.rest = number.text ++ after) (hafter : Token.EndsNumber after) :
    (place.FindsToken source before number.text number.token ↔ number.beforePoint? = none) ∧
    ∀ text ∈ number.beforePoint?,
      place.FindsToken source before text (.integer (String.ofList text)) := by
  refine ⟨⟨?_, hplace.findsNumeral hrest hafter⟩, ?_⟩
  · intro hfinds
    rw [Option.eq_none_iff_forall_not_mem]
    intro text htext
    obtain ⟨hfloat, hinteger⟩ := hplace.findsNumeral_beforePoint hrest hafter htext
    have hsame := hfinds.unique hinteger
    rw [Token.Numeral.token, hfloat] at hsame
    cases hsame
  · intro text htext
    exact (hplace.findsNumeral_beforePoint hrest hafter htext).2

def hexadecimalFraction : Token.Numeral :=
  .hexadecimal ⟨'1', [], rfl, nofun⟩ (some ⟨'8', [], rfl, nofun⟩)
    ⟨'p', none, ⟨'3', [], rfl, nofun⟩, rfl, nofun⟩

theorem findsNumeral_iff_hexadecimalFraction :
    hexadecimalFraction.text = "0x1.8p3".toList ∧ Token.EndsNumber [] ∧
    ¬ (start hexadecimalFraction.text).FindsToken hexadecimalFraction.text []
      hexadecimalFraction.text (.float "0x1.8p3") ∧
    (start hexadecimalFraction.text).FindsToken hexadecimalFraction.text []
      "0x1".toList (.integer "0x1") := by
  have htext : hexadecimalFraction.text = "0x1.8p3".toList := by decide
  have hcutText : "0x1".toList ∈ hexadecimalFraction.beforePoint? := by decide
  have hrest : (start hexadecimalFraction.text).rest = hexadecimalFraction.text ++ [] :=
    (List.append_nil _).symm
  have hends : Token.EndsNumber [] := ⟨nofun, nofun⟩
  have hfloat : hexadecimalFraction.token = .float "0x1.8p3" := by
    rw [Token.Numeral.token, htext, String.ofList_toList]
    rfl
  obtain ⟨hwhole, hcut⟩ :=
    (behind_start hexadecimalFraction.text).findsNumeral_iff hrest hends
  rw [hfloat] at hwhole
  have hinteger := hcut _ hcutText
  rw [String.ofList_toList] at hinteger
  refine ⟨htext, hends, ?_, hinteger⟩
  intro hfinds
  cases hwhole.1 hfinds

end Finding

end Cursor

end Memberwise
