/-
  Memberwise/Proofs/Locality.lean
  ===============================
  **How far a lexeme looks ahead.**

  Which token a text starts with does not depend on the whole text.  A lexeme ends
  in front of the first character that cannot continue it, and the rules look at
  most one character further: at what follows a slash, which may open a comment,
  and at what follows a point, which may start a fraction.  So a token is read off
  its spelling in front of any text that starts in the same way (`SameStart`), or that
  has a space or some punctuation where the other one would not have let it go on
  (`NoFurther`).

  Names, string literals and punctuation need less, and that is what decides
  whether a token survives when the text behind it is cut out.
-/
import Mathlib.Data.Bool.AllAny
import Memberwise.Proofs.Scanning

namespace Memberwise.Token

/-- Two texts start with the same character, and if that is a slash or a point, then
    the character behind it is the same as well. -/
def SameStart (a b : List Char) : Prop :=
  a.head? = b.head? ∧
    (a.head? = some '/' ∨ a.head? = some '.' → a.tail.head? = b.tail.head?)

theorem SameStart.refl (a : List Char) : SameStart a a := ⟨rfl, fun _ => rfl⟩

/-- The characters that end every token in front of them, an open string apart: those that
    separate tokens, and the punctuation that is a token by itself wherever it stands. -/
def tokenEnds : List Char :=
  [' ', '\t', '\r', '\n', ',', ':', ';', '(', ')', '[', ']', '\x7b', '\x7d', '@']

/-- A text that no token in front of it goes on over. -/
def Detached (text : List Char) : Prop := ∀ c ∈ text.head?, c ∈ tokenEnds

theorem Detached.nil : Detached [] := fun _ hc => by cases hc

theorem Detached.cons {c : Char} (hc : c ∈ tokenEnds) (rest : List Char) :
    Detached (c :: rest) := by
  rintro d ⟨⟩
  exact hc

theorem Detached.append {a b : List Char} (ha : Detached a) (hb : Detached b) :
    Detached (a ++ b) := by
  cases a with
  | nil => exact hb
  | cons c a => exact ha

/-- A token that ends in front of `a` ends in front of `b`: that one is empty, or it starts
    as `a` does or with a character that ends tokens.  What stands behind a slash stays
    there, and what stands behind a point is the same or ends tokens. -/
structure NoFurther (a b : List Char) : Prop where
  head : ∀ c ∈ b.head?, c ∈ a.head? ∨ c ∈ tokenEnds
  slash : b.head? = some '/' → ∀ c ∈ a.tail.head?, c ∈ b.tail.head?
  point : b.head? = some '.' → ∀ c ∈ b.tail.head?, c ∈ a.tail.head? ∨ c ∈ tokenEnds

theorem SameStart.noFurther {a b : List Char} (h : SameStart a b) : NoFurther a b := by
  constructor
  case head =>
    intro c hc
    exact .inl (h.1 ▸ hc)
  case slash =>
    intro hb c hc
    exact (h.2 (.inl (h.1.trans hb))) ▸ hc
  case point =>
    intro hb c hc
    exact .inl ((h.2 (.inr (h.1.trans hb))) ▸ hc)

namespace NoFurther

variable {a b : List Char}

/-- What `a` does not start with, `b` does not start with either. -/
theorem head_eq_false {p : Char → Bool} (h : NoFurther a b) (hends : ∀ c ∈ tokenEnds, p c = false)
    (ha : ∀ c ∈ a.head?, p c = false) : ∀ c ∈ b.head?, p c = false := by
  intro c hc
  rcases h.head c hc with hc | hc
  · exact ha c hc
  · exact hends c hc

/-- If a character that ends no token stands behind some text in front of `b`, then it
    does so in front of `a`. -/
theorem mem_head?_append {w : List Char} {c : Char} (h : NoFurther a b)
    (hc : (w ++ b).head? = some c) (hends : c ∉ tokenEnds) : (w ++ a).head? = some c := by
  cases w with
  | nil => exact (h.head c hc).resolve_right hends
  | cons d w => exact hc

/-- A point in front of a character that ends no token. -/
theorem point_append {w rest : List Char} {c : Char} (h : NoFurther a b)
    (heq : w ++ b = '.' :: c :: rest) (hends : c ∉ tokenEnds) :
    ∃ rest', w ++ a = '.' :: c :: rest' := by
  match w with
  | [] =>
    rw [List.nil_append] at heq
    subst heq
    have hfirst := (h.head '.' rfl).resolve_right (by decide)
    have hsecond := (h.point rfl c rfl).resolve_right hends
    obtain ⟨a, rfl⟩ := List.head?_eq_some_iff.1 hfirst
    obtain ⟨a, rfl⟩ := List.head?_eq_some_iff.1 hsecond
    exact ⟨a, rfl⟩
  | [_] =>
    cases heq
    have hsecond := (h.head c rfl).resolve_right hends
    obtain ⟨a, rfl⟩ := List.head?_eq_some_iff.1 hsecond
    exact ⟨a, rfl⟩
  | _ :: _ :: w =>
    cases heq
    exact ⟨w ++ a, rfl⟩

/-- A token goes on no further when a detached text comes behind what it ends in front of. -/
theorem append {rest : List Char} (hrest : Detached rest) : NoFurther a (a ++ rest) := by
  have hhead : ∀ w : List Char, ∀ c ∈ (w ++ rest).head?, c ∈ w.head? ∨ c ∈ tokenEnds := by
    intro w c hc
    cases w with
    | nil => exact .inr (hrest c hc)
    | cons d w => exact .inl hc
  constructor
  case head => exact hhead a
  case slash =>
    intro _ c hc
    match a with
    | [] => cases hc
    | [_] => cases hc
    | _ :: _ :: a => exact hc
  case point =>
    intro hpoint c hc
    cases a with
    | nil => exact absurd (hrest '.' hpoint) (by decide)
    | cons d a => exact hhead a c hc

end NoFurther

theorem head?_append_congr {w a b : List Char} (h : a.head? = b.head?) :
    (w ++ a).head? = (w ++ b).head? := by
  cases w with
  | nil => exact h
  | cons c w => rfl

/-! ### Runs -/

/-- A run that ends in a first part, or right behind it, needs one character more. -/
theorem takeWhile_append_congr {p : Char → Bool} {w a b : List Char}
    (hle : ((w ++ a).takeWhile p).length ≤ w.length) (hstart : NoFurther a b)
    (hends : tokenEnds.any p = false) : (w ++ b).takeWhile p = (w ++ a).takeWhile p := by
  induction w with
  | nil =>
    have hnil : a.takeWhile p = [] := by simpa using hle
    have ha : ∀ c ∈ a.head?, p c = false := by
      cases a with
      | nil => simp
      | cons c a =>
        by_cases hc : p c = true
        · simp [hc] at hnil
        · simpa using hc
    have hb := hstart.head_eq_false (fun c hc => by simpa using List.any_eq_false.1 hends c hc) ha
    rw [List.nil_append, List.nil_append, hnil]
    cases b with
    | nil => rfl
    | cons d b => simp [hb d rfl]
  | cons c w ih =>
    by_cases hc : p c = true
    · simp only [List.cons_append, List.takeWhile_cons_of_pos hc, List.length_cons] at *
      rw [ih (by omega)]
    · simp [hc]

theorem nameRun_append_congr {w a b : List Char} (hle : nameRun (w ++ a) ≤ w.length)
    (hstart : NoFurther a b) : nameRun (w ++ b) = nameRun (w ++ a) := by
  unfold nameRun at *
  rw [takeWhile_append_congr hle hstart (by decide)]

theorem numberRun_append_congr {w a b : List Char} (hle : numberRun (w ++ a) ≤ w.length)
    (hstart : NoFurther a b) : numberRun (w ++ b) = numberRun (w ++ a) := by
  unfold numberRun at *
  rw [takeWhile_append_congr hle hstart (by decide)]

theorem quotedNameRun_append_congr {w a b : List Char} (hle : quotedNameRun (w ++ a) ≤ w.length)
    (hstart : NoFurther a b) : quotedNameRun (w ++ b) = quotedNameRun (w ++ a) := by
  have hrun : nameRun (w ++ a) ≤ w.length := by
    simp only [quotedNameRun] at hle
    split at hle <;> omega
  simp only [quotedNameRun] at *
  rw [nameRun_append_congr hrun hstart, List.drop_append_of_le_length hrun]
  rw [List.drop_append_of_le_length hrun] at *
  split at hle
  · next hclose =>
    -- the closing backtick belongs to the first part
    obtain ⟨c, u, hu⟩ := List.exists_cons_of_ne_nil (l := w.drop (nameRun (w ++ a))) (by
      intro hnil
      have hlength := congrArg List.length hnil
      rw [List.length_drop, List.length_nil] at hlength
      omega)
    rw [hu] at *
    rfl
  · next hclose =>
    rw [if_neg hclose, if_neg]
    exact fun hb => hclose (hstart.mem_head?_append hb (by decide))

theorem operatorRun_cons (c : Char) (rest : List Char) :
    operatorRun (c :: rest) =
      if c = '/' ∧ (rest.head? = some '/' ∨ rest.head? = some '*') then 0
      else if isOperatorPart c then operatorRun rest + 1 else 0 := by
  cases rest with
  | nil => simp [operatorRun]
  | cons d rest =>
    by_cases hslash : c = '/' ∧ (d = '/' ∨ d = '*')
    · obtain ⟨rfl, rfl | rfl⟩ := hslash <;> simp [operatorRun]
    · rw [if_neg (by simpa using hslash), operatorRun]
      · rintro rest rfl heq
        cases heq
        exact hslash ⟨rfl, .inl rfl⟩
      · rintro rest rfl heq
        cases heq
        exact hslash ⟨rfl, .inr rfl⟩

theorem operatorRun_append_congr {w a b : List Char} (h : operatorRun (w ++ a) = w.length)
    (hstart : NoFurther a b) : operatorRun (w ++ b) = w.length := by
  induction w with
  | nil =>
    simp only [List.nil_append, List.length_nil] at *
    cases b with
    | nil => rfl
    | cons c b =>
      rcases hstart.head c rfl with hc | hc
      · obtain ⟨a, rfl⟩ := List.head?_eq_some_iff.1 hc
        rw [operatorRun_cons] at h ⊢
        split at h
        · next hcomment =>
          have hkeeps : ∀ d ∈ a.head?, d ∈ b.head? := hstart.slash (by rw [hcomment.1]; rfl)
          rw [if_pos ⟨hcomment.1, hcomment.2.imp (hkeeps _) (hkeeps _)⟩]
        · split at h
          · cases h
          · next hpart => simp [hpart]
      · -- neither a slash nor a part of an operator
        have hplain : ∀ c ∈ tokenEnds, c ≠ '/' ∧ isOperatorPart c = false :=
          List.all_iff_forall_prop.1 (by decide)
        obtain ⟨hslash, hpart⟩ := hplain c hc
        simp [operatorRun_cons, hslash, hpart]
  | cons c w ih =>
    simp only [List.cons_append, List.length_cons, operatorRun_cons] at *
    split at h
    · cases h
    · next hcomment =>
      have hother : ¬ (c = '/' ∧
          ((w ++ b).head? = some '/' ∨ (w ++ b).head? = some '*')) := by
        rintro ⟨hc, hb | hb⟩
        · exact hcomment ⟨hc, .inl (hstart.mem_head?_append hb (by decide))⟩
        · exact hcomment ⟨hc, .inr (hstart.mem_head?_append hb (by decide))⟩
      rw [if_neg hother]
      split at h
      · next hpart =>
        rw [if_pos hpart, ih (by omega)]
      · cases h

/-! ### Numbers -/

theorem signedRun?_cons (c : Char) (rest : List Char) :
    signedRun? (c :: rest) =
      if c = '+' ∨ c = '-' then some (numberRun rest + 1) else none := by
  unfold signedRun?
  split
  · next heq => cases heq; simp
  · next heq => cases heq; simp
  · next hplus hminus =>
    rw [if_neg]
    rintro (rfl | rfl)
    · exact hplus rest rfl
    · exact hminus rest rfl

theorem signedRun?_append_congr {w a b : List Char} (hstart : NoFurther a b)
    (hle : ∀ run, signedRun? (w ++ a) = some run → run ≤ w.length) :
    signedRun? (w ++ b) = signedRun? (w ++ a) := by
  cases w with
  | nil =>
    -- a sign would be one character too much
    have hnone : ∀ c rest, a = c :: rest → ¬ (c = '+' ∨ c = '-') := by
      rintro c rest rfl hsign
      have := hle _ ((signedRun?_cons c rest).trans (if_pos hsign))
      simp at this
    have ha : signedRun? a = none := by
      cases a with
      | nil => rfl
      | cons c a => rw [signedRun?_cons, if_neg (hnone c a rfl)]
    rw [List.nil_append, List.nil_append, ha]
    cases b with
    | nil => rfl
    | cons c b =>
      rw [signedRun?_cons, if_neg]
      intro hsign
      rcases hstart.head c rfl with hc | hc
      · obtain ⟨a, rfl⟩ := List.head?_eq_some_iff.1 hc
        exact hnone c a rfl hsign
      · have hplain : ∀ c ∈ tokenEnds, ¬ (c = '+' ∨ c = '-') :=
          List.all_iff_forall_prop.1 (by decide)
        exact hplain c hc hsign
  | cons c w =>
    simp only [List.cons_append, signedRun?_cons, List.length_cons] at *
    split
    · next hsign =>
      have := hle _ (if_pos hsign)
      rw [numberRun_append_congr (by omega) hstart]
    · rfl

theorem withExponent_append_congr {isMark : Char → Bool} {w a b : List Char} {read : Nat}
    (hread : read ≤ w.length) (hle : (withExponent isMark (w ++ a) read).2 ≤ w.length)
    (hstart : NoFurther a b) :
    withExponent isMark (w ++ b) read = withExponent isMark (w ++ a) read := by
  simp only [withExponent] at *
  rw [List.take_append_of_le_length hread, List.drop_append_of_le_length hread] at *
  rw [List.take_append_of_le_length hread, List.drop_append_of_le_length hread]
  cases hmark : (w.take read).getLast?.any isMark with
  | false => rfl
  | true =>
    rw [hmark] at hle
    rw [signedRun?_append_congr hstart]
    intro run hrun
    rw [hrun] at hle
    simp only at hle
    rw [List.length_drop]
    omega

theorem one_le_numberRun {c : Char} {rest : List Char} (hc : c.isDigit = true) :
    1 ≤ numberRun (c :: rest) := by
  have hpart : isNumberPart c = true := by simp [isNumberPart, Char.isAlphanum, hc]
  simp [numberRun, hpart]

theorem fractionEnd?_of_drop {text : List Char} {read : Nat} {c : Char} {rest : List Char}
    (h : text.drop read = '.' :: c :: rest) :
    fractionEnd? text read =
      if c.isDigit then some (read + 1 + numberRun (c :: rest)) else none := by
  simp only [fractionEnd?, h]

/-- Without a point and a digit behind it there is no fraction. -/
theorem fractionEnd?_eq_none {text : List Char} {read : Nat}
    (h : ∀ c rest, text.drop read = '.' :: c :: rest → c.isDigit = false) :
    fractionEnd? text read = none := by
  unfold fractionEnd?
  split
  · next c rest heq => rw [if_neg (by simp [h c rest heq])]
  · rfl

theorem fractionEnd?_append_congr {w a b : List Char} {read : Nat} (hread : read ≤ w.length)
    (hle : ∀ stop, fractionEnd? (w ++ a) read = some stop → stop ≤ w.length)
    (hstart : NoFurther a b) : fractionEnd? (w ++ b) read = fractionEnd? (w ++ a) read := by
  have hlength : (w.drop read).length = w.length - read := List.length_drop
  have hdrop : ∀ rest, (w ++ rest).drop read = w.drop read ++ rest := by
    intro rest
    exact List.drop_append_of_le_length hread
  by_cases hpoint : ∃ c rest, (w ++ a).drop read = '.' :: c :: rest ∧ c.isDigit = true
  · obtain ⟨c, rest, ha, hc⟩ := hpoint
    -- the digit lies in the first part, since the run behind it ends there
    have hfraction : fractionEnd? (w ++ a) read = some (read + 1 + numberRun (c :: rest)) :=
      (fractionEnd?_of_drop ha).trans (if_pos hc)
    have hstop := hle _ hfraction
    have hone : 1 ≤ numberRun (c :: rest) := one_le_numberRun hc
    rw [hfraction]
    rw [hdrop] at ha
    match hu : w.drop read with
    | [] =>
      rw [hu, List.length_nil] at hlength
      omega
    | [_] =>
      rw [hu, List.length_cons, List.length_nil] at hlength
      omega
    | _ :: digit :: u =>
      rw [hu] at ha hlength
      simp only [List.cons_append, List.cons.injEq] at ha
      obtain ⟨rfl, rfl, rfl⟩ := ha
      simp only [List.length_cons] at hlength
      have hrun := numberRun_append_congr (w := digit :: u) (a := a) (b := b)
        (by simp only [List.cons_append, List.length_cons]; omega) hstart
      have hb : (w ++ b).drop read = '.' :: digit :: (u ++ b) := by rw [hdrop, hu]; rfl
      rw [fractionEnd?_of_drop hb, if_pos hc]
      exact congrArg (fun run => some (read + 1 + run)) hrun
  · have ha : ∀ c rest, (w ++ a).drop read = '.' :: c :: rest → c.isDigit = false := by
      intro c rest heq
      cases hc : c.isDigit with
      | false => rfl
      | true => exact absurd ⟨c, rest, heq, hc⟩ hpoint
    rw [fractionEnd?_eq_none ha, fractionEnd?_eq_none]
    intro c rest heq
    by_cases hends : c ∈ tokenEnds
    · have hplain : ∀ c ∈ tokenEnds, c.isDigit = false :=
        List.all_iff_forall_prop.1 (by decide)
      exact hplain c hends
    · obtain ⟨rest', heq'⟩ := hstart.point_append (hdrop b ▸ heq) hends
      exact ha c rest' (hdrop a ▸ heq')

/-- Only the first two characters decide how a number is read. -/
theorem numeral_eq (text : List Char) :
    numeral text =
      if text.take 2 = ['0', 'x'] then withExponent isBinaryMark text (numberRun text)
      else if text.take 2 = ['0', 'o'] ∨ text.take 2 = ['0', 'b'] then (false, numberRun text)
      else
        match fractionEnd? text (numberRun text) with
        | some stop => (true, (withExponent isDecimalMark text stop).2)
        | none => withExponent isDecimalMark text (numberRun text) := by
  unfold numeral
  split
  · simp
  · simp
  · simp
  · next hx ho hb =>
    have htwo : ∀ d, text.take 2 = ['0', d] → ∃ rest, text = '0' :: d :: rest := by
      intro d heq
      match text with
      | [] => cases heq
      | [_] => cases heq
      | _ :: _ :: rest =>
        cases heq
        exact ⟨rest, rfl⟩
    have hhex : ¬ text.take 2 = ['0', 'x'] := by
      intro heq
      obtain ⟨rest, hrest⟩ := htwo _ heq
      exact hx rest hrest
    have hother : ¬ (text.take 2 = ['0', 'o'] ∨ text.take 2 = ['0', 'b']) := by
      rintro (heq | heq)
      · obtain ⟨rest, hrest⟩ := htwo _ heq
        exact ho rest hrest
      · obtain ⟨rest, hrest⟩ := htwo _ heq
        exact hb rest hrest
    exact ((if_neg hhex).trans (if_neg hother)).symm

/-- A number that ends in a first part has its prefix there, if it has one. -/
theorem take_two_append_congr {w a b : List Char} {d : Char} (hw : w ≠ [])
    (hrun : numberRun (w ++ a) ≤ w.length) (hstart : NoFurther a b)
    (hd : isNumberPart d = true) : (w ++ b).take 2 = ['0', d] ↔ (w ++ a).take 2 = ['0', d] := by
  match w with
  | [] => exact absurd rfl hw
  | [c] =>
    -- behind a single character the number would go on
    have hlonger : ∀ v, numberRun ([c] ++ v) ≤ 1 → ¬ ([c] ++ v).take 2 = ['0', d] := by
      intro v hle heq
      match v with
      | [] => cases heq
      | _ :: v =>
        cases heq
        simp [numberRun, hd, show isNumberPart '0' = true by decide] at hle
    have hb : numberRun ([c] ++ b) ≤ 1 := by
      rw [numberRun_append_congr hrun hstart]
      exact hrun
    exact iff_of_false (hlonger b hb) (hlonger a hrun)
  | c :: e :: w => rfl

theorem numberRun_le_numeral (text : List Char) : numberRun text ≤ (numeral text).2 := by
  have hexp := fun mark => withExponent_bounds mark (numberRun_le text)
  rw [numeral_eq]
  split
  · exact (hexp _).1
  · split
    · exact Nat.le_refl _
    · split
      · next stop hstop =>
        have hbounds := fractionEnd?_bounds hstop
        exact Nat.le_trans hbounds.1 (withExponent_bounds _ hbounds.2).1
      · exact (hexp _).1

theorem numeral_append_congr {w a b : List Char} (hw : w ≠ [])
    (hle : (numeral (w ++ a)).2 ≤ w.length) (hstart : NoFurther a b) :
    numeral (w ++ b) = numeral (w ++ a) := by
  have hread := Nat.le_trans (numberRun_le_numeral (w ++ a)) hle
  have hprefixed := fun d => take_two_append_congr (d := d) hw hread hstart
  rw [numeral_eq (w ++ b), numeral_eq (w ++ a), numberRun_append_congr hread hstart]
  simp only [hprefixed 'x' (by decide), hprefixed 'o' (by decide), hprefixed 'b' (by decide)]
  rw [numeral_eq] at hle
  split
  · next hx =>
    rw [if_pos hx] at hle
    exact withExponent_append_congr hread hle hstart
  · next hx =>
    rw [if_neg hx] at hle
    split
    · rfl
    · next hother =>
      rw [if_neg hother] at hle
      -- an exponent comes behind the fraction, if there is one
      have hfraction : ∀ stop, fractionEnd? (w ++ a) (numberRun (w ++ a)) = some stop →
          stop ≤ w.length := by
        intro stop hstop
        rw [hstop] at hle
        have hbounds := fractionEnd?_bounds hstop
        exact Nat.le_trans (withExponent_bounds _ hbounds.2).1 hle
      rw [fractionEnd?_append_congr hread hfraction hstart]
      cases hstop : fractionEnd? (w ++ a) (numberRun (w ++ a)) with
      | none =>
        rw [hstop] at hle
        exact withExponent_append_congr hread hle hstart
      | some stop =>
        rw [hstop] at hle
        simp only [withExponent_append_congr (hfraction stop hstop) hle hstart]

/-! ### String literals -/

/-- The least number of characters that close what is open in a string literal. -/
def Quotation.need : List Quotation → Nat
  | [] => 0
  | .line _ :: outer => 1 + need outer
  | .block _ :: outer => 3 + need outer
  | .interpolation _ _ :: outer => 1 + need outer

theorem need_le_quotationFrom {stack : List Quotation} {read n : Nat} {text : List Char}
    (h : quotationFrom stack read text = .ok n) : read + Quotation.need stack ≤ n := by
  fun_induction quotationFrom stack read text <;> simp_all [Quotation.need] <;> omega

/-- Behind a backslash the character that it keeps has to come, and a quote. -/
theorem add_three_le_of_escape {opened read n : Nat} {outer : List Quotation} {rest : List Char}
    (h : quotationFrom (.line opened :: outer) read ('\\' :: rest) = .ok n) : read + 3 ≤ n := by
  match rest with
  | [] =>
    rw [quotationFrom] at h
    cases h
  | d :: rest =>
    by_cases hline : d = '\n'
    · subst hline
      rw [quotationFrom] at h
      cases h
    · by_cases hopen : d = '('
      · subst hopen
        rw [quotationFrom] at h
        have := need_le_quotationFrom h
        simp only [Quotation.need] at this
        omega
      · rw [quotationFrom_line_escape hline hopen] at h
        have := need_le_quotationFrom h
        simp only [Quotation.need] at this
        omega

/-- A literal in an interpolation has to end, and so has the interpolation. -/
theorem add_three_le_of_quote {opened depth read n : Nat} {outer : List Quotation}
    {rest : List Char}
    (h : quotationFrom (.interpolation opened depth :: outer) read ('"' :: rest) = .ok n) :
    read + 3 ≤ n := by
  by_cases hquotes : ∃ more, rest = '"' :: '"' :: more
  · obtain ⟨more, rfl⟩ := hquotes
    rw [quotationFrom] at h
    have := need_le_quotationFrom h
    omega
  · rw [quotationFrom_interpolation_quote hquotes] at h
    have := need_le_quotationFrom h
    simp only [Quotation.need] at this
    omega

/-- What a step of the literal scanner asks of the text left behind it: in front of `a` and in
    front of `b` it ends alike, if it ends in the part they share. -/
def EndsAlike (w a b : List Char) (n : Nat) : Prop :=
  ∀ {stack : List Quotation} {read : Nat} {u : List Char}, u.length < w.length →
    quotationFrom stack read (u ++ a) = .ok n → n ≤ read + u.length →
    quotationFrom stack read (u ++ b) = .ok n

theorem quotationFrom_line_congr {opened read n : Nat} {outer : List Quotation}
    {w a b : List Char} (hnext : EndsAlike w a b n)
    (h : quotationFrom (.line opened :: outer) read (w ++ a) = .ok n)
    (hle : n ≤ read + w.length) :
    quotationFrom (.line opened :: outer) read (w ++ b) = .ok n := by
  have hneed := need_le_quotationFrom h
  cases w with
  | nil =>
    simp only [Quotation.need, List.length_nil] at *
    omega
  | cons c w =>
    simp only [List.cons_append, List.length_cons] at *
    by_cases hquote : c = '"'
    · subst hquote
      rw [quotationFrom] at h ⊢
      exact hnext (by simp) h (by omega)
    · by_cases hline : c = '\n'
      · subst hline
        rw [quotationFrom] at h
        cases h
      · by_cases hescape : c = '\\'
        · subst hescape
          have hthree := add_three_le_of_escape h
          cases w with
          | nil =>
            simp only [List.length_nil] at hle
            omega
          | cons d w =>
            simp only [List.cons_append, List.length_cons] at *
            by_cases hline : d = '\n'
            · subst hline
              rw [quotationFrom] at h
              cases h
            · by_cases hopen : d = '('
              · subst hopen
                rw [quotationFrom] at h ⊢
                exact hnext (by simp only [List.length_cons]; omega) h (by omega)
              · rw [quotationFrom_line_escape hline hopen] at h ⊢
                exact hnext (by simp only [List.length_cons]; omega) h (by omega)
        · rw [quotationFrom_line_plain hquote hline hescape] at h ⊢
          exact hnext (by simp) h (by omega)

theorem quotationFrom_block_congr {opened read n : Nat} {outer : List Quotation}
    {w a b : List Char} (hnext : EndsAlike w a b n)
    (h : quotationFrom (.block opened :: outer) read (w ++ a) = .ok n)
    (hle : n ≤ read + w.length) :
    quotationFrom (.block opened :: outer) read (w ++ b) = .ok n := by
  have hneed := need_le_quotationFrom h
  -- the three quotes that end it are still to come
  have hthree : 3 ≤ w.length := by
    simp only [Quotation.need] at hneed
    omega
  obtain - | ⟨c, - | ⟨d, - | ⟨e, w⟩⟩⟩ := w
  · simp at hthree
  · simp at hthree
  · simp at hthree
  · simp only [List.cons_append, List.length_cons] at *
    by_cases hescape : c = '\\'
    · subst hescape
      rw [quotationFrom] at h ⊢
      exact hnext (u := e :: w) (by simp) h (by simp only [List.length_cons]; omega)
    · by_cases hquotes : c = '"' ∧ d = '"' ∧ e = '"'
      · obtain ⟨rfl, rfl, rfl⟩ := hquotes
        rw [quotationFrom] at h ⊢
        exact hnext (by simp only [List.length_cons]; omega) h (by omega)
      · rw [quotationFrom_block_plain hescape (by simpa using hquotes)] at h ⊢
        exact hnext (u := d :: e :: w) (by simp) h (by simp only [List.length_cons]; omega)

theorem quotationFrom_interpolation_congr {opened depth read n : Nat} {outer : List Quotation}
    {w a b : List Char} (hnext : EndsAlike w a b n)
    (h : quotationFrom (.interpolation opened depth :: outer) read (w ++ a) = .ok n)
    (hle : n ≤ read + w.length) :
    quotationFrom (.interpolation opened depth :: outer) read (w ++ b) = .ok n := by
  have hneed := need_le_quotationFrom h
  cases w with
  | nil =>
    simp only [Quotation.need, List.length_nil] at *
    omega
  | cons c w =>
    simp only [List.cons_append, List.length_cons] at *
    by_cases hopen : c = '('
    · subst hopen
      rw [quotationFrom] at h ⊢
      exact hnext (by simp) h (by omega)
    · by_cases hclose : c = ')'
      · subst hclose
        cases depth with
        | zero =>
          rw [quotationFrom] at h ⊢
          exact hnext (by simp) h (by omega)
        | succ depth =>
          rw [quotationFrom] at h ⊢
          exact hnext (by simp) h (by omega)
      · by_cases hquote : c = '"'
        · subst hquote
          have hthree := add_three_le_of_quote h
          have htwo : 2 ≤ w.length := by omega
          obtain - | ⟨d, - | ⟨e, w⟩⟩ := w
          · simp at htwo
          · simp at htwo
          · simp only [List.cons_append, List.length_cons] at *
            by_cases hquotes : d = '"' ∧ e = '"'
            · obtain ⟨rfl, rfl⟩ := hquotes
              rw [quotationFrom] at h ⊢
              exact hnext (by simp only [List.length_cons]; omega) h (by omega)
            · rw [quotationFrom_interpolation_quote (by simpa using hquotes)] at h ⊢
              exact hnext (u := d :: e :: w) (by simp) h (by simp only [List.length_cons]; omega)
        · rw [quotationFrom_interpolation_plain hopen hclose hquote] at h ⊢
          exact hnext (by simp) h (by omega)

/-- A literal that ends in a first part ends there whatever follows. -/
theorem quotationFrom_append_congr {stack : List Quotation} {read n : Nat} {w a b : List Char}
    (h : quotationFrom stack read (w ++ a) = .ok n) (hle : n ≤ read + w.length) :
    quotationFrom stack read (w ++ b) = .ok n := by
  induction hlength : w.length using Nat.strongRecOn generalizing stack read w with
  | ind length ih =>
    subst hlength
    have hnext : EndsAlike w a b n := by
      intro stack read u hlt h hle
      exact ih _ hlt h hle rfl
    cases stack with
    | nil => simpa only [quotationFrom] using h
    | cons top outer =>
      cases top with
      | line opened => exact quotationFrom_line_congr hnext h hle
      | block opened => exact quotationFrom_block_congr hnext h hle
      | interpolation opened depth => exact quotationFrom_interpolation_congr hnext h hle

theorem quotationLength_of_ne {rest : List Char} (h : ¬ ∃ more, rest = '"' :: '"' :: more) :
    quotationLength rest = quotationFrom [.line 0] 1 rest := by
  rw [quotationLength]
  simp_all

/-- A literal in front of another text is the same, unless it is the empty one: then a
    quote must not follow. -/
theorem quotationLength_append_congr {w a b : List Char} {n : Nat}
    (h : quotationLength (w ++ a) = .ok n) (hle : n ≤ w.length + 1)
    (hhead : w = ['"'] → b.head? = some '"' → a.head? = some '"') :
    quotationLength (w ++ b) = .ok n := by
  by_cases hblock : ∃ more, w ++ a = '"' :: '"' :: more
  · obtain ⟨more, hmore⟩ := hblock
    rw [hmore, quotationLength] at h
    have hneed := need_le_quotationFrom h
    simp only [Quotation.need] at hneed
    match w with
    | [] | [_] =>
      simp only [List.length_nil, List.length_cons] at hle
      omega
    | _ :: _ :: w =>
      cases hmore
      simp only [List.length_cons] at hle
      rw [List.cons_append, List.cons_append, quotationLength]
      exact quotationFrom_append_congr h (by omega)
  · rw [quotationLength_of_ne hblock] at h
    have hneed := need_le_quotationFrom h
    simp only [Quotation.need] at hneed
    rw [quotationLength_of_ne]
    · exact quotationFrom_append_congr h (by omega)
    · rintro ⟨more, hmore⟩
      match w with
      | [] =>
        simp only [List.length_nil] at hle
        omega
      | [_] =>
        cases hmore
        obtain ⟨a, rfl⟩ := List.head?_eq_some_iff.1 (hhead rfl rfl)
        exact hblock ⟨a, rfl⟩
      | _ :: _ :: w =>
        cases hmore
        exact hblock ⟨_, rfl⟩

/-! ### Lexemes -/

theorem map_eq_ok {ε α β : Type} {result : Except ε α} {f : α → β} {value : β} :
    result.map f = .ok value ↔ ∃ a, result = .ok a ∧ f a = value := by
  cases result with
  | error cause => simp [Except.map]
  | ok a => simp [Except.map]

/-- **A lexeme looks at most one character further than the one that ends it.** -/
theorem lexeme_append_congr {first : Char} {w a b : List Char} {found : Lexeme}
    (h : lexeme first (w ++ a) = .ok found) (hlength : found.length = w.length + 1)
    (hstart : NoFurther a b) : lexeme first (w ++ b) = .ok found := by
  unfold lexeme at h ⊢
  split at h
  case h_11 =>
    have hle : ((w ++ a).takeWhile (· == '.')).length ≤ w.length := by
      split at h
      · next hnil => rw [hnil]; exact Nat.zero_le _
      · cases h
        simp only at hlength
        omega
    simp only [takeWhile_append_congr hle hstart (by decide)]
    split at h
    · exact h
    · next hdots =>
      cases h
      simp only [List.drop_append_of_le_length hle] at *
      generalize ((w ++ a).takeWhile (· == '.')).length = dots at *
      have hrun : operatorRun (w.drop dots ++ a) = (w.drop dots).length := by
        rw [List.length_drop]
        omega
      rw [operatorRun_append_congr hrun hstart, hrun]
  case h_12 =>
    obtain ⟨n, hn, rfl⟩ := map_eq_ok.1 h
    simp only at hlength
    rw [quotationLength_append_congr hn (by omega) fun _ hb =>
      (hstart.head _ hb).resolve_right (by decide)]
    rfl
  case h_13 =>
    cases h
    simp only at hlength
    rw [quotedNameRun_append_congr (by omega) hstart]
  case h_14 =>
    cases h
    simp only at hlength
    rw [nameRun_append_congr (by omega) hstart]
  case h_15 =>
    split at h
    · next hname =>
      cases h
      simp only at hlength
      rw [if_pos hname, nameRun_append_congr (by omega) hstart]
    · next hname =>
      rw [if_neg hname]
      split at h
      · next hdigit =>
        have hle : (numeral (first :: w ++ a)).2 ≤ (first :: w).length := by
          rw [List.cons_append]
          split at h <;> next hnumeral =>
            cases h
            simp only at hlength
            rw [hnumeral, List.length_cons]
            exact Nat.le_of_eq hlength
        have hsame := numeral_append_congr (List.cons_ne_nil first w) hle hstart
        rw [List.cons_append, List.cons_append] at hsame
        rw [if_pos hdigit, hsame]
        exact h
      · next hdigit =>
        rw [if_neg hdigit]
        split at h
        · next hoperator =>
          cases h
          simp only at hlength
          have hrun : operatorRun (w ++ a) = w.length := by omega
          rw [if_pos hoperator, operatorRun_append_congr hrun hstart, hrun]
        · next hoperator =>
          rw [if_neg hoperator]
          exact h
  all_goals exact h

/-- A token is read off its spelling in front of every text that goes on no further. -/
theorem Reads.of_noFurther {text after after' : List Char} {token : Token}
    (h : token.Reads text after) (hstart : NoFurther after after') :
    token.Reads text after' := by
  obtain ⟨first, rest, found, hparts, hfound, hlength, rfl⟩ := h
  have hpos := (lexeme_spelling hfound).1
  match text with
  | [] =>
    simp only [List.length_nil] at hlength
    omega
  | _ :: w =>
    cases hparts
    exact ⟨first, w ++ after', found, rfl, lexeme_append_congr hfound hlength hstart, hlength, rfl⟩

theorem Reads.of_sameStart {text after after' : List Char} {token : Token}
    (h : token.Reads text after) (hstart : SameStart after after') :
    token.Reads text after' :=
  h.of_noFurther hstart.noFurther

/-! ### Tokens that end by themselves -/

theorem reads_of_mark {c : Char} {token : Token} (h : ∀ rest, lexeme c rest = .ok (.mark token))
    (after : List Char) : token.Reads [c] after :=
  ⟨c, after, .mark token, rfl, h after, rfl, rfl⟩

/-- A name that goes on with the name characters that follow it.  Only a closing
    backtick keeps a name from that. -/
def openName : Token → Bool
  | name text =>
    !(text.toList.head? == some '\x60' && text.toList.getLast? == some '\x60' &&
      decide (2 ≤ text.toList.length))
  | _ => false

/-- A run that takes a first part takes no more than that. -/
theorem takeWhile_append_length {p : Char → Bool} {w a : List Char} :
    ((w ++ a).takeWhile p).length = w.length ↔
      (∀ c ∈ w, p c = true) ∧ ∀ c ∈ a.head?, p c = false := by
  induction w with
  | nil =>
    cases a with
    | nil => simp
    | cons c a => by_cases hc : p c = true <;> simp [hc]
  | cons c w ih =>
    by_cases hc : p c = true
    · simp [hc, ih]
    · simp [hc]

theorem nameRun_append_length {w a : List Char} :
    nameRun (w ++ a) = w.length ↔
      (∀ c ∈ w, isNamePart c = true) ∧ ∀ c ∈ a.head?, isNamePart c = false :=
  takeWhile_append_length

theorem isNamePart_backtick : isNamePart '\x60' = false := by decide

theorem quotedNameRun_append_length {w a : List Char} :
    quotedNameRun (w ++ a) = w.length ↔
      (∃ u, w = u ++ ['\x60'] ∧ ∀ c ∈ u, isNamePart c = true) ∨
        (∀ c ∈ w, isNamePart c = true) ∧
          ∀ c ∈ a.head?, isNamePart c = false ∧ c ≠ '\x60' := by
  constructor
  · intro h
    simp only [quotedNameRun] at h
    split at h
    · next hclose =>
      left
      have hle : nameRun (w ++ a) ≤ w.length := by omega
      rw [List.drop_append_of_le_length hle] at hclose
      -- the backtick is the last character of the first part
      have hone : (w.drop (nameRun (w ++ a))).length = 1 := by
        rw [List.length_drop]
        omega
      obtain ⟨last, hlast⟩ := List.length_eq_one_iff.1 hone
      rw [hlast] at hclose
      cases hclose
      refine ⟨w.take (nameRun (w ++ a)), ?_, ?_⟩
      · rw [← hlast, List.take_append_drop]
      · have hrunTaken : w.take (nameRun (w ++ a)) = (w ++ a).takeWhile isNamePart := by
          have htake : (w ++ a).take (nameRun (w ++ a)) = w.take (nameRun (w ++ a)) :=
            List.take_append_of_le_length hle
          rw [← htake]
          exact (List.prefix_iff_eq_take.1 (List.takeWhile_prefix isNamePart)).symm
        intro c hc
        rw [hrunTaken] at hc
        exact List.all_eq_true.1 List.all_takeWhile c hc
    · next hclose =>
      right
      obtain ⟨hall, hhead⟩ := nameRun_append_length.1 h
      rw [h, List.drop_left] at hclose
      refine ⟨hall, fun c hc => ⟨hhead c hc, ?_⟩⟩
      rintro rfl
      exact hclose hc
  · rintro (⟨u, rfl, hall⟩ | ⟨hall, hhead⟩)
    · have hrun : nameRun (u ++ '\x60' :: a) = u.length :=
        nameRun_append_length.2 ⟨hall, by simp [isNamePart_backtick]⟩
      simp [quotedNameRun, hrun]
    · have hrun : nameRun (w ++ a) = w.length :=
        nameRun_append_length.2 ⟨hall, fun c hc => (hhead c hc).1⟩
      simp only [quotedNameRun, hrun, List.drop_left]
      rw [if_neg]
      intro hc
      exact (hhead _ hc).2 rfl

theorem lexeme_of_isNameStart {first : Char} (h : isNameStart first = true) (rest : List Char) :
    lexeme first rest = .ok ⟨.name, 1 + nameRun rest⟩ := by
  unfold lexeme
  split
  case h_15 => rw [if_pos h]
  all_goals exact absurd h (by decide)

/-- How names are read: in backticks, or as a run of name characters. -/
theorem reads_name_iff {text : String} {first : Char} {w after : List Char}
    (htext : text.toList = first :: w) :
    (name text).Reads (first :: w) after ↔
      first = '\x60' ∧ quotedNameRun (w ++ after) = w.length ∨
        (first = '#' ∨ isNameStart first = true) ∧ nameRun (w ++ after) = w.length := by
  constructor
  · rintro ⟨_, _, found, hparts, hfound, hlength, htoken⟩
    rw [List.cons_append, List.cons.injEq] at hparts
    obtain ⟨rfl, rfl⟩ := hparts
    unfold lexeme at hfound
    split at hfound
    case h_11 =>
      split at hfound
      · cases hfound; cases htoken
      · cases hfound; cases htoken
    case h_12 =>
      obtain ⟨n, -, rfl⟩ := map_eq_ok.1 hfound
      cases htoken
    case h_13 =>
      cases hfound
      simp only [List.length_cons] at hlength
      exact .inl ⟨rfl, by omega⟩
    case h_14 =>
      cases hfound
      simp only [List.length_cons] at hlength
      exact .inr ⟨.inl rfl, by omega⟩
    case h_15 =>
      split at hfound
      · next hname =>
        cases hfound
        simp only [List.length_cons] at hlength
        exact .inr ⟨.inr hname, by omega⟩
      · split at hfound
        · split at hfound <;> cases hfound <;> cases htoken
        · split at hfound
          · cases hfound
            simp only [ofOperator] at htoken
            split at htoken <;> cases htoken
          · cases hfound
            cases htoken
    all_goals
      cases hfound
      cases htoken
  · have htoken : (name text : Token) = name (String.ofList (first :: w)) := by
      rw [← htext, String.ofList_toList]
    rintro (⟨rfl, hrun⟩ | ⟨hfirst, hrun⟩)
    · exact ⟨_, _, ⟨.name, 1 + quotedNameRun (w ++ after)⟩, rfl, rfl, by simp [hrun]; omega, htoken⟩
    · have hlex : lexeme first (w ++ after) = .ok ⟨.name, 1 + nameRun (w ++ after)⟩ := by
        rcases hfirst with rfl | hstart
        · rfl
        · exact lexeme_of_isNameStart hstart _
      exact ⟨_, _, _, rfl, hlex, by simp [hrun]; omega, htoken⟩

theorem openName_iff {text : String} {first : Char} {w : List Char}
    (htext : text.toList = first :: w) :
    (name text).openName = false ↔ first = '\x60' ∧ ∃ u, w = u ++ ['\x60'] := by
  simp only [openName, htext, Bool.not_eq_false', Bool.and_eq_true, beq_iff_eq, List.head?_cons,
    Option.some.injEq, decide_eq_true_eq, List.length_cons, and_assoc]
  apply and_congr_right
  intro _
  constructor
  · rintro ⟨hlast, hlength⟩
    match w with
    | [] => simp at hlength
    | d :: w =>
      rw [List.getLast?_cons_cons] at hlast
      obtain ⟨u, hu⟩ := List.getLast?_eq_some_iff.1 hlast
      exact ⟨u, hu⟩
  · rintro ⟨u, rfl⟩
    rw [← List.cons_append, List.getLast?_concat, List.length_append]
    exact ⟨rfl, by simp⟩

/-- **When a name is read off its spelling.**  A closed name always is; an open one is,
    unless a name character follows. -/
theorem Reads.name_iff {text : String} {after after' : List Char}
    (h : (name text).Reads text.toList after) (hafter : after'.head? ≠ some '\x60') :
    (name text).Reads text.toList after' ↔
      (name text).openName = true → ∀ c ∈ after'.head?, isNamePart c = false := by
  obtain ⟨first, w, htext⟩ := List.exists_cons_of_ne_nil h.ne_nil
  have hopen := openName_iff htext
  rw [htext, reads_name_iff htext, quotedNameRun_append_length, nameRun_append_length] at h ⊢
  constructor
  · rintro (⟨rfl, ⟨u, rfl, -⟩ | ⟨-, hhead⟩⟩ | ⟨-, -, hhead⟩) hopens c hc
    · rw [hopen.2 ⟨rfl, u, rfl⟩] at hopens
      cases hopens
    · exact (hhead c hc).1
    · exact hhead c hc
  · intro hends
    rcases h with ⟨rfl, ⟨u, rfl, hall⟩ | ⟨hall, -⟩⟩ | ⟨hfirst, hall, -⟩
    · exact .inl ⟨rfl, .inl ⟨u, rfl, hall⟩⟩
    · by_cases hopens : (name text).openName = true
      · refine .inl ⟨rfl, .inr ⟨hall, fun c hc => ⟨hends hopens c hc, ?_⟩⟩⟩
        rintro rfl
        exact hafter hc
      · obtain ⟨-, u, rfl⟩ := hopen.1 (by simpa using hopens)
        have := hall '\x60' (by simp)
        rw [isNamePart_backtick] at this
        cases this
    · refine .inr ⟨hfirst, hall, hends ?_⟩
      cases hopens : (name text).openName with
      | true => rfl
      | false =>
        obtain ⟨rfl, -⟩ := hopen.1 hopens
        exact absurd hfirst (by decide)

/-- The characters of a name. -/
theorem Reads.name_char {text : String} {after : List Char}
    (h : (name text).Reads text.toList after) :
    ∀ c ∈ text.toList, (isNamePart c || isNameStart c || c == '\x60' || c == '#') = true := by
  obtain ⟨first, rest, htext⟩ := List.exists_cons_of_ne_nil h.ne_nil
  have hpart : ∀ {rest : List Char}, (∀ c ∈ rest, isNamePart c = true) →
      ∀ c ∈ rest, (isNamePart c || isNameStart c || c == '\x60' || c == '#') = true := by
    intro rest hall c hc
    rw [hall c hc]
    rfl
  rw [htext, reads_name_iff htext, quotedNameRun_append_length, nameRun_append_length] at h
  rw [htext, List.forall_mem_cons]
  rcases h with ⟨rfl, ⟨u, rfl, hall⟩ | ⟨hall, -⟩⟩ | ⟨hfirst, hall, -⟩
  · exact ⟨by decide, List.forall_mem_append.2 ⟨hpart hall, by simp⟩⟩
  · exact ⟨by decide, hpart hall⟩
  · refine ⟨?_, hpart hall⟩
    rcases hfirst with rfl | hfirst
    · decide
    · rw [hfirst]
      simp

/-! ### Tokens on several lines -/

def isNumeric (c : Char) : Bool := isNumberPart c || c == '.' || c == '+' || c == '-'

theorem isNumeric_of_isNumberPart {c : Char} (h : isNumberPart c = true) : isNumeric c = true := by
  simp [isNumeric, h]

theorem isNumeric_numberRun (text : List Char) :
    ∀ c ∈ text.take (numberRun text), isNumeric c = true := by
  intro c hc
  rw [numberRun, ← List.prefix_iff_eq_take.1 (List.takeWhile_prefix isNumberPart)] at hc
  exact isNumeric_of_isNumberPart (List.all_eq_true.1 List.all_takeWhile c hc)

theorem isNumeric_signedRun? {text : List Char} {run : Nat} (h : signedRun? text = some run) :
    ∀ c ∈ text.take run, isNumeric c = true := by
  unfold signedRun? at h
  split at h
  · next rest =>
    cases h
    rw [List.take_succ_cons]
    exact List.forall_mem_cons.2 ⟨by decide, isNumeric_numberRun rest⟩
  · next rest =>
    cases h
    rw [List.take_succ_cons]
    exact List.forall_mem_cons.2 ⟨by decide, isNumeric_numberRun rest⟩
  · cases h

theorem isNumeric_withExponent {isMark : Char → Bool} {text : List Char} {read : Nat}
    (h : ∀ c ∈ text.take read, isNumeric c = true) :
    ∀ c ∈ text.take (withExponent isMark text read).2, isNumeric c = true := by
  simp only [withExponent]
  split
  · next run _ hrun =>
    rw [List.take_add]
    exact List.forall_mem_append.2 ⟨h, isNumeric_signedRun? hrun⟩
  · exact h

theorem isNumeric_fractionEnd? {text : List Char} {read stop : Nat}
    (h : ∀ c ∈ text.take read, isNumeric c = true) (hstop : fractionEnd? text read = some stop) :
    ∀ c ∈ text.take stop, isNumeric c = true := by
  unfold fractionEnd? at hstop
  split at hstop
  · next d rest hdrop =>
    split at hstop
    · cases hstop
      rw [Nat.add_assoc, List.take_add, hdrop, Nat.add_comm 1, List.take_succ_cons]
      refine List.forall_mem_append.2 ⟨h, List.forall_mem_cons.2 ⟨by decide, ?_⟩⟩
      exact isNumeric_numberRun (d :: rest)
    · cases hstop
  · cases hstop

theorem isNumeric_numeral (text : List Char) :
    ∀ c ∈ text.take (numeral text).2, isNumeric c = true := by
  have hrun := isNumeric_numberRun text
  rw [numeral_eq]
  split
  · exact isNumeric_withExponent hrun
  · split
    · exact hrun
    · split
      · next hstop => exact isNumeric_withExponent (isNumeric_fractionEnd? hrun hstop)
      · exact isNumeric_withExponent hrun

theorem isOperatorPart_operatorRun (text : List Char) :
    ∀ c ∈ text.take (operatorRun text), isOperatorPart c = true := by
  fun_induction operatorRun text with
  | case1 => simp
  | case2 => simp
  | case3 c rest _ _ hc ih =>
    rw [List.take_succ_cons]
    exact List.forall_mem_cons.2 ⟨hc, ih⟩
  | case4 => simp
  | case5 => simp

theorem NoGap.not_separator {c : Char} {rest : List Char} (h : NoGap (c :: rest)) :
    isSeparator c = false := by
  cases hc : isSeparator c with
  | false => rfl
  | true =>
    have hslash : c ≠ '/' := by
      rintro rfl
      revert hc
      decide
    have hread := h 0
    rw [gapFrom, if_pos hc] at hread
    · obtain ⟨gap, _, -, hn, -⟩ := gapFrom_eq_ok hread
      omega
    · intro _ heq
      exact absurd heq hslash
    · intro _ heq
      exact absurd heq hslash

theorem tokenEnd_notMem {p : Char → Bool} {w : List Char} {c : Char} (hc : c ∈ tokenEnds)
    (hall : ∀ d ∈ w, p d = true) (hp : tokenEnds.any p = false) : c ∉ w := by
  intro hmem
  exact List.any_eq_false.1 hp c hc (hall c hmem)

/-- Only a string goes on behind a character that ends the other tokens. -/
theorem tokenEnd_notMem_of_lexeme {first c : Char} {w after : List Char} {found : Lexeme}
    (hc : c ∈ tokenEnds) (h : lexeme first (w ++ after) = .ok found)
    (hlength : found.length = w.length + 1) (hfirst : first ≠ '"') : c ∉ w := by
  have htake : (w ++ after).take w.length = w := List.take_left
  have hsingle : found.length = 1 → c ∉ w := by
    intro hone
    have hnil : w = [] := List.length_eq_zero_iff.1 (by omega)
    rw [hnil]
    exact List.not_mem_nil
  have hname : nameRun (w ++ after) = w.length → c ∉ w := by
    intro hrun
    exact tokenEnd_notMem hc (nameRun_append_length.1 hrun).1 (by decide)
  have hoperator : operatorRun (w ++ after) = w.length → c ∉ w := by
    intro hrun
    have hall := isOperatorPart_operatorRun (w ++ after)
    rw [hrun, htake] at hall
    exact tokenEnd_notMem hc hall (by decide)
  unfold lexeme at h
  split at h
  case h_12 => exact absurd rfl hfirst
  case h_11 =>
    split at h
    · cases h
      exact hsingle rfl
    · cases h
      simp only at hlength
      generalize hdots : (w ++ after).takeWhile (· == '.') = dots at hlength
      have hsum : w.length = dots.length + operatorRun ((w ++ after).drop dots.length) := by omega
      rw [← htake, hsum, List.take_add, List.mem_append, not_or]
      constructor
      · rw [← hdots, ← List.prefix_iff_eq_take.1 (List.takeWhile_prefix _)]
        exact tokenEnd_notMem hc (List.all_eq_true.1 List.all_takeWhile) (by decide)
      · exact tokenEnd_notMem hc (isOperatorPart_operatorRun _) (by decide)
  case h_13 =>
    cases h
    simp only at hlength
    have hrun : quotedNameRun (w ++ after) = w.length := by omega
    rcases quotedNameRun_append_length.1 hrun with ⟨u, rfl, hall⟩ | ⟨hall, -⟩
    · rw [List.mem_append, not_or]
      exact ⟨tokenEnd_notMem hc hall (by decide), fun hlast => absurd
        (List.mem_singleton.1 hlast ▸ hc) (by decide)⟩
    · exact tokenEnd_notMem hc hall (by decide)
  case h_14 =>
    cases h
    simp only at hlength
    exact hname (by omega)
  case h_15 =>
    split at h
    · cases h
      simp only at hlength
      exact hname (by omega)
    · split at h
      · have hnumber : (numeral (first :: (w ++ after))).2 = w.length + 1 := by
          split at h <;> next hnumeral =>
            cases h
            rw [hnumeral]
            exact hlength
        have hall := isNumeric_numeral (first :: (w ++ after))
        rw [hnumber, List.take_succ_cons, htake] at hall
        exact tokenEnd_notMem hc (List.forall_mem_cons.1 hall).2 (by decide)
      · split at h
        · cases h
          simp only at hlength
          exact hoperator (by omega)
        · cases h
          exact hsingle rfl
  all_goals
    cases h
    exact hsingle rfl

theorem lexeme_eq_string {first : Char} {w after : List Char} {found : Lexeme}
    (h : lexeme first (w ++ after) = .ok found) (hlength : found.length = w.length + 1)
    (hstop : NoGap (first :: (w ++ after))) (hline : '\n' ∈ first :: w) : first = '"' := by
  rcases List.mem_cons.1 hline with rfl | hmem
  · exact absurd hstop.not_separator (by decide)
  · by_cases hfirst : first = '"'
    · exact hfirst
    · exact absurd hmem (tokenEnd_notMem_of_lexeme (by decide) h hlength hfirst)

theorem Reads.of_newline {text after after' : List Char} {token : Token}
    (h : token.Reads text after) (hstop : NoGap (text ++ after)) (hline : '\n' ∈ text) :
    token.Reads text after' := by
  obtain ⟨first, rest, found, hparts, hfound, hlength, rfl⟩ := h
  obtain ⟨_, w, rfl⟩ := List.exists_cons_of_ne_nil (List.ne_nil_of_mem hline)
  rw [List.cons_append, List.cons.injEq] at hparts
  obtain ⟨rfl, rfl⟩ := hparts
  obtain rfl := lexeme_eq_string hfound hlength hstop hline
  obtain ⟨n, hn, rfl⟩ := map_eq_ok.1 hfound
  simp only [List.length_cons] at hlength
  have hsame := quotationLength_append_congr (b := after') hn (by omega) (by
    rintro rfl
    exact absurd hline (by decide))
  exact ⟨_, _, ⟨.string, n⟩, rfl, map_eq_ok.2 ⟨n, hsame, rfl⟩, hlength, rfl⟩

end Memberwise.Token
