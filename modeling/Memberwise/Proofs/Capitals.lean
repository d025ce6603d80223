/-
  Memberwise/Proofs/Capitals.lean
  ===============================
  **When a name in snake case is one already.**

  A name in snake case has an underscore more for each capital behind its first character.
  Whether a capital is left depends on the alphabet: a capital has a small form, which is
  no capital, or it is one of those that stand for themselves.  Such a capital is kept
  behind its underscore, and gets another one when the key is put in snake case again.

  What is said of all capitals is read off the runs of the table, which follow each other
  without overlap.  So one look at the table tells that a stretch of code points is free of
  capitals (`freeOf`), and each run is settled by itself: its small forms are its capitals,
  or they alternate with them, or they lie in a free stretch (`CapitalRun.Settled`).
-/
import Memberwise.Proofs.Keys

namespace Memberwise

namespace Text

/-! ### Runs in order -/

def CapitalRun.Before (run other : CapitalRun) : Prop :=
  run.first ≤ run.last ∧ run.last < other.first

instance : DecidableRel CapitalRun.Before := fun _ _ => inferInstanceAs (Decidable (_ ∧ _))

instance : IsTrans CapitalRun CapitalRun.Before where
  trans a b c hab hbc := by
    unfold CapitalRun.Before at *
    omega

theorem pairwise_capitalRuns : capitalRuns.Pairwise CapitalRun.Before := by
  rw [← List.isChain_iff_pairwise]
  decide +kernel

theorem CapitalRun.holds_iff {run : CapitalRun} {n : Nat} :
    run.holds n = true ↔ run.first ≤ n ∧ n ≤ run.last ∧ (n - run.first) % run.step = 0 := by
  simp [holds, and_assoc]

/-- Of two runs one ends in front of the other. -/
theorem CapitalRun.eq_or_before {run other : CapitalRun} (hrun : run ∈ capitalRuns)
    (hother : other ∈ capitalRuns) : other = run ∨ other.Before run ∨ run.Before other := by
  obtain ⟨front, back, hparts⟩ := List.append_of_mem hrun
  have hpairs := pairwise_capitalRuns
  rw [hparts, List.pairwise_append, List.pairwise_cons] at hpairs
  obtain ⟨-, ⟨hback, -⟩, hfront⟩ := hpairs
  rw [hparts, List.mem_append, List.mem_cons] at hother
  rcases hother with hmem | rfl | hmem
  · exact .inr (.inl (hfront other hmem run List.mem_cons_self))
  · exact .inl rfl
  · exact .inr (.inr (hback other hmem))

/-- Whether runs that are in order leave out the code points from `low` to `high`: the first
    one that does not end in front of them starts behind them. -/
def freeOf (low high : Nat) (runs : List CapitalRun) : Bool :=
  (runs.dropWhile fun run => Nat.blt run.last low).head?.all fun run => Nat.blt high run.first

theorem holds_of_freeOf {low high n : Nat} {runs : List CapitalRun}
    (hruns : runs.Pairwise CapitalRun.Before) (hfree : freeOf low high runs = true)
    (hlow : low ≤ n) (hhigh : n ≤ high) : ∀ run ∈ runs, run.holds n = false := by
  induction runs with
  | nil => exact List.forall_mem_nil _
  | cons run runs ih =>
    obtain ⟨hbefore, hrest⟩ := List.pairwise_cons.1 hruns
    rw [freeOf, List.dropWhile_cons] at hfree
    split at hfree
    · next hends =>
      rw [Nat.blt_eq] at hends
      refine List.forall_mem_cons.2 ⟨?_, ih hrest hfree⟩
      rw [Bool.eq_false_iff, ne_eq, CapitalRun.holds_iff]
      omega
    · rw [List.head?_cons, Option.all_some, Nat.blt_eq] at hfree
      intro other hother
      have hfirst : high < other.first := by
        rcases List.mem_cons.1 hother with rfl | hlater
        · exact hfree
        · have hother := hbefore other hlater
          unfold CapitalRun.Before at hother
          omega
      rw [Bool.eq_false_iff, ne_eq, CapitalRun.holds_iff]
      omega

/-! ### Small forms -/

namespace CapitalRun

def smallCode (run : CapitalRun) (n : Nat) : Nat := run.small + (n - run.first)

/-- Whether no small form of a run is a capital: they alternate with the capitals of the run
    and end in front of the next run, or they lie where there are no capitals. -/
def isSettled (run : CapitalRun) : Bool :=
  Nat.beq run.step 2 && Nat.beq run.small (run.first + 1) &&
      freeOf (run.last + 1) (run.last + 1) capitalRuns ||
    freeOf run.small (run.small + (run.last - run.first)) capitalRuns

variable {run : CapitalRun} {n : Nat}

theorem smallCode_le (h : run.holds n = true) :
    run.smallCode n ≤ run.small + (run.last - run.first) := by
  rw [holds_iff] at h
  rw [smallCode]
  omega

theorem smallCode_of_isSettled (hrun : run ∈ capitalRuns) (hsettled : run.isSettled = true)
    (h : run.holds n = true) : ∀ other ∈ capitalRuns, other.holds (run.smallCode n) = false := by
  have hle := smallCode_le h
  obtain ⟨hfirst, hlast, heven⟩ := holds_iff.1 h
  rw [isSettled, Bool.or_eq_true, Bool.and_eq_true, Bool.and_eq_true, Nat.beq_eq,
    Nat.beq_eq] at hsettled
  rcases hsettled with ⟨⟨hstep, hsmall⟩, hfree⟩ | hfree
  · have hcode : run.smallCode n = n + 1 := by
      rw [smallCode]
      omega
    rw [hcode]
    intro other hother
    by_cases hend : n = run.last
    · exact holds_of_freeOf pairwise_capitalRuns hfree (by omega) (by omega) other hother
    · rw [Bool.eq_false_iff, ne_eq, holds_iff]
      rintro ⟨hotherFirst, hotherLast, hotherEven⟩
      rcases eq_or_before hrun hother with rfl | ⟨-, hbefore⟩ | ⟨-, hbehind⟩
      · rw [hstep] at heven hotherEven
        omega
      · omega
      · omega
  · exact holds_of_freeOf pairwise_capitalRuns hfree (by rw [smallCode]; omega) hle

end CapitalRun

/-- The small forms of a run are the capitals of the run, or none of them is a capital. -/
theorem small_eq_first_or_isSettled :
    ∀ run ∈ capitalRuns, run.small = run.first ∨ run.isSettled = true := by
  decide +kernel

/-- Small forms are characters, and all of them lie behind the underscore. -/
theorem small_bounds : ∀ run ∈ capitalRuns, '_'.toNat < run.small ∧
    (run.small + (run.last - run.first) < 0xD800 ∨
      0xDFFF < run.small ∧ run.small + (run.last - run.first) < 0x110000) := by
  decide +kernel

theorem toNat_ofNat {n : Nat} (h : n < 0xD800 ∨ 0xDFFF < n ∧ n < 0x110000) :
    (Char.ofNat n).toNat = n := by
  have hself : Char.ofNat n = Char.ofNatAux n h := dif_pos h
  rw [hself]
  rfl

/-- A capital has its small form from the run that holds it, but for the one with two
    characters. -/
theorem small_of_isCapital {c : Char} (h : isCapital c = true) (hdotted : c ≠ 'İ') :
    ∃ run ∈ capitalRuns, run.holds c.toNat = true ∧
      ∃ d, small c = [d] ∧ d.toNat = run.smallCode c.toNat := by
  rw [isCapital, ← List.isSome_find?, Option.isSome_iff_exists] at h
  obtain ⟨run, hfound⟩ := h
  have hmem := List.mem_of_find?_eq_some hfound
  have hholds := List.find?_some hfound
  have hle := CapitalRun.smallCode_le hholds
  obtain ⟨-, hbounds⟩ := small_bounds run hmem
  refine ⟨run, hmem, hholds, Char.ofNat (run.smallCode c.toNat), ?_, toNat_ofNat ?_⟩
  · simp only [small, if_neg hdotted, hfound, CapitalRun.smallCode]
  · rw [CapitalRun.smallCode] at *
    omega

/-- A capital stands for itself, or its small form holds no capital. -/
theorem small_eq_self_or {c : Char} (h : isCapital c = true) :
    small c = [c] ∨ ∀ d ∈ small c, isCapital d = false := by
  by_cases hdotted : c = 'İ'
  · subst hdotted
    have hnone : (small 'İ').any isCapital = false := by decide +kernel
    exact .inr fun d hd => Bool.eq_false_iff.2 (List.any_eq_false.1 hnone d hd)
  · obtain ⟨run, hrun, hholds, d, hsmall, hcode⟩ := small_of_isCapital h hdotted
    rw [hsmall]
    rcases small_eq_first_or_isSettled run hrun with hself | hsettled
    · left
      obtain ⟨hfirst, -⟩ := CapitalRun.holds_iff.1 hholds
      have hsame : d.toNat = c.toNat := by
        rw [hcode, CapitalRun.smallCode]
        omega
      rw [Char.toNat_inj.1 hsame]
    · right
      intro e he
      obtain rfl := List.mem_singleton.1 he
      rw [isCapital, hcode, List.any_eq_false]
      intro other hother
      rw [CapitalRun.smallCode_of_isSettled hrun hsettled hholds other hother]
      exact Bool.false_ne_true

theorem count_small {c : Char} (h : isCapital c = true) : (small c).count '_' = 0 := by
  by_cases hdotted : c = 'İ'
  · subst hdotted
    decide +kernel
  · obtain ⟨run, hrun, -, d, hsmall, hcode⟩ := small_of_isCapital h hdotted
    obtain ⟨hlow, -⟩ := small_bounds run hrun
    rw [hsmall, List.count_eq_zero, List.mem_singleton]
    rintro rfl
    rw [CapitalRun.smallCode] at hcode
    omega

end Text

/-! ### Names put in snake case -/

namespace Naming

theorem isCapital_underscore : Text.isCapital '_' = false := by decide +kernel

/-- A capital is left of a character if it is one that stands for itself. -/
theorem forall_mem_snakePart_iff {c : Char} :
    (∀ d ∈ snakePart c, Text.isCapital d = false) ↔
      (Text.isCapital c = true → Text.small c ≠ [c]) := by
  cases hcapital : Text.isCapital c with
  | false => simp [snakePart_of_not_capital hcapital, hcapital]
  | true =>
    rw [snakePart, if_pos hcapital, List.forall_mem_cons, and_iff_right isCapital_underscore]
    constructor
    · intro hnone _ hself
      rw [hself, List.forall_mem_singleton, hcapital] at hnone
      cases hnone
    · intro hsmall
      exact (Text.small_eq_self_or hcapital).resolve_left (hsmall rfl)

theorem count_snakePart (c : Char) :
    (snakePart c).count '_' = [c].count '_' + [c].countP Text.isCapital := by
  cases hcapital : Text.isCapital c with
  | false => simp [snakePart_of_not_capital hcapital, hcapital]
  | true =>
    have hne : c ≠ '_' := by
      rintro rfl
      rw [isCapital_underscore] at hcapital
      cases hcapital
    rw [snakePart, if_pos hcapital, List.count_cons_self, Text.count_small hcapital]
    simp [hne, hcapital]

theorem count_flatMap_snakePart (text : List Char) :
    (text.flatMap snakePart).count '_' = text.count '_' + text.countP Text.isCapital := by
  induction text with
  | nil => rfl
  | cons c text ih =>
    have hparts : c :: text = [c] ++ text := rfl
    rw [List.flatMap_cons, List.count_append, ih, count_snakePart, hparts, List.count_append,
      List.countP_append]
    omega

/-- **A name in snake case has one underscore more for each capital behind its first
    character, and is in snake case for good exactly if each of these capitals has a small
    form other than itself.**  Where one of them stands for itself, it is still there, and
    the key is no key of its own: it changes when it is put in snake case once more. -/
theorem snakeCase_normal_iff (name : String) :
    ((snakeCase.apply name).toList.count '_' =
      name.toList.count '_' + name.toList.tail.countP Text.isCapital) ∧
    ((∀ c ∈ (snakeCase.apply name).toList.tail, Text.isCapital c = false) ↔
      ∀ c ∈ name.toList.tail, Text.isCapital c = true → Text.small c ≠ [c]) ∧
    (snakeCase.apply (snakeCase.apply name) = snakeCase.apply name ↔
      ∀ c ∈ name.toList.tail, Text.isCapital c = true → Text.small c ≠ [c]) := by
  have hleft : (∀ c ∈ (snakeCase.apply name).toList.tail, Text.isCapital c = false) ↔
      ∀ c ∈ name.toList.tail, Text.isCapital c = true → Text.small c ≠ [c] := by
    rw [apply, String.toList_ofList]
    cases name.toList with
    | nil => simp [snake]
    | cons first rest =>
      simp only [snake, List.tail_cons, List.forall_mem_flatMap, forall_mem_snakePart_iff]
  refine ⟨?_, hleft, ?_⟩
  · rw [apply, String.toList_ofList]
    cases name.toList with
    | nil => rfl
    | cons first rest =>
      rw [snake, List.count_cons, List.count_cons, count_flatMap_snakePart, List.tail_cons]
      omega
  · rw [apply_eq_self_iff, ← hleft]
    simp

example : snakeCase.apply "xℂ" = "x_ℂ" ∧ snakeCase.apply "x_ℂ" = "x__ℂ" := by decide +kernel

end Naming

end Memberwise
