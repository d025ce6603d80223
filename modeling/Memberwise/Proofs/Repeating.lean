/-
  Memberwise/Proofs/Repeating.lean
  ================================
  **When it matters that a fix-it comes again.**

  Equal edits count once if they are neighbours when the edits are in order.  The order goes by
  the ranges and not by the replacements.  An edit that comes again at the end is therefore a
  neighbour of its equal only if no other edit of the same range came in between
  (`LastOfRange`); otherwise it is tried a second time.

  An edit that replaces something does not fit a second time: the limit has moved to its
  start, or to the start of the edit that it ran into.  An insertion always fits, and its text
  is inserted once more.  So a report that is repeated has an effect exactly if it offers to
  insert some text, and another insertion at that place came behind it.
-/
import Memberwise.Proofs.Accepting

namespace Memberwise

namespace Edit

/-! ### Neighbours -/

theorem withoutRepeats_append (front back : List Edit)
    (h : ∀ a ∈ front.getLast?, ∀ b ∈ back.head?, a ≠ b) :
    withoutRepeats (front ++ back) = withoutRepeats front ++ withoutRepeats back := by
  fun_induction withoutRepeats front with
  | case1 => rfl
  | case2 edit =>
    cases back with
    | nil => rfl
    | cons next rest =>
      have hne : edit ≠ next := h edit rfl next rfl
      rw [List.singleton_append, withoutRepeats, if_neg hne, List.singleton_append]
  | case3 edit rest ih =>
    rw [List.cons_append, List.cons_append, withoutRepeats, if_pos rfl]
    apply ih
    simpa using h
  | case4 edit next rest hne ih =>
    rw [List.cons_append, List.cons_append, withoutRepeats, if_neg hne, List.cons_append]
    congr 1
    apply ih
    simpa using h

theorem withoutRepeats_twice (front back : List Edit) (edit : Edit) :
    withoutRepeats (front ++ edit :: edit :: back) = withoutRepeats (front ++ edit :: back) := by
  induction front with
  | nil => rw [List.nil_append, withoutRepeats, if_pos rfl, List.nil_append]
  | cons first front ih =>
    cases front with
    | nil =>
      simp only [List.nil_append, List.cons_append] at ih ⊢
      rw [withoutRepeats, ih, withoutRepeats]
    | cons second front =>
      simp only [List.cons_append] at ih ⊢
      rw [withoutRepeats, ih, withoutRepeats]

/-! ### The last edit of a range -/

def sameRange (a b : Edit) : Bool := before a b && before b a

/-- An edit comes in a list, and no other edit of the same range comes behind it. -/
def LastOfRange (edit : Edit) (edits : List Edit) : Prop :=
  ∃ front back, edits = front ++ edit :: back ∧ ∀ other ∈ back,
    ¬ (other.span.start = edit.span.start ∧ other.span.stop = edit.span.stop)

theorem sameRange_iff {a b : Edit} :
    sameRange a b = true ↔ a.span.start = b.span.start ∧ a.span.stop = b.span.stop := by
  simp only [sameRange, before, Bool.and_eq_true, Bool.or_eq_true, decide_eq_true_eq, beq_iff_eq]
  omega

theorem before_refl (edit : Edit) : before edit edit = true := by
  rcases before_total edit edit with h | h
  · exact h
  · exact h

theorem lastOfRange_iff {edits : List Edit} {edit : Edit} :
    edit.LastOfRange edits ↔ (edits.filter edit.sameRange).getLast? = some edit := by
  have hself : sameRange edit edit = true := sameRange_iff.2 ⟨rfl, rfl⟩
  constructor
  · rintro ⟨front, back, rfl, hback⟩
    have hnone : back.filter edit.sameRange = [] := by
      rw [List.filter_eq_nil_iff]
      intro other hother hsame
      obtain ⟨hstart, hstop⟩ := sameRange_iff.1 hsame
      exact hback other hother ⟨hstart.symm, hstop.symm⟩
    rw [List.filter_append, List.filter_cons_of_pos hself, hnone, List.getLast?_append]
    rfl
  · intro hlast
    obtain ⟨init, hfilter⟩ := List.getLast?_eq_some_iff.1 hlast
    obtain ⟨early, late, rfl, -, hlate⟩ := List.filter_eq_append_iff.1 hfilter
    obtain ⟨skipped, back, rfl, -, -, hback⟩ := List.filter_eq_cons_iff.1 hlate
    refine ⟨early ++ skipped, back, by simp, ?_⟩
    rintro other hother ⟨hstart, hstop⟩
    have hnot := List.filter_eq_nil_iff.1 hback other hother
    exact hnot (sameRange_iff.2 ⟨hstart.symm, hstop.symm⟩)

/-- Where an edit that comes again is put: behind all edits of its range, the last of which is
    the last that came. -/
theorem exists_cut {edits : List Edit} {edit : Edit} (hmem : edit ∈ edits) :
    ∃ front last back,
      Memberwise.inOrder before edits = (front ++ [last]) ++ back ∧
      Memberwise.inOrder before (edits ++ [edit]) = (front ++ [last]) ++ edit :: back ∧
      edit ∈ front ++ [last] ∧ (∀ other ∈ front ++ [last], before other edit = true) ∧
      (∀ other ∈ back, before other edit = false) ∧ (edit.LastOfRange edits ↔ last = edit) := by
  obtain ⟨front, back, hedits, hconcat, hfront, hback⟩ :=
    inOrder_concat before_total before_trans edits edit
  have hmem' : edit ∈ front := by
    rw [← (inOrder_perm before edits).mem_iff, hedits] at hmem
    apply (List.mem_append.1 hmem).resolve_right
    intro hmem
    have hnot := hback edit hmem
    rw [before_refl] at hnot
    cases hnot
  obtain ⟨front, last, rfl⟩ : ∃ init last, front = init ++ [last] :=
    (List.eq_nil_or_concat' front).resolve_left (List.ne_nil_of_mem hmem')
  refine ⟨front, last, back, hedits, hconcat, hmem', hfront, hback, ?_⟩
  have hsorted := inOrder_pairwise before_total before_trans edits
  rw [hedits] at hsorted
  have hlast : edit.sameRange last = true := by
    have hafter := hfront last (by simp)
    rcases List.mem_append.1 hmem' with hmem' | hmem'
    · have hbefore := (List.pairwise_append.1 (List.pairwise_append.1 hsorted).1).2.2 edit hmem'
        last List.mem_cons_self
      rw [sameRange, hbefore, hafter]
      rfl
    · rw [List.mem_singleton.1 hmem']
      exact sameRange_iff.2 ⟨rfl, rfl⟩
  have hnone : back.filter edit.sameRange = [] := by
    rw [List.filter_eq_nil_iff]
    intro other hother hsame
    rw [sameRange, hback other hother, Bool.and_false] at hsame
    cases hsame
  have hrange : ∀ a b, edit.sameRange a = true → edit.sameRange b = true →
      before a b = true := by
    intro a b ha hb
    simp only [sameRange, Bool.and_eq_true] at ha hb
    exact before_trans a edit b ha.2 hb.1
  rw [lastOfRange_iff, ← filter_inOrder hrange, hedits, List.filter_append, List.filter_append,
    hnone, List.filter_cons_of_pos hlast, List.append_nil, List.getLast?_append]
  simp

/-! ### Edits that are tried again -/

/-- The limit that is left when edits have had their turn. -/
def limitAfter (source : List Char) : Nat → List Edit → Nat
  | limit, [] => limit
  | limit, edit :: rest =>
    if edit.fits source limit then limitAfter source edit.span.start rest
    else limitAfter source limit rest

theorem acceptedBelow_append (source : List Char) (limit : Nat) (front back : List Edit) :
    acceptedBelow source limit (front ++ back) =
      acceptedBelow source limit front ++
        acceptedBelow source (limitAfter source limit front) back := by
  induction front generalizing limit with
  | nil => rfl
  | cons edit front ih =>
    rw [List.cons_append, acceptedBelow, acceptedBelow, limitAfter]
    split
    · rw [ih, List.cons_append]
    · exact ih limit

theorem le_limitAfter {source : List Char} {place limit : Nat} {edits : List Edit}
    (hlimit : place ≤ limit) (h : ∀ edit ∈ edits, place ≤ edit.span.start) :
    place ≤ limitAfter source limit edits := by
  induction edits generalizing limit with
  | nil => exact hlimit
  | cons edit edits ih =>
    rw [List.forall_mem_cons] at h
    rw [limitAfter]
    split
    · exact ih h.1 h.2
    · exact ih hlimit h.2

theorem limitAfter_le (source : List Char) (limit : Nat) (edits : List Edit) :
    limitAfter source limit edits ≤ limit := by
  induction edits generalizing limit with
  | nil => exact Nat.le_refl limit
  | cons edit edits ih =>
    rw [limitAfter]
    split
    · next hfits =>
      obtain ⟨hwithin, hlimit⟩ := fits_iff_within.1 hfits
      have hspan := hwithin.start_le_stop
      have hrest := ih edit.span.start
      omega
    · exact ih limit

theorem limitAfter_le_start {source : List Char} {limit : Nat} {edits : List Edit} {edit : Edit}
    (h : edit ∈ acceptedBelow source limit edits) :
    limitAfter source limit edits ≤ edit.span.start := by
  induction edits generalizing limit with
  | nil => cases h
  | cons first edits ih =>
    rw [acceptedBelow] at h
    rw [limitAfter]
    split at h
    · next hfits =>
      rw [if_pos hfits]
      rcases List.mem_cons.1 h with rfl | h
      · exact limitAfter_le source edit.span.start edits
      · exact ih h
    · next hfits =>
      rw [if_neg hfits]
      exact ih h

/-- The limit is in front of an edit that has had its turn, or inside it. -/
theorem limitAfter_le_or_lt {source : List Char} {edits : List Edit} {edit : Edit}
    (hsorted : edits.Pairwise (before · ·)) (hmem : edit ∈ edits) (hwithin : edit.Within source) :
    limitAfter source (Text.width source) edits ≤ edit.span.start ∨
      limitAfter source (Text.width source) edits < edit.span.stop := by
  rcases mem_acceptedBelow_or (Text.width source) hsorted hmem hwithin with
    haccepted | hstop | ⟨applied, happlied, -, hstart⟩
  · exact .inl (limitAfter_le_start haccepted)
  · exact absurd hwithin.stop_le_width (Nat.not_le.2 hstop)
  · exact .inr (Nat.lt_of_le_of_lt (limitAfter_le_start happlied) hstart)

/-- An edit that has had its turn fits again only if it inserts at the limit. -/
theorem eq_of_fits_again {source : List Char} {edits : List Edit} {edit : Edit}
    (hsorted : edits.Pairwise (before · ·)) (hmem : edit ∈ edits)
    (hfits : edit.fits source (limitAfter source (Text.width source) edits) = true) :
    edit.Within source ∧ edit.span.start = edit.span.stop ∧
      limitAfter source (Text.width source) edits = edit.span.start := by
  obtain ⟨hwithin, hstop⟩ := fits_iff_within.1 hfits
  have hspan := hwithin.start_le_stop
  have hlimit := limitAfter_le_or_lt hsorted hmem hwithin
  exact ⟨hwithin, by omega, by omega⟩

/-- An insertion fits again. -/
theorem fits_again {source : List Char} {edits : List Edit} {edit : Edit}
    (hfirst : ∀ other ∈ edits, before other edit = true) (hwithin : edit.Within source)
    (hempty : edit.span.start = edit.span.stop) :
    edit.fits source (limitAfter source (Text.width source) edits) = true := by
  refine fits_iff_within.2 ⟨hwithin, ?_⟩
  rw [← hempty]
  apply le_limitAfter
  · rw [hempty]
    exact hwithin.stop_le_width
  · intro other hother
    have hbefore := hfirst other hother
    simp only [before, Bool.or_eq_true, Bool.and_eq_true, decide_eq_true_eq, beq_iff_eq] at hbefore
    omega

theorem accepted_concat_of_lastOfRange {source : List Char} {edits : List Edit} {edit : Edit}
    (hmem : edit ∈ edits) (h : edit.LastOfRange edits) :
    accepted source (edits ++ [edit]) = accepted source edits := by
  obtain ⟨front, last, back, hedits, hconcat, -, -, -, hlast⟩ := exists_cut hmem
  have heq := hlast.1 h
  subst heq
  rw [accepted, accepted, hedits, hconcat, List.append_assoc, List.append_assoc,
    List.singleton_append, List.singleton_append, withoutRepeats_twice]

/-- An edit that comes again, behind another one of its range, has a second turn when all edits
    in front of it have had theirs. -/
theorem exists_second_turn {edits : List Edit} {edit : Edit} (hmem : edit ∈ edits)
    (h : ¬ edit.LastOfRange edits) :
    ∃ front back, edit ∈ front ∧ front.Pairwise (before · ·) ∧
      (∀ other ∈ front, before other edit = true) ∧
      withoutRepeats (Memberwise.inOrder before edits) = front ++ back ∧
      withoutRepeats (Memberwise.inOrder before (edits ++ [edit])) = front ++ edit :: back := by
  obtain ⟨front, last, back, hedits, hconcat, hmem', hfirst, hback, hlast⟩ := exists_cut hmem
  have hapart : ∀ a, before a edit = true → ∀ b ∈ back.head?, a ≠ b := by
    rintro a ha b hb rfl
    have hnot := hback a (List.mem_of_mem_head? hb)
    rw [ha] at hnot
    cases hnot
  have hsorted := inOrder_pairwise before_total before_trans edits
  rw [hedits] at hsorted
  refine ⟨withoutRepeats (front ++ [last]), withoutRepeats back, mem_withoutRepeats.2 hmem', ?_,
    ?_, ?_, ?_⟩
  · exact (List.pairwise_append.1 hsorted).1.sublist (withoutRepeats_sublist _)
  · intro other hother
    exact hfirst other (mem_withoutRepeats.1 hother)
  · rw [hedits]
    apply withoutRepeats_append
    intro a ha
    exact hapart a (hfirst a (List.mem_of_getLast? ha))
  · have hedit : withoutRepeats (edit :: back) = edit :: withoutRepeats back :=
      withoutRepeats_append [edit] back (by simpa using hapart edit (before_refl edit))
    rw [hconcat, withoutRepeats_append, hedit]
    simpa using fun heq => h (hlast.2 heq)

/-- An edit that comes again and does not insert is not accepted again. -/
theorem accepted_concat_of_solid {source : List Char} {edits : List Edit} {edit : Edit}
    (hmem : edit ∈ edits) (h : edit.Within source → edit.span.start ≠ edit.span.stop) :
    accepted source (edits ++ [edit]) = accepted source edits := by
  by_cases hlast : edit.LastOfRange edits
  · exact accepted_concat_of_lastOfRange hmem hlast
  · obtain ⟨front, back, hfront, hsorted, -, hedits, hconcat⟩ := exists_second_turn hmem hlast
    rw [accepted, accepted, hedits, hconcat, acceptedBelow_append, acceptedBelow_append,
      acceptedBelow, if_neg]
    intro hfits
    obtain ⟨hwithin, hempty, -⟩ := eq_of_fits_again hsorted hfront hfits
    exact h hwithin hempty

/-- An insertion that comes again behind another one at its place is accepted again. -/
theorem accepted_concat_of_insertion {source : List Char} {edits : List Edit} {edit : Edit}
    (hmem : edit ∈ edits) (hwithin : edit.Within source)
    (hempty : edit.span.start = edit.span.stop) (hlast : ¬ edit.LastOfRange edits) :
    ∃ done rest, accepted source edits = done ++ rest ∧
      accepted source (edits ++ [edit]) = done ++ edit :: rest := by
  obtain ⟨front, back, hfront, hsorted, hfirst, hedits, hconcat⟩ := exists_second_turn hmem hlast
  have hfits := fits_again hfirst hwithin hempty
  obtain ⟨-, -, hlimit⟩ := eq_of_fits_again hsorted hfront hfits
  refine ⟨acceptedBelow source (Text.width source) front,
    acceptedBelow source edit.span.start back, ?_, ?_⟩
  · rw [accepted, hedits, acceptedBelow_append, hlimit]
  · rw [accepted, hconcat, acceptedBelow_append, acceptedBelow, if_pos hfits]

/-! ### Texts with one insertion more -/

theorem InRow.splice_insertion {source : List Char} {front back : List Edit} {edit : Edit}
    {place : Nat} (h : InRow source (front ++ edit :: back))
    (hempty : edit.span.start = edit.span.stop) (hplace : Text.isBoundary place source = true)
    (hle : ∀ other ∈ front ++ edit :: back, place ≤ other.span.start) :
    ∃ before after, splice source place (front ++ back) = before ++ after ∧
      splice source place (front ++ edit :: back) =
        before ++ edit.replacement.toList ++ after := by
  induction front generalizing place with
  | nil =>
    obtain ⟨⟨before, gone, after, hsource, hstart, -⟩, -, hbehind⟩ := h.uncons
    obtain ⟨done, rest, hdone, hwidth⟩ := Text.exists_append_of_isBoundary hplace
    rw [List.append_assoc] at hsource
    have hfirst := hle edit List.mem_cons_self
    obtain ⟨kept, rfl, -⟩ := Text.exists_append_of_width_le (hdone.symm.trans hsource) (by omega)
    have hslice : Text.slice source place edit.span.start = kept := by
      rw [hsource]
      apply Text.slice_append hwidth
      rw [hstart, Text.width_append, hwidth]
    have hkept : splice source place back = kept ++ splice source edit.span.stop back := by
      rw [← hwidth, ← hempty, hstart]
      apply splice_append hsource
      intro other hother
      rw [← hstart, hempty]
      exact hbehind other hother
    refine ⟨kept, splice source edit.span.stop back, hkept, ?_⟩
    rw [List.nil_append, splice, hslice]
  | cons first front ih =>
    obtain ⟨hwithin, hrow, hbehind⟩ := h.uncons
    have hboundary : Text.isBoundary first.span.stop source = true :=
      (fits_iff.1 (fits_iff_within.2 ⟨hwithin, hwithin.stop_le_width⟩)).2.2.2
    obtain ⟨before, after, hwithout, hwith⟩ := ih hrow hboundary hbehind
    refine ⟨Text.slice source place first.span.start ++ first.replacement.toList ++ before, after,
      ?_, ?_⟩
    · rw [List.cons_append, splice, hwithout, List.append_assoc _ before after]
    · rw [List.cons_append, splice, hwith]
      simp only [List.append_assoc]

/-- The text of an insertion that comes again, behind another one at its place, is inserted
    again. -/
theorem applyAll_concat_of_insertion {source : List Char} {edits : List Edit} {edit : Edit}
    (hmem : edit ∈ edits) (hwithin : edit.Within source)
    (hempty : edit.span.start = edit.span.stop) (hlast : ¬ edit.LastOfRange edits) :
    ∃ before after, applyAll source edits = before ++ after ∧
      applyAll source (edits ++ [edit]) = before ++ edit.replacement.toList ++ after := by
  obtain ⟨done, rest, hdone, hagain⟩ := accepted_concat_of_insertion hmem hwithin hempty hlast
  have hrow := inRow_accepted source (edits ++ [edit])
  have hreverse : (done ++ edit :: rest).reverse = rest.reverse ++ edit :: done.reverse := by simp
  have hzero : Text.isBoundary 0 source = true := by rw [Text.isBoundary]
  rw [(applies_accepted source edits).spliced, (applies_accepted source (edits ++ [edit])).spliced,
    hdone, hagain, hreverse, List.reverse_append]
  rw [hagain, hreverse] at hrow
  exact hrow.splice_insertion hempty hzero fun _ _ => Nat.zero_le _

theorem applyAll_concat_iff {source : List Char} {edits : List Edit} {edit : Edit}
    (hmem : edit ∈ edits) :
    applyAll source (edits ++ [edit]) = applyAll source edits ↔
      (edit.Within source → edit.span.start = edit.span.stop → edit.replacement ≠ "" →
        edit.LastOfRange edits) := by
  constructor
  · intro hsame hwithin hempty htext
    by_contra hlast
    obtain ⟨before, after, hwithout, hwith⟩ :=
      applyAll_concat_of_insertion hmem hwithin hempty hlast
    rw [hwithout, hwith, List.append_assoc, List.append_cancel_left_eq] at hsame
    exact htext (String.toList_eq_nil_iff.1 (List.append_left_eq_self.1 hsame))
  · intro h
    by_cases hinsertion : edit.Within source ∧ edit.span.start = edit.span.stop
    · obtain ⟨hwithin, hempty⟩ := hinsertion
      by_cases hlast : edit.LastOfRange edits
      · rw [applyAll, applyAll, accepted_concat_of_lastOfRange hmem hlast]
      · have htext : edit.replacement = "" := by
          by_contra htext
          exact hlast (h hwithin hempty htext)
        obtain ⟨before, after, hwithout, hwith⟩ :=
          applyAll_concat_of_insertion hmem hwithin hempty hlast
        rw [hwithout, hwith, htext]
        simp
    · rw [not_and] at hinsertion
      rw [applyAll, applyAll, accepted_concat_of_solid hmem hinsertion]

end Edit

/-- **A report that comes again changes nothing, unless it inserts at a place at which another
    one inserts behind it.** -/
theorem applyFixIts_concat_iff (source : String) {diagnostics : List Diagnostic}
    {diagnostic : Diagnostic} (h : diagnostic ∈ diagnostics) :
    applyFixIts source (diagnostics ++ [diagnostic]) = applyFixIts source diagnostics ↔
      ∀ fixIt ∈ diagnostic.fixIt?, fixIt.edit.Within source.toList →
        fixIt.edit.span.start = fixIt.edit.span.stop → fixIt.edit.replacement ≠ "" →
        fixIt.edit.LastOfRange (fixItEdits diagnostics) := by
  rw [← String.toList_inj, toList_applyFixIts, toList_applyFixIts]
  cases hfixIt : diagnostic.fixIt? with
  | none =>
    have hconcat : fixItEdits (diagnostics ++ [diagnostic]) = fixItEdits diagnostics := by
      simp [fixItEdits, hfixIt]
    rw [hconcat]
    simp
  | some fixIt =>
    have hconcat : fixItEdits (diagnostics ++ [diagnostic]) =
        fixItEdits diagnostics ++ [fixIt.edit] := by
      simp [fixItEdits, hfixIt]
    have hmem : fixIt.edit ∈ fixItEdits diagnostics := by
      apply List.mem_filterMap.2
      exact ⟨diagnostic, h, by rw [hfixIt]; rfl⟩
    rw [hconcat, Edit.applyAll_concat_iff hmem]
    simp

def insertingX : Diagnostic := .offering ⟨⟨1, 1, 1, 2⟩, "X"⟩

def insertingY : Diagnostic := .offering ⟨⟨1, 1, 1, 2⟩, "Y"⟩

theorem applyFixIts_concat_insertion :
    insertingX ∈ [insertingX, insertingY] ∧
    applyFixIts "ab" [insertingX, insertingY] = "aYXb" ∧
    applyFixIts "ab" ([insertingX, insertingY] ++ [insertingX]) = "aXYXb" ∧
    ∃ fixIt ∈ insertingX.fixIt?, fixIt.edit.Within "ab".toList ∧
      fixIt.edit.span.start = fixIt.edit.span.stop ∧ fixIt.edit.replacement ≠ "" ∧
      ¬ fixIt.edit.LastOfRange (fixItEdits [insertingX, insertingY]) := by
  have hmem : insertingX ∈ [insertingX, insertingY] := List.mem_cons_self
  have honce : applyFixIts "ab" [insertingX, insertingY] = "aYXb" := by decide +kernel
  have htwice : applyFixIts "ab" ([insertingX, insertingY] ++ [insertingX]) = "aXYXb" := by
    decide +kernel
  have hdiffer : ¬ applyFixIts "ab" ([insertingX, insertingY] ++ [insertingX]) =
      applyFixIts "ab" [insertingX, insertingY] := by
    rw [honce, htwice]
    decide
  rw [applyFixIts_concat_iff "ab" hmem] at hdiffer
  push Not at hdiffer
  exact ⟨hmem, honce, htwice, hdiffer⟩

end Memberwise
