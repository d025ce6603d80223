/-
  Memberwise/Proofs/Accepting.lean
  ================================
  **Any edits can be applied.**

  Edits may be anything: their spans may be reversed, end behind the text or inside a
  character, overlap or come twice.  Those that are applied form a row of the source
  (`InRow`).  Whatever was replaced before one of them lies behind it, so that its range is
  still one of the text when its turn comes, and the result is the source with the row
  spliced in (`Applies`).

  What is left out had to be.  The limit in front of which an edit must end is the start of
  an edit that was applied, and edits come in the order of their starts.  An edit whose range
  is one of the source and that is not applied therefore meets an applied one: both replace
  the same byte (`Shares`), or the other inserts at a place inside it (`Surrounds`).
-/
import Memberwise.Proofs.Fixing

namespace Memberwise

namespace Edit

/-! ### The row of accepted edits -/

theorem acceptedBelow_sublist (source : List Char) (limit : Nat) (edits : List Edit) :
    (acceptedBelow source limit edits).Sublist edits := by
  induction edits generalizing limit with
  | nil => exact .slnil
  | cons edit rest ih =>
    rw [acceptedBelow]
    split
    · exact (ih edit.span.start).cons_cons edit
    · exact (ih limit).cons edit

/-- Edits are applied or dropped, as often as they come. -/
theorem exists_dropped (source : List Char) (edits : List Edit) :
    ∃ dropped, edits.Perm (accepted source edits ++ dropped) := by
  have hsublist := (acceptedBelow_sublist source (Text.width source) _).trans
    (withoutRepeats_sublist (Memberwise.inOrder before edits))
  obtain ⟨dropped, hperm⟩ := hsublist.exists_perm_append
  exact ⟨dropped, (inOrder_perm before edits).symm.trans hperm⟩

theorem within_of_mem_acceptedBelow {source : List Char} {limit : Nat} {edits : List Edit}
    {edit : Edit} (h : edit ∈ acceptedBelow source limit edits) :
    edit.Within source ∧ edit.span.stop ≤ limit := by
  induction edits generalizing limit with
  | nil => cases h
  | cons first rest ih =>
    rw [acceptedBelow] at h
    split at h
    · next hfits =>
      obtain ⟨hwithin, hlimit⟩ := fits_iff_within.1 hfits
      rcases List.mem_cons.1 h with rfl | h
      · exact ⟨hwithin, hlimit⟩
      · obtain ⟨hother, hstop⟩ := ih h
        have hspan := hwithin.start_le_stop
        exact ⟨hother, by omega⟩
    · exact ih h

/-- Each accepted edit ends where the one before it starts, or in front of that. -/
theorem acceptedBelow_pairwise (source : List Char) (limit : Nat) (edits : List Edit) :
    (acceptedBelow source limit edits).Pairwise fun a b => b.span.stop ≤ a.span.start := by
  induction edits generalizing limit with
  | nil => exact .nil
  | cons edit rest ih =>
    rw [acceptedBelow]
    split
    · apply List.Pairwise.cons
      · intro other hother
        exact (within_of_mem_acceptedBelow hother).2
      · exact ih edit.span.start
    · exact ih limit

theorem inRow_accepted (source : List Char) (edits : List Edit) :
    InRow source (accepted source edits).reverse := by
  constructor
  · intro edit hedit
    exact (within_of_mem_acceptedBelow (List.mem_reverse.1 hedit)).1
  · rw [List.pairwise_reverse]
    exact acceptedBelow_pairwise source (Text.width source) _

/-! ### Applying the row -/

/-- How edits are applied to a source, the last in the text first, and what comes out. -/
structure Applies (source : List Char) (applied : List Edit) (result : List Char) : Prop where
  /-- Every edit replaces a range of the text that the edits before it have left. -/
  within : ∀ done edit rest, applied = done ++ edit :: rest →
    edit.Within (done.foldl replaceIn source)
  oneByOne : result = applied.foldl replaceIn source
  /-- The ranges are those of the source, from right to left and without overlap. -/
  inRow : InRow source applied.reverse
  /-- What comes out is the source between the ranges, with the replacements in their places. -/
  spliced : result = splice source 0 applied.reverse

theorem InRow.of_append {source : List Char} {front back : List Edit}
    (h : InRow source (front ++ back)) : InRow source back := by
  obtain ⟨hwithin, hinOrder⟩ := h
  refine ⟨?_, (List.pairwise_append.1 hinOrder).2.1⟩
  intro edit hedit
  exact hwithin edit (List.mem_append_right front hedit)

/-- Edits behind a place leave the text in front of it as it is. -/
theorem InRow.foldl_reverse {source : List Char} {row : List Edit} {place : Nat}
    (h : InRow source row) (hplace : Text.isBoundary place source = true)
    (hle : ∀ edit ∈ row, place ≤ edit.span.start) :
    row.reverse.foldl replaceIn source =
      Text.takeBytes place source ++ splice source place row := by
  rw [List.foldl_reverse]
  exact foldr_replaceIn h hplace hle

theorem InRow.within_foldl {source : List Char} {done rest : List Edit} {edit : Edit}
    (h : InRow source (done ++ edit :: rest).reverse) :
    edit.Within (done.foldl replaceIn source) := by
  rw [List.reverse_append, List.reverse_cons, List.append_assoc, List.singleton_append] at h
  obtain ⟨⟨before, gone, after, hsource, hstart, hstop⟩, hrow, hbehind⟩ := h.of_append.uncons
  have hboundary : Text.isBoundary edit.span.stop source = true := by
    rw [hsource]
    exact Text.isBoundary_of_width hstop.symm
  have htake : Text.takeBytes edit.span.stop source = before ++ gone := by
    rw [hsource]
    exact Text.takeBytes_of_width hstop.symm
  have hdone := hrow.foldl_reverse hboundary hbehind
  rw [List.reverse_reverse, htake] at hdone
  exact ⟨before, gone, splice source edit.span.stop done.reverse, hdone, hstart, hstop⟩

theorem applies_accepted (source : List Char) (edits : List Edit) :
    Applies source (accepted source edits) (applyAll source edits) := by
  have hrow := inRow_accepted source edits
  constructor
  case within =>
    intro done edit rest happlied
    rw [happlied] at hrow
    exact hrow.within_foldl
  case oneByOne => rfl
  case inRow => exact hrow
  case spliced =>
    have hzero : Text.isBoundary 0 source = true := by rw [Text.isBoundary]
    have happly := hrow.foldl_reverse hzero fun _ _ => Nat.zero_le _
    rw [List.reverse_reverse, Text.takeBytes_zero, List.nil_append] at happly
    exact happly

end Edit

/-- The edits of fix-its that are applied to a source, the last in the text first. -/
def appliedFixIts (source : String) (diagnostics : List Diagnostic) : List Edit :=
  Edit.accepted source.toList (fixItEdits diagnostics)

theorem toList_applyFixIts (source : String) (diagnostics : List Diagnostic) :
    (applyFixIts source diagnostics).toList =
      Edit.applyAll source.toList (fixItEdits diagnostics) := by
  rw [applyFixIts, String.toList_ofList]
  rfl

/-- **Whatever the fix-its are, those that are applied are spliced into the source**, each at
    a range of the text as it is when its turn comes. -/
theorem applyFixIts_applies (source : String) (diagnostics : List Diagnostic) :
    (∃ dropped, (fixItEdits diagnostics).Perm (appliedFixIts source diagnostics ++ dropped)) ∧
      Edit.Applies source.toList (appliedFixIts source diagnostics)
        (applyFixIts source diagnostics).toList := by
  refine ⟨Edit.exists_dropped source.toList (fixItEdits diagnostics), ?_⟩
  rw [toList_applyFixIts]
  exact Edit.applies_accepted source.toList (fixItEdits diagnostics)

def Diagnostic.offering (edit : Edit) : Diagnostic :=
  ⟨.notInferableType, "", .error, edit.span, some ⟨"", edit⟩⟩

/-- Edits of the text `aébcd`, of which the first three have no range of it and others overlap,
    come twice, or insert. -/
def unrulyEdits : List Edit :=
  [⟨⟨4, 1, 1, 5⟩, "reversed"⟩, ⟨⟨3, 18446744073709551615, 1, 4⟩, "too far"⟩,
    ⟨⟨2, 4, 1, 3⟩, "inside é"⟩, ⟨⟨3, 5, 1, 4⟩, "Y"⟩, ⟨⟨4, 4, 1, 5⟩, "+"⟩, ⟨⟨1, 4, 1, 2⟩, "X"⟩,
    ⟨⟨1, 4, 1, 2⟩, "X"⟩, ⟨⟨0, 1, 1, 1⟩, "A"⟩, ⟨⟨0, 0, 1, 1⟩, ">"⟩, ⟨⟨0, 4, 1, 1⟩, "Z"⟩]

theorem applyFixIts_applies_unruly :
    appliedFixIts "aébcd" (unrulyEdits.map .offering) =
      [⟨⟨4, 4, 1, 5⟩, "+"⟩, ⟨⟨1, 4, 1, 2⟩, "X"⟩, ⟨⟨0, 1, 1, 1⟩, "A"⟩, ⟨⟨0, 0, 1, 1⟩, ">"⟩] ∧
    applyFixIts "aébcd" (unrulyEdits.map .offering) = ">AX+cd" ∧
    Edit.Applies "aébcd".toList (appliedFixIts "aébcd" (unrulyEdits.map .offering))
      (applyFixIts "aébcd" (unrulyEdits.map .offering)).toList :=
  ⟨by decide +kernel, by decide +kernel, (applyFixIts_applies _ _).2⟩

/-! ### Edits that are left out -/

namespace Edit

/-- Both edits replace some byte of the source. -/
def Shares (a b : Edit) : Prop :=
  ∃ offset, a.span.start ≤ offset ∧ offset < a.span.stop ∧
    b.span.start ≤ offset ∧ offset < b.span.stop

/-- The second edit inserts at a place inside the range of the first. -/
def Surrounds (a b : Edit) : Prop :=
  b.span.start = b.span.stop ∧ a.span.start < b.span.start ∧ b.span.start < a.span.stop

/-- An edit that is not accepted ends behind the limit, or behind the start of an accepted edit
    that comes before it. -/
theorem mem_acceptedBelow_or {source : List Char} (limit : Nat) {edits : List Edit} {edit : Edit}
    (hsorted : edits.Pairwise (before · ·)) (hmem : edit ∈ edits) (hwithin : edit.Within source) :
    edit ∈ acceptedBelow source limit edits ∨ limit < edit.span.stop ∨
      ∃ applied ∈ acceptedBelow source limit edits,
        before applied edit = true ∧ applied.span.start < edit.span.stop := by
  induction edits generalizing limit with
  | nil => cases hmem
  | cons first rest ih =>
    rw [List.pairwise_cons] at hsorted
    rw [acceptedBelow]
    split
    · rcases List.mem_cons.1 hmem with rfl | hmem
      · exact .inl List.mem_cons_self
      · rcases ih first.span.start hsorted.2 hmem with
          haccepted | hstop | ⟨applied, happlied, hbefore, hstart⟩
        · exact .inl (List.mem_cons_of_mem first haccepted)
        · exact .inr (.inr ⟨first, List.mem_cons_self, hsorted.1 edit hmem, hstop⟩)
        · exact .inr (.inr ⟨applied, List.mem_cons_of_mem first happlied, hbefore, hstart⟩)
    · next hnot =>
      rcases List.mem_cons.1 hmem with rfl | hmem
      · refine .inr (.inl ?_)
        by_contra hlimit
        exact hnot (fits_iff_within.2 ⟨hwithin, Nat.not_lt.1 hlimit⟩)
      · exact ih limit hsorted.2 hmem

theorem shares_or_surrounds {edit applied : Edit} (hspan : applied.span.start ≤ applied.span.stop)
    (hbefore : before applied edit = true) (hstart : applied.span.start < edit.span.stop) :
    edit.Shares applied ∨ edit.Surrounds applied := by
  simp only [before, Bool.or_eq_true, Bool.and_eq_true, decide_eq_true_eq, beq_iff_eq] at hbefore
  -- the byte at which the applied edit starts, if it replaces any, is the common one
  by_cases hempty : applied.span.start = applied.span.stop
  · refine .inr ⟨hempty, ?_, hstart⟩
    omega
  · refine .inl ⟨applied.span.start, ?_⟩
    omega

theorem mem_accepted_or_meets {source : List Char} {edits : List Edit} {edit : Edit}
    (hmem : edit ∈ edits) (hwithin : edit.Within source) :
    edit ∈ accepted source edits ∨
      ∃ applied ∈ accepted source edits, edit.Shares applied ∨ edit.Surrounds applied := by
  have hsorted := (inOrder_pairwise before_total before_trans edits).sublist
    (withoutRepeats_sublist _)
  have hmem' : edit ∈ withoutRepeats (Memberwise.inOrder before edits) :=
    mem_withoutRepeats.2 ((inOrder_perm before edits).mem_iff.2 hmem)
  rcases mem_acceptedBelow_or (Text.width source) hsorted hmem' hwithin with
    haccepted | hstop | ⟨applied, happlied, hbefore, hstart⟩
  · exact .inl haccepted
  · exact absurd hwithin.stop_le_width (Nat.not_le.2 hstop)
  · have hspan := (within_of_mem_acceptedBelow happlied).1.start_le_stop
    exact .inr ⟨applied, happlied, shares_or_surrounds hspan hbefore hstart⟩

end Edit

/-- **No fix-it is left out without a conflict.**  A fix-it whose range is one of the source and
    that is not applied is one that is applied anyhow, or replaces a byte that an applied one
    replaces, or has an applied insertion inside. -/
theorem applyFixIts_drops_conflicts (source : String) (diagnostics : List Diagnostic) :
    ∃ dropped,
      (fixItEdits diagnostics).Perm (appliedFixIts source diagnostics ++ dropped) ∧
      (applyFixIts source diagnostics).toList =
        (appliedFixIts source diagnostics).foldl Edit.replaceIn source.toList ∧
      ∀ edit ∈ dropped, edit.Within source.toList →
        edit ∈ appliedFixIts source diagnostics ∨
          ∃ applied ∈ appliedFixIts source diagnostics,
            edit.Shares applied ∨ edit.Surrounds applied := by
  obtain ⟨dropped, hperm⟩ := Edit.exists_dropped source.toList (fixItEdits diagnostics)
  refine ⟨dropped, hperm, toList_applyFixIts source diagnostics, ?_⟩
  intro edit hedit hwithin
  have hmem := hperm.mem_iff.2 (List.mem_append_right _ hedit)
  exact Edit.mem_accepted_or_meets hmem hwithin

def crossedEdit : Edit := ⟨⟨3, 5, 1, 4⟩, "Y"⟩

theorem applyFixIts_drops_conflicts_crossed :
    crossedEdit ∈ unrulyEdits ∧ crossedEdit.Within "aébcd".toList ∧
    crossedEdit ∉ appliedFixIts "aébcd" (unrulyEdits.map .offering) ∧
    ∃ applied ∈ appliedFixIts "aébcd" (unrulyEdits.map .offering),
      crossedEdit.Shares applied ∨ crossedEdit.Surrounds applied := by
  have hoffered : crossedEdit ∈ fixItEdits (unrulyEdits.map .offering) := by decide +kernel
  have hwithin : crossedEdit.Within "aébcd".toList :=
    ⟨['a', 'é'], ['b', 'c'], ['d'], by decide, by decide, by decide⟩
  have hnot : crossedEdit ∉ appliedFixIts "aébcd" (unrulyEdits.map .offering) := by
    decide +kernel
  obtain ⟨dropped, hperm, -, hdropped⟩ :=
    applyFixIts_drops_conflicts "aébcd" (unrulyEdits.map .offering)
  have hmem := (List.mem_append.1 (hperm.mem_iff.1 hoffered)).resolve_left hnot
  exact ⟨by decide, hwithin, hnot, (hdropped crossedEdit hmem hwithin).resolve_left hnot⟩

end Memberwise
