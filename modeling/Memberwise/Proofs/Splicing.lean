/-
  Memberwise/Proofs/Splicing.lean
  ===============================
  **Edits that keep apart are all applied.**

  Edits are applied from the end backwards, and an edit that runs into one already
  applied is left out.  If the edits, put in order, start one after another and
  none runs into the next, then nothing is left out, and the result is the source
  with the replacements spliced in from left to right (`splice`).  It does not
  matter in which order the edits came, nor how often one of them came.  Text in
  front of all edits stays, down to its first character.

  For the splicing itself it is enough that the edits form a row (`InRow`), in which
  several may insert at one place.
-/
import Mathlib.Data.List.Nodup
import Memberwise.Diagnostic
import Memberwise.Proofs.Offsets

namespace Memberwise.Edit

/-! ### Splicing -/

/-- A source from a byte offset on, with the replacements of some edits in place of
    what they replace. -/
def splice (source : List Char) : Nat → List Edit → List Char
  | place, [] => Text.dropBytes place source
  | place, edit :: rest =>
    Text.slice source place edit.span.start ++ edit.replacement.toList ++
      splice source edit.span.stop rest

/-- The range of an edit is one of a text: it starts and ends between two characters, and it
    does not end before it starts. -/
def Within (text : List Char) (edit : Edit) : Prop :=
  ∃ before gone after, text = before ++ gone ++ after ∧
    edit.span.start = Text.width before ∧ edit.span.stop = Text.width (before ++ gone)

/-- Edits of a source from left to right, none of which runs into the next.  Several of them
    may insert at one place. -/
structure InRow (source : List Char) (edits : List Edit) : Prop where
  within : ∀ edit ∈ edits, edit.Within source
  inOrder : edits.Pairwise fun a b => a.span.stop ≤ b.span.start

/-- Edits of a source that start one after another, none of which runs into the
    next. -/
structure Apart (source : List Char) (edits : List Edit) : Prop where
  fits : ∀ edit ∈ edits, edit.fits source (Text.width source) = true
  inOrder : edits.Pairwise fun a b => a.span.stop ≤ b.span.start ∧ a.span.start < b.span.start

theorem fits_iff {source : List Char} {limit : Nat} {edit : Edit} :
    edit.fits source limit = true ↔
      edit.span.start ≤ edit.span.stop ∧ edit.span.stop ≤ limit ∧
        Text.isBoundary edit.span.start source = true ∧
        Text.isBoundary edit.span.stop source = true := by
  simp only [fits, Bool.and_eq_true, decide_eq_true_eq, and_assoc]

theorem Within.start_le_stop {text : List Char} {edit : Edit} (h : edit.Within text) :
    edit.span.start ≤ edit.span.stop := by
  obtain ⟨before, gone, after, -, hstart, hstop⟩ := h
  rw [hstart, hstop, Text.width_append]
  exact Nat.le_add_right _ _

theorem Within.stop_le_width {text : List Char} {edit : Edit} (h : edit.Within text) :
    edit.span.stop ≤ Text.width text := by
  obtain ⟨before, gone, after, rfl, -, hstop⟩ := h
  rw [hstop, Text.width_append _ after]
  exact Nat.le_add_right _ _

/-- An edit can be applied in front of `limit` if its range is one of the source and ends
    there at the latest. -/
theorem fits_iff_within {source : List Char} {limit : Nat} {edit : Edit} :
    edit.fits source limit = true ↔ edit.Within source ∧ edit.span.stop ≤ limit := by
  rw [fits_iff]
  constructor
  · rintro ⟨hspan, hlimit, hstart, hstop⟩
    refine ⟨?_, hlimit⟩
    obtain ⟨before, rest, hbefore, hwidth⟩ := Text.exists_append_of_isBoundary hstart
    obtain ⟨upTo, after, hafter, hwidth'⟩ := Text.exists_append_of_isBoundary hstop
    obtain ⟨gone, rfl, -⟩ := Text.exists_append_of_width_le (hbefore.symm.trans hafter) (by omega)
    exact ⟨before, gone, after, hafter, hwidth.symm, hwidth'.symm⟩
  · rintro ⟨hwithin, hlimit⟩
    refine ⟨hwithin.start_le_stop, hlimit, ?_⟩
    obtain ⟨before, gone, after, rfl, hstart, hstop⟩ := hwithin
    refine ⟨?_, Text.isBoundary_of_width hstop.symm⟩
    rw [List.append_assoc]
    exact Text.isBoundary_of_width hstart.symm

theorem InRow.uncons {source : List Char} {edit : Edit} {rest : List Edit}
    (h : InRow source (edit :: rest)) :
    edit.Within source ∧ InRow source rest ∧
      ∀ other ∈ rest, edit.span.stop ≤ other.span.start := by
  obtain ⟨hwithin, hinOrder⟩ := h
  rw [List.forall_mem_cons] at hwithin
  rw [List.pairwise_cons] at hinOrder
  exact ⟨hwithin.1, ⟨hwithin.2, hinOrder.2⟩, hinOrder.1⟩

theorem Apart.inRow {source : List Char} {edits : List Edit} (h : Apart source edits) :
    InRow source edits := by
  refine ⟨?_, h.inOrder.imp And.left⟩
  intro edit hedit
  exact (fits_iff_within.1 (h.fits edit hedit)).1

/-! ### Text that stays -/

theorem splice_nil {source before after : List Char} (hsource : source = before ++ after) :
    splice source (Text.width before) [] = after := by
  rw [splice, hsource, Text.dropBytes_width_append]

/-- What stands in front of all edits stays. -/
theorem splice_append {source before text after : List Char} {edits : List Edit}
    (hsource : source = before ++ text ++ after)
    (h : ∀ edit ∈ edits, Text.width (before ++ text) ≤ edit.span.start) :
    splice source (Text.width before) edits =
      text ++ splice source (Text.width (before ++ text)) edits := by
  have hdrop : Text.dropBytes (Text.width before) source = text ++ after := by
    rw [hsource, List.append_assoc, Text.dropBytes_width_append]
  have hdrop' : Text.dropBytes (Text.width (before ++ text)) source = after := by
    rw [hsource, Text.dropBytes_width_append]
  cases edits with
  | nil => rw [splice, splice, hdrop, hdrop']
  | cons edit rest =>
    have hle := h edit List.mem_cons_self
    rw [Text.width_append] at hle
    rw [splice, splice, Text.slice, Text.slice, hdrop, hdrop',
      Text.takeBytes_append_of_le (by omega), Text.width_append, Nat.sub_sub]
    simp only [List.append_assoc]

theorem splice_skip {source before before' after after' : List Char} {edits : List Edit}
    (h : source = before ++ after) (h' : source = before' ++ after')
    (hle : Text.width before ≤ Text.width before')
    (hedits : ∀ edit ∈ edits, Text.width before' ≤ edit.span.start) :
    ∃ text, after = text ++ after' ∧ splice source (Text.width before) edits =
      text ++ splice source (Text.width before') edits := by
  obtain ⟨text, rfl, rfl⟩ := Text.exists_append_of_width_le (h.symm.trans h') hle
  refine ⟨text, rfl, ?_⟩
  exact splice_append h' hedits

/-- The first character behind a place stays, if all edits start behind the place. -/
theorem head?_splice {source before after : List Char} {edits : List Edit}
    (hsource : source = before ++ after)
    (hedits : ∀ edit ∈ edits, Text.width before < edit.span.start ∧
      Text.isBoundary edit.span.start source = true) :
    (splice source (Text.width before) edits).head? = after.head? := by
  -- a boundary behind the place leaves room for a character
  have hroom : ∀ edit ∈ edits, ∃ c rest, after = c :: rest ∧
      Text.width (before ++ [c]) ≤ edit.span.start := by
    intro edit hedit
    obtain ⟨hlt, hbound⟩ := hedits edit hedit
    obtain ⟨a, b, hab, ha⟩ := Text.exists_append_of_isBoundary hbound
    obtain ⟨middle, rfl, rfl⟩ := Text.exists_append_of_width_le (hsource.symm.trans hab) (by omega)
    cases middle with
    | nil =>
      rw [List.append_nil] at ha
      omega
    | cons c middle =>
      refine ⟨c, middle ++ b, rfl, ?_⟩
      simp only [Text.width_append, Text.width_cons, Text.width_nil] at ha ⊢
      omega
  cases after with
  | nil =>
    cases edits with
    | nil => rw [splice_nil hsource]
    | cons edit edits =>
      obtain ⟨_, _, hnil, -⟩ := hroom edit List.mem_cons_self
      cases hnil
  | cons c rest =>
    have hparts : source = before ++ [c] ++ rest := by rw [hsource]; simp
    rw [splice_append hparts fun edit hedit => ?_]
    · rfl
    · obtain ⟨d, _, heq, hle⟩ := hroom edit hedit
      cases heq
      exact hle

/-! ### Putting edits in order -/

theorem before_total (a b : Edit) : before a b = true ∨ before b a = true := by
  simp only [before, Bool.or_eq_true, Bool.and_eq_true, decide_eq_true_eq, beq_iff_eq]
  omega

theorem before_trans (a b c : Edit) (hab : before a b = true) (hbc : before b c = true) :
    before a c = true := by
  simp only [before, Bool.or_eq_true, Bool.and_eq_true, decide_eq_true_eq, beq_iff_eq] at *
  omega

/-- Of the edits of a row, two that may stand either way round are one. -/
theorem Apart.eq_of_before {source : List Char} {chain : List Edit} (h : Apart source chain)
    {a b : Edit} (ha : a ∈ chain) (hb : b ∈ chain) (hab : before a b = true)
    (hba : before b a = true) : a = b := by
  have hstarts : (chain.map (·.span.start)).Nodup :=
    List.pairwise_map.2 (h.inOrder.imp fun hlt => Nat.ne_of_lt hlt.2)
  apply List.inj_on_of_nodup_map hstarts ha hb
  simp only [before, Bool.or_eq_true, Bool.and_eq_true, decide_eq_true_eq, beq_iff_eq] at hab hba
  omega

theorem Apart.uncons {source : List Char} {edit : Edit} {rest : List Edit}
    (h : Apart source (edit :: rest)) :
    Apart source rest ∧ Text.isBoundary edit.span.stop source = true ∧
      ∀ other ∈ rest, edit.span.stop ≤ other.span.start := by
  obtain ⟨hfits, hinOrder⟩ := h
  rw [List.forall_mem_cons] at hfits
  rw [List.pairwise_cons] at hinOrder
  exact ⟨⟨hfits.2, hinOrder.2⟩, (fits_iff.1 hfits.1).2.2.2, fun other hother =>
    (hinOrder.1 other hother).1⟩

theorem Apart.nodup {source : List Char} {chain : List Edit} (h : Apart source chain) :
    chain.Nodup := by
  apply h.inOrder.imp
  rintro a _ ⟨-, hlt⟩ rfl
  exact absurd hlt (Nat.lt_irrefl _)

theorem Apart.reverse_pairwise {source : List Char} {chain : List Edit}
    (h : Apart source chain) : chain.reverse.Pairwise (before · ·) := by
  rw [List.pairwise_reverse]
  apply h.inOrder.imp
  intro a b hab
  simp only [before, Bool.or_eq_true, decide_eq_true_eq]
  exact .inl hab.2

/-! ### Edits that come more than once -/

theorem withoutRepeats_sublist (edits : List Edit) : (withoutRepeats edits).Sublist edits := by
  fun_induction withoutRepeats edits with
  | case1 => exact .refl _
  | case2 => exact .refl _
  | case3 edit rest ih => exact ih.cons edit
  | case4 edit next rest hne ih => exact ih.cons_cons edit

theorem mem_withoutRepeats {edits : List Edit} {edit : Edit} :
    edit ∈ withoutRepeats edits ↔ edit ∈ edits := by
  fun_induction withoutRepeats edits with
  | case1 => rfl
  | case2 => rfl
  | case3 first rest ih => simp [ih]
  | case4 first next rest hne ih => rw [List.mem_cons, ih, ← List.mem_cons]

/-- Where edits that may stand either way round are one, equal edits are neighbours once
    they are in order, so one of each is left. -/
theorem withoutRepeats_nodup {edits : List Edit} (hsorted : edits.Pairwise (before · ·))
    (hone : ∀ a ∈ edits, ∀ b ∈ edits, before a b = true → before b a = true → a = b) :
    (withoutRepeats edits).Nodup := by
  fun_induction withoutRepeats edits with
  | case1 => exact .nil
  | case2 edit => exact List.nodup_singleton edit
  | case3 edit rest ih =>
    exact ih hsorted.of_cons fun a ha b hb =>
      hone a (List.mem_cons_of_mem _ ha) b (List.mem_cons_of_mem _ hb)
  | case4 edit next rest hne ih =>
    have hrest := ih hsorted.of_cons fun a ha b hb =>
      hone a (List.mem_cons_of_mem _ ha) b (List.mem_cons_of_mem _ hb)
    refine List.nodup_cons.2 ⟨?_, hrest⟩
    intro hmem
    rw [mem_withoutRepeats] at hmem
    rcases List.mem_cons.1 hmem with heq | hmem
    · exact hne heq
    · -- a copy further back would have its neighbour on either side
      have hbefore := List.rel_of_pairwise_cons hsorted List.mem_cons_self
      have hbehind := List.rel_of_pairwise_cons hsorted.of_cons hmem
      exact hne (hone edit List.mem_cons_self next (by simp) hbefore hbehind)

/-- Edits of which the distinct ones start one after another have one order. -/
theorem withoutRepeats_inOrder {source : List Char} {edits chain : List Edit}
    (hmem : ∀ edit, edit ∈ chain ↔ edit ∈ edits) (h : Apart source chain) :
    withoutRepeats (Memberwise.inOrder before edits) = chain.reverse := by
  have hsorted := inOrder_pairwise before_total before_trans edits
  have hchain : ∀ edit, edit ∈ Memberwise.inOrder before edits ↔ edit ∈ chain := by
    intro edit
    rw [(inOrder_perm before edits).mem_iff, hmem]
  have hone : ∀ a ∈ Memberwise.inOrder before edits, ∀ b ∈ Memberwise.inOrder before edits,
      before a b = true → before b a = true → a = b := by
    intro a ha b hb
    exact h.eq_of_before ((hchain a).1 ha) ((hchain b).1 hb)
  have hperm : (withoutRepeats (Memberwise.inOrder before edits)).Perm chain.reverse := by
    refine (List.perm_ext_iff_of_nodup (withoutRepeats_nodup hsorted hone)
      (List.nodup_reverse.2 h.nodup)).2 ?_
    intro edit
    rw [mem_withoutRepeats, hchain, List.mem_reverse]
  refine hperm.eq_of_pairwise ?_ (hsorted.sublist (withoutRepeats_sublist _)) h.reverse_pairwise
  intro a b ha hb
  exact h.eq_of_before (List.mem_reverse.1 (hperm.mem_iff.1 ha)) (List.mem_reverse.1 hb)

/-! ### Accepting edits -/

theorem acceptedBelow_eq_self {source : List Char} {limit : Nat} {edits : List Edit}
    (hfits : ∀ edit ∈ edits, edit.fits source limit = true)
    (hapart : edits.Pairwise fun a b => b.span.stop ≤ a.span.start) :
    acceptedBelow source limit edits = edits := by
  induction edits generalizing limit with
  | nil => rfl
  | cons edit rest ih =>
    rw [List.pairwise_cons] at hapart
    rw [acceptedBelow, if_pos (hfits edit List.mem_cons_self), ih ?_ hapart.2]
    intro other hother
    have hother' := fits_iff.1 (hfits other (List.mem_cons_of_mem _ hother))
    exact fits_iff.2 ⟨hother'.1, hapart.1 other hother, hother'.2.2⟩

/-- Edits of which the distinct ones keep apart are all accepted. -/
theorem accepted_eq_reverse_of_mem {source : List Char} {edits chain : List Edit}
    (hmem : ∀ edit, edit ∈ chain ↔ edit ∈ edits) (h : Apart source chain) :
    accepted source edits = chain.reverse := by
  rw [accepted, withoutRepeats_inOrder hmem h, acceptedBelow_eq_self]
  · intro edit hedit
    exact h.fits edit (List.mem_reverse.1 hedit)
  · rw [List.pairwise_reverse]
    exact h.inOrder.imp And.left

theorem accepted_eq_reverse {source : List Char} {edits chain : List Edit}
    (hperm : chain.Perm edits) (h : Apart source chain) :
    accepted source edits = chain.reverse :=
  accepted_eq_reverse_of_mem (fun _ => hperm.mem_iff) h

/-! ### Applying edits -/

/-- Applying the edits of a row from its end on, up to a place in front of all of them. -/
theorem foldr_replaceIn {source : List Char} {row : List Edit} {place : Nat}
    (h : InRow source row) (hplace : Text.isBoundary place source = true)
    (hle : ∀ edit ∈ row, place ≤ edit.span.start) :
    row.foldr (fun edit text => replaceIn text edit) source =
      Text.takeBytes place source ++ splice source place row := by
  induction row generalizing place with
  | nil => exact (Text.takeBytes_append_dropBytes place source).symm
  | cons edit rest ih =>
    obtain ⟨⟨before, gone, after, hsource, hstart, hstop⟩, hrest, hbehind⟩ := h.uncons
    have hboundary : Text.isBoundary edit.span.stop source = true := by
      rw [hsource]
      exact Text.isBoundary_of_width hstop.symm
    rw [List.foldr_cons, ih hrest hboundary hbehind]
    -- the place parts what is in front of the edit into text that is done and text that is kept
    obtain ⟨done, tail, hdone, hwidth⟩ := Text.exists_append_of_isBoundary hplace
    have hle' := hle edit List.mem_cons_self
    obtain ⟨kept, rfl, -⟩ := Text.exists_append_of_width_le
      (hdone.symm.trans (hsource.trans (List.append_assoc _ _ _))) (by omega)
    have hslice : Text.slice source place edit.span.start = kept := by
      rw [hsource, List.append_assoc (done ++ kept)]
      apply Text.slice_append hwidth
      rw [hstart, Text.width_append, hwidth]
    have htake : Text.takeBytes edit.span.stop source = done ++ kept ++ gone := by
      rw [hsource]
      exact Text.takeBytes_of_width hstop.symm
    rw [splice, hslice, htake, replaceIn, Text.dropBytes_of_width hstop.symm,
      List.append_assoc (done ++ kept), Text.takeBytes_of_width hstart.symm, hdone,
      Text.takeBytes_of_width hwidth]
    simp only [List.append_assoc]

/-- **Edits of which the distinct ones keep apart are all applied**, and the result is
    the source with the replacements spliced in. -/
theorem applyAll_eq_splice_of_mem {source : List Char} {edits chain : List Edit}
    (hmem : ∀ edit, edit ∈ chain ↔ edit ∈ edits) (h : Apart source chain) :
    applyAll source edits = splice source 0 chain := by
  have hzero : Text.isBoundary 0 source = true := by rw [Text.isBoundary]
  rw [applyAll, accepted_eq_reverse_of_mem hmem h, List.foldl_reverse,
    foldr_replaceIn h.inRow hzero fun _ _ => Nat.zero_le _, Text.takeBytes_zero, List.nil_append]

theorem applyAll_eq_splice {source : List Char} {edits chain : List Edit}
    (hperm : chain.Perm edits) (h : Apart source chain) :
    applyAll source edits = splice source 0 chain :=
  applyAll_eq_splice_of_mem (fun _ => hperm.mem_iff) h

end Memberwise.Edit
