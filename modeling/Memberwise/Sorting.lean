/-
  Memberwise/Sorting.lean
  =======================
  **Putting a list in order.**

  Edits and diagnostics are put in order by place.  Elements that may stand either
  way round keep the order in which they came.
-/

namespace Memberwise

variable {α : Type}

def insertInOrder (before : α → α → Bool) (a : α) : List α → List α
  | [] => [a]
  | b :: rest => if before a b then a :: b :: rest else b :: insertInOrder before a rest

/-- The elements of a list in order, where `before a b` says that `a` may stand
    before `b`. -/
def inOrder (before : α → α → Bool) : List α → List α
  | [] => []
  | a :: rest => insertInOrder before a (inOrder before rest)

/-- Inserting adds the element and loses none. -/
theorem insertInOrder_perm (before : α → α → Bool) (a : α) (list : List α) :
    (insertInOrder before a list).Perm (a :: list) := by
  induction list with
  | nil => exact .refl _
  | cons b rest ih =>
    simp only [insertInOrder]
    split
    · exact .refl _
    · exact (ih.cons b).trans (.swap a b rest)

/-- Nothing is lost and nothing is added. -/
theorem inOrder_perm (before : α → α → Bool) (list : List α) :
    (inOrder before list).Perm list := by
  induction list with
  | nil => exact .refl _
  | cons a rest ih => exact (insertInOrder_perm before a _).trans (ih.cons a)

/-- Inserting keeps a list in order. -/
theorem insertInOrder_pairwise {before : α → α → Bool}
    (total : ∀ a b, before a b = true ∨ before b a = true)
    (trans : ∀ a b c, before a b = true → before b c = true → before a c = true)
    (a : α) {list : List α} (h : list.Pairwise (before · ·)) :
    (insertInOrder before a list).Pairwise (before · ·) := by
  induction list with
  | nil => exact List.pairwise_singleton _ _
  | cons b rest ih =>
    rw [List.pairwise_cons] at h
    simp only [insertInOrder]
    split
    · next hab =>
      refine List.pairwise_cons.2 ⟨fun c hc => ?_, List.pairwise_cons.2 h⟩
      rcases List.mem_cons.1 hc with rfl | hc
      · exact hab
      · exact trans a b c hab (h.1 c hc)
    · next hab =>
      refine List.pairwise_cons.2 ⟨fun c hc => ?_, ih h.2⟩
      -- what stands behind `b` now is `a`, or stood behind it before
      rcases List.mem_cons.1 ((insertInOrder_perm before a rest).mem_iff.1 hc) with rfl | hc
      · exact (total c b).resolve_left hab
      · exact h.1 c hc

/-- The result is in order. -/
theorem inOrder_pairwise {before : α → α → Bool}
    (total : ∀ a b, before a b = true ∨ before b a = true)
    (trans : ∀ a b c, before a b = true → before b c = true → before a c = true)
    (list : List α) : (inOrder before list).Pairwise (before · ·) := by
  induction list with
  | nil => exact List.Pairwise.nil
  | cons a rest ih => exact insertInOrder_pairwise total trans a ih

/-! ### Elements that may stand either way round -/

theorem filter_insertInOrder {before : α → α → Bool} {keeps : α → Bool}
    (h : ∀ a b, keeps a = true → keeps b = true → before a b = true) (a : α) (list : List α) :
    (insertInOrder before a list).filter keeps = (a :: list).filter keeps := by
  induction list with
  | nil => rfl
  | cons b rest ih =>
    simp only [insertInOrder]
    split
    · rfl
    · next hab =>
      rw [List.filter_cons, ih]
      cases ha : keeps a with
      | false => simp [List.filter_cons, ha]
      | true =>
        cases hb : keeps b with
        | false => simp [List.filter_cons, hb]
        | true => exact absurd (h a b ha hb) hab

/-- Elements that may all stand either way round keep the order in which they came. -/
theorem filter_inOrder {before : α → α → Bool} {keeps : α → Bool}
    (h : ∀ a b, keeps a = true → keeps b = true → before a b = true) (list : List α) :
    (inOrder before list).filter keeps = list.filter keeps := by
  induction list with
  | nil => rfl
  | cons a rest ih => rw [inOrder, filter_insertInOrder h, List.filter_cons, List.filter_cons, ih]

theorem insertInOrder_append_left {before : α → α → Bool} {a : α} {front back : List α}
    (h : ∀ b ∈ back.head?, before a b = true) :
    insertInOrder before a (front ++ back) = insertInOrder before a front ++ back := by
  induction front with
  | nil =>
    cases back with
    | nil => rfl
    | cons b back => simp [insertInOrder, h b rfl]
  | cons c front ih =>
    rw [List.cons_append, insertInOrder, insertInOrder, ih]
    split <;> rfl

theorem insertInOrder_append_right {before : α → α → Bool} {a : α} {front back : List α}
    (h : ∀ b ∈ front, before a b = false) :
    insertInOrder before a (front ++ back) = front ++ insertInOrder before a back := by
  induction front with
  | nil => rfl
  | cons c front ih =>
    rw [List.forall_mem_cons] at h
    rw [List.cons_append, insertInOrder, h.1, ih h.2]
    rfl

/-- An element that comes last stands behind all that may stand before it, and in front of the
    others. -/
theorem inOrder_concat {before : α → α → Bool}
    (total : ∀ a b, before a b = true ∨ before b a = true)
    (trans : ∀ a b c, before a b = true → before b c = true → before a c = true)
    (list : List α) (a : α) :
    ∃ front back, inOrder before list = front ++ back ∧
      inOrder before (list ++ [a]) = front ++ a :: back ∧
      (∀ b ∈ front, before b a = true) ∧ ∀ b ∈ back, before b a = false := by
  induction list with
  | nil => exact ⟨[], [], rfl, rfl, by simp, by simp⟩
  | cons c list ih =>
    obtain ⟨front, back, hlist, hconcat, hfront, hback⟩ := ih
    rw [List.cons_append, inOrder, inOrder, hlist, hconcat]
    cases hc : before c a with
    | true =>
      have hhead : ∀ b ∈ back.head?, before c b = true := by
        intro b hb
        have hba := hback b (List.mem_of_mem_head? hb)
        exact trans c a b hc ((total b a).resolve_left (by simp [hba]))
      refine ⟨insertInOrder before c front, back, insertInOrder_append_left hhead,
        insertInOrder_append_left (by simp [hc]), ?_, hback⟩
      intro b hb
      rcases List.mem_cons.1 ((insertInOrder_perm before c front).mem_iff.1 hb) with rfl | hb
      · exact hc
      · exact hfront b hb
    | false =>
      have hskip : ∀ b ∈ front, before c b = false := by
        intro b hb
        cases hcb : before c b with
        | false => rfl
        | true => exact absurd (trans c b a hcb (hfront b hb)) (by simp [hc])
      refine ⟨front, insertInOrder before c back, insertInOrder_append_right hskip, ?_, hfront, ?_⟩
      · rw [insertInOrder_append_right hskip, insertInOrder, hc]
        rfl
      · intro b hb
        rcases List.mem_cons.1 ((insertInOrder_perm before c back).mem_iff.1 hb) with rfl | hb
        · exact hc
        · exact hback b hb

end Memberwise
