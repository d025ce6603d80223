/-
  Memberwise/Proofs/Offsets.lean
  ==============================
  **Places in a text, as the parts before and behind them.**

  Spans are numbers, but what is proved about them is about texts: a span lies
  where it does because the source is `before ++ text ++ after` and the numbers
  are widths of these parts.  This file goes between the two views.  Two ways to
  part a text at one offset are the same, so nothing depends on which parts are
  chosen, and the position of an offset is read off the part before it.
-/
import Memberwise.Text

namespace Memberwise.Text

/-! ### Widths -/

@[simp] theorem width_nil : width [] = 0 := rfl

@[simp] theorem width_cons (c : Char) (rest : List Char) :
    width (c :: rest) = c.utf8Size + width rest := rfl

theorem width_pos {text : List Char} (h : text ≠ []) : 0 < width text := by
  cases text with
  | nil => exact absurd rfl h
  | cons c rest =>
    have := c.utf8Size_pos
    simp only [width_cons]
    omega

theorem eq_nil_of_width_eq_zero {text : List Char} (h : width text = 0) : text = [] := by
  by_cases hne : text = []
  · exact hne
  · have := width_pos hne
    omega

/-! ### Two ways to part a text -/

/-- If two ways to part a text cut at offsets in this order, then the first cut
    falls into the first part of the other. -/
theorem exists_append_of_width_le {a b c d : List Char} (h : a ++ b = c ++ d)
    (hw : width a ≤ width c) : ∃ middle, c = a ++ middle ∧ b = middle ++ d := by
  rcases List.append_eq_append_iff.1 h with ⟨middle, hc, hb⟩ | ⟨middle, ha, hd⟩
  · exact ⟨middle, hc, hb⟩
  · -- the cuts are the other way round, so nothing lies between them
    have hzero : middle = [] := by
      apply eq_nil_of_width_eq_zero
      rw [ha, width_append] at hw
      omega
    subst hzero
    exact ⟨[], by simpa using ha.symm, by simpa using hd.symm⟩

theorem append_inj_of_width_eq {a b c d : List Char} (h : a ++ b = c ++ d)
    (hw : width a = width c) : a = c ∧ b = d := by
  obtain ⟨middle, hc, hb⟩ := exists_append_of_width_le h (Nat.le_of_eq hw)
  have hzero : middle = [] := by
    apply eq_nil_of_width_eq_zero
    rw [hc, width_append] at hw
    omega
  subst hzero
  exact ⟨by simpa using hc.symm, by simpa using hb⟩

/-! ### Cuts at known offsets -/

theorem takeBytes_of_width {a b : List Char} {n : Nat} (h : width a = n) :
    takeBytes n (a ++ b) = a := by
  subst h
  exact takeBytes_width_append a b

theorem dropBytes_of_width {a b : List Char} {n : Nat} (h : width a = n) :
    dropBytes n (a ++ b) = b := by
  subst h
  exact dropBytes_width_append a b

theorem takeBytes_append_of_le {a b : List Char} {n : Nat} (h : width a ≤ n) :
    takeBytes n (a ++ b) = a ++ takeBytes (n - width a) b := by
  induction a generalizing n with
  | nil => rfl
  | cons c a ih =>
    rw [width_cons] at h
    obtain ⟨m, rfl⟩ : ∃ m, n = m + 1 := ⟨n - 1, by have := c.utf8Size_pos; omega⟩
    rw [List.cons_append, takeBytes, ih (by omega), width_cons, Nat.sub_sub, List.cons_append]

theorem slice_append {a b c : List Char} {start stop : Nat} (hstart : width a = start)
    (hstop : start + width b = stop) : slice (a ++ b ++ c) start stop = b := by
  have hwidth : stop - start = width b := by omega
  rw [slice, List.append_assoc, dropBytes_of_width hstart, hwidth, takeBytes_width_append]

@[simp] theorem takeBytes_zero (text : List Char) : takeBytes 0 text = [] := by
  cases text <;> rfl

@[simp] theorem slice_self (text : List Char) (n : Nat) : slice text n n = [] := by
  rw [slice, Nat.sub_self, takeBytes_zero]

theorem isBoundary_width_append (a b : List Char) : isBoundary (width a) (a ++ b) = true := by
  induction a with
  | nil => cases b <;> rfl
  | cons c rest ih =>
    obtain ⟨m, hm⟩ : ∃ m, c.utf8Size + width rest = m + 1 :=
      ⟨c.utf8Size + width rest - 1, by have := c.utf8Size_pos; omega⟩
    have hw : m + 1 - c.utf8Size = width rest := by omega
    simp only [width_cons, List.cons_append, hm, isBoundary, hw, ih, Bool.and_true,
      decide_eq_true_eq]
    omega

theorem isBoundary_of_width {a b : List Char} {n : Nat} (h : width a = n) :
    isBoundary n (a ++ b) = true := by
  subst h
  exact isBoundary_width_append a b

theorem exists_append_of_isBoundary {n : Nat} {text : List Char} (h : isBoundary n text = true) :
    ∃ a b, text = a ++ b ∧ width a = n := by
  fun_induction isBoundary n text with
  | case1 text => exact ⟨[], text, rfl, rfl⟩
  | case2 => cases h
  | case3 n c rest ih =>
    simp only [Bool.and_eq_true, decide_eq_true_eq] at h
    obtain ⟨a, b, rfl, hwidth⟩ := ih h.2
    exact ⟨c :: a, b, rfl, by rw [width_cons]; omega⟩

/-! ### Runs at the two ends of a text -/

theorem leadingBlanks_append_dropWhile (text : List Char) :
    leadingBlanks text ++ text.dropWhile isBlank = text :=
  List.takeWhile_append_dropWhile

theorem all_leadingBlanks (text : List Char) : (leadingBlanks text).all isBlank = true :=
  List.all_takeWhile

theorem trimEnd_append_blanks (text : List Char) :
    ∃ blanks, text = trimEnd text ++ blanks ∧ blanks.all isBlank = true := by
  refine ⟨(text.reverse.takeWhile isBlank).reverse, ?_, ?_⟩
  · rw [trimEnd, ← List.reverse_append, List.takeWhile_append_dropWhile, List.reverse_reverse]
  · rw [List.all_reverse]
    exact List.all_takeWhile

/-! ### Last lines -/

theorem lastLine_append_newline (text : List Char) : lastLine (text ++ ['\n']) = [] := by
  simp [lastLine]

theorem lastLine_append_of_ne {c : Char} (text : List Char) (hc : c ≠ '\n') :
    lastLine (text ++ [c]) = lastLine text ++ [c] := by
  simp [lastLine, hc]

/-- A text without line feeds goes on with the line that it is put behind. -/
theorem lastLine_append {text more : List Char} (h : '\n' ∉ more) :
    lastLine (text ++ more) = lastLine text ++ more := by
  induction more generalizing text with
  | nil => simp
  | cons c more ih =>
    simp only [List.mem_cons, not_or] at h
    have hstep : text ++ c :: more = (text ++ [c]) ++ more := by simp
    rw [hstep, ih h.2, lastLine_append_of_ne text (Ne.symm h.1), List.append_assoc,
      List.singleton_append]

theorem exists_append_lastLine (text : List Char) : ∃ front, text = front ++ lastLine text := by
  refine ⟨(text.reverse.dropWhile (· != '\n')).reverse, ?_⟩
  rw [lastLine, ← List.reverse_append, List.takeWhile_append_dropWhile, List.reverse_reverse]

/-! ### Solid places -/

/-- A character that is not blank stands at byte offset `n`. -/
def SolidAt (source : List Char) (n : Nat) : Prop :=
  ∃ before c after, source = before ++ c :: after ∧ width before = n ∧ isBlank c = false

/-- Blanks do not reach past a solid place behind them. -/
theorem SolidAt.not_in_blanks {source before blanks after : List Char} {n : Nat}
    (h : SolidAt source n) (hsource : source = before ++ blanks ++ after)
    (hblanks : blanks.all isBlank = true) (hn : width before ≤ n) :
    width before + width blanks ≤ n := by
  obtain ⟨front, c, back, hfront, hwidth, hc⟩ := h
  by_cases hle : width before + width blanks ≤ n
  · exact hle
  · -- otherwise the character at `n` is one of the blanks
    exfalso
    obtain ⟨skipped, hskipped, hrest⟩ :=
      exists_append_of_width_le (a := before) (b := blanks ++ after) (c := front) (d := c :: back)
        (by rw [← List.append_assoc, ← hsource, hfront]) (by omega)
    obtain ⟨left, hleft, hright⟩ :=
      exists_append_of_width_le (a := skipped) (b := c :: back) (c := blanks) (d := after)
        hrest.symm (by rw [hskipped, width_append] at hwidth; omega)
    cases left with
    | nil =>
      rw [List.append_nil] at hleft
      rw [hskipped, ← hleft, width_append] at hwidth
      omega
    | cons d left =>
      rw [List.cons_append, List.cons.injEq] at hright
      obtain ⟨rfl, -⟩ := hright
      rw [List.all_eq_true] at hblanks
      have := hblanks c (by rw [hleft]; simp)
      rw [this] at hc
      cases hc

end Memberwise.Text

namespace Memberwise

/-! ### Positions -/

/-- The position behind a text, with lines and byte columns counted from one. -/
def Position.behind (before : List Char) : Position :=
  ⟨before.count '\n' + 1, Text.width (Text.lastLine before) + 1⟩

def Span.across (before text : List Char) : Span :=
  ⟨Text.width before, Text.width before + Text.width text, (Position.behind before).line,
    (Position.behind before).column⟩

namespace Span

/-- A span covers a text: the text stands in the source from the start of the span to
    its end, and line and column are those of the start. -/
def Covers (source : List Char) (span : Span) (text : List Char) : Prop :=
  ∃ before after, source = before ++ text ++ after ∧ span = Span.across before text

def Lies (source : List Char) (span : Span) : Prop := ∃ text, span.Covers source text

theorem Covers.slice_eq {source text : List Char} {span : Span} (h : span.Covers source text) :
    Text.slice source span.start span.stop = text := by
  obtain ⟨before, after, rfl, rfl⟩ := h
  exact Text.slice_append rfl rfl

theorem Lies.covers_slice {source : List Char} {span : Span} (h : span.Lies source) :
    span.Covers source (Text.slice source span.start span.stop) := by
  obtain ⟨text, htext⟩ := h
  rw [htext.slice_eq]
  exact htext

theorem Covers.start_le_stop {source text : List Char} {span : Span}
    (h : span.Covers source text) : span.start ≤ span.stop := by
  obtain ⟨before, after, -, rfl⟩ := h
  exact Nat.le_add_right _ _

theorem Covers.extend {source text : List Char} {span : Span} {stop : Nat}
    (h : span.Covers source text) (hstop : Text.isBoundary stop source = true)
    (hle : span.stop ≤ stop) : ∃ more, (span.upTo stop).Covers source (text ++ more) := by
  obtain ⟨before, after, hsource, rfl⟩ := h
  obtain ⟨front, back, hfront, hwidth⟩ := Text.exists_append_of_isBoundary hstop
  obtain ⟨more, rfl, -⟩ := Text.exists_append_of_width_le (hsource.symm.trans hfront)
    (by simp only [across] at hle; simp only [Text.width_append]; omega)
  refine ⟨more, before, back, by rw [hfront, List.append_assoc before], ?_⟩
  simp only [across, Span.upTo, ← hwidth, Text.width_append, Nat.add_assoc]

theorem Covers.join {source text text' : List Char} {span span' : Span}
    (h : span.Covers source text) (h' : span'.Covers source text')
    (hle : span.stop ≤ span'.start) :
    ∃ middle, (span.upTo span'.stop).Covers source (text ++ middle ++ text') := by
  obtain ⟨before, after, hsource, rfl⟩ := h
  obtain ⟨before', after', hsource', rfl⟩ := h'
  rw [List.append_assoc before'] at hsource'
  obtain ⟨middle, rfl, -⟩ := Text.exists_append_of_width_le (hsource.symm.trans hsource')
    (by simp only [across] at hle; simp only [Text.width_append]; omega)
  refine ⟨middle, before, after', by rw [hsource']; simp, ?_⟩
  simp only [across, Span.upTo, Text.width_append, Nat.add_assoc]

theorem Lies.upTo {source : List Char} {span : Span} {stop : Nat} (h : span.Lies source)
    (hstop : Text.isBoundary stop source = true) (hle : span.start ≤ stop) :
    (span.upTo stop).Lies source := by
  obtain ⟨text, before, after, hsource, rfl⟩ := h
  have hempty : (across before []).Covers source [] :=
    ⟨before, text ++ after, by simp [hsource], rfl⟩
  obtain ⟨more, hmore⟩ := hempty.extend hstop (by simpa [across] using hle)
  exact ⟨more, hmore⟩

theorem Lies.boundary {source : List Char} {span : Span} (h : span.Lies source) :
    Text.isBoundary span.start source = true ∧ Text.isBoundary span.stop source = true := by
  obtain ⟨text, before, after, rfl, rfl⟩ := h
  refine ⟨?_, Text.isBoundary_of_width (by simp [across])⟩
  rw [List.append_assoc]
  exact Text.isBoundary_of_width rfl

theorem Lies.empty {source : List Char} {span : Span} (h : span.Lies source) :
    (span.upTo span.start).Lies source :=
  h.upTo h.boundary.1 (Nat.le_refl _)

/-- Spans that stand between two offsets, in order and without overlap. -/
def InOrder : Nat → List Span → Nat → Prop
  | low, [], high => low ≤ high
  | low, span :: rest, high =>
    low ≤ span.start ∧ span.start ≤ span.stop ∧ InOrder span.stop rest high

theorem InOrder.le {low high : Nat} {spans : List Span} (h : InOrder low spans high) :
    low ≤ high := by
  induction spans generalizing low with
  | nil => exact h
  | cons span rest ih =>
    obtain ⟨hstart, hstop, hrest⟩ := h
    have := ih hrest
    omega

theorem InOrder.mono {low low' high high' : Nat} {spans : List Span} (h : InOrder low spans high)
    (hlow : low' ≤ low) (hhigh : high ≤ high') : InOrder low' spans high' := by
  induction spans generalizing low low' with
  | nil =>
    have hle : low ≤ high := h
    show low' ≤ high'
    omega
  | cons span rest ih =>
    obtain ⟨hstart, hstop, hrest⟩ := h
    exact ⟨by omega, hstop, ih hrest (Nat.le_refl _)⟩

theorem InOrder.append {low middle high : Nat} {front back : List Span}
    (hfront : InOrder low front middle) (hback : InOrder middle back high) :
    InOrder low (front ++ back) high := by
  induction front generalizing low with
  | nil => exact hback.mono hfront (Nat.le_refl _)
  | cons span rest ih =>
    obtain ⟨hstart, hstop, hrest⟩ := hfront
    exact ⟨hstart, hstop, ih hrest⟩

theorem InOrder.sublist {low high : Nat} {spans fewer : List Span} (h : InOrder low spans high)
    (hsub : fewer.Sublist spans) : InOrder low fewer high := by
  induction hsub generalizing low with
  | slnil => exact h
  | cons span _ ih =>
    obtain ⟨hstart, hstop, hrest⟩ := h
    exact (ih hrest).mono (by omega) (Nat.le_refl _)
  | cons_cons span _ ih =>
    obtain ⟨hstart, hstop, hrest⟩ := h
    exact ⟨hstart, hstop, ih hrest⟩

end Span

end Memberwise
