/-
  Memberwise/Proofs/Expressions.lean
  ==================================
  **Where expressions and types lie.**

  The text of an expression or a type is the source from the first token taken to
  the last.  An expression may be empty; its span is then an empty one in front of
  the next token, and it lies in nothing.  Elements of an array lie in the array,
  one behind another, so reading them is followed by induction on the limit, with
  the reader for what stands in the inner brackets taken from one level below.
-/
import Memberwise.Proofs.Readers

namespace Memberwise

/-! ### Located expressions -/

/-- The spans of the expressions that are not empty. -/
def writtenSpans (exprs : List Expr) : List Span :=
  (exprs.filter (·.text ≠ "")).map (·.span)

mutual

/-- An expression whose span covers its text; and so on for the elements of an
    array. -/
def Expr.Located (source : List Char) : Expr → Prop
  | ⟨shape, text, span⟩ =>
    span.Covers source text.toList ∧ Expr.Shape.Located source span shape

/-- The elements of an array lie in its span, in order. -/
def Expr.Shape.Located (source : List Char) (span : Span) : Expr.Shape → Prop
  | .array elements =>
    Expr.AllLocated source elements ∧
      Span.InOrder span.start (writtenSpans elements) span.stop
  | _ => True

def Expr.AllLocated (source : List Char) : List Expr → Prop
  | [] => True
  | first :: rest => first.Located source ∧ Expr.AllLocated source rest

end

theorem Span.Lies.covers_sourceText {source : List Char} {span : Span} (h : span.Lies source) :
    span.Covers source (sourceText source span.start span.stop).toList := by
  rw [sourceText, String.toList_ofList]
  exact h.covers_slice

theorem sourceText_self (source : List Char) (n : Nat) : sourceText source n n = "" := by
  rw [sourceText, Text.slice_self]

namespace Reader

variable {source : List Char} {stream after : TokenStream}

/-! ### Types -/

theorem type_takes {written : WrittenType} (hready : Ready source stream)
    (h : type source stream = .ok (written, after)) :
    ∃ taken, taken ≠ [] ∧ Takes stream taken [] after ∧ AtBreak after ∧
      written.span = stream.head.span.upTo after.readTo ∧
      written.span.Covers source written.text.toList := by
  rw [type, peek_bind_eq_ok, bind_eq_ok] at h
  obtain ⟨taken, between, htake, h⟩ := h
  obtain ⟨-, hrest, htakes⟩ := take_takes (typeRun_refines true 0 _) htake
  generalize hlast : taken.getLast? = last? at h
  split at h
  · next last =>
    rw [pure_eq_ok] at h
    obtain ⟨rfl, rfl⟩ := h
    have hstop : after.readTo = last.span.stop := by
      rw [htakes.readTo, endOf_eq_of_getLast? hlast]
    have hne : taken ≠ [] := by
      rintro rfl
      cases hlast
    have hlies := hready.upTo_lies htakes hne
    rw [hstop] at hlies
    refine ⟨taken, hne, htakes, .of_pending (hready.taken htakes).2 ?_, ?_,
      hlies.covers_sourceText⟩
    · rw [hrest]
      exact typeRun_break
    · rw [hstop]
  · exact absurd h expected_ne_ok

/-! ### Expressions -/

/-- What is known of a reader for what follows an opening bracket: what it takes,
    and that the elements it gives lie there. -/
def ReadsElements (source : List Char) (elements : Reader (Option (List Expr))) : Prop :=
  ∀ {stream after : TokenStream} {result : Option (List Expr)}, Ready source stream →
    elements stream = .ok (result, after) →
    ∃ taken, Takes stream taken [] after ∧ ∀ items, result = some items →
      Expr.AllLocated source items ∧
        Span.InOrder stream.readTo (writtenSpans items) after.readTo

theorem literal?_takes {elements : Reader (Option (List Expr))} {shape? : Option Expr.Shape}
    (helements : ReadsElements source elements) (hready : Ready source stream)
    (h : literal? elements stream = .ok (shape?, after)) :
    ∃ taken, Takes stream taken [] after ∧ (shape? = none → after = stream) ∧
      ∀ shape, shape? = some shape → taken ≠ [] ∧
        shape.Located source (stream.head.span.upTo after.readTo) := by
  -- a literal of one token is taken, whatever shape it has
  have hsingle : ∀ {shape : Expr.Shape},
      (next >>= fun _ => pure (some shape)) stream = .ok (shape?, after) →
      stream.head.token ≠ .endOfInput →
      shape.Located source (stream.head.span.upTo after.readTo) →
      ∃ taken, Takes stream taken [] after ∧ (shape? = none → after = stream) ∧
        ∀ shape, shape? = some shape → taken ≠ [] ∧
          shape.Located source (stream.head.span.upTo after.readTo) := by
    intro shape h hhead hlocated
    simp only [bind_eq_ok, pure_eq_ok] at h
    obtain ⟨placed, between, hnext, rfl, rfl⟩ := h
    obtain ⟨-, -, htakes⟩ := next_takes hready hhead hnext
    refine ⟨[placed], htakes, by simp, ?_⟩
    rintro _ ⟨⟩
    exact ⟨by simp, hlocated⟩
  rw [literal?, get_bind_eq_ok] at h
  generalize htoken : stream.head.token = token at h hsingle
  split at h
  case h_7 =>
    simp only [bind_eq_ok] at h
    obtain ⟨placed, between, hnext, result, between', hread, h⟩ := h
    obtain ⟨rfl, -, htakes⟩ := next_takes hready (by rw [htoken]; simp) hnext
    obtain ⟨taken, htakes', hitems⟩ := helements (hready.taken htakes).2 hread
    cases result with
    | none =>
      obtain ⟨rfl, rfl⟩ := pure_eq_ok.1 h
      refine ⟨_, htakes.trans htakes', by simp, ?_⟩
      rintro _ ⟨⟩
      exact ⟨by simp, trivial⟩
    | some items =>
      obtain ⟨rfl, rfl⟩ := pure_eq_ok.1 h
      refine ⟨_, htakes.trans htakes', by simp, ?_⟩
      rintro _ ⟨⟩
      obtain ⟨hall, horder⟩ := hitems items rfl
      have hlt := hready.head_lt_readTo htakes (by simp)
      exact ⟨by simp, hall, horder.mono (Nat.le_of_lt hlt) (Nat.le_refl _)⟩
  case h_8 =>
    generalize hname : implicitName? stream.head stream.second = name? at h
    split at h
    · next name =>
      simp only [bind_eq_ok, pure_eq_ok] at h
      obtain ⟨placed, between, hnext, placed', between', hnext', rfl, rfl⟩ := h
      obtain ⟨rfl, hpending, htakes⟩ := next_takes hready (by rw [htoken]; simp) hnext
      have hsecond : between.head.token ≠ .endOfInput := by
        intro hend
        unfold implicitName? at hname
        rw [second_eq_head hpending htakes, hend] at hname
        cases hname
      obtain ⟨-, -, htakes'⟩ := next_takes (hready.taken htakes).2 hsecond hnext'
      refine ⟨_, htakes.trans htakes', by simp, ?_⟩
      rintro _ ⟨⟩
      exact ⟨by simp, trivial⟩
    · obtain ⟨rfl, rfl⟩ := pure_eq_ok.1 h
      exact ⟨[], .refl _, fun _ => rfl, by simp⟩
  case h_9 =>
    obtain ⟨rfl, rfl⟩ := pure_eq_ok.1 h
    exact ⟨[], .refl _, fun _ => rfl, by simp⟩
  all_goals exact hsingle h (by simp) trivial

/-- Behind a literal nothing is taken, or the expression is no literal. -/
theorem exprShape_takes {stopAtColon : Bool} {literal? : Option Expr.Shape} {shape : Expr.Shape}
    (hready : Ready source stream)
    (h : exprShape stopAtColon literal? stream = .ok (shape, after)) :
    ∃ taken, Takes stream taken [] after ∧ AtBreak after ∧
      (literal? = some shape ∧ after = stream ∧ taken = [] ∨ shape = .other) := by
  have hrest : ∀ {first : Bool}, (take (exprRun stopAtColon first 0) >>= fun _ =>
        pure Expr.Shape.other) stream = .ok (shape, after) →
      ∃ taken, Takes stream taken [] after ∧ AtBreak after ∧
        (literal? = some shape ∧ after = stream ∧ taken = [] ∨ shape = .other) := by
    intro first h
    simp only [bind_eq_ok, pure_eq_ok] at h
    obtain ⟨taken, between, htake, rfl, rfl⟩ := h
    have hrun := exprRun_append stopAtColon first 0 stream.pending
    obtain ⟨-, hpending, htakes⟩ := take_takes (by rw [hrun]; exact .refl _) htake
    refine ⟨taken, htakes, .of_pending (hready.taken htakes).2 ?_, .inr rfl⟩
    rw [hpending]
    exact exprRun_break
  unfold exprShape at h
  split at h
  · rw [bind_eq_ok] at h
    obtain ⟨ends, between, hends, h⟩ := h
    rw [atExprEnd, get_bind_eq_ok, pure_eq_ok] at hends
    obtain ⟨hends, rfl⟩ := hends
    split at h
    · next htrue =>
      obtain ⟨rfl, rfl⟩ := pure_eq_ok.1 h
      refine ⟨[], .refl _, ?_, .inl ⟨rfl, rfl, rfl⟩⟩
      intro htoken
      rw [htrue] at hends
      simp only [endsExpr, htoken, Bool.not_false, Bool.and_true] at hends
      exact hends.symm
    · exact hrest h
  · exact hrest h

/-- An expression is located, and if it is not empty, it lies between where reading
    began and where it ended. -/
theorem exprWith_takes {elements : Reader (Option (List Expr))} {stopAtColon : Bool} {expr : Expr}
    (helements : ReadsElements source elements) (hready : Ready source stream)
    (h : exprWith source elements stopAtColon stream = .ok (expr, after)) :
    ∃ taken, Takes stream taken [] after ∧ AtBreak after ∧ expr.Located source ∧
      Span.InOrder stream.readTo (writtenSpans [expr]) after.readTo := by
  rw [exprWith, peek_bind_eq_ok, bind_eq_ok] at h
  obtain ⟨literal?, between, hliteral, h⟩ := h
  rw [bind_eq_ok] at h
  obtain ⟨shape, between', hshape, h⟩ := h
  rw [get_bind_eq_ok, pure_eq_ok] at h
  obtain ⟨rfl, rfl⟩ := h
  obtain ⟨front, hfront, hnone, hsome⟩ := literal?_takes helements hready hliteral
  obtain ⟨back, hback, hbreak, hkind⟩ := exprShape_takes (hready.taken hfront).2 hshape
  have htakes := hfront.trans hback
  refine ⟨_, htakes, hbreak, ?_⟩
  have hlow := hready.readTo_le_head
  have hhigh := hready.readTo_le htakes
  by_cases hne : front ++ back = []
  · -- nothing was taken, so the expression is empty and has no shape
    obtain ⟨rfl, rfl⟩ := List.append_eq_nil_iff.1 hne
    have hstop : after.readTo = stream.readTo := htakes.readTo
    have hmax : max after.readTo stream.head.span.start = stream.head.span.start := by omega
    have hother : shape = .other := by
      rcases hkind with ⟨hsame, -, -⟩ | hother
      · exact absurd rfl (hsome shape hsame).1
      · exact hother
    subst hother
    rw [hmax]
    refine ⟨⟨hready.head_lies.empty.covers_sourceText, trivial⟩, ?_⟩
    simp only [writtenSpans, sourceText_self]
    exact hhigh
  · have hlt := hready.head_lt_readTo htakes hne
    have hmax : max after.readTo stream.head.span.start = after.readTo := by omega
    rw [hmax]
    refine ⟨⟨(hready.upTo_lies htakes hne).covers_sourceText, ?_⟩, ?_⟩
    · rcases hkind with ⟨hsame, rfl, -⟩ | rfl
      · exact (hsome shape hsame).2
      · trivial
    · unfold writtenSpans
      by_cases htext : sourceText source stream.head.span.start after.readTo = ""
      · simp only [htext, List.filter]
        exact hhigh
      · simp only [List.filter, ne_eq, htext, not_false_eq_true, decide_true, List.map]
        exact ⟨hlow, Nat.le_of_lt hlt, Nat.le_refl _⟩

theorem dictionary_takes {result : Option (List Expr)}
    (h : dictionary stream = .ok (result, after)) :
    result = none ∧ ∃ taken, Takes stream taken [] after := by
  simp only [dictionary, bind_eq_ok, pure_eq_ok] at h
  obtain ⟨taken, between, htake, rfl, rfl⟩ := h
  have hrun := collectionRun_append 0 stream.pending
  obtain ⟨-, -, htakes⟩ := take_takes (by rw [hrun]; exact .refl _) htake
  exact ⟨rfl, taken, htakes⟩

theorem elements_reads (limit : Nat) : ReadsElements source (elements source limit) := by
  induction limit with
  | zero =>
    intro stream after result _ h
    exact absurd h tooLong_ne_ok
  | succ limit ih =>
    intro stream after result hready h
    -- a dictionary has no elements, so there is nothing to locate
    have hdictionary : ∀ {front : List Placed} {between : TokenStream},
        Takes stream front [] between → dictionary between = .ok (result, after) →
        ∃ taken, Takes stream taken [] after ∧ ∀ items, result = some items →
          Expr.AllLocated source items ∧
            Span.InOrder stream.readTo (writtenSpans items) after.readTo := by
      intro front between hfront h
      obtain ⟨rfl, taken, htakes⟩ := dictionary_takes h
      exact ⟨_, hfront.trans htakes, by simp⟩
    rw [elements, peek_bind_eq_ok] at h
    generalize htoken : stream.head.token = token at h
    split at h
    · simp only [bind_eq_ok, pure_eq_ok] at h
      obtain ⟨placed, between, hnext, rfl, rfl⟩ := h
      obtain ⟨-, -, htakes⟩ := next_takes hready (by rw [htoken]; simp) hnext
      refine ⟨_, htakes, ?_⟩
      rintro _ ⟨⟩
      exact ⟨trivial, hready.readTo_le htakes⟩
    · exact hdictionary (.refl _) h
    · exact absurd h expected_ne_ok
    · rw [bind_eq_ok] at h
      obtain ⟨element, between, helement, h⟩ := h
      obtain ⟨taken, htakes, -, hlocated, horder⟩ := exprWith_takes ih hready helement
      have hbetween := (hready.taken htakes).2
      -- an element in front of those that are read from a later place on
      have hmore : ∀ {front : List Placed} {later : TokenStream}, Takes between front [] later →
          (elements source limit >>= fun items => pure (items.map (element :: ·))) later =
            .ok (result, after) →
          ∃ taken, Takes stream taken [] after ∧ ∀ items, result = some items →
            Expr.AllLocated source items ∧
              Span.InOrder stream.readTo (writtenSpans items) after.readTo := by
        intro front later hfront h
        simp only [bind_eq_ok, pure_eq_ok] at h
        obtain ⟨more, _, hread, rfl, rfl⟩ := h
        obtain ⟨back, hback, hitems⟩ := ih (hbetween.taken hfront).2 hread
        refine ⟨_, (htakes.trans hfront).trans hback, ?_⟩
        intro items hsome
        obtain ⟨rest, hrest, rfl⟩ := Option.map_eq_some_iff.1 hsome
        obtain ⟨hall, hrestOrder⟩ := hitems rest hrest
        refine ⟨⟨hlocated, hall⟩, ?_⟩
        have hle := hbetween.readTo_le hfront
        have hjoined := horder.append (hrestOrder.mono hle (Nat.le_refl _))
        unfold writtenSpans at *
        rwa [← List.map_append, ← List.filter_append] at hjoined
      rw [peek_bind_eq_ok] at h
      generalize hnext : between.head.token = token' at h
      split at h
      · rw [bind_eq_ok] at h
        obtain ⟨placed, later, hcomma, h⟩ := h
        obtain ⟨-, -, hfront⟩ := next_takes hbetween (by rw [hnext]; simp) hcomma
        exact hmore hfront h
      · exact hmore (.refl _) h
      · exact hdictionary htakes h
      · exact absurd h expected_ne_ok

/-- **Every expression is located**, and lies where it was read. -/
theorem expr_takes {stopAtColon : Bool} {value : Expr} (hready : Ready source stream)
    (h : expr source stopAtColon stream = .ok (value, after)) :
    ∃ taken, Takes stream taken [] after ∧ AtBreak after ∧ value.Located source ∧
      Span.InOrder stream.readTo (writtenSpans [value]) after.readTo :=
  exprWith_takes (elements_reads _) hready h

end Reader

end Memberwise
