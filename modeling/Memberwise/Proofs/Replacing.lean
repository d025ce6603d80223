/-
  Memberwise/Proofs/Replacing.lean
  ================================
  **The text of an expanded source is read token by token as the source was.**

  What is changed at the marks of a source must not run into the tokens around it.  A
  token in front of a mark keeps its end (`Edit.Clears`), and what is put in is text that
  reads as items by itself (`legible`).  Then all tokens but those of the requests come
  again, and `Recast` holds of the two rows of tokens.
-/
import Memberwise.Proofs.Fragments
import Memberwise.Proofs.LineEndings
import Memberwise.Proofs.Marking
import Memberwise.Proofs.Stability

namespace Memberwise

/-! ### Gaps that are taken apart -/

namespace Token

theorem IsGap.append {gap more : List Char} (h : IsGap gap) (hmore : IsGap more) :
    IsGap (gap ++ more) := by
  intro read rest
  rw [List.append_assoc, h, hmore, List.length_append, Nat.add_assoc]

/-- Text with a gap in front goes on no further with anything else behind the gap. -/
theorem IsGap.noFurther {gap : List Char} (h : IsGap gap) (hne : gap ≠ [])
    (rest rest' : List Char) : NoFurther (gap ++ rest) (gap ++ rest') := by
  refine (SameStart.append hne fun hsingle => ?_).noFurther
  -- a gap that starts with a slash has more of its comment
  rcases hsingle with rfl | rfl
  · obtain ⟨-, d, more, hmore⟩ := IsGap.nil.comment h (by decide)
    cases hmore
  · exact absurd (IsGap.nil.comment h (by decide)).1 (by decide)

/-- In front of a character that ends tokens, none goes on. -/
theorem NoFurther.of_end {c : Char} (hc : c ∈ tokenEnds) (hplain : c ≠ '/' ∧ c ≠ '.')
    (rest after : List Char) : NoFurther after (c :: rest) := by
  constructor
  case head =>
    rintro d ⟨⟩
    exact .inr hc
  case slash =>
    rintro ⟨⟩
    exact absurd rfl hplain.1
  case point =>
    rintro ⟨⟩
    exact absurd rfl hplain.2

/-- What is a gap with a character behind it that ends no comment is one without. -/
theorem gapFrom_blank {c : Char} (hline : c ≠ '\n') (hopen : c ≠ '/' ∧ c ≠ '*') {mode : GapMode}
    {read n : Nat} {gap : List Char} (hn : n = read + gap.length)
    (h : ∀ rest, gapFrom mode read (gap ++ c :: rest) = gapFrom .between (n + 1) rest)
    (rest : List Char) : gapFrom mode read (gap ++ rest) = gapFrom .between n rest := by
  -- with a brace behind the gap, no delimiter of a comment runs over its end
  generalize htext : gap ++ ['\x7d'] = text
  have hend : gapFrom mode read (gap ++ [c]) = .ok (n + 1) := h []
  fun_induction gapFrom mode read text generalizing gap with
  | case1 read more ih | case2 read more ih | case8 opened depth read more ih
  | case9 opened depth read more ih =>
    obtain - | ⟨_, _ | ⟨_, gap⟩⟩ := gap <;> cases htext
    exact ih (by simp only [List.length_cons] at hn ⊢; omega) h rfl hend
  | case3 read d more _ _ hsep ih =>
    obtain - | ⟨_, gap⟩ := gap <;> cases htext
    · exact absurd hsep (by decide)
    · rw [List.cons_append, gapFrom_separator hsep] at hend ⊢
      exact ih (by simp only [List.length_cons] at hn ⊢; omega)
        (fun rest => (gapFrom_separator hsep _ _).symm.trans (h rest)) rfl hend
  | case4 read d more hslash hstar hsep =>
    obtain - | ⟨_, gap⟩ := gap <;> cases htext
    · rw [hn]
      rfl
    · -- no gap starts here
      rw [List.cons_append, gapFrom, if_neg hsep] at hend
      · cases hend
        simp only [List.length_cons] at hn
        omega
      · rintro rest rfl hrest
        obtain - | ⟨e, gap⟩ := gap <;> cases hrest
        · exact hopen.1 rfl
        · exact hslash _ rfl rfl
      · rintro rest rfl hrest
        obtain - | ⟨e, gap⟩ := gap <;> cases hrest
        · exact hopen.2 rfl
        · exact hstar _ rfl rfl
  | case5 read | case7 read | case11 opened depth read =>
    obtain - | ⟨_, gap⟩ := gap <;> cases htext
  | case6 read d more ih =>
    obtain - | ⟨_, gap⟩ := gap <;> cases htext
    · -- the comment would go on
      have hletter := h ['a']
      simp only [List.nil_append, gapFrom, if_neg hline] at hletter
      cases hletter
      simp at hn
    · exact ih (by simp only [List.length_cons] at hn ⊢; omega) h rfl hend
  | case10 opened depth read d more hopening hclosing ih =>
    obtain - | ⟨_, gap⟩ := gap <;> cases htext
    · simp [gapFrom] at hend
    · obtain - | ⟨e, gap⟩ := gap
      · simp [gapFrom, hopen] at hend
      · have hstep : ∀ tail, gapFrom (.blockComment opened depth) read (d :: e :: tail) =
            gapFrom (.blockComment opened depth) (read + 1) (e :: tail) := by
          intro tail
          rw [gapFrom]
          · rintro rest rfl hrest
            cases hrest
            exact hopening _ rfl rfl
          · rintro rest rfl hrest
            cases hrest
            exact hclosing _ rfl rfl
        exact (hstep _).trans (ih (by simp only [List.length_cons] at hn ⊢; omega)
          (fun rest => (hstep _).symm.trans (h rest)) rfl ((hstep _).symm.trans hend))

/-- What is a gap with blanks of its last line behind it is one without. -/
theorem IsGap.of_append_blanks {gap blanks : List Char} (h : IsGap (gap ++ blanks))
    (hblanks : ∀ c ∈ blanks, Text.isBlank c = true) (hline : '\n' ∉ blanks) : IsGap gap := by
  induction blanks using List.reverseRecOn with
  | nil => rwa [List.append_nil] at h
  | append_singleton blanks c ih =>
    rw [List.forall_mem_append] at hblanks
    rw [List.mem_append, not_or] at hline
    have hc := hblanks.2 c List.mem_cons_self
    refine ih (fun read rest => ?_) hblanks.1 hline.1
    refine gapFrom_blank (c := c) ?_ ⟨?_, ?_⟩ rfl (fun rest => ?_) rest
    · rintro rfl
      exact hline.2 List.mem_cons_self
    · rintro rfl
      exact absurd hc (by decide)
    · rintro rfl
      exact absurd hc (by decide)
    · have hread := h read rest
      rw [← List.append_assoc, List.append_assoc _ [c], List.length_append] at hread
      exact hread

/-- A token that is a single slash asks for another one. -/
theorem Reads.asksForMore_slash {token : Token} {after : List Char} (h : token.Reads ['/'] after) :
    token.asksForMore = true := by
  obtain ⟨first, rest, found, hparts, hfound, -, rfl⟩ := h
  cases hparts
  have hoperator : lexeme '/' after = .ok ⟨ofOperator, 1 + operatorRun after⟩ := rfl
  cases hoperator.symm.trans hfound
  rfl

end Token

namespace Scanned

variable {source before gap rest : List Char} {flag : Bool} {tokens : List Placed}
  {finish : Placed}

/-- Tokens are read from inside the gap in front of them as from its start. -/
theorem advance (h : Scanned source flag before tokens finish) (hgap : Token.IsGap gap)
    (hsource : source = before ++ gap ++ rest) :
    Scanned source (flag || gap.contains '\n') (before ++ gap) tokens finish := by
  cases h with
  | @finish _ _ whole _ hparts hlength hplaced =>
    rw [hparts, List.append_assoc] at hsource
    obtain rfl : whole = gap ++ rest := List.append_cancel_left hsource
    obtain ⟨m, hm, hsum⟩ := (Token.gapLength_append_iff hgap).1 hlength
    rw [List.length_append, Nat.add_left_cancel_iff] at hsum
    refine .finish (by simpa using hparts) (hsum ▸ hm) ?_
    rw [hplaced]
    simp [Bool.or_assoc]
  | @token _ _ whole text after placed _ _ hparts hwhole hstop hreads hspan hflag hrest =>
    have hsame : gap ++ rest = whole ++ (text ++ after) := by
      rw [hparts] at hsource
      simpa using hsource.symm
    have hlength : Token.gapLength (gap ++ rest) = .ok whole.length := by
      rw [hsame, Token.gapLength, hwhole, hstop, Nat.zero_add]
    obtain ⟨m, hm, hsum⟩ := (Token.gapLength_append_iff hgap).1 hlength
    obtain ⟨left, behind, rfl, rfl, -, hleft⟩ := Token.gapLength_eq_ok hm
    rw [← List.append_assoc] at hsame
    obtain ⟨rfl, rfl⟩ := List.append_inj hsame (by rw [List.length_append, hsum])
    have hleft := hleft.resolve_left (by simp [hreads.ne_nil])
    rw [← List.append_assoc] at hspan hrest
    refine .token (by simpa using hparts) hleft hstop hreads hspan ?_ hrest
    rw [hflag]
    simp [Bool.or_assoc]

/-- Tokens are read from the start of a gap in front of them as from its end. -/
theorem behind_gap (h : Scanned source (flag || gap.contains '\n') (before ++ gap) tokens finish)
    (hgap : Token.IsGap gap) : Scanned source flag before tokens finish := by
  cases h with
  | @finish _ _ left _ hparts hlength hplaced =>
    rw [List.append_assoc] at hparts
    refine .finish hparts ?_ ?_
    · refine (Token.gapLength_append_iff hgap).2 ⟨_, hlength, ?_⟩
      rw [List.length_append]
    · rw [hplaced]
      simp [Bool.or_assoc]
  | @token _ _ left text after placed _ _ hparts hleft hstop hreads hspan hflag hrest =>
    rw [List.append_assoc before gap] at hspan hrest
    refine .token (by simpa using hparts) (hgap.append hleft) hstop hreads hspan ?_ hrest
    rw [hflag]
    simp [Bool.or_assoc]

/-- What stands in front of some tokens is known by its width. -/
theorem front_eq {placed : Placed} {front more : List Char}
    (h : Scanned source flag before (placed :: tokens) finish)
    (hsource : source = front ++ gap ++ more) (hwidth : Text.width before = Text.width front) :
    before = front := by
  cases h with
  | token hparts _ _ _ _ _ _ =>
    rw [List.append_assoc, List.append_assoc] at hparts
    rw [List.append_assoc] at hsource
    exact (Text.append_inj_of_width_eq (hparts.symm.trans hsource) hwidth).1

theorem afterNewline {placed : Placed}
    (h : Scanned source true before (placed :: tokens) finish) : placed.afterNewline = true := by
  cases h with
  | token _ _ _ _ _ hflag _ =>
    rw [hflag]
    rfl

end Scanned

/-- Text goes into a body on the line of its closing brace. -/
theorem insertion_line (layout : Layout) {source inside after : List Char}
    {declaration : Declaration} (hsource : source = inside ++ '\x7d' :: after)
    (hstop : declaration.body.stop = Text.width inside + 1) (generated : List Generated) :
    Text.width inside ≤ (insertion layout source declaration generated).span.start +
      Text.width (Text.lastLine inside) := by
  have hclose : declaration.body.stop - 1 = Text.width inside := by omega
  have htake : Text.takeBytes (Text.width inside) source = inside := by
    rw [hsource, Text.takeBytes_width_append]
  unfold insertion
  simp only [hclose, htake]
  split
  · simp only
    omega
  · next hsolid =>
    obtain ⟨front, hfront⟩ := Text.exists_append_lastLine inside
    obtain ⟨blanks, hparts, hblanks⟩ := Text.trimEnd_append_blanks inside
    generalize Text.lastLine inside = line at *
    generalize Text.trimEnd inside = kept at *
    -- the blanks that give way are not the whole line
    have hle : Text.width front ≤ Text.width kept := by
      by_contra hlt
      obtain ⟨middle, rfl, rfl⟩ := Text.exists_append_of_width_le (hparts.symm.trans hfront)
        (by omega)
      rw [List.all_append, Bool.and_eq_true] at hblanks
      exact hsolid hblanks.2
    rw [hfront, Text.width_append]
    simp only
    omega

/-! ### Clean seams -/

/-- A token ends by itself in front of an edit and asks for nothing behind it.  Where text is
    taken out right behind the token, it is an opening brace. -/
structure Edit.Clears (edit : Edit) (previous : Placed) : Prop where
  settled : previous.token.asksForMore = false
  apart : previous.span.stop ≤ edit.span.start
  joined : previous.span.stop = edit.span.start → edit.replacement = "" →
    previous.token = .opening .curly

instance (edit : Edit) (previous : Placed) : Decidable (edit.Clears previous) :=
  decidable_of_iff (previous.token.asksForMore = false ∧ previous.span.stop ≤ edit.span.start ∧
      (previous.span.stop = edit.span.start → edit.replacement = "" →
        previous.token = .opening .curly))
    ⟨fun ⟨hsettled, hapart, hjoined⟩ => ⟨hsettled, hapart, hjoined⟩,
      fun ⟨hsettled, hapart, hjoined⟩ => ⟨hsettled, hapart, hjoined⟩⟩

/-- What comes to stand in front of the closing brace of a declaration, from the place on at
    which text is put in. -/
def Declaration.filling (layout : Layout) (source : List Char) (declaration : Declaration) :
    List Char :=
  let edit := insertion layout source declaration declaration.generated
  edit.replacement.toList ++ Text.slice source edit.span.stop (declaration.body.stop - 1)

instance (placed : Placed) : Decidable (Introduces placed) :=
  inferInstanceAs (Decidable (∃ word ∈ introducerWords, placed.token = .name word))

/-- Whether text reads as items of a body in front of a closing brace.  The items request
    nothing, a word that introduces an item comes first, and the last token asks for no other
    one. -/
def legible (text : List Char) : Bool :=
  let body := text ++ ['\x7d']
  (tokenize body).toOption.any fun tokens =>
    (Reader.items body (readingLimit body) (.start tokens)).toOption.any fun result =>
      result.2.requests.isEmpty &&
      result.2.pending.map (·.span.start) == [Text.width text] &&
      tokens.body.head?.all (decide <| Introduces ·) &&
      tokens.body.dropLast.getLast?.all (!·.token.asksForMore)

/-- What is put in starts on a new line. -/
theorem Declaration.filling_starts (layout : Layout) {source : List Char}
    {declaration : Declaration} (hlocated : declaration.Located source)
    (hgenerated : declaration.generated ≠ []) :
    ∃ ending more, declaration.filling layout source = ending ++ more ∧
      (insertion layout source declaration declaration.generated).replacement ≠ "" ∧
      (ending = ['\n'] ∨ ending = ['\r', '\n']) := by
  obtain ⟨ending, margin, tail, hends, htext, -⟩ :=
    (insertion_inserts layout hlocated hgenerated).1.text
  have hending : ending = ['\n'] ∨ ending = ['\r', '\n'] :=
    hends.elim (.inr ·.2) (.inl ·.2)
  unfold filling
  simp only [htext, generatedText, List.cons_append, Text.withLineEnding, List.flatMap_cons,
    if_pos, List.append_assoc]
  refine ⟨ending, _, rfl, ?_, hending⟩
  intro hempty
  rw [hempty] at htext
  rcases hending with rfl | rfl <;> cases htext

/-- The text from a token up to the closing brace of a declaration that something is put into. -/
theorem Declaration.splice_filling (layout : Layout) {source before gap after : List Char}
    {declaration : Declaration} {edits : List Edit} (hlocated : declaration.Located source)
    (hgenerated : declaration.generated ≠ [])
    (hsource : source = before ++ gap ++ '\x7d' :: after) (hgap : Token.IsGap gap)
    (hplace : Text.width (before ++ gap) = declaration.body.stop - 1)
    (hle : Text.width before ≤
      (insertion layout source declaration declaration.generated).span.start)
    (hedits : ∀ edit ∈ edits, Text.width (before ++ gap) ≤ edit.span.start) :
    ∃ front blanks, gap = front ++ blanks ∧ Token.IsGap front ∧
      Text.width (before ++ front) =
        (insertion layout source declaration declaration.generated).span.start ∧
      Edit.splice source (Text.width before)
          (insertion layout source declaration declaration.generated :: edits) =
        front ++ (declaration.filling layout source ++
          Edit.splice source (Text.width (before ++ gap)) edits) := by
  obtain ⟨hinserts, -⟩ := insertion_inserts layout hlocated hgenerated
  have hline := fun hstop : declaration.body.stop = Text.width (before ++ gap) + 1 =>
    insertion_line layout hsource hstop declaration.generated
  unfold filling
  generalize insertion layout source declaration declaration.generated = edit at *
  obtain ⟨kept, blanks, after', hparts, hstart, hblanks, hstop⟩ := hinserts.blank
  obtain ⟨_, _, _, -, -, hkind⟩ := hinserts.text
  have hwidth : Text.width (before ++ gap) = Text.width (kept ++ blanks) := by
    rw [hplace, hstop, Text.width_append kept]
    omega
  obtain ⟨hsame, -⟩ := Text.append_inj_of_width_eq (hsource.symm.trans hparts) hwidth
  obtain ⟨front, rfl, rfl⟩ := Text.exists_append_of_width_le hsame (by omega)
  -- the blanks are on the line of the brace
  have hnewline : '\n' ∉ blanks := by
    obtain ⟨upper, hupper⟩ := Text.exists_append_lastLine (before ++ (front ++ blanks))
    have hnone := Text.newline_notMem_lastLine (before ++ (front ++ blanks))
    have hline := hline (by rw [hwidth, hstop, Text.width_append (before ++ front)]; omega)
    generalize Text.lastLine (before ++ (front ++ blanks)) = line at *
    have hle' : Text.width upper ≤ Text.width (before ++ front) := by
      rw [hupper, Text.width_append upper] at hline
      omega
    obtain ⟨more, -, rfl⟩ := Text.exists_append_of_width_le
      (hupper.symm.trans (List.append_assoc before front blanks).symm) hle'
    exact fun hmem => hnone (List.mem_append_right _ hmem)
  refine ⟨front, blanks, rfl, hgap.of_append_blanks (List.all_eq_true.1 hblanks) hnewline,
    hstart.symm, ?_⟩
  have hbehind : Edit.splice source edit.span.stop edits =
      Text.slice source edit.span.stop (declaration.body.stop - 1) ++
        Edit.splice source (Text.width (before ++ (front ++ blanks))) edits := by
    rcases hkind with ⟨hsameStop, -⟩ | ⟨hend, -⟩
    · rw [hsameStop, hstart, ← hplace, hwidth, hparts,
        Text.slice_append rfl (Text.width_append _ _).symm]
      exact Edit.splice_append rfl (by rw [← hwidth]; exact hedits)
    · have hclose : edit.span.stop = declaration.body.stop - 1 := by omega
      rw [hclose, Text.slice_self, hplace]
      rfl
  have hfront : Text.slice source (Text.width before) edit.span.start = front := by
    rw [hstart, hparts, List.append_assoc (before ++ front)]
    exact Text.slice_append rfl (Text.width_append _ _).symm
  rw [Edit.splice, hfront, hbehind]
  simp only [List.append_assoc]

/-- Text is put in front of the closing brace of a declaration, behind a token that is clear of
    it, and can be read there. -/
structure Declaration.Fills (layout : Layout) (source : List Char) (declaration : Declaration)
    (previous brace : Placed) : Prop where
  token : brace.token = .closing .curly
  place : brace.span.start = declaration.body.stop - 1
  located : declaration.Located source
  generated : declaration.generated ≠ []
  legible : legible (declaration.filling layout source) = true
  clear : (insertion layout source declaration declaration.generated).Clears previous

/-- Tokens behind a token, with the places at which the source is changed.  The token in front
    of such a place is clear of the change, unless it is itself taken out. -/
inductive Marked (layout : Layout) (source : List Char) :
    Option Placed → List Placed → List Mark → Prop where
  | nil {previous? : Option Placed}
      (hsettled : ∀ previous ∈ previous?, previous.token.asksForMore = false) :
      Marked layout source previous? [] []
  | keep {previous? : Option Placed} {placed : Placed} {tokens : List Placed} {marks : List Mark}
      (h : Marked layout source (some placed) tokens marks) :
      Marked layout source previous? (placed :: tokens) marks
  | drop {previous? : Option Placed} {sign last next : Placed} {rest tokens : List Placed}
      {span : Span} {marks : List Mark}
      (hsign : sign.token = .atSign)
      (hlast : (sign :: rest).getLast? = some last)
      (hspan : span.start = sign.span.start ∧ span.stop = last.span.stop)
      (hnext : next.token = .atSign ∨ Introduces next)
      (hclear : ∀ previous ∈ previous?, (removal source span).Clears previous)
      (h : Marked layout source none (next :: tokens) marks) :
      Marked layout source previous? (sign :: rest ++ next :: tokens) (.request span :: marks)
  | put {previous brace : Placed} {tokens : List Placed} {declaration : Declaration}
      {marks : List Mark}
      (hfills : declaration.Fills layout source previous brace)
      (h : Marked layout source (some brace) tokens marks) :
      Marked layout source (some previous) (brace :: tokens) (.answer declaration :: marks)

namespace Marked

variable {layout : Layout} {source before after : List Char} {flag : Bool}
  {previous? : Option Placed} {previous finish : Placed} {tokens : List Placed}
  {marks : List Mark}

/-- Nothing is changed in front of the tokens. -/
theorem le_start (h : Marked layout source previous? tokens marks) {low high : Nat}
    (hlaid : Laid source low tokens high)
    (hlow : ∀ previous ∈ previous?, low ≤ previous.span.stop) :
    ∀ mark ∈ marks, low ≤ (mark.edit layout source).span.start ∧ low ≤ mark.place := by
  induction h generalizing low with
  | nil _ => simp
  | keep _ ih =>
    obtain ⟨hle, hsits, hrest⟩ := hlaid
    have hlt := hsits.start_lt_stop
    intro mark hmark
    have := ih hrest (by simp) mark hmark
    omega
  | drop hsign hlast hspan _ _ _ ih =>
    obtain ⟨hfront, hback⟩ := Laid.append_iff.1 hlaid
    have hle := hfront.1
    refine List.forall_mem_cons.2 ⟨?_, fun mark hmark => ?_⟩
    · simp only [Mark.edit, Mark.place, removal_start, hspan.1]
      exact ⟨hle, hle⟩
    · have := ih hback (by simp) mark hmark
      have := hfront.le
      omega
  | put hfills _ ih =>
    obtain ⟨hle, hsits, hrest⟩ := hlaid
    have hlt := hsits.start_lt_stop
    refine List.forall_mem_cons.2
      ⟨⟨(hlow _ rfl).trans hfills.clear.apart, ?_⟩, fun mark hmark => ?_⟩
    · rw [Mark.place, ← hfills.place]
      exact hle
    · have := ih hrest (by simp) mark hmark
      omega

/-- At the next change, the token in front asks for no other one. -/
theorem settled {low high : Nat} {seam : Seam}
    (h : Marked layout source (some previous) tokens marks)
    (hlaid : Laid source low tokens high) (hbehind : seam.behind = [])
    (hstands : seam.Stands marks tokens) : previous.token.asksForMore = false := by
  cases h with
  | nil hsettled => exact hsettled previous rfl
  | keep h =>
    cases marks with
    | nil => exact absurd (hstands.trans hbehind) (List.cons_ne_nil _ _)
    | cons mark marks =>
      have hle := (h.le_start hlaid.2.2 (by simp) mark List.mem_cons_self).2
      have hlt := hlaid.2.1.start_lt_stop
      have hplace : _ = mark.place := Option.some.inj hstands
      simp only at hplace
      omega
  | drop _ _ _ _ hclear _ => exact (hclear previous rfl).settled
  | put hfills _ => exact hfills.clear.settled

/-- A token that is kept, and the gap in front of it. -/
theorem splice_keep {placed : Placed} {gap text : List Char}
    (h : Marked layout source (some placed) tokens marks)
    (hsource : source = before ++ gap ++ text ++ after)
    (hspan : placed.span = Span.across (before ++ gap) text)
    (hrest : Scanned source flag (before ++ gap ++ text) tokens finish) :
    Edit.splice source (Text.width before) (marks.map (Mark.edit layout source)) =
      gap ++ (text ++ Edit.splice source (Text.width (before ++ gap ++ text))
        (marks.map (Mark.edit layout source))) := by
  have hstop : placed.span.stop = Text.width (before ++ gap ++ text) := by
    rw [hspan, Text.width_append _ text]
    rfl
  rw [List.append_assoc before] at hsource hstop hrest ⊢
  rw [← List.append_assoc gap]
  refine Edit.splice_append hsource ?_
  rintro edit hedit
  obtain ⟨mark, hmark, rfl⟩ := List.mem_map.1 hedit
  exact (h.le_start hrest.laid (by simp [hstop]) mark hmark).1

/-- The gap in front of a token at which everything that is changed starts. -/
theorem splice_gap {placed : Placed} {gap : List Char} {low high : Nat}
    (h : Marked layout source none (placed :: tokens) marks)
    (hsource : source = before ++ gap ++ after)
    (hstart : placed.span.start = Text.width (before ++ gap))
    (hlaid : Laid source low (placed :: tokens) high) :
    Edit.splice source (Text.width before) (marks.map (Mark.edit layout source)) =
      gap ++ Edit.splice source (Text.width (before ++ gap))
        (marks.map (Mark.edit layout source)) := by
  refine Edit.splice_append hsource ?_
  rintro edit hedit
  obtain ⟨mark, hmark, rfl⟩ := List.mem_map.1 hedit
  have hfrom : Laid source (Text.width (before ++ gap)) (placed :: tokens) high :=
    ⟨Nat.le_of_eq hstart.symm, hlaid.2⟩
  exact (h.le_start hfrom (by simp) mark hmark).1

/-- Where text is put in front of a closing brace. -/
theorem splice_put {declaration : Declaration} {brace : Placed} {gap after : List Char}
    (hfills : declaration.Fills layout source previous brace)
    (hprevious : previous.span.stop = Text.width before)
    (h : Marked layout source (some brace) tokens marks)
    (hsource : source = before ++ gap ++ '\x7d' :: after) (hgap : Token.IsGap gap)
    (hspan : brace.span = Span.across (before ++ gap) ['\x7d'])
    (hrest : Scanned source flag (before ++ gap ++ ['\x7d']) tokens finish) :
    ∃ front blanks, gap = front ++ blanks ∧ Token.IsGap front ∧
      Text.width (before ++ front) =
        (insertion layout source declaration declaration.generated).span.start ∧
      Edit.splice source (Text.width before)
          ((Mark.answer declaration :: marks).map (Mark.edit layout source)) =
        front ++ (declaration.filling layout source ++
          '\x7d' :: Edit.splice source (Text.width (before ++ gap ++ ['\x7d']))
            (marks.map (Mark.edit layout source))) := by
  have hstop : brace.span.stop = Text.width (before ++ gap ++ ['\x7d']) := by
    rw [hspan, Text.width_append _ ['\x7d']]
    rfl
  have hedits : ∀ edit ∈ marks.map (Mark.edit layout source),
      Text.width (before ++ gap ++ ['\x7d']) ≤ edit.span.start := by
    rintro edit hedit
    obtain ⟨mark, hmark, rfl⟩ := List.mem_map.1 hedit
    exact (h.le_start hrest.laid (by simp [hstop]) mark hmark).1
  obtain ⟨front, blanks, hparts, hfront, hstart, hsplice⟩ :=
    Declaration.splice_filling layout hfills.located hfills.generated hsource hgap
      (by rw [← hfills.place, hspan]; rfl) (hprevious ▸ hfills.clear.apart) fun edit hedit => by
        have hle := hedits edit hedit
        rw [Text.width_append (before ++ gap)] at hle
        omega
  refine ⟨front, blanks, hparts, hfront, hstart, hsplice.trans ?_⟩
  have hparts' : source = before ++ gap ++ ['\x7d'] ++ after := by
    rw [hsource]
    simp
  rw [Edit.splice_append hparts' hedits]
  rfl

/-- Behind a token that asks for another one, nothing is changed. -/
theorem head?_eq (h : Marked layout source (some previous) tokens marks)
    (hasks : previous.token.asksForMore = true)
    (hscanned : Scanned source flag before tokens finish) (hsource : source = before ++ after) :
    (Edit.splice source (Text.width before) (marks.map (Mark.edit layout source))).head? =
      after.head? := by
  cases h with
  | nil _ => rw [List.map_nil, Edit.splice_nil hsource]
  | keep h =>
    cases hscanned with
    | @token _ _ gap text rest placed _ _ hparts _ _ hreads hspan _ hrest =>
      obtain ⟨c, text, rfl⟩ := List.exists_cons_of_ne_nil hreads.ne_nil
      rw [hparts, List.append_assoc, List.append_assoc] at hsource
      rw [h.splice_keep hparts hspan hrest, ← List.append_cancel_left hsource]
      cases gap <;> rfl
  | drop _ _ _ _ hclear _ =>
    rw [(hclear previous rfl).settled] at hasks
    cases hasks
  | put hfills _ =>
    rw [hfills.clear.settled] at hasks
    cases hasks

/-- Nothing goes on over the gap in front of what is taken out. -/
theorem noFurther_drop {span : Span} {sign : Placed}
    (h : Marked layout source none (sign :: tokens) (.request span :: marks))
    (hspan : span.start = sign.span.start) (hne : Text.width before ≠ span.start)
    (hscanned : Scanned source flag before (sign :: tokens) finish)
    (hsource : source = before ++ after) :
    Token.NoFurther after (Edit.splice source (Text.width before)
      ((Mark.request span :: marks).map (Mark.edit layout source))) := by
  have hlaid := hscanned.laid
  cases hscanned with
  | @token _ _ gap text rest _ _ _ hparts hgap _ _ hplace _ _ =>
    have hstart : sign.span.start = Text.width (before ++ gap) := by
      rw [hplace]
      rfl
    have hgapNe : gap ≠ [] := by
      rintro rfl
      rw [List.append_nil] at hstart
      omega
    rw [List.append_assoc _ text] at hparts
    have hafter : after = gap ++ (text ++ rest) := by
      rw [hparts, List.append_assoc] at hsource
      exact (List.append_cancel_left hsource).symm
    rw [hafter, h.splice_gap hparts hstart hlaid]
    exact hgap.noFurther hgapNe _ _

/-- Nothing goes on into what is put in. -/
theorem noFurther_put {declaration : Declaration} {brace : Placed}
    (hfills : declaration.Fills layout source previous brace)
    (h : Marked layout source (some brace) tokens marks)
    (hscanned : Scanned source flag before (brace :: tokens) finish)
    (hsource : source = before ++ after) (hprevious : previous.span.stop = Text.width before) :
    Token.NoFurther after (Edit.splice source (Text.width before)
      ((Mark.answer declaration :: marks).map (Mark.edit layout source))) := by
  cases hscanned with
  | @token _ _ gap text rest _ _ _ hparts hgap _ hreads hplace _ hrest =>
    obtain rfl : ['\x7d'] = text := by rw [← hreads.spelling_eq, hfills.token]; rfl
    have hbrace : source = before ++ gap ++ '\x7d' :: rest := by rw [hparts]; simp
    obtain ⟨front, blanks, rfl, hfront, -, hsplice⟩ :=
      splice_put hfills hprevious h hbrace hgap hplace hrest
    rw [hbrace, List.append_assoc, List.append_assoc] at hsource
    rw [hsplice, ← List.append_cancel_left hsource]
    by_cases hnil : front = []
    · -- a new line begins
      obtain ⟨ending, more, hfilling, -, hending⟩ :=
        Declaration.filling_starts layout hfills.located hfills.generated
      rw [hnil, hfilling]
      rcases hending with rfl | rfl
      · exact .of_end (by decide) (by decide) _ _
      · exact .of_end (by decide) (by decide) _ _
    · exact hfront.noFurther hnil _ _

/-- Tokens in front of a place go on no further once the text behind it is changed. -/
theorem noFurther (h : Marked layout source (some previous) tokens marks)
    (hscanned : Scanned source flag before tokens finish) (hsource : source = before ++ after)
    (hprevious : previous.span.stop = Text.width before) :
    previous.token = .opening .curly ∨ Token.NoFurther after
      (Edit.splice source (Text.width before) (marks.map (Mark.edit layout source))) := by
  generalize hsome : some previous = previous? at h
  induction h generalizing previous before after flag with
  | nil _ =>
    rw [List.map_nil, Edit.splice_nil hsource]
    exact .inr (Token.SameStart.refl after).noFurther
  | keep h ih =>
    cases hscanned with
    | @token _ _ gap text rest placed _ _ hparts hgap _ hreads hspan _ hrest =>
      right
      rw [hparts, List.append_assoc, List.append_assoc] at hsource
      rw [h.splice_keep hparts hspan hrest, ← List.append_cancel_left hsource]
      by_cases hnil : gap = []
      · subst hnil
        match text with
        | [] => exact absurd rfl hreads.ne_nil
        | [c] =>
          have hbehind := ih hrest hparts (by rw [hspan, Text.width_append _ [c]]; rfl) rfl
          constructor
          case head => exact fun d hd => .inl hd
          case slash =>
            rintro ⟨⟩ d hd
            exact (h.head?_eq hreads.asksForMore_slash hrest hparts).symm ▸ hd
          case point =>
            rintro ⟨⟩ d hd
            rcases hbehind with hopen | hbehind
            · have hspelling := hreads.spelling_eq
              rw [hopen] at hspelling
              cases hspelling
            · exact hbehind.head d hd
        | c :: d :: text => exact Token.SameStart.noFurther ⟨rfl, fun _ => rfl⟩
      · exact hgap.noFurther hnil _ _
  | @drop _ sign last next _ _ span _ hsign hlast hspan hnext hclear h _ =>
    subst hsome
    by_cases hjoined : previous.span.stop = span.start
    · exact .inl ((hclear previous rfl).joined hjoined rfl)
    · have hmarked : Marked layout source none _ _ := .drop hsign hlast hspan hnext (by simp) h
      exact .inr (hmarked.noFurther_drop hspan.1 (hprevious ▸ hjoined) hscanned hsource)
  | put hfills h _ =>
    cases hsome
    exact .inr (noFurther_put hfills h hscanned hsource hprevious)

/-- A token that is kept is read in front of what the text behind it becomes. -/
theorem follows {placed : Placed} {text : List Char}
    (h : Marked layout source (some placed) tokens marks)
    (hscanned : Scanned source flag before tokens finish) (hsource : source = before ++ after)
    (hplaced : placed.span.stop = Text.width before) (hstop : Token.NoGap (text ++ after))
    (hreads : placed.token.Reads text after) {rest : List Char}
    (hrest : rest = Edit.splice source (Text.width before) (marks.map (Mark.edit layout source))) :
    Token.NoGap (text ++ rest) ∧ placed.token.Reads text rest := by
  subst hrest
  rcases h.noFurther hscanned hsource hplaced with hopen | hfurther
  · have hspelling := hreads.spelling_eq
    rw [hopen] at hspelling ⊢
    subst hspelling
    exact (Token.stands_of_mark (fun _ => rfl) ⟨by decide, by decide⟩ _).symm
  · exact ⟨hstop.of_noFurther hreads.ne_nil hfurther, hreads.of_noFurther hfurther⟩

end Marked

/-! ### Tokens in place -/

theorem Recast.nil {source' : List Char} {seam : Seam} {fresh : Bool} {low low' : Nat}
    (hbehind : seam.behind = []) (hbehind' : seam.behind' = []) :
    Recast source' seam fresh low low' [] [] [] := by
  have h : Recast source' seam fresh low low' seam.behind seam.behind' [] := .behind
  rwa [hbehind, hbehind'] at h

theorem Recast.anywhere {source' : List Char} {seam : Seam} {low low' : Nat}
    {tokens tokens' : List Placed} {marks : List Mark}
    (h : Recast source' seam true low low' tokens tokens' marks) (low₂ low₂' : Nat) :
    Recast source' seam true low₂ low₂' tokens tokens' marks := by
  cases h with
  | behind => exact .behind
  | keep h hapart hsettled hrest =>
    exact .keep ⟨h.token, h.solid, nofun, nofun⟩ hapart hsettled hrest
  | drop hsign hlast hspan hgoes _ hrest => exact .drop hsign hlast hspan hgoes nofun hrest
  | put hbrace hplace hhalt hpasses hrest => exact .put hbrace hplace hhalt hpasses hrest

/-- The tokens of a text are read in front of another closing brace as well. -/
theorem Scanned.moved {block pre before' source' tail : List Char} {front : List Placed}
    {brace finish : Placed} {flag : Bool} {good : List Placed → Placed → Prop}
    (h : Scanned (block ++ ['\x7d']) flag pre (front ++ [brace]) finish) (fresh flag' : Bool)
    (hplace : brace.span.start = Text.width block)
    (hsettled : ∀ last ∈ front.getLast?, last.token.asksForMore = false)
    (hsource' : source' = before' ++ block ++ '\x7d' :: tail)
    (hflag : fresh = false → flag' = flag)
    (hrest : ∀ flag, ∃ tokens' finish', good tokens' finish' ∧
      Scanned source' flag (before' ++ block) tokens' finish') :
    ∃ front' tokens' finish', good tokens' finish' ∧
      Scanned source' flag' (before' ++ pre) (front' ++ tokens') finish' ∧
      ∀ seam : Seam, seam.behind = [brace] → seam.behind' = tokens' →
        seam.Echo fresh (Text.width pre) (Text.width (before' ++ pre)) (front ++ [brace])
          (front' ++ tokens') := by
  induction front generalizing pre flag flag' fresh with
  | nil =>
    cases h with
    | @token _ _ gap text after _ _ _ hsource hgap hstop hreads hspan _ _ =>
      have hwidth : Text.width (pre ++ gap) = Text.width block := by
        rw [← hplace, hspan]
        rfl
      rw [List.append_assoc _ text] at hsource
      obtain ⟨hblock, -⟩ := Text.append_inj_of_width_eq hsource.symm hwidth
      obtain ⟨tokens', finish', hgood, hscanned⟩ := hrest (flag' || gap.contains '\n')
      rw [← hblock, ← List.append_assoc] at hscanned
      refine ⟨[], tokens', finish', hgood, hscanned.behind_gap hgap, ?_⟩
      intro seam hbehind hbehind'
      rw [List.nil_append, List.nil_append, ← hbehind, ← hbehind']
      exact .behind
  | cons placed front ih =>
    cases h with
    | @token _ _ gap text after _ _ _ hsource hgap hstop hreads hspan hnewline hscanned =>
      -- the brace is further on
      have hle : Text.width (pre ++ gap ++ text) ≤ Text.width block := by
        rw [← hplace]
        exact hscanned.laid.le_start (by simp)
      obtain ⟨more, hblock, hafter⟩ := Text.exists_append_of_width_le hsource.symm hle
      subst hblock
      have hstart : Token.SameStart after (more ++ '\x7d' :: tail) := by
        have hmore : more ++ ['\x7d'] = ['/'] ∨ more ++ ['\x7d'] = ['.'] →
            ([] : List Char).head? = tail.head? := by
          simp [List.append_eq_singleton_iff]
        rw [hafter]
        simpa using Token.SameStart.append (by simp) hmore
      have hplaced : placed.span.stop = Text.width (pre ++ gap ++ text) := by
        rw [hspan, Text.width_append _ text]
        rfl
      have hsettled' : ∀ last ∈ front.getLast?, last.token.asksForMore = false := by
        intro last hlast
        apply hsettled
        rw [List.getLast?_cons, Option.mem_def.1 hlast]
        rfl
      obtain ⟨front', tokens', finish', hgood, hscanned', hecho⟩ :=
        ih hscanned false (text.contains '\n') hsettled' fun _ => rfl
      have hbehind : before' ++ (pre ++ gap ++ text) = before' ++ pre ++ gap ++ text := by simp
      rw [hbehind] at hscanned' hecho
      refine ⟨⟨placed.token, Span.across (before' ++ pre ++ gap) text,
        flag' || gap.contains '\n'⟩ :: front', tokens', finish', hgood,
        .token (by simpa using hsource') hgap (hstop.of_noFurther hreads.ne_nil hstart.noFurther)
          (hreads.of_sameStart hstart) rfl rfl hscanned', fun seam hseam hseam' => ?_⟩
      refine .cons ⟨rfl, ?_, ?_, ?_⟩ ?_ ?_
      · rw [hreads.spelling_eq]
        exact hreads.ne_nil
      · intro hfresh
        rw [hnewline, hflag hfresh]
      · intro hfresh
        rw [hspan]
        simp only [Span.across, Text.width_append]
        omega
      · intro hlast
        rw [hseam] at hlast
        obtain rfl : front = [] := by simpa using hlast
        exact hsettled placed rfl
      · have hecho := hecho seam hseam hseam'
        rw [← hplaced, Text.width_append _ text] at hecho
        exact hecho

structure Legible (text : List Char) (tokens : Tokens) (front : List Placed) (brace : Placed)
    (items : List BodyItem) (after : TokenStream) : Prop where
  tokenize : tokenize (text ++ ['\x7d']) = .ok tokens
  body : tokens.body = front ++ [brace]
  place : brace.span.start = Text.width text
  read : Reader.items (text ++ ['\x7d']) (readingLimit (text ++ ['\x7d'])) (.start tokens) =
    .ok (items, after)
  pending : after.pending = [brace]
  token : brace.token = .closing .curly
  requests : after.requests = []
  first : ∀ first ∈ (front ++ [brace]).head?, Introduces first
  last : ∀ last ∈ front.getLast?, last.token.asksForMore = false

theorem exists_legible {text : List Char} (h : legible text = true) :
    ∃ tokens front brace items after, Legible text tokens front brace items after := by
  simp only [legible] at h
  cases htokens : tokenize (text ++ ['\x7d']) with
  | error cause =>
    rw [htokens] at h
    cases h
  | ok tokens =>
    simp only [htokens, Except.toOption, Option.any_some] at h
    cases hread : Reader.items (text ++ ['\x7d']) (readingLimit (text ++ ['\x7d'])) (.start tokens)
      with
    | error cause =>
      rw [hread] at h
      cases h
    | ok result =>
      obtain ⟨items, after⟩ := result
      simp only [hread, Option.any_some, Bool.and_eq_true, beq_iff_eq,
        Option.all_eq_true, decide_eq_true_eq, List.isEmpty_iff, Bool.not_eq_true'] at h
      obtain ⟨⟨⟨hrequests, hpending⟩, hfirst⟩, hlast⟩ := h
      obtain ⟨brace, hbrace, hplace⟩ := List.map_eq_singleton_iff.1 hpending
      obtain ⟨taken, noted, hitems⟩ := Reader.items_read (.start htokens) hread
      have hready := hitems.ready_after
      have hhead : after.head = brace := by rw [TokenStream.head, hbrace]; rfl
      have htoken : brace.token = .closing .curly := by
        have hends := hitems.head_after
        rw [hhead] at hends
        refine hends.resolve_right fun hend => ?_
        have hsits := hready.laid
        rw [hbrace] at hsits
        exact hsits.2.1.1 (by rw [hend]; rfl)
      have hrefines := hitems.takes.2.pending
      rw [hbrace] at hrefines
      obtain ⟨front, back, hbody, -, hback⟩ :=
        hrefines.exists_append_cons (by rw [htoken]; rfl)
      cases hback
      change tokens.body = front ++ [brace] at hbody
      rw [hbody, List.dropLast_concat] at hlast
      rw [hbody] at hfirst
      exact ⟨tokens, front, brace, items, after, htokens, hbody, hplace, hread, hbrace, htoken,
        hrequests, hfirst, hlast⟩

def Legible.seam {text : List Char} {tokens : Tokens} {front : List Placed} {brace : Placed}
    {items : List BodyItem} {after : TokenStream} (h : Legible text tokens front brace items after)
    (finish' brace' : Placed) (rest' : List Placed) (hbrace' : brace'.token = .closing .curly)
    (hfinish' : finish'.token = .endOfInput) : Seam where
  finish := tokens.finish
  finish' := finish'
  behind := [brace]
  behind' := brace' :: rest'
  halt := ⟨.inr (.inl h.token), .inr (.inl hbrace'), fun _ => .inl hbrace'⟩
  solid := by
    rintro _ ⟨⟩
    rw [h.token]
    simp [Token.spelling]
  nil_iff := by simp
  finish_token := (tokenize_scanned h.tokenize).finish_eq.1
  finish_token' := hfinish'

/-- What is put in front of a closing brace is read in place, up to the brace. -/
theorem Declaration.Fills.rewritten {layout : Layout} {source source' before' tail : List Char}
    {declaration : Declaration} {previous brace : Placed} {good : List Placed → Placed → Prop}
    (h : declaration.Fills layout source previous brace)
    (hsource' : source' = before' ++ declaration.filling layout source ++ '\x7d' :: tail)
    (hrest : ∀ flag, ∃ tokens' finish', good tokens' finish' ∧
      Scanned source' flag (before' ++ declaration.filling layout source) tokens' finish')
    (hgood : ∀ tokens' finish', good tokens' finish' → ∃ brace' rest', tokens' = brace' :: rest' ∧
      brace'.token = .closing .curly) (flag : Bool) :
    ∃ head' tail' brace' rest' finish', good (brace' :: rest') finish' ∧
      Scanned source' flag before' (head' :: tail') finish' ∧ Halt brace head' ∧
      Passes source' finish' (head' :: tail') (brace' :: rest') := by
  obtain ⟨tokens, front, last, items, after, hlegible⟩ := exists_legible h.legible
  have hscanned := tokenize_scanned hlegible.tokenize
  rw [hlegible.body] at hscanned
  obtain ⟨front', tokens', finish', hrewritten, hscanned', hecho⟩ :=
    hscanned.moved true flag hlegible.place hlegible.last hsource' (by simp) hrest
  obtain ⟨brace', rest', rfl, hbrace'⟩ := hgood tokens' finish' hrewritten
  rw [List.append_nil] at hscanned' hecho
  have hend := hscanned'.finish_eq.1
  have hecho := hecho (hlegible.seam finish' brace' rest' hbrace' hend) rfl rfl
  -- a word that introduces an item comes first
  have hfront : front ++ [last] ≠ [last] := by
    intro hnil
    obtain ⟨word, -, hword⟩ := hlegible.first last (by rw [hnil]; rfl)
    rw [hlegible.token] at hword
    cases hword
  obtain ⟨first, head', rest, tail', hfirst, hhead', hechoes, -, -⟩ := hecho.uncons hfront
  have hintroduces : Introduces head' := by
    obtain ⟨word, hword, htoken⟩ := hlegible.first first (by rw [hfirst]; rfl)
    exact ⟨word, hword, hechoes.token.trans htoken⟩
  rw [hhead'] at hscanned' hecho
  refine ⟨head', tail', brace', rest', finish', hrewritten, hscanned', ⟨.inr (.inl h.token),
    .inr (.inr (.inr hintroduces)), fun _ => .inr (.inr ?_)⟩, ?_⟩
  · obtain ⟨ending, more, hfilling, -, hending⟩ :=
      Declaration.filling_starts layout h.located h.generated
    have hgap : Token.IsGap ending ∧ ending.contains '\n' = true := by
      rcases hending with rfl | rfl
      · exact ⟨Token.isGap_of_separators (List.all_eq_true.1 (by decide)), by decide⟩
      · exact ⟨Token.isGap_of_separators (List.all_eq_true.1 (by decide)), by decide⟩
    rw [hfilling, ← List.append_assoc before', List.append_assoc _ more] at hsource'
    have hadvanced := hscanned'.advance hgap.1 hsource'
    rw [hgap.2, Bool.or_true] at hadvanced
    exact hadvanced.afterNewline
  · have hstart : (hlegible.seam finish' brace' rest' hbrace' hend).Echo true
        (TokenStream.start tokens).readTo 0 (TokenStream.start tokens).pending
        (head' :: tail') := by
      rw [← hlegible.body] at hecho
      exact hecho.anywhere 0 0
    exact hstart.passes (.start hlegible.tokenize) hlegible.read hlegible.requests rfl
      hlegible.pending hbrace'

/-! ### Tokens of the second source -/

/-- The tokens of a source, and those of the second one, up to its end. -/
structure Rewritten (source' : List Char) (previous? : Option Placed) (tokens : List Placed)
    (marks : List Mark) (low low' : Nat) (tokens' : List Placed) (finish' : Placed) : Prop where
  recast : ∀ seam : Seam, seam.behind = [] → seam.behind' = [] → seam.finish' = finish' →
    Recast source' seam previous?.isNone low low' tokens tokens' marks
  goes : ∀ next ∈ tokens.head?, next.token = .atSign ∨ Introduces next →
    ∃ head' tail', tokens' = head' :: tail' ∧ (head'.token = .atSign ∨ Introduces head')

/-- Wherever a second source goes on with the text behind a place changed at the marks, the
    tokens behind the place are read again. -/
def Rewrites (layout : Layout) (source : List Char) (finish : Placed) (previous? : Option Placed)
    (tokens : List Placed) (marks : List Mark) : Prop :=
  ∀ source' before before' flag flag', Scanned source flag before tokens finish →
    (∀ previous ∈ previous?, previous.span.stop = Text.width before) →
    (∀ previous ∈ previous?, flag' = flag) →
    source' = before' ++
      Edit.splice source (Text.width before) (marks.map (Mark.edit layout source)) →
    ∃ tokens' finish', Scanned source' flag' before' tokens' finish' ∧
      Rewritten source' previous? tokens marks (Text.width before) (Text.width before')
        tokens' finish'

/-- The tokens from a closing brace on, in front of which more may have been put. -/
def RecastFrom (source' : List Char) (brace : Placed) (tokens : List Placed) (marks : List Mark)
    (tokens' : List Placed) (finish' : Placed) : Prop :=
  ∃ brace' rest', tokens' = brace' :: rest' ∧ brace'.token = .closing .curly ∧
    ∀ seam : Seam, seam.behind = [] → seam.behind' = [] → seam.finish' = finish' →
      Recast source' seam true 0 0 (brace :: tokens) (brace' :: rest') marks

section

variable {layout : Layout} {source : List Char} {finish : Placed} {previous? : Option Placed}
  {tokens : List Placed} {marks : List Mark}

theorem Marked.rewrites_keep {placed : Placed} (h : Marked layout source (some placed) tokens marks)
    (ih : Rewrites layout source finish (some placed) tokens marks) :
    Rewrites layout source finish previous? (placed :: tokens) marks := by
  intro source' before before' flag flag' hscanned _ hflag hsource'
  cases hscanned with
  | @token _ _ gap text after _ _ _ hparts hgap hstop hreads hspan hnewline hrest =>
    have hplaced : placed.span.stop = Text.width (before ++ gap ++ text) := by
      rw [hspan, Text.width_append _ text]
      rfl
    have hlaid := hrest.laid
    rw [← hplaced] at hlaid
    rw [h.splice_keep hparts hspan hrest, ← List.append_assoc, ← List.append_assoc] at hsource'
    obtain ⟨hstop', hreads'⟩ := h.follows hrest hparts hplaced hstop hreads rfl
    obtain ⟨tokens', finish', hscanned', hrewritten⟩ :=
      ih _ _ _ _ _ hrest (by simp [hplaced]) (fun _ _ => rfl) hsource'
    refine ⟨⟨placed.token, Span.across (before' ++ gap) text,
      flag' || gap.contains '\n'⟩ :: tokens', finish',
      .token hsource' hgap hstop' hreads' rfl rfl hscanned',
      fun seam hbehind hbehind' hfinish => ?_, ?_⟩
    · refine .keep ⟨rfl, ?_, fun hfresh => ?_, fun _ => ?_⟩ (fun mark hmark => ?_)
        (h.settled hlaid hbehind) ?_
      · rw [hreads.spelling_eq]
        exact hreads.ne_nil
      · obtain ⟨previous, rfl⟩ := Option.isSome_iff_exists.1 (by simpa using hfresh)
        rw [hnewline, hflag previous rfl]
      · rw [hspan]
        simp only [Span.across, Text.width_append]
        omega
      · exact (h.le_start hlaid (by simp) mark (List.mem_of_mem_head? hmark)).2
      · have hrecast := hrewritten.recast seam hbehind hbehind' hfinish
        rw [← hplaced, Text.width_append _ text] at hrecast
        exact hrecast
    · rintro next ⟨⟩ hnext
      exact ⟨_, _, rfl, hnext⟩

/-- What is behind an attribute comes to stand in its place. -/
theorem Marked.rewrites_drop {sign last next : Placed} {rest : List Placed} {span : Span}
    (hsign : sign.token = .atSign) (hlast : (sign :: rest).getLast? = some last)
    (hspan : span.start = sign.span.start ∧ span.stop = last.span.stop)
    (hnext : next.token = .atSign ∨ Introduces next)
    (h : Marked layout source none (next :: tokens) marks)
    (ih : Rewrites layout source finish none (next :: tokens) marks) :
    Rewrites layout source finish previous? (sign :: rest ++ next :: tokens)
      (.request span :: marks) := by
  intro source' before before' flag flag' hscanned _ hflag hsource'
  obtain ⟨_, front, _, blanks, comment, text, after, hbehind, hnextBehind, hwidth, -, -⟩ :=
    hscanned.behind_drop hlast hspan hnext
  have hmarked : Marked layout source none _ _ := .drop hsign hlast hspan hnext (by simp) h
  have hlaid := hscanned.laid
  cases hscanned with
  | @token _ _ gap signText signAfter _ _ _ hparts hgap hstop hreads hplace hnewline hrest =>
    have hstart : sign.span.start = Text.width (before ++ gap) := by
      rw [hplace]
      rfl
    rw [List.append_assoc _ signText] at hparts
    rw [hmarked.splice_gap hparts hstart hlaid, List.map_cons, ← hstart, ← hspan.1] at hsource'
    change source' = before' ++ (gap ++ Edit.splice source span.start (removal source span :: _))
      at hsource'
    obtain rfl : front = _ := hbehind.front_eq hnextBehind.source_eq hwidth
    rw [splice_removal, hnextBehind.stop, ← List.append_assoc] at hsource'
    have hadvanced := hbehind.advance hnextBehind.isGap hnextBehind.source_eq
    obtain ⟨tokens', finish', hscanned', hrewritten⟩ :=
      ih _ _ _ _ (flag' || gap.contains '\n') hadvanced (by simp) (by simp) hsource'
    obtain ⟨head', tail', rfl, hgoes⟩ := hrewritten.goes next rfl hnext
    refine ⟨head' :: tail', finish', hscanned'.behind_gap hgap,
      fun seam hbehind hbehind' hfinish => .drop hsign hlast hspan hgoes (fun hfresh => ?_)
        ((hrewritten.recast seam hbehind hbehind' hfinish).anywhere 0 0),
      fun _ _ _ => ⟨head', tail', rfl, hgoes⟩⟩
    refine ⟨.inl hsign, hgoes.imp_right fun hword => .inr (.inr hword), fun hends => ?_⟩
    -- a reader that stops at the `@` does so since that is on a new line
    have hline : sign.afterNewline = true := by
      rcases hends with hclose | hend | hline
      · rw [hsign] at hclose
        cases hclose
      · rw [hsign] at hend
        cases hend
      · exact hline
    obtain ⟨previous, rfl⟩ := Option.isSome_iff_exists.1 (by simpa using hfresh)
    rw [hflag previous rfl, ← hnewline, hline] at hscanned'
    exact .inr (.inr hscanned'.afterNewline)

/-- A closing brace is read again, and what is behind it. -/
theorem Marked.recastFrom {source' before before' : List Char} {brace : Placed}
    (hbrace : brace.token = .closing .curly)
    (hplaced : brace.span.stop = Text.width before)
    (h : Marked layout source (some brace) tokens marks)
    (ih : Rewrites layout source finish (some brace) tokens marks)
    (hscanned : Scanned source false before tokens finish)
    (hsource' : source' = before' ++ ['\x7d'] ++
      Edit.splice source (Text.width before) (marks.map (Mark.edit layout source)))
    (flag' : Bool) :
    ∃ tokens' finish', RecastFrom source' brace tokens marks tokens' finish' ∧
      Scanned source' flag' before' tokens' finish' := by
  have hlaid := hscanned.laid
  rw [← hplaced] at hlaid
  obtain ⟨rest', finish', hscanned', hrewritten⟩ :=
    ih _ _ _ _ _ hscanned (by simp [hplaced]) (fun _ _ => rfl) hsource'
  obtain ⟨hreads', hstop'⟩ := Token.stands_of_mark
    (fun _ => (rfl : Token.lexeme '\x7d' _ = .ok (.mark (.closing .curly))))
    ⟨by decide, by decide⟩
    (Edit.splice source (Text.width before) (marks.map (Mark.edit layout source)))
  refine ⟨⟨.closing .curly, Span.across before' ['\x7d'], flag'⟩ :: rest', finish',
    ⟨_, _, rfl, rfl, fun seam hbehind hbehind' hfinish => ?_⟩, ?_⟩
  · refine .keep ⟨hbrace.symm, by simp [hbrace, Token.spelling], nofun, nofun⟩
      (fun mark hmark => (h.le_start hlaid (by simp) mark (List.mem_of_mem_head? hmark)).2)
      (fun _ => by rw [hbrace]; rfl) ?_
    have hrecast := hrewritten.recast seam hbehind hbehind' hfinish
    rw [← hplaced, Text.width_append _ ['\x7d']] at hrecast
    exact hrecast
  · refine .token (by simpa using hsource') .nil hstop' hreads' (by simp) (by simp) ?_
    simpa using hscanned'

/-- More is put in front of a closing brace. -/
theorem Marked.rewrites_put {previous brace : Placed} {declaration : Declaration}
    (hfills : declaration.Fills layout source previous brace)
    (h : Marked layout source (some brace) tokens marks)
    (ih : Rewrites layout source finish (some brace) tokens marks) :
    Rewrites layout source finish (some previous) (brace :: tokens)
      (.answer declaration :: marks) := by
  intro source' before before' flag flag' hscanned hprevious _ hsource'
  cases hscanned with
  | @token _ _ gap text after _ _ _ hparts hgap hstop hreads hplace hnewline hrest =>
    obtain rfl : ['\x7d'] = text := by rw [← hreads.spelling_eq, hfills.token]; rfl
    have hplaced : brace.span.stop = Text.width (before ++ gap ++ ['\x7d']) := by
      rw [hplace, Text.width_append _ ['\x7d']]
      rfl
    have hbrace : source = before ++ gap ++ '\x7d' :: after := by rw [hparts]; simp
    obtain ⟨front, blanks, -, hfront, -, hsplice⟩ :=
      Marked.splice_put hfills (hprevious previous rfl) h hbrace hgap hplace hrest
    rw [hsplice, ← List.append_assoc, ← List.append_assoc] at hsource'
    have hgoes := Marked.recastFrom hfills.token hplaced h ih hrest
      (by simpa using hsource' : source' =
        before' ++ front ++ declaration.filling layout source ++ ['\x7d'] ++ _)
    obtain ⟨head', tail', brace', rest', finish', ⟨_, _, heq, hbrace', hrecast⟩, hscanned', hhalt,
      hpasses⟩ := hfills.rewritten hsource' hgoes
        (fun _ _ ⟨brace', rest', heq, hbrace', _⟩ => ⟨brace', rest', heq, hbrace'⟩)
        (flag' || front.contains '\n')
    cases heq
    refine ⟨head' :: tail', finish', hscanned'.behind_gap hfront,
      fun seam hbehind hbehind' hfinish => .put hfills.token hfills.place hhalt
        (hfinish ▸ hpasses) (hrecast seam hbehind hbehind' hfinish), ?_⟩
    rintro next ⟨⟩ (hsign | ⟨word, -, hword⟩)
    · rw [hfills.token] at hsign
      cases hsign
    · rw [hfills.token] at hword
      cases hword

/-- **With the source changed at the marks, its other tokens are read again.** -/
theorem Marked.rewrites (h : Marked layout source previous? tokens marks) :
    Rewrites layout source finish previous? tokens marks := by
  induction h with
  | nil _ =>
    intro source' before before' flag flag' hscanned _ _ hsource'
    cases hscanned with
    | finish hparts hgap _ =>
      rw [List.map_nil, Edit.splice_nil hparts] at hsource'
      exact ⟨[], _, .finish hsource' hgap rfl, fun seam hbehind hbehind' _ =>
        .nil hbehind hbehind', by simp⟩
  | keep h ih => exact h.rewrites_keep ih
  | drop hsign hlast hspan hnext _ h ih => exact h.rewrites_drop hsign hlast hspan hnext ih
  | put hfills h ih => exact h.rewrites_put hfills ih

end

end Memberwise
