/-
  Memberwise/Proofs/Answering.lean
  ================================
  **What expanding a source changes.**

  Two kinds of edit answer the requests of a source.  A removal takes out an
  attribute and the blanks behind it; an insertion puts text in front of the
  closing brace of a body, where at most blanks give way.  No two of them meet:
  behind every request there is a character that is not blank and that no edit
  touches, and the same holds of every closing brace.  So the edits can be put in
  a row (`Spaced`), and all of them are applied.
-/
import Memberwise.Proofs.Location
import Memberwise.Proofs.Splicing

namespace Memberwise

/-! ### The two kinds of edit -/

/-- The edit takes out an attribute, from its `@` up to the first character behind it
    that is not blank. -/
def Removes (source : List Char) (span : Span) (edit : Edit) : Prop :=
  ∃ before attr blanks after, source = before ++ '@' :: attr ++ blanks ++ after ∧
    span.start = Text.width before ∧ span.stop = span.start + Text.width ('@' :: attr) ∧
    blanks.all Text.isBlank = true ∧ (∀ c ∈ after.head?, Text.isBlank c = false) ∧
    edit.span.start = span.start ∧ edit.span.stop = span.stop + Text.width blanks ∧
    edit.replacement = ""

/-- How the lines of inserted text end: as those of the source do, if one of them ends
    in a carriage return and a line feed. -/
def EndsLines (source ending : List Char) : Prop :=
  ['\r', '\n'] <:+: source ∧ ending = ['\r', '\n'] ∨ ¬ ['\r', '\n'] <:+: source ∧ ending = ['\n']

/-- Generated declarations at a margin, on lines of their own and with an empty line
    between them. -/
def generatedText (layout : Layout) (margin : List Char) (generated : List Generated) : List Char :=
  '\n' :: ['\n', '\n'].intercalate
    (generated.map (·.indented layout (margin ++ layout.indent.toList))) ++ ['\n']

/-- The edit puts what is generated for a declaration into its body.  Only blanks lie
    between the place and the closing brace, and only blanks give way: none, if the
    brace starts its line, and else all of them. -/
structure Inserts (layout : Layout) (source : List Char) (declaration : Declaration)
    (edit : Edit) : Prop where
  inside : declaration.body.start < edit.span.start ∧ edit.span.start ≤ edit.span.stop ∧
    edit.span.stop < declaration.body.stop
  blank : ∃ before blanks after, source = before ++ blanks ++ '\x7d' :: after ∧
    edit.span.start = Text.width before ∧ blanks.all Text.isBlank = true ∧
    declaration.body.stop = edit.span.start + Text.width blanks + 1
  text : ∃ ending margin tail, EndsLines source ending ∧
    edit.replacement.toList = Text.withLineEnding ending
      (generatedText layout margin declaration.generated ++ tail) ∧
    (edit.span.stop = edit.span.start ∧ tail = [] ∧
        margin = Text.slice source edit.span.start (declaration.body.stop - 1) ∨
      edit.span.stop + 1 = declaration.body.stop ∧ tail = margin ∧
        margin = marginAt source declaration.span.start)

/-! ### Removals -/

theorem removal_removes {source : List Char} {span : Span} (h : span.Signed source) :
    Removes source span (removal source span) := by
  obtain ⟨text, before, after, rfl, rfl⟩ := h
  have hdrop : Text.dropBytes (Span.across before ('@' :: text)).stop
      (before ++ '@' :: text ++ after) = after := Text.dropBytes_of_width (by simp [Span.across])
  refine ⟨before, text, Text.leadingBlanks after, after.dropWhile Text.isBlank, ?_, rfl, rfl,
    Text.all_leadingBlanks after, ?_, rfl, ?_, rfl⟩
  · rw [List.append_assoc _ (Text.leadingBlanks after), Text.leadingBlanks_append_dropWhile]
  · intro c hc
    have hhead := List.head?_dropWhile_not Text.isBlank after
    rw [Option.mem_def.1 hc] at hhead
    exact hhead
  · simp only [removal, hdrop, Span.upTo]

namespace Removes

variable {source : List Char} {span : Span} {edit : Edit}

theorem start_lt_stop (h : Removes source span edit) : edit.span.start < edit.span.stop := by
  obtain ⟨before, attr, blanks, after, -, -, hstop, -, -, hstart, hend, -⟩ := h
  have := Text.width_pos (List.cons_ne_nil '@' attr)
  omega

theorem fits (h : Removes source span edit) :
    edit.fits source (Text.width source) = true := by
  have hlt := h.start_lt_stop
  obtain ⟨before, attr, blanks, after, rfl, hstart, hstop, -, -, hfrom, hto, -⟩ := h
  refine Edit.fits_iff.2 ⟨Nat.le_of_lt hlt, ?_, ?_, ?_⟩
  · simp only [hto, hstop, hstart, Text.width_append]
    omega
  · rw [List.append_assoc, List.append_assoc]
    exact Text.isBoundary_of_width (by omega)
  · apply Text.isBoundary_of_width
    rw [Text.width_append, Text.width_append]
    omega

theorem stop_le (h : Removes source span edit) {n : Nat} (hsolid : Text.SolidAt source n)
    (hn : span.stop ≤ n) : edit.span.stop ≤ n := by
  obtain ⟨before, attr, blanks, after, hsource, hstart, hstop, hblanks, -, -, hto, -⟩ := h
  have hwidth : Text.width (before ++ '@' :: attr) = span.stop := by
    rw [Text.width_append]
    omega
  have hle := hsolid.not_in_blanks hsource hblanks (by omega)
  omega

end Removes

/-! ### Insertions -/

theorem hasReturnedLine_iff (source : List Char) :
    Text.hasReturnedLine source = true ↔ ['\r', '\n'] <:+: source := by
  fun_induction Text.hasReturnedLine source with
  | case1 => simp
  | case2 rest => exact ⟨fun _ => ⟨[], rest, rfl⟩, fun _ => rfl⟩
  | case3 c rest hne ih =>
    rw [ih, List.infix_cons_iff]
    refine ⟨.inr, fun h => h.resolve_left ?_⟩
    rintro ⟨more, hmore⟩
    cases hmore
    exact hne more rfl rfl

theorem lineEnding_endsLines (source : List Char) : EndsLines source (lineEnding source) := by
  unfold lineEnding EndsLines
  rw [← hasReturnedLine_iff]
  split
  · next h => exact .inl ⟨h, rfl⟩
  · next h => exact .inr ⟨h, rfl⟩

theorem blockText_eq (layout : Layout) (margin : List Char) {generated : List Generated}
    (h : generated ≠ []) :
    blockText layout margin generated = generatedText layout margin generated := by
  obtain ⟨first, rest, rfl⟩ := List.exists_cons_of_ne_nil h
  unfold blockText generatedText
  clear h
  induction rest generalizing first with
  | nil => simp
  | cons second rest ih =>
    rw [List.flatMap_cons, ih second]
    simp [List.intercalate]

theorem inlineText_eq (layout : Layout) (margin : List Char) (generated : List Generated) :
    inlineText layout margin generated = generatedText layout margin generated ++ margin := by
  simp [inlineText, generatedText]

/-- What a body looks like from its closing brace: the text in front of the brace, in
    which the opening brace stands. -/
theorem Declaration.Located.inside {source : List Char} {declaration : Declaration}
    (h : declaration.Located source) :
    ∃ inside after, source = inside ++ '\x7d' :: after ∧
      declaration.body.stop = Text.width inside + 1 ∧
      Text.SolidAt source declaration.body.start ∧
      declaration.body.start < Text.width inside := by
  obtain ⟨text, before, after, hsource, hbody⟩ := h.body
  have hopen : ('\x7b' : Char).utf8Size = 1 := rfl
  have hclose : ('\x7d' : Char).utf8Size = 1 := rfl
  refine ⟨before ++ '\x7b' :: text, after, by simp [hsource], ?_,
    ⟨before, '\x7b', text ++ ['\x7d'] ++ after, by simp [hsource], by rw [hbody]; rfl, rfl⟩, ?_⟩
  · rw [hbody]
    simp only [Span.across, Text.width_append, Text.width_cons, Text.width_nil]
    omega
  · rw [hbody]
    simp only [Span.across, Text.width_append, Text.width_cons]
    omega

/-- Everything solid in front of a brace stands in front of the blanks before it. -/
theorem solid_lt_of_blanks {source kept blanks after : List Char}
    (hsource : source = kept ++ blanks ++ '\x7d' :: after)
    (hblanks : blanks.all Text.isBlank = true) {n : Nat} (hsolid : Text.SolidAt source n)
    (hn : n < Text.width (kept ++ blanks)) :
    n < Text.width kept := by
  by_contra hge
  have hle := hsolid.not_in_blanks hsource hblanks (by omega)
  rw [Text.width_append] at hn
  omega

/-- An insertion goes where only blanks are left up to the brace, so it lies behind
    everything solid in front of the brace. -/
theorem insertion_inserts (layout : Layout) {source : List Char} {declaration : Declaration}
    (hlocated : declaration.Located source) (hgenerated : declaration.generated ≠ []) :
    Inserts layout source declaration (insertion layout source declaration declaration.generated) ∧
      ∀ n, Text.SolidAt source n → n + 1 < declaration.body.stop →
        n < (insertion layout source declaration declaration.generated).span.start := by
  obtain ⟨inside, after, hsource, hstop, hopen, hinner⟩ := hlocated.inside
  have hclose : declaration.body.stop - 1 = Text.width inside := by omega
  have htake : Text.takeBytes (Text.width inside) source = inside := by
    rw [hsource, Text.takeBytes_width_append]
  unfold insertion
  simp only [hclose, htake]
  split
  · next hblanks =>
    obtain ⟨kept, hkept⟩ := Text.exists_append_lastLine inside
    generalize Text.lastLine inside = blanks at *
    subst hkept
    have hwidth : Text.width (kept ++ blanks) - Text.width blanks = Text.width kept := by
      rw [Text.width_append]
      omega
    have hsum := Text.width_append kept blanks
    have hbehind := fun n => solid_lt_of_blanks (n := n) hsource hblanks
    rw [hwidth]
    refine ⟨⟨⟨hbehind _ hopen hinner, Nat.le_refl _, ?_⟩, ?_, ?_⟩, fun n hn hlt =>
      hbehind n hn (by omega)⟩
    · simp only
      omega
    · exact ⟨kept, blanks, after, hsource, rfl, hblanks, by simp only; omega⟩
    · refine ⟨lineEnding source, blanks, [], lineEnding_endsLines source, ?_, .inl ⟨rfl, rfl, ?_⟩⟩
      · rw [String.toList_ofList, blockText_eq _ _ hgenerated, List.append_nil]
      · rw [hclose, hsource, Text.slice_append rfl hsum.symm]
  · obtain ⟨blanks, hparts, hblanks⟩ := Text.trimEnd_append_blanks inside
    generalize Text.trimEnd inside = kept at *
    subst hparts
    have hsum := Text.width_append kept blanks
    have hbehind := fun n => solid_lt_of_blanks (n := n) hsource hblanks
    have hwidth : max (Text.width kept) (declaration.body.start + 1) = Text.width kept := by
      have := hbehind _ hopen hinner
      omega
    rw [hwidth]
    refine ⟨⟨⟨hbehind _ hopen hinner, ?_, ?_⟩, ?_, ?_⟩, fun n hn hlt => hbehind n hn (by omega)⟩
    · simp only
      omega
    · simp only
      omega
    · exact ⟨kept, blanks, after, hsource, rfl, hblanks, by simp only; omega⟩
    · refine ⟨lineEnding source, marginAt source declaration.span.start,
        marginAt source declaration.span.start, lineEnding_endsLines source, ?_,
        .inr ⟨?_, rfl, rfl⟩⟩
      · rw [String.toList_ofList, inlineText_eq]
      · simp only
        omega

theorem Inserts.fits {layout : Layout} {source : List Char} {declaration : Declaration}
    {edit : Edit} (h : Inserts layout source declaration edit) :
    edit.fits source (Text.width source) = true := by
  obtain ⟨-, hle, hlt⟩ := h.inside
  obtain ⟨before, blanks, after, hsource, hstart, -, hstop⟩ := h.blank
  obtain ⟨_, _, _, -, -, hkind⟩ := h.text
  have hbrace : ('\x7d' : Char).utf8Size = 1 := rfl
  have hwidth : Text.width source = Text.width before + Text.width blanks +
      (1 + Text.width after) := by
    rw [hsource, Text.width_append, Text.width_append, Text.width_cons, hbrace]
  have hfirst : Text.isBoundary edit.span.start source = true := by
    rw [hsource, List.append_assoc]
    exact Text.isBoundary_of_width hstart.symm
  refine Edit.fits_iff.2 ⟨hle, by omega, hfirst, ?_⟩
  rcases hkind with ⟨hsame, -⟩ | ⟨hend, -⟩
  · rw [hsame]
    exact hfirst
  · rw [hsource]
    apply Text.isBoundary_of_width
    rw [Text.width_append]
    omega

/-! ### Edits in a row -/

/-- Edits that stand between two offsets one behind another.  Behind each of them a
    character that is not blank is left in front of the end. -/
def Edit.Spaced (source : List Char) : Nat → List Edit → Nat → Prop
  | low, [], high => low ≤ high
  | low, edit :: rest, high =>
    low ≤ edit.span.start ∧ edit.fits source (Text.width source) = true ∧
      (∃ n, Text.SolidAt source n ∧ edit.span.stop ≤ n ∧ n < high) ∧
      Spaced source (max (edit.span.start + 1) edit.span.stop) rest high

namespace Edit.Spaced

variable {source : List Char} {low low' high high' : Nat} {chain : List Edit}

theorem le (h : Spaced source low chain high) : low ≤ high := by
  induction chain generalizing low with
  | nil => exact h
  | cons edit rest ih =>
    obtain ⟨hlow, -, -, hrest⟩ := h
    have := ih hrest
    omega

theorem mono (h : Spaced source low chain high) (hlow : low' ≤ low) (hhigh : high ≤ high') :
    Spaced source low' chain high' := by
  induction chain generalizing low low' with
  | nil =>
    have hle : low ≤ high := h
    show low' ≤ high'
    omega
  | cons edit rest ih =>
    obtain ⟨hstart, hfits, ⟨n, hn, hstop, hlt⟩, hrest⟩ := h
    exact ⟨by omega, hfits, ⟨n, hn, hstop, by omega⟩, ih hrest (Nat.le_refl _)⟩

theorem append {middle : Nat} {back : List Edit} (h : Spaced source low chain middle)
    (hback : Spaced source middle back high) : Spaced source low (chain ++ back) high := by
  have hle := hback.le
  induction chain generalizing low with
  | nil => exact hback.mono h (Nat.le_refl _)
  | cons edit rest ih =>
    obtain ⟨hstart, hfits, ⟨n, hn, hstop, hlt⟩, hrest⟩ := h
    exact ⟨hstart, hfits, ⟨n, hn, hstop, by omega⟩, ih hrest⟩

/-- An edit that starts behind everything solid in front of a solid place can follow. -/
theorem concat {edit : Edit} (h : Spaced source low chain high) (hlow : low ≤ edit.span.start)
    (hfits : edit.fits source (Text.width source) = true) (hsolid : Text.SolidAt source high)
    (hstop : edit.span.stop ≤ high)
    (hbehind : ∀ n, Text.SolidAt source n → n < high → n < edit.span.start) :
    Spaced source low (chain ++ [edit]) (high + 1) := by
  have hspan := (fits_iff.1 hfits).1
  induction chain generalizing low with
  | nil =>
    refine ⟨hlow, hfits, ⟨high, hsolid, hstop, Nat.lt_succ_self _⟩, ?_⟩
    show max (edit.span.start + 1) edit.span.stop ≤ high + 1
    omega
  | cons first rest ih =>
    obtain ⟨hstart, hfirst, ⟨n, hn, hend, hlt⟩, hrest⟩ := h
    have hfirstSpan := (fits_iff.1 hfirst).1
    have hlt' := hbehind n hn hlt
    exact ⟨hstart, hfirst, ⟨n, hn, hend, by omega⟩, ih hrest (by omega)⟩

theorem apart (h : Spaced source low chain high) :
    Apart source chain ∧ ∀ edit ∈ chain, low ≤ edit.span.start := by
  induction chain generalizing low with
  | nil => exact ⟨⟨by simp, List.Pairwise.nil⟩, by simp⟩
  | cons edit rest ih =>
    obtain ⟨hstart, hfits, -, hrest⟩ := h
    obtain ⟨⟨hrestFits, hinOrder⟩, hlow⟩ := ih hrest
    have hspan := (fits_iff.1 hfits).1
    refine ⟨⟨List.forall_mem_cons.2 ⟨hfits, hrestFits⟩, List.pairwise_cons.2 ⟨?_, hinOrder⟩⟩,
      List.forall_mem_cons.2 ⟨hstart, ?_⟩⟩
    · intro other hother
      have := hlow other hother
      omega
    · intro other hother
      have := hlow other hother
      omega

theorem exists_solid {edit : Edit} (h : Spaced source low chain high) (hmem : edit ∈ chain) :
    ∃ n, Text.SolidAt source n ∧ edit.span.stop ≤ n ∧ n < high := by
  induction chain generalizing low with
  | nil => cases hmem
  | cons first rest ih =>
    rcases List.mem_cons.1 hmem with rfl | hmem
    · exact h.2.2.1
    · exact ih h.2.2.2 hmem

end Edit.Spaced

def Edit.Clear (chain : List Edit) : Prop :=
  chain.Pairwise fun a b => b.replacement ≠ "" → a.span.stop < b.span.start

theorem Edit.Clear.append {source : List Char} {low middle high : Nat} {front back : List Edit}
    (hfront : Clear front) (hback : Clear back) (hrow : Spaced source low front middle)
    (hrow' : Spaced source middle back high) : Clear (front ++ back) := by
  refine List.pairwise_append.2 ⟨hfront, hback, ?_⟩
  intro a ha b hb _
  obtain ⟨n, -, hstop, hlt⟩ := hrow.exists_solid ha
  have hle := hrow'.apart.2 b hb
  omega

theorem Edit.clear_removals (source : List Char) (spans : List Span) :
    Clear (spans.map (removal source)) := by
  refine List.pairwise_map.2 (List.pairwise_of_forall ?_)
  intro a b hne
  exact absurd rfl hne

/-! ### Solid places of tokens -/

theorem Span.Covers.solidAt {source text : List Char} {span : Span} {c : Char}
    (h : span.Covers source (c :: text)) (hc : Text.isBlank c = false) :
    Text.SolidAt source span.start := by
  obtain ⟨before, after, hsource, rfl⟩ := h
  exact ⟨before, c, text ++ after, by simp [hsource], rfl, hc⟩

theorem Introduces.solidAt {source : List Char} {placed : Placed} (h : Introduces placed)
    (hsits : placed.Sits source) : Text.SolidAt source placed.span.start := by
  obtain ⟨word, hword, htoken⟩ := h
  have hcovers := hsits.2
  rw [htoken] at hcovers
  have hsolid : ∀ word ∈ introducerWords,
      (word.toList.head?.any fun c => !Text.isBlank c) = true := by decide
  have hfirst := hsolid word hword
  rw [Option.any_eq_true] at hfirst
  obtain ⟨c, hc, hblank⟩ := hfirst
  obtain ⟨rest, hrest⟩ := List.head?_eq_some_iff.1 hc
  simp only [Token.spelling, hrest] at hcovers
  exact hcovers.solidAt (by simpa using hblank)

/-- The token behind an attribute, or at the front of an item, is solid. -/
theorem solidAt_of_attributes {source : List Char} {attrs : List Attribute}
    {segments : List (List Placed)} {lead : Placed} {rest : List Placed} {low high : Nat}
    (h : List.Forall₂ Attribute.WrittenAs attrs segments)
    (hlaid : Laid source low (segments.flatten ++ lead :: rest) high)
    (hlead : Text.SolidAt source lead.span.start) :
    ∃ first others, segments.flatten ++ lead :: rest = first :: others ∧
      Text.SolidAt source first.span.start := by
  cases h with
  | nil => exact ⟨lead, rest, rfl, hlead⟩
  | cons hwritten _ =>
    obtain ⟨sign, name, more, last, rfl, hsign, -⟩ := hwritten
    have hsits := hlaid.2.1.2
    rw [hsign] at hsits
    exact ⟨sign, _, rfl, hsits.solidAt rfl⟩

/-! ### The edits of an item -/

/-- The removals of some of the attributes of an item stand in a row in front of the
    word that introduces the item. -/
theorem removals_spaced {source : List Char} {attrs : List Attribute}
    {segments : List (List Placed)} {lead : Placed} {rest : List Placed} {low high : Nat}
    (keep : Attribute → Bool) (h : List.Forall₂ Attribute.WrittenAs attrs segments)
    (hlaid : Laid source low (segments.flatten ++ lead :: rest) high)
    (hlead : Text.SolidAt source lead.span.start) :
    Edit.Spaced source low (((attrs.filter keep).map (·.span)).map (removal source))
      lead.span.stop := by
  induction h generalizing low with
  | nil =>
    have hlt := hlaid.2.1.start_lt_stop
    have hle := hlaid.1
    show low ≤ lead.span.stop
    omega
  | @cons attr segment attrs segments hwritten hall ih =>
    rw [List.flatten_cons, List.append_assoc, Laid.append_iff] at hlaid
    obtain ⟨hstart, hstop, text, hcovers⟩ := hwritten.laid hlaid.1
    have hspan := hcovers.start_le_stop
    rw [List.filter_cons]
    split
    · -- the removal ends in front of the next token, which is solid
      have hremoves := removal_removes ⟨text, hcovers⟩
      have hlt := hremoves.start_lt_stop
      obtain ⟨first, others, hfirst, hsolid⟩ := solidAt_of_attributes hall hlaid.2 hlead
      have hrest := hlaid.2
      rw [hfirst] at hrest
      have hbehind := hremoves.stop_le hsolid (by rw [hstop]; exact hrest.1)
      have hnext : Laid source (removal source attr.span).span.stop
          (segments.flatten ++ lead :: rest) high := by
        rw [hfirst]
        exact ⟨hbehind, hrest.2⟩
      have hleadLaid := (Laid.append_iff.1 hlaid.2).2
      have hafter := (Laid.append_iff.1 hnext).1.le
      have hleadLow := (Laid.append_iff.1 hnext).2.1
      simp only [List.map_cons]
      refine ⟨hstart, hremoves.fits, ⟨lead.span.start, hlead, by omega,
        hleadLaid.2.1.start_lt_stop⟩, ?_⟩
      have hmax : max ((removal source attr.span).span.start + 1)
          (removal source attr.span).span.stop = (removal source attr.span).span.stop := by omega
      rw [hmax]
      exact ih hnext
    · refine (ih hlaid.2).mono ?_ (Nat.le_refl _)
      omega

/-- The edit that answers the requests attached to a declaration, if something is
    generated. -/
def Declaration.insertion? (layout : Layout) (source : List Char) (declaration : Declaration) :
    Option Edit :=
  match declaration.generated with
  | [] => none
  | generated => some (insertion layout source declaration generated)

theorem Declaration.insertion?_of_nil {layout : Layout} {source : List Char}
    {declaration : Declaration} (h : declaration.generated = []) :
    declaration.insertion? layout source = none := by
  rw [insertion?, h]

theorem Declaration.insertion?_of_ne_nil {layout : Layout} {source : List Char}
    {declaration : Declaration} (h : declaration.generated ≠ []) :
    declaration.insertion? layout source =
      some (insertion layout source declaration declaration.generated) := by
  unfold insertion?
  split
  · next hnil => exact absurd hnil h
  · rfl

namespace ItemTaken

variable {source : List Char} {stream after : TokenStream} {found : Item}
  {attrs : List Attribute} {segments : List (List Placed)} {tail : List Placed}
  {noted : List Span}

theorem removals_spaced (h : ItemTaken source stream after found attrs segments tail noted) :
    Edit.Spaced source stream.readTo (noted.map (removal source)) after.readTo := by
  have hlaid := (h.ready.taken h.takes).1
  -- the removals in front of a word that introduces the item
  have hintroduced : ∀ {lead : Placed} {rest : List Placed} (keep : Attribute → Bool),
      tail = lead :: rest → Introduces lead →
      Edit.Spaced source stream.readTo (((attrs.filter keep).map (·.span)).map (removal source))
        after.readTo := by
    rintro lead rest keep rfl hlead
    have hleadLaid := (Laid.append_iff.1 hlaid).2
    have hrow := Memberwise.removals_spaced keep h.written hlaid (hlead.solidAt hleadLaid.2.1)
    exact hrow.mono (Nat.le_refl _) hleadLaid.2.2.le
  cases h.read with
  | separator => exact hlaid.le
  | other _ => exact hlaid.le
  | property hlead _ _ _ => exact hintroduced _ rfl hlead
  | opened hlead _ _ _ hattached =>
    rw [attachment_spans hattached]
    exact hintroduced _ rfl hlead

end ItemTaken

/-- The edits in the body of a declaration, and the one that answers its requests. -/
theorem Edit.Spaced.withInsertion {source : List Char} (layout : Layout) {low : Nat}
    {chain : List Edit} {declaration : Declaration} (hlocated : declaration.Located source)
    (h : Edit.Spaced source low chain (declaration.body.stop - 1))
    (hlow : low ≤ declaration.body.start + 1) :
    Edit.Spaced source low (chain ++ (declaration.insertion? layout source).toList)
        declaration.body.stop ∧
      (Edit.Clear chain → Edit.Clear (chain ++ (declaration.insertion? layout source).toList)) := by
  obtain ⟨inside, after, hsource, hstop, hopen, hinner⟩ := hlocated.inside
  by_cases hgenerated : declaration.generated = []
  · rw [Declaration.insertion?_of_nil hgenerated, Option.toList_none, List.append_nil]
    exact ⟨h.mono (Nat.le_refl _) (Nat.sub_le _ _), id⟩
  · rw [Declaration.insertion?_of_ne_nil hgenerated, Option.toList_some]
    obtain ⟨hinserts, hbehind⟩ := insertion_inserts layout hlocated hgenerated
    have hclose : Text.SolidAt source (declaration.body.stop - 1) :=
      ⟨inside, '\x7d', after, hsource, by omega, rfl⟩
    obtain ⟨hstart, -, hend⟩ := hinserts.inside
    have hrow := h.concat (by omega) hinserts.fits hclose (by omega) fun n hn hlt =>
      hbehind n hn (by omega)
    refine ⟨hrow.mono (Nat.le_refl _) (by omega), fun hclear => ?_⟩
    refine List.pairwise_append.2 ⟨hclear, List.pairwise_singleton _ _, ?_⟩
    intro a ha b hb _
    obtain rfl := List.mem_singleton.1 hb
    obtain ⟨n, hn, hlast, hlt⟩ := h.exists_solid ha
    exact Nat.lt_of_le_of_lt hlast (hbehind n hn (by omega))

/-! ### The edits of a source -/

/-- Removals come first in the list of all edits, but in the source they stand among
    the insertions. -/
theorem perm_of_parts {front inner own outer removed removed' added added' : List Edit}
    (hinner : inner.Perm (removed ++ added)) (houter : outer.Perm (removed' ++ added')) :
    (front ++ (inner ++ own ++ outer)).Perm
      (front ++ (removed ++ removed') ++ (own ++ (added ++ added'))) := by
  rw [List.perm_iff_count] at *
  intro edit
  have := hinner edit
  have := houter edit
  simp only [List.count_append] at *
  omega

/-- The attachments of all declarations are noted, in order. -/
theorem ItemsRead.attachment_spans_sublist {source : List Char} {stream after : TokenStream}
    {taken : List Placed} {noted : List Span} {items : List BodyItem}
    (h : ItemsRead source stream taken noted items after) :
    (((Declaration.nestedIn items).flatMap (·.attachments)).map (·.span)).Sublist noted := by
  induction h with
  | stop _ _ => simp [Declaration.nestedIn]
  | separator _ _ ih => exact ih.trans (List.sublist_append_right _ _)
  | entry hitem _ ih =>
    rw [hitem.nestedIn_entry]
    exact ih.trans (List.sublist_append_right _ _)
  | opened hitem _ _ _ _ ihInner ihRest =>
    rw [Declaration.nestedIn_nested, List.flatMap_cons, List.flatMap_append, List.map_append,
      List.map_append]
    refine List.Sublist.append ?_ (ihInner.append ihRest)
    cases hitem.read with
    | opened _ _ _ _ _ => exact List.Sublist.refl _

theorem ItemsRead.attachments_noted {source : List Char} {stream after : TokenStream}
    {taken : List Placed} {noted : List Span} {items : List BodyItem}
    (h : ItemsRead source stream taken noted items after) :
    ∀ declaration ∈ Declaration.nestedIn items, ∀ attachment ∈ declaration.attachments,
      attachment.span ∈ noted := by
  intro declaration hmem attachment hattached
  have hin := List.mem_flatMap.2 ⟨declaration, hmem, hattached⟩
  exact h.attachment_spans_sublist.mem (List.mem_map.2 ⟨attachment, hin, rfl⟩)

theorem Declaration.generated_of_nil {declaration : Declaration}
    (h : declaration.attachments = []) :
    declaration.generated = [] ∧ declaration.rejections = [] := by
  unfold generated rejections
  rw [h]
  exact ⟨rfl, rfl⟩

theorem ItemsRead.attachments_of_nil {source : List Char} {stream after : TokenStream}
    {taken : List Placed} {noted : List Span} {items : List BodyItem}
    (h : ItemsRead source stream taken noted items after) (hnoted : noted = []) :
    ∀ declaration ∈ Declaration.nestedIn items, declaration.attachments = [] := by
  intro declaration hmem
  have hattached := h.attachments_noted declaration hmem
  rw [hnoted] at hattached
  exact List.eq_nil_iff_forall_not_mem.2 fun attachment hin =>
    List.not_mem_nil (hattached attachment hin)

theorem ItemsRead.insertions_of_nil {source : List Char} (layout : Layout)
    {stream after : TokenStream} {taken : List Placed} {noted : List Span}
    {items : List BodyItem} (h : ItemsRead source stream taken noted items after)
    (hnoted : noted = []) :
    (Declaration.nestedIn items).filterMap (Declaration.insertion? layout source) = [] := by
  apply List.filterMap_eq_nil_iff.2
  intro declaration hmem
  exact Declaration.insertion?_of_nil
    (Declaration.generated_of_nil (h.attachments_of_nil hnoted declaration hmem)).1

/-- A row of edits starts with the removals of an item that requests something. -/
def Leads (source : List Char) (low : Nat) (taken : List Placed) (chain : List Edit) (high : Nat) :
    Prop :=
  ∃ stream after found attrs segments tail noted later,
    ItemTaken source stream after found attrs segments tail noted ∧ noted ≠ [] ∧
    low ≤ stream.readTo ∧ after.readTo ≤ high ∧ (segments.flatten ++ tail) <:+: taken ∧
    chain = noted.map (removal source) ++ later ∧ ∀ edit ∈ later, after.readTo ≤ edit.span.start

theorem Leads.append {source : List Char} {low low' high high' : Nat}
    {taken taken' : List Placed} {chain : List Edit} (h : Leads source low taken chain high)
    (hlow : low' ≤ low) (hhigh : high ≤ high') (htaken : taken <:+: taken') (more : List Edit)
    (hmore : ∀ edit ∈ more, high ≤ edit.span.start) :
    Leads source low' taken' (chain ++ more) high' := by
  obtain ⟨stream, after, found, attrs, segments, tail, noted, later, hitem, hne, hstart, hend,
    hpart, rfl, hlater⟩ := h
  refine ⟨stream, after, found, attrs, segments, tail, noted, later ++ more, hitem, hne,
    Nat.le_trans hlow hstart, Nat.le_trans hend hhigh, hpart.trans htaken,
    List.append_assoc _ _ _, ?_⟩
  exact List.forall_mem_append.2 ⟨hlater, fun edit hedit =>
    Nat.le_trans hend (hmore edit hedit)⟩

theorem ItemTaken.leads {source : List Char} {stream after : TokenStream} {found : Item}
    {attrs : List Attribute} {segments : List (List Placed)} {tail taken : List Placed}
    {noted noted' : List Span} {chain : List Edit} {high : Nat}
    (h : ItemTaken source stream after found attrs segments tail noted)
    (hchain : Edit.Spaced source after.readTo chain high)
    (hrest : noted = [] → noted' ≠ [] → Leads source after.readTo taken chain high)
    (hne : noted ++ noted' ≠ []) :
    Leads source stream.readTo (segments.flatten ++ tail ++ taken)
      (noted.map (removal source) ++ chain) high := by
  by_cases hnoted : noted = []
  · subst hnoted
    have hleads := (hrest rfl hne).append (h.ready.readTo_le h.takes) (Nat.le_refl high)
      (List.suffix_append (segments.flatten ++ tail) taken).isInfix [] (by simp)
    simpa using hleads
  · exact ⟨stream, after, found, attrs, segments, tail, noted, chain, h, hnoted, Nat.le_refl _,
      hchain.le, (List.prefix_append _ _).isInfix, rfl, hchain.apart.2⟩

/-- All edits along the items of a body can be put in a row.  If something is noted, the
    first of them are those of an item.  No text is put in right behind an edit. -/
theorem ItemsRead.spaced {source : List Char} (layout : Layout) {stream after : TokenStream}
    {taken : List Placed} {noted : List Span} {items : List BodyItem}
    (h : ItemsRead source stream taken noted items after) :
    ∃ chain, Edit.Spaced source stream.readTo chain after.readTo ∧
      chain.Perm (noted.map (removal source) ++
        (Declaration.nestedIn items).filterMap (Declaration.insertion? layout source)) ∧
      (noted ≠ [] → Leads source stream.readTo taken chain after.readTo) ∧ Edit.Clear chain := by
  induction h with
  | stop _ _ =>
    exact ⟨[], Nat.le_refl _, by simp [Declaration.nestedIn], fun hne => absurd rfl hne, .nil⟩
  | separator hitem _ ih =>
    obtain ⟨chain, hchain, hperm, hleads, hclear⟩ := ih
    refine ⟨_, hitem.removals_spaced.append hchain, ?_, hitem.leads hchain fun _ => hleads,
      (Edit.clear_removals source _).append hclear hitem.removals_spaced hchain⟩
    rw [List.map_append, List.append_assoc]
    exact hperm.append_left _
  | entry hitem _ ih =>
    obtain ⟨chain, hchain, hperm, hleads, hclear⟩ := ih
    refine ⟨_, hitem.removals_spaced.append hchain, ?_, hitem.leads hchain fun _ => hleads,
      (Edit.clear_removals source _).append hclear hitem.removals_spaced hchain⟩
    rw [List.map_append, List.append_assoc, hitem.nestedIn_entry]
    exact hperm.append_left _
  | @opened _ inside closing outside after _ _ _ takenIn takenOut noted notedIn notedOut header
      inner items hitem hinner hbrace hclose hrest ihInner ihRest =>
    obtain ⟨chainIn, hchainIn, hpermIn, hleadsIn, hclearIn⟩ := ihInner
    obtain ⟨chainOut, hchainOut, hpermOut, hleadsOut, hclearOut⟩ := ihRest
    obtain ⟨horderIn, hliesIn, hmembersIn, -⟩ := hinner.located
    have hlocated := hitem.closed_located hinner.ready_after hbrace horderIn hliesIn hmembersIn
    have hclosing := hinner.ready_after.readTo_le_head
    have hstop := hinner.ready_after.closingBrace_stop hbrace
    obtain ⟨hbody, hclear⟩ := Edit.Spaced.withInsertion layout hlocated
      (hchainIn.mono (Nat.le_refl _) (by simp only [Header.closed, Span.upTo]; omega))
      (Nat.le_of_eq hitem.readTo_header)
    have hbody := hbody.mono (Nat.le_refl _) (Nat.le_of_eq hclose.readTo.symm)
    have hrow := hbody.append hchainOut
    have hclear := (hclear hclearIn).append hclearOut hbody hchainOut
    refine ⟨_, hitem.removals_spaced.append hrow, ?_, hitem.leads hrow fun hnone hne => ?_,
      (Edit.clear_removals source _).append hclear hitem.removals_spaced hrow⟩
    · rw [Declaration.nestedIn, Declaration.withNested_eq, List.map_append, List.map_append,
        List.cons_append, List.filterMap_eq_flatMap_toList, List.flatMap_cons, List.flatMap_append,
        ← List.filterMap_eq_flatMap_toList, ← List.filterMap_eq_flatMap_toList]
      exact perm_of_parts hpermIn hpermOut
    · -- nothing is attached here, so nothing is inserted
      have hown : (header.closed inner closing.head.span).insertion? layout source = none := by
        refine Declaration.insertion?_of_nil (Declaration.generated_of_nil ?_).1
        cases hitem.read with
        | opened _ _ _ _ _ => exact List.map_eq_nil_iff.1 hnone
      rw [hown, Option.toList_none, List.append_nil]
      have hbetween := hinner.ready_after.readTo_le hclose
      by_cases hnoneIn : notedIn = []
      · have hempty : chainIn = [] := by
          rw [hnoneIn, hinner.insertions_of_nil layout hnoneIn] at hpermIn
          exact hpermIn.eq_nil
        rw [hempty, List.nil_append]
        rw [hnoneIn, List.nil_append] at hne
        have hleads := (hleadsOut hne).append (Nat.le_trans hchainIn.le hbetween)
          (Nat.le_refl _)
          (List.suffix_append (takenIn ++ [closing.head]) takenOut).isInfix [] (by simp)
        simpa using hleads
      · exact (hleadsIn hnoneIn).append (Nat.le_refl _) (Nat.le_trans hbetween hchainOut.le)
          (List.prefix_append _ _).isInfix chainOut fun edit hedit =>
            Nat.le_trans hbetween (hchainOut.apart.2 edit hedit)

theorem Outline.edits_eq (layout : Layout) (source : List Char) (outline : Outline) :
    outline.edits layout source = outline.requests.map (removal source) ++
      outline.allDeclarations.filterMap (Declaration.insertion? layout source) := rfl

theorem insertion?_inserts (layout : Layout) {source : List Char} {declarations : List Declaration}
    (h : ∀ declaration ∈ declarations, declaration.Located source) :
    List.Forall₂ (Inserts layout source) (declarations.filter (·.generated ≠ []))
      (declarations.filterMap (Declaration.insertion? layout source)) := by
  induction declarations with
  | nil => exact .nil
  | cons declaration rest ih =>
    rw [List.forall_mem_cons] at h
    by_cases hgenerated : declaration.generated = []
    · rw [List.filter_cons_of_neg (by simp [hgenerated]),
        List.filterMap_cons_none (Declaration.insertion?_of_nil hgenerated)]
      exact ih h.2
    · rw [List.filter_cons_of_pos (by simp [hgenerated]),
        List.filterMap_cons_some (Declaration.insertion?_of_ne_nil hgenerated)]
      exact .cons (insertion_inserts layout h.1 hgenerated).1 (ih h.2)

/-- The edits that answer a source, and what they make of it. -/
theorem expand_eq_ok {layout : Layout} {source : String} {expansion : Expansion}
    (h : expand layout source = .ok expansion) :
    ∃ outline, Outline.ofSource source.toList = .ok outline ∧
      expansion.source.toList =
        Edit.applyAll source.toList (outline.edits layout source.toList) ∧
      expansion.diagnostics = outline.diagnostics := by
  unfold expand at h
  cases houtline : Outline.ofSource source.toList with
  | error cause =>
    rw [houtline] at h
    cases h
  | ok outline =>
    rw [houtline] at h
    cases h
    exact ⟨outline, rfl, String.toList_ofList, rfl⟩

/-- **Expanding a source changes what it is asked to, and nothing else.**  Every
    request is taken out and what is generated for a declaration is put into its
    body; no edit is left out, and all other text stays in place. -/
theorem expand_splices {layout : Layout} {source : String} {expansion : Expansion}
    (h : expand layout source = .ok expansion) :
    ∃ outline removals insertions chain, Outline.ofSource source.toList = .ok outline ∧
      List.Forall₂ (Removes source.toList) outline.requests removals ∧
      List.Forall₂ (Inserts layout source.toList)
        (outline.allDeclarations.filter (·.generated ≠ [])) insertions ∧
      outline.edits layout source.toList = removals ++ insertions ∧
      chain.Perm (removals ++ insertions) ∧ Edit.Apart source.toList chain ∧
      Edit.accepted source.toList (outline.edits layout source.toList) = chain.reverse ∧
      expansion.source.toList = Edit.splice source.toList 0 chain := by
  obtain ⟨outline, houtline, hsource, -⟩ := expand_eq_ok h
  obtain ⟨tokens, taken, items, after, htokens, hread, hpending, hdeclarations⟩ :=
    Outline.ofSource_read houtline
  obtain ⟨chain, hchain, hperm, -⟩ := hread.spaced layout
  have hdeep : outline.allDeclarations = Declaration.nestedIn items := by
    rw [Outline.allDeclarations, hdeclarations, Declaration.nestedIn_eq]
  rw [← hdeep] at hperm
  have hnested := hread.located.2.2.2
  rw [← hdeep] at hnested
  have hapart := hchain.apart.1
  refine ⟨outline, _, _, chain, houtline, ?_, insertion?_inserts layout hnested, rfl, hperm, hapart,
    Edit.accepted_eq_reverse hperm hapart, hsource.trans (Edit.applyAll_eq_splice hperm hapart)⟩
  rw [List.forall₂_map_right_iff, List.forall₂_same]
  intro span hspan
  exact removal_removes (hread.noted_inOrder.2 span hspan)

def keyedStruct : String := "@CodingKeys\nstruct S \x7b\n    let a: Int\n\x7d"

def keyedStructExpanded : String :=
  "struct S \x7b\n    let a: Int\n\n    enum CodingKeys: String, CodingKey \x7b\n" ++
  "        case a\n    \x7d\n\x7d"

theorem expand_splices_struct :
    expand .standard keyedStruct = .ok ⟨keyedStructExpanded, []⟩ ∧
    ∃ chain, Edit.Apart keyedStruct.toList chain ∧
      keyedStructExpanded.toList = Edit.splice keyedStruct.toList 0 chain := by
  have hexpand : expand .standard keyedStruct = .ok ⟨keyedStructExpanded, []⟩ := by decide +kernel
  obtain ⟨_, _, _, chain, -, -, -, -, -, hapart, -, hsource⟩ := expand_splices hexpand
  exact ⟨hexpand, chain, hapart, hsource⟩

end Memberwise
