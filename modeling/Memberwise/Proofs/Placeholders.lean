/-
  Memberwise/Proofs/Placeholders.lean
  ===================================
  **The tokens of a source in which names get a type.**

  A placeholder for a type is five tokens.  Put behind a name it changes no other
  token, unless an operator follows the name directly, which its last sign would be
  read together with.  So the tokens of the new source are those of the old one
  further on, with placeholders between (`Grown`), and between two placeholders lies a
  stretch that both sources have in common.
-/
import Memberwise.Proofs.Fixing
import Memberwise.Proofs.Following

namespace Memberwise

/-! ### Room for a type -/

def Text.placeholder : List Char := [':', ' ', '<', '#', 'T', 'y', 'p', 'e', '#', '>']

/-- Whether a type can be put between a name and the token behind it: it would end in front
    of that token, and nothing of the token would be read as a part of the type.  Words that
    introduce a member are no names to put a type behind. -/
def leavesRoom (name next : Placed) : Bool :=
  endsType false next && name.token != .name "let" && name.token != .name "var" &&
    match next.token with
    | .operator _ => false
    | .equals => name.span.stop < next.span.start
    | _ => true

/-- A bound name leaves room for a type. -/
def Pattern.HasRoom (tokens : Tokens) (pattern : Pattern) : Prop :=
  ∀ front name back, tokens.body = front ++ name :: back → name.span = pattern.span →
    leavesRoom name (back.headD tokens.finish) = true

def leaveRoomAt (finish : Placed) (span : Span) : List Placed → Bool
  | [] => true
  | name :: back =>
    (name.span != span || leavesRoom name (back.headD finish)) && leaveRoomAt finish span back

theorem leaveRoomAt_iff {finish : Placed} {span : Span} {tokens : List Placed} :
    leaveRoomAt finish span tokens = true ↔
      ∀ front name back, tokens = front ++ name :: back → name.span = span →
        leavesRoom name (back.headD finish) = true := by
  induction tokens with
  | nil => simp [leaveRoomAt]
  | cons first rest ih =>
    simp only [leaveRoomAt, Bool.and_eq_true, Bool.or_eq_true, bne_iff_ne, ih]
    constructor
    · rintro ⟨hfirst, hrest⟩ front name back htokens hspan
      cases front with
      | nil =>
        cases htokens
        exact hfirst.resolve_left (not_not_intro hspan)
      | cons _ front =>
        cases htokens
        exact hrest front name back rfl hspan
    · intro h
      refine ⟨?_, fun front name back htokens =>
        h (first :: front) name back (congrArg (first :: ·) htokens)⟩
      by_cases hspan : first.span = span
      · exact .inr (h [] first rest rfl hspan)
      · exact .inl hspan

instance (tokens : Tokens) (pattern : Pattern) : Decidable (pattern.HasRoom tokens) :=
  decidable_of_iff (leaveRoomAt tokens.finish pattern.span tokens.body = true) leaveRoomAt_iff

theorem leavesRoom_moved {shift : Nat} {name name' next next' : Placed}
    (hname : name.Moved shift name') (hnext : next.Moved shift next') :
    leavesRoom name' next' = leavesRoom name next := by
  have hgap : (name.span.stop + shift < next.span.start + shift) =
      (name.span.stop < next.span.start) := by rw [Nat.add_lt_add_iff_right]
  unfold leavesRoom
  rw [endsType_moved hnext, hname.token, hnext.token]
  simp only [hname.stop, hnext.start, hgap]

/-! ### Tokens of a placeholder -/

structure IsPlaceholder (start : Nat) (typing : List Placed) : Prop where
  tokens : typing.map (·.token) =
    [.colon, .operator "<", .name "#Type", .name "#", .operator ">"]
  stop : endOf start typing = start + 10

/-- A token on the same line, in front of others. -/
theorem Scanned.prepend {source before gap text after : List Char} {token : Token}
    {tokens : List Placed} {finish : Placed}
    (h : Scanned source false (before ++ gap ++ text) tokens finish)
    (hsource : source = before ++ gap ++ text ++ after) (hgap : Token.IsGap gap)
    (hstop : Token.NoGap (text ++ after)) (hreads : token.Reads text after)
    (hline : gap.contains '\n' = false ∧ text.contains '\n' = false) :
    Scanned source false before (⟨token, Span.across (before ++ gap) text, false⟩ :: tokens)
      finish :=
  .token hsource hgap hstop hreads rfl (by rw [hline.1]; rfl) (by rwa [hline.2])

/-- A placeholder is cut into its tokens in front of all texts that no operator starts. -/
theorem Scanned.placeholder {source before after : List Char} {tokens : List Placed}
    {finish : Placed} (hsource : source = before ++ Text.placeholder ++ after)
    (hafter : Token.operatorRun after = 0)
    (h : Scanned source false (before ++ Text.placeholder) tokens finish) :
    ∃ typing, IsPlaceholder (Text.width before) typing ∧
      Scanned source false before (typing ++ tokens) finish := by
  have hsolid : ∀ {c rest}, Token.isSeparator c = false ∧ c ≠ '/' → Token.NoGap (c :: rest) :=
    fun hc => Token.noGap_cons_iff.2 ⟨hc.1, fun hslash => absurd hslash hc.2⟩
  have hcolon : Token.colon.Reads [':'] (" <#Type#>".toList ++ after) :=
    ⟨_, _, .mark .colon, rfl, rfl, rfl, rfl⟩
  have hless : (Token.operator "<").Reads ['<'] ("#Type#>".toList ++ after) :=
    ⟨_, _, ⟨Token.ofOperator, 1⟩, rfl, rfl, rfl, rfl⟩
  have htype : (Token.name "#Type").Reads ['#', 'T', 'y', 'p', 'e'] ('#' :: '>' :: after) :=
    ⟨_, _, ⟨Token.name, 5⟩, rfl, rfl, rfl, rfl⟩
  have hsign : (Token.name "#").Reads ['#'] ('>' :: after) :=
    ⟨_, _, ⟨Token.name, 1⟩, rfl, rfl, rfl, rfl⟩
  have hmore : (Token.operator ">").Reads ['>'] after :=
    ⟨_, _, ⟨Token.ofOperator, 1 + Token.operatorRun after⟩, rfl, rfl, by rw [hafter]; rfl, rfl⟩
  have hparts : Scanned source false (before ++ [] ++ [':'] ++ [' '] ++ ['<'] ++ [] ++
      ['#', 'T', 'y', 'p', 'e'] ++ [] ++ ['#'] ++ [] ++ ['>']) tokens finish := by
    simpa [Text.placeholder] using h
  have h5 := hparts.prepend (by simp [hsource, Text.placeholder]) .nil (hsolid (by decide)) hmore
    (by decide)
  have h4 := h5.prepend (by simp [hsource, Text.placeholder]) .nil (hsolid (by decide)) hsign
    (by decide)
  have h3 := h4.prepend (by simp [hsource, Text.placeholder]) .nil (hsolid (by decide)) htype
    (by decide)
  have h2 := h3.prepend (by simp [hsource, Text.placeholder])
    (Token.isGap_of_separators (List.all_eq_true.1 (by decide))) (hsolid (by decide)) hless
    (by decide)
  have h1 := h2.prepend (by simp [hsource, Text.placeholder]) .nil (hsolid (by decide)) hcolon
    (by decide)
  refine ⟨[_, _, _, _, _], ⟨rfl, ?_⟩, h1⟩
  simp only [endOf_cons, endOf_nil, Span.across, Text.width_append, Text.width_cons,
    Text.width_nil]
  rfl

/-! ### What follows a name -/

namespace Token

/-- No operator starts where a gap starts, or where no sign of operators comes next. -/
theorem operatorRun_eq_zero {text : List Char}
    (h : NoGap text → ∀ c ∈ text.head?, isOperatorPart c = false) : operatorRun text = 0 := by
  cases text with
  | nil => rfl
  | cons c rest =>
    rw [operatorRun_cons]
    split
    · rfl
    · next hcomment =>
      rw [if_neg]
      intro hpart
      have hsep : isSeparator c = false := by
        by_contra hsep
        simp only [isSeparator, Bool.not_eq_false, Bool.or_eq_true, beq_iff_eq, or_assoc] at hsep
        rcases hsep with rfl | rfl | rfl | rfl <;> exact absurd hpart (by decide)
      have hstop : NoGap (c :: rest) := by
        refine noGap_cons_iff.2 ⟨hsep, ?_⟩
        intro hslash
        exact ⟨fun hnext => hcomment ⟨hslash, .inl hnext⟩,
          fun hnext => hcomment ⟨hslash, .inr hnext⟩⟩
      rw [h hstop c rfl] at hpart
      cases hpart

/-- What starts with a sign of operators is an operator. -/
theorem Reads.of_isOperatorPart {c : Char} {text after : List Char} {token : Token}
    (h : token.Reads (c :: text) after) (hc : isOperatorPart c = true) :
    token = ofOperator (String.ofList (c :: text)) := by
  obtain ⟨first, rest, found, hparts, hfound, -, rfl⟩ := h
  cases hparts
  rw [isOperatorPart, List.contains_iff_mem] at hc
  simp only [List.mem_cons, List.not_mem_nil, or_false] at hc
  rcases hc with rfl | rfl | rfl | rfl | rfl | rfl | rfl | rfl | rfl | rfl | rfl | rfl | rfl | rfl
  all_goals
    cases hfound
    rfl

end Token

/-- No operator follows a name directly that leaves room for a type. -/
theorem Scanned.operatorRun_eq_zero {source before after : List Char} {flag : Bool}
    {tokens : List Placed} {finish name : Placed} (h : Scanned source flag before tokens finish)
    (hsource : source = before ++ after) (hstop : name.span.stop = Text.width before)
    (hroom : leavesRoom name (tokens.headD finish) = true) : Token.operatorRun after = 0 := by
  apply Token.operatorRun_eq_zero
  intro hnoGap
  cases h with
  | @finish _ _ gap _ hparts hgap _ =>
    obtain rfl : after = gap := List.append_cancel_left (hsource.symm.trans hparts)
    rw [Token.gapLength, hnoGap, Except.ok.injEq] at hgap
    rw [List.length_eq_zero_iff.1 hgap.symm]
    simp
  | @token _ _ gap text tail placed _ _ hparts hgap hsolid hreads hspan _ _ =>
    rw [List.append_assoc, List.append_assoc, hsource, List.append_cancel_left_eq] at hparts
    have hnil : gap = [] := by
      have hread := hgap 0 (text ++ tail)
      rw [← hparts, hnoGap, hsolid, Except.ok.injEq] at hread
      exact List.length_eq_zero_iff.1 (by omega)
    subst hnil
    obtain ⟨c, text, rfl⟩ := List.exists_cons_of_ne_nil hreads.ne_nil
    rw [hparts]
    rintro _ ⟨⟩
    -- an operator would not leave room, and neither would an `=` without a gap
    by_contra hpart
    have htoken := hreads.of_isOperatorPart (by simpa using hpart)
    have hstart : placed.span.start = name.span.stop := by
      rw [hspan, hstop, List.append_nil]
      rfl
    rw [Token.ofOperator] at htoken
    split at htoken
    · simp [leavesRoom, htoken, hstart] at hroom
    · simp [leavesRoom, htoken] at hroom

/-! ### Tokens with placeholders between -/

/-- The tokens of a source behind a place, and those of a second source, where placeholders
    stand behind the marked names and all else has moved. -/
inductive Grown (source source' : List Char) (finish finish' : Placed) (marked : Span → Prop) :
    Nat → List Char → List Char → List Placed → List Placed → Prop where
  | finish {shift : Nat} {before before' gap : List Char}
      (hsource : source = before ++ gap) (hsource' : source' = before' ++ gap)
      (hlength : before.length ≤ before'.length)
      (hshift : Text.width before' = Text.width before + shift)
      (hfinish : finish.Moved shift finish') :
      Grown source source' finish finish' marked shift before before' [] []
  | keep {shift : Nat} {before before' text : List Char} {placed placed' : Placed}
      {rest rest' : List Placed} (hmoved : placed.Moved shift placed')
      (hrest : Grown source source' finish finish' marked shift (before ++ text) (before' ++ text)
        rest rest') :
      Grown source source' finish finish' marked shift before before' (placed :: rest)
        (placed' :: rest')
  | mark {shift : Nat} {before before' gap text : List Char} {keyword keyword' name name' : Placed}
      {typing rest rest' : List Placed}
      (hkeyword : keyword.token = .name "let" ∨ keyword.token = .name "var")
      (hstart : keyword.span.start = Text.width (before ++ gap))
      (hkeyword' : keyword.Moved shift keyword')
      (hname : name.token.isName = true) (hmarked : marked name.span)
      (hstop : name.span.stop = Text.width (before ++ gap ++ text))
      (hname' : name.Moved shift name')
      (htyping : IsPlaceholder name'.span.stop typing)
      (hroom : leavesRoom name (rest.headD finish) = true)
      (hrest : Grown source source' finish finish' marked (shift + 10) (before ++ gap ++ text)
        (before' ++ gap ++ text ++ Text.placeholder) rest rest') :
      Grown source source' finish finish' marked shift before before' (keyword :: name :: rest)
        (keyword' :: name' :: (typing ++ rest'))

/-- A name that stands behind `let` or `var`, and behind which there is room for a type. -/
structure Pattern.Leads (pattern : Pattern) (finish keyword name : Placed) (back : List Placed) :
    Prop where
  keyword : keyword.token = .name "let" ∨ keyword.token = .name "var"
  token : name.token = .name pattern.name
  span : pattern.span = name.span
  room : leavesRoom name (back.headD finish) = true

def Pattern.Roomy (tokens : List Placed) (finish : Placed) (pattern : Pattern) : Prop :=
  ∃ front keyword name back, tokens = front ++ keyword :: name :: back ∧
    pattern.Leads finish keyword name back

namespace Pattern.Roomy

variable {source : List Char} {tokens rest : List Placed} {placed finish : Placed}
  {pattern : Pattern}

theorem uncons (h : pattern.Roomy (placed :: rest) finish) :
    (∃ name back, rest = name :: back ∧ pattern.Leads finish placed name back) ∨
      pattern.Roomy rest finish := by
  obtain ⟨front, keyword, name, back, htokens, hleads⟩ := h
  cases front with
  | nil =>
    cases htokens
    exact .inl ⟨name, back, rfl, hleads⟩
  | cons first front =>
    cases htokens
    exact .inr ⟨front, keyword, name, back, rfl, hleads⟩

/-- A token comes in front of the name. -/
theorem lt_start {low high : Nat} (h : pattern.Roomy tokens finish)
    (hlaid : Laid source low tokens high) : low < pattern.span.start := by
  obtain ⟨front, keyword, name, back, rfl, hleads⟩ := h
  rw [Laid.append_iff] at hlaid
  obtain ⟨hfront, hkeyword, hsits, hname, -⟩ := hlaid
  have hle := hfront.le
  have hlt := hsits.start_lt_stop
  rw [hleads.span]
  omega

end Pattern.Roomy

/-! ### Growing a source -/

theorem Text.width_placeholder : Text.width Text.placeholder = 10 := rfl

/-- A token is read behind a gap. -/
structure Placed.ReadAt (placed : Placed) (flag : Bool) (before gap text after : List Char) :
    Prop where
  isGap : Token.IsGap gap
  solid : Token.NoGap (text ++ after)
  reads : placed.token.Reads text after
  span : placed.span = Span.across (before ++ gap) text
  newline : placed.afterNewline = (flag || gap.contains '\n')

namespace Placed.ReadAt

variable {placed : Placed} {flag : Bool} {before before' gap text after after' : List Char}
  {shift : Nat}

/-- The same token is read further on, in front of another text. -/
theorem moved (h : placed.ReadAt flag before gap text after) (hstop : Token.NoGap (text ++ after'))
    (hreads : placed.token.Reads text after')
    (hshift : Text.width before' = Text.width before + shift) :
    ∃ placed', placed.Moved shift placed' ∧ placed'.ReadAt flag before' gap text after' := by
  refine ⟨⟨placed.token, Span.across (before' ++ gap) text, placed.afterNewline⟩,
    ⟨rfl, rfl, ?_, ?_⟩, ⟨h.isGap, hstop, hreads, rfl, h.newline⟩⟩
  all_goals
    simp only [h.span, Span.across, Text.width_append, hshift]
    omega

theorem moved_of_sameStart (h : placed.ReadAt flag before gap text after)
    (hstart : Token.SameStart after after')
    (hshift : Text.width before' = Text.width before + shift) :
    ∃ placed', placed.Moved shift placed' ∧ placed'.ReadAt flag before' gap text after' :=
  h.moved (h.solid.of_sameStart h.reads.ne_nil hstart.1) (h.reads.of_sameStart hstart) hshift

theorem scanned {source : List Char} {rest : List Placed} {finish : Placed}
    (h : placed.ReadAt flag before gap text after)
    (hsource : source = before ++ gap ++ text ++ after)
    (hrest : Scanned source (text.contains '\n') (before ++ gap ++ text) rest finish) :
    Scanned source flag before (placed :: rest) finish :=
  .token hsource h.isGap h.solid h.reads h.span h.newline hrest

/-- A name is read in front of a placeholder. -/
theorem moved_of_name {word : String} (h : placed.ReadAt flag before gap text after)
    (htoken : placed.token = .name word) (after' : List Char)
    (hshift : Text.width before' = Text.width before + shift) :
    ∃ placed', placed.Moved shift placed' ∧
      placed'.ReadAt flag before' gap text (Text.placeholder ++ after') := by
  have hreads := h.reads
  rw [htoken] at hreads
  obtain rfl : word.toList = text := hreads.spelling_eq
  refine h.moved ?_ ?_ hshift
  · obtain ⟨c, rest, htext⟩ := List.exists_cons_of_ne_nil hreads.ne_nil
    have hchar := hreads.name_char c (by rw [htext]; exact List.mem_cons_self)
    have hsolid := h.solid
    rw [htext, List.cons_append] at hsolid ⊢
    refine Token.noGap_cons_iff.2 ⟨hsolid.not_separator, ?_⟩
    rintro rfl
    exact absurd hchar (by decide)
  · rw [htoken, hreads.name_iff (by simp [Text.placeholder])]
    rintro - _ ⟨⟩
    decide

end Placed.ReadAt

/-- A source grows behind a place: it can be cut into tokens that are those of the first one
    with placeholders between, and it starts alike. -/
structure Grows (source source' : List Char) (finish : Placed) (marked : Span → Prop)
    (flag : Bool) (shift : Nat) (before before' after after' : List Char)
    (tokens : List Placed) : Prop where
  scanned : ∃ tokens' finish', Scanned source' flag before' tokens' finish' ∧
    Grown source source' finish finish' marked shift before before' tokens tokens'
  start : Token.SameStart after after'

namespace Grows

variable {source source' : List Char} {finish : Placed} {marked : Span → Prop} {flag : Bool}
  {shift : Nat} {before before' gap text after after' : List Char} {rest : List Placed}
  {placed : Placed}

/-- Where the tokens end. -/
theorem nil (hsource : source = before ++ gap) (hsource' : source' = before' ++ gap)
    (hgap : Token.gapLength gap = .ok gap.length)
    (hfinish : finish = ⟨.endOfInput, Span.across source [], flag || gap.contains '\n'⟩)
    (hlength : before.length ≤ before'.length)
    (hshift : Text.width before' = Text.width before + shift) :
    Grows source source' finish marked flag shift before before' gap gap [] := by
  refine ⟨⟨[], _, .finish hsource' hgap rfl, .finish hsource hsource' hlength hshift ?_⟩, .refl _⟩
  subst hfinish
  have hwidth : Text.width source' = Text.width source + shift := by
    rw [hsource, hsource', Text.width_append, Text.width_append, hshift]
    omega
  exact ⟨rfl, rfl, hwidth, by simpa [Span.across] using hwidth⟩

/-- A token that gets no type behind it. -/
theorem keep (h : Grows source source' finish marked (text.contains '\n') shift
      (before ++ gap ++ text) (before' ++ gap ++ text) after after' rest)
    (hsource' : source' = before' ++ gap ++ text ++ after')
    (hread : placed.ReadAt flag before gap text after)
    (hshift : Text.width before' = Text.width before + shift) :
    Grows source source' finish marked flag shift before before' (gap ++ text ++ after)
      (gap ++ text ++ after') (placed :: rest) := by
  obtain ⟨⟨rest', finish', hscanned, hgrown⟩, hstart⟩ := h
  obtain ⟨placed', hmoved, hread'⟩ := hread.moved_of_sameStart hstart hshift
  rw [List.append_assoc before, List.append_assoc before'] at hgrown
  refine ⟨⟨placed' :: rest', finish', hread'.scanned hsource' hscanned, .keep hmoved hgrown⟩, ?_⟩
  exact .append (by simp [hread.reads.ne_nil]) fun _ => hstart.1

/-- A name that gets a type behind it, and the keyword in front of it. -/
theorem mark {keyword name : Placed} {pattern : Pattern} {space word : List Char}
    (h : Grows source source' finish marked (word.contains '\n') (shift + 10)
      (before ++ gap ++ text ++ space ++ word)
      (before' ++ gap ++ text ++ space ++ word ++ Text.placeholder) after after' rest)
    (hsource : source = before ++ gap ++ text ++ space ++ word ++ after)
    (hsource' : source' = before' ++ gap ++ text ++ space ++ word ++ Text.placeholder ++ after')
    (hscanned : Scanned source (word.contains '\n') (before ++ gap ++ text ++ space ++ word) rest
      finish)
    (hkeyword : keyword.ReadAt flag before gap text (space ++ word ++ after))
    (hname : name.ReadAt (text.contains '\n') (before ++ gap ++ text) space word after)
    (hleads : pattern.Leads finish keyword name rest) (hmarked : marked name.span)
    (hshift : Text.width before' = Text.width before + shift) :
    Grows source source' finish marked flag shift before before'
      (gap ++ text ++ (space ++ word ++ after))
      (gap ++ text ++ (space ++ word ++ (Text.placeholder ++ after')))
      (keyword :: name :: rest) := by
  obtain ⟨⟨rest', finish', hrest, hgrown⟩, hstart⟩ := h
  have hreads := hname.reads
  rw [hleads.token] at hreads
  have hword := hreads.spelling_eq
  have hchar : ∀ c ∈ word, (Token.isNamePart c || Token.isNameStart c || c == '\x60' ||
      c == '#') = true := by
    rw [← hword] at hreads ⊢
    exact hreads.name_char
  have hstop : name.span.stop = Text.width (before ++ gap ++ text ++ space ++ word) := by
    rw [hname.span, Text.width_append _ word]
    rfl
  -- the placeholder is read for itself, since no operator follows the name
  have hoperator := hscanned.operatorRun_eq_zero hsource hstop hleads.room
  have hoperator' : Token.operatorRun after' = 0 :=
    Token.operatorRun_append_congr (w := []) hoperator hstart.noFurther
  have hline : word.contains '\n' = false := by
    rw [← Bool.not_eq_true, List.contains_iff_mem]
    exact fun hmem => absurd (hchar _ hmem) (by decide)
  rw [hline] at hrest
  obtain ⟨typing, htyping, hrest⟩ := hrest.placeholder hsource' hoperator'
  -- the name and its keyword are read as before
  have hwidth : Text.width (before' ++ gap ++ text) =
      Text.width (before ++ gap ++ text) + shift := by
    simp only [Text.width_append, hshift]
    omega
  obtain ⟨name', hmoved, hname'⟩ := hname.moved_of_name hleads.token after' hwidth
  have hstart' : Token.SameStart (space ++ word ++ after)
      (space ++ word ++ (Text.placeholder ++ after')) := by
    refine .append (by simp [hname.reads.ne_nil]) ?_
    -- no name is a slash or a point
    have hno : ∀ c, c = '/' ∨ c = '.' → space ++ word ≠ [c] := by
      intro c hc hsign
      rcases List.append_eq_singleton_iff.1 hsign with ⟨-, hword⟩ | ⟨-, hword⟩
      · have hsign := hchar c (by rw [hword]; exact List.mem_cons_self)
        rcases hc with rfl | rfl <;> exact absurd hsign (by decide)
      · exact hname.reads.ne_nil hword
    rintro (hslash | hpoint)
    · exact absurd hslash (hno _ (.inl rfl))
    · exact absurd hpoint (hno _ (.inr rfl))
  obtain ⟨keyword', hmoved', hkeyword'⟩ := hkeyword.moved_of_sameStart hstart' hshift
  refine ⟨⟨keyword' :: name' :: (typing ++ rest'), finish', ?_, ?_⟩, ?_⟩
  · refine hkeyword'.scanned (by simp [hsource']) (hname'.scanned (by simp [hsource']) ?_)
    rwa [hline]
  · have hbegin : keyword.span.start = Text.width (before ++ gap) := by
      rw [hkeyword.span]
      rfl
    have hgrown' : Grown source source' finish finish' marked (shift + 10)
        (before ++ gap ++ (text ++ space ++ word))
        (before' ++ gap ++ (text ++ space ++ word) ++ Text.placeholder) rest rest' := by
      simpa using hgrown
    have hstop' : name'.span.stop = Text.width (before' ++ gap ++ text ++ space ++ word) := by
      rw [hname'.span, Text.width_append _ word]
      rfl
    rw [← hstop'] at htyping
    exact .mark hleads.keyword hbegin hmoved' (by rw [hleads.token]; rfl) hmarked
      (by simpa using hstop) hmoved htyping hleads.room hgrown'
  · exact .append (by simp [hkeyword.reads.ne_nil]) fun _ => hstart'.1

end Grows

/-- The edits of a row put placeholders behind names among some tokens. -/
def TypesAmong (marked : Span → Prop) (finish : Placed) (chain : List Edit)
    (tokens : List Placed) : Prop :=
  ∀ edit ∈ chain, marked edit.span ∧
    ∃ pattern : Pattern, edit = pattern.typing ∧ pattern.Roomy tokens finish

namespace TypesAmong

variable {source : List Char} {marked : Span → Prop} {finish placed : Placed}
  {edit : Edit} {chain : List Edit} {rest : List Placed} {low high : Nat}

/-- Either the first edit belongs to the first two tokens, or none does. -/
theorem uncons (h : TypesAmong marked finish chain (placed :: rest))
    (hapart : Edit.Apart source chain) (hlaid : Laid source low (placed :: rest) high) :
    (∃ (pattern : Pattern) (name : Placed) (back : List Placed) (edits : List Edit),
      chain = pattern.typing :: edits ∧ rest = name :: back ∧
      pattern.Leads finish placed name back ∧ marked name.span ∧
      TypesAmong marked finish edits back) ∨
    TypesAmong marked finish chain rest := by
  cases chain with
  | nil => exact .inr (by simp [TypesAmong])
  | cons first edits =>
    obtain ⟨hfirst, hedits⟩ := List.forall_mem_cons.1 h
    have hbehind := (List.pairwise_cons.1 hapart.inOrder).1
    obtain ⟨hmarked, pattern, rfl, hroomy⟩ := hfirst
    rcases hroomy.uncons with ⟨name, back, rfl, hleads⟩ | hroomy
    · refine .inl ⟨pattern, name, back, edits, rfl, rfl, hleads, hleads.span ▸ hmarked, ?_⟩
      intro edit hedit
      obtain ⟨hmarked, other, rfl, hother⟩ := hedits edit hedit
      refine ⟨hmarked, other, rfl, ?_⟩
      have hlt : pattern.span.start < other.span.start := (hbehind _ hedit).2
      rw [hleads.span] at hlt
      rcases hother.uncons with ⟨_, _, heq, hleads'⟩ | hother
      · -- another edit of the same name
        cases heq
        rw [hleads'.span] at hlt
        exact absurd hlt (Nat.lt_irrefl _)
      · rcases hother.uncons with ⟨_, _, rfl, hleads'⟩ | hother
        · -- the name would be a keyword
          have hroom := hleads.room
          rcases hleads'.keyword with hword | hword <;> simp [leavesRoom, hword] at hroom
        · exact hother
    · refine .inr (List.forall_mem_cons.2 ⟨⟨hmarked, pattern, rfl, hroomy⟩, ?_⟩)
      intro edit hedit
      obtain ⟨hmarked, other, rfl, hother⟩ := hedits edit hedit
      refine ⟨hmarked, other, rfl, ?_⟩
      rcases hother.uncons with ⟨name, back, rfl, hleads⟩ | hother
      · -- the first edit would come behind this one
        have hlt : pattern.span.start < other.span.start := (hbehind _ hedit).2
        have hname : Laid source name.span.start (name :: back) high :=
          ⟨Nat.le_refl _, hlaid.2.2.2⟩
        have hlt' := hroomy.lt_start hname
        rw [hleads.span] at hlt
        omega
      · exact hother

/-- All edits come behind what stands in front of the tokens. -/
theorem le_start (h : TypesAmong marked finish chain rest) (hlaid : Laid source low rest high) :
    ∀ edit ∈ chain, low ≤ edit.span.start := by
  intro edit hedit
  obtain ⟨-, pattern, rfl, hroomy⟩ := h edit hedit
  exact Nat.le_of_lt (hroomy.lt_start hlaid)

end TypesAmong

/-- What an edit of a row puts behind a name. -/
theorem Edit.splice_typing {source before text word after : List Char} {pattern : Pattern}
    (edits : List Edit) (hsource : source = before ++ text ++ word ++ after)
    (hspan : pattern.span = Span.across (before ++ text) word)
    (hword : pattern.name.toList = word) :
    splice source (Text.width before) (pattern.typing :: edits) =
      text ++ word ++
        (Text.placeholder ++ splice source (Text.width (before ++ text ++ word)) edits) := by
  have hslice : Text.slice source (Text.width before) (Text.width (before ++ text)) = text := by
    rw [hsource, List.append_assoc, List.append_assoc, ← List.append_assoc]
    exact Text.slice_append rfl (Text.width_append _ _).symm
  have hstart : pattern.typing.span.start = Text.width (before ++ text) := by
    rw [Pattern.typing, hspan]
    rfl
  have hstop : pattern.typing.span.stop = Text.width (before ++ text ++ word) := by
    rw [Pattern.typing, hspan, Text.width_append _ word]
    rfl
  have hreplacement : pattern.typing.replacement.toList = word ++ Text.placeholder := by
    rw [Pattern.typing, String.toList_append, hword]
    rfl
  rw [splice, hstart, hstop, hslice, hreplacement]
  simp

/-- Placeholders behind names that leave room for them change no other token. -/
theorem Scanned.grows {source source' before before' after : List Char} {flag : Bool}
    {tokens : List Placed} {finish : Placed} {chain : List Edit} {marked : Span → Prop}
    {shift : Nat} (h : Scanned source flag before tokens finish)
    (hsource : source = before ++ after) (hapart : Edit.Apart source chain)
    (hchain : TypesAmong marked finish chain tokens)
    (hsource' : source' = before' ++ Edit.splice source (Text.width before) chain)
    (hlength : before.length ≤ before'.length)
    (hshift : Text.width before' = Text.width before + shift) :
    Grows source source' finish marked flag shift before before' after
      (Edit.splice source (Text.width before) chain) tokens := by
  generalize hn : tokens.length = n
  induction n using Nat.strong_induction_on
    generalizing flag before before' after tokens chain shift with
  | _ n ih =>
  have hlaid := h.laid
  cases h with
  | @finish _ _ gap _ hparts hgap hplaced =>
    obtain rfl : after = gap := List.append_cancel_left (hsource.symm.trans hparts)
    have hnil : chain = [] := by
      apply List.eq_nil_iff_forall_not_mem.2
      intro edit hedit
      obtain ⟨-, pattern, -, front, keyword, name, back, htokens, -⟩ := hchain edit hedit
      simp at htokens
    subst hnil
    rw [Edit.splice_nil hsource] at hsource' ⊢
    exact .nil hsource hsource' hgap hplaced hlength hshift
  | @token _ _ gap text tail placed _ rest hparts hgap hstop hreads hspan hflag hrest =>
    obtain rfl : after = gap ++ text ++ tail := by
      apply List.append_cancel_left (hsource.symm.trans _)
      rw [hparts]
      simp
    rcases hchain.uncons hapart hlaid with
      ⟨pattern, name, back, edits, rfl, rfl, hleads, hmarked, hedits⟩ | hkept
    · cases hrest with
      | @token _ _ space word tail' _ _ _ hparts' hgap' hstop' hreads' hspan' hflag' hrest =>
        have htail : tail = space ++ word ++ tail' := by
          apply List.append_cancel_left (hparts.symm.trans _)
          rw [hparts']
          simp
        subst htail
        have hword : pattern.name.toList = word := by
          rw [hleads.token] at hreads'
          exact hreads'.spelling_eq
        have hnamed : source = before ++ (gap ++ text ++ space) ++ word ++ tail' := by
          simpa using hparts'
        have hsplice : Edit.splice source (Text.width before) (pattern.typing :: edits) =
            gap ++ text ++ (space ++ word ++ (Text.placeholder ++ Edit.splice source
              (Text.width (before ++ gap ++ text ++ space ++ word)) edits)) := by
          rw [Edit.splice_typing edits hnamed (by simpa using hleads.span.trans hspan') hword]
          simp
        have htyped : source' = before' ++ gap ++ text ++ space ++ word ++ Text.placeholder ++
            Edit.splice source (Text.width (before ++ gap ++ text ++ space ++ word)) edits := by
          rw [hsource', hsplice]
          simp
        have hback : back.length < n := by
          rw [← hn, List.length_cons, List.length_cons]
          omega
        have hwidth : Text.width (before' ++ gap ++ text ++ space ++ word ++ Text.placeholder) =
            Text.width (before ++ gap ++ text ++ space ++ word) + (shift + 10) := by
          simp only [Text.width_append, Text.width_placeholder, hshift]
          omega
        have hgrows := ih back.length hback hrest hparts' hapart.uncons.1 hedits htyped
          (by simp only [List.length_append]; omega) hwidth rfl
        rw [hsplice]
        exact hgrows.mark hparts' htyped hrest ⟨hgap, hstop, hreads, hspan, hflag⟩
          ⟨hgap', hstop', hreads', hspan', hflag'⟩ hleads hmarked hshift
    · have hkeep : source = before ++ (gap ++ text) ++ tail := by simpa using hparts
      have hsplice : Edit.splice source (Text.width before) chain =
          gap ++ text ++ Edit.splice source (Text.width (before ++ gap ++ text)) chain := by
        rw [Edit.splice_append hkeep (by simpa using hkept.le_start hrest.laid),
          ← List.append_assoc before]
      have hkept' : source' = before' ++ gap ++ text ++
          Edit.splice source (Text.width (before ++ gap ++ text)) chain := by
        rw [hsource', hsplice]
        simp
      have hrestLength : rest.length < n := by
        rw [← hn, List.length_cons]
        omega
      have hwidth : Text.width (before' ++ gap ++ text) =
          Text.width (before ++ gap ++ text) + shift := by
        simp only [Text.width_append, hshift]
        omega
      have hgrows := ih rest.length hrestLength hrest hparts hapart hkept hkept'
        (by simp only [List.length_append]; omega) hwidth rfl
      rw [hsplice]
      exact hgrows.keep hkept' ⟨hgap, hstop, hreads, hspan, hflag⟩ hshift

/-! ### Stretches between placeholders -/

theorem Text.takeBytes_append_left {a b : List Char} {n : Nat} (h : n ≤ width a) :
    takeBytes n (a ++ b) = takeBytes n a := by
  induction a generalizing n with
  | nil =>
    obtain rfl : n = 0 := Nat.le_zero.1 h
    rw [takeBytes_zero, takeBytes_zero]
  | cons c a ih =>
    cases n with
    | zero => rw [takeBytes_zero, takeBytes_zero]
    | succ n =>
      rw [width_cons] at h
      rw [List.cons_append, takeBytes, takeBytes, ih (by omega)]

/-- A text that two sources share reads the same in both. -/
theorem sourceText_shared {source source' low low' text after after' : List Char}
    {shift start stop : Nat} (hsource : source = low ++ text ++ after)
    (hsource' : source' = low' ++ text ++ after')
    (hshift : Text.width low' = Text.width low + shift) (hstart : Text.width low ≤ start)
    (hbound : Text.isBoundary start source = true) (hstop : stop ≤ Text.width (low ++ text)) :
    sourceText source' (start + shift) (stop + shift) = sourceText source start stop := by
  rw [sourceText, sourceText, Text.slice, Text.slice, Nat.add_sub_add_right]
  by_cases hle : stop ≤ start
  · rw [Nat.sub_eq_zero_of_le hle, Text.takeBytes_zero, Text.takeBytes_zero]
  · obtain ⟨a, b, hab, rfl⟩ := Text.exists_append_of_isBoundary hbound
    rw [List.append_assoc] at hsource
    obtain ⟨front, rfl, hb⟩ :=
      Text.exists_append_of_width_le (hsource.symm.trans hab) hstart
    simp only [Text.width_append] at hle hstop
    obtain ⟨back, rfl, rfl⟩ := Text.exists_append_of_width_le hb.symm (by omega)
    have hmoved : Text.width (low ++ front) + shift = Text.width (low' ++ front) := by
      rw [Text.width_append, Text.width_append, hshift]
      omega
    rw [Text.width_append] at hstop
    have hroom : stop - Text.width (low ++ front) ≤ Text.width back := by
      rw [Text.width_append]
      omega
    rw [hmoved, hab, hsource', Text.dropBytes_width_append, ← List.append_assoc,
      List.append_assoc, Text.dropBytes_width_append, Text.takeBytes_append_left hroom,
      Text.takeBytes_append_left hroom]

namespace Grown

variable {source source' : List Char} {finish finish' : Placed} {marked : Span → Prop}
  {shift : Nat} {before before' : List Char} {tokens tokens' : List Placed}

theorem width_eq (h : Grown source source' finish finish' marked shift before before' tokens
      tokens') : Text.width before' = Text.width before + shift := by
  induction h with
  | finish _ _ _ hshift _ => exact hshift
  | keep _ _ ih =>
    simp only [Text.width_append] at ih
    omega
  | mark _ _ _ _ _ _ _ _ _ _ ih =>
    simp only [Text.width_append, Text.width_placeholder] at ih
    omega

theorem source_eq (h : Grown source source' finish finish' marked shift before before' tokens
      tokens') : ∃ after after', source = before ++ after ∧ source' = before' ++ after' := by
  induction h with
  | finish hsource hsource' _ _ _ => exact ⟨_, _, hsource, hsource'⟩
  | keep _ _ ih =>
    obtain ⟨after, after', rfl, rfl⟩ := ih
    exact ⟨_, _, List.append_assoc .., List.append_assoc ..⟩
  | mark _ _ _ _ _ _ _ _ _ _ ih =>
    obtain ⟨after, after', rfl, rfl⟩ := ih
    exact ⟨_, _, by simp only [List.append_assoc]; rfl, by simp only [List.append_assoc]; rfl⟩

theorem length_le (h : Grown source source' finish finish' marked shift before before' tokens
      tokens') : source.length ≤ source'.length := by
  induction h with
  | finish hsource hsource' hlength _ _ =>
    rw [hsource, hsource', List.length_append, List.length_append]
    omega
  | keep _ _ ih => exact ih
  | mark _ _ _ _ _ _ _ _ _ _ ih => exact ih

end Grown

namespace Stretch

variable {source source' : List Char} {finish finish' : Placed}

def ofShared {low low' text after after' : List Char} {shift : Nat} {behind behind' : List Placed}
    (hsource : source = low ++ text ++ after) (hsource' : source' = low' ++ text ++ after')
    (hshift : Text.width low' = Text.width low + shift)
    (ahead : Ahead shift finish finish' 2 behind behind')
    (whole : ∀ placed ∈ behind.head?, splitEquals? placed = none)
    (hbehind : (behind.headD finish).span.start = Text.width (low ++ text))
    (longer : source.length ≤ source'.length) : Stretch source source' finish finish' where
  shift := shift
  behind := behind
  behind' := behind'
  ahead := ahead
  whole := whole
  low := Text.width low
  text := fun _ _ hstart hbound hstop =>
    sourceText_shared hsource hsource' hshift hstart hbound (hbehind ▸ hstop)
  longer := longer

/-- A stretch ends at the end of input, or in front of a name that gets a type, and then the
    two sources go on behind the placeholder. -/
inductive Ends (marked : Span → Prop) (all all' : List Placed)
    (stretch : Stretch source source' finish finish') : Prop where
  | finish (hbehind : stretch.behind = [])
  | mark {keyword keyword' name name' : Placed} {typing rest rest' front front' : List Placed}
      {before before' : List Char}
      (hbehind : stretch.behind = keyword :: name :: rest)
      (hbehind' : stretch.behind' = keyword' :: name' :: (typing ++ rest'))
      (hkeyword : keyword.token = .name "let" ∨ keyword.token = .name "var")
      (hname : name.token.isName = true) (hmarked : marked name.span)
      (hname' : name.Moved stretch.shift name') (htyping : IsPlaceholder name'.span.stop typing)
      (hroom : leavesRoom name (rest.headD finish) = true)
      (hstop : name.span.stop = Text.width before)
      (hrest : Grown source source' finish finish' marked (stretch.shift + 10) before before'
        rest rest')
      (hall : all = front ++ name :: rest) (hall' : all' = front' ++ rest')

/-- A token that ends in a stretch stands further on in the second source, together with
    the token behind it. -/
def Pairs (all all' : List Placed) (stretch : Stretch source source' finish finish') : Prop :=
  ∀ front placed back, all = front ++ placed :: back → stretch.low < placed.span.stop →
    placed.span.stop ≤ (stretch.behind.headD finish).span.start →
    ∃ front' placed' back', all' = front' ++ placed' :: back' ∧
      placed.Moved stretch.shift placed' ∧
      (back.headD finish).Moved stretch.shift (back'.headD finish')

end Stretch

namespace Grown

variable {source source' : List Char} {finish finish' : Placed} {marked : Span → Prop}
  {shift : Nat} {before before' low low' text : List Char}
  {all all' front front' tokens tokens' : List Placed}

/-- The stretch up to the next placeholder. -/
theorem exists_alike (h : Grown source source' finish finish' marked shift before before' tokens
      tokens') (hlow : before = low ++ text) (hlow' : before' = low' ++ text)
    {start stop : Nat} (hlaid : Laid source start tokens stop)
    (hfinish : finish.span.start = Text.width source) (hall : all = front ++ tokens)
    (hall' : all' = front' ++ tokens') :
    ∃ stretch : Stretch source source' finish finish', stretch.shift = shift ∧
      stretch.low = Text.width low ∧ stretch.Alike tokens tokens' ∧
      stretch.Ends marked all all' ∧
      ∀ front placed back, tokens = front ++ placed :: back →
        placed.span.stop ≤ (stretch.behind.headD finish).span.start →
        ∃ front' placed' back', tokens' = front' ++ placed' :: back' ∧
          placed.Moved stretch.shift placed' ∧
          (back.headD finish).Moved stretch.shift (back'.headD finish') := by
  have hlonger := h.length_le
  have hwidth : Text.width low' = Text.width low + shift := by
    have hwidth := h.width_eq
    rw [hlow, hlow', Text.width_append, Text.width_append] at hwidth
    omega
  induction h generalizing text front front' start with
  | @finish shift before before' gap hsource hsource' _ _ hmoved =>
    subst hlow hlow'
    have hparts : source = low ++ (text ++ gap) ++ [] := by simpa using hsource
    have hparts' : source' = low' ++ (text ++ gap) ++ [] := by simpa using hsource'
    have hend : finish.span.start = Text.width (low ++ (text ++ gap)) := by
      rw [hfinish, hsource, List.append_assoc]
    refine ⟨.ofShared hparts hparts' hwidth (.nil hmoved) (by simp) hend hlonger, rfl, rfl,
      .behind, .finish rfl, ?_⟩
    intro front placed back htokens
    simp at htokens
  | @keep shift before before' more placed placed' rest rest' hmoved hrest ih =>
    subst hlow hlow'
    obtain ⟨stretch, hshift, hlow, halike, hends, hpairs⟩ := ih (List.append_assoc ..)
      (List.append_assoc ..) hlaid.2.2 (by rw [hall, List.append_cons])
      (by rw [hall', List.append_cons]) hwidth
    rw [← hshift] at hmoved
    refine ⟨stretch, hshift, hlow, .cons hmoved halike, hends, ?_⟩
    intro front one back htokens hle
    cases front with
    | nil =>
      cases htokens
      exact ⟨[], placed', rest', rfl, hmoved, halike.ahead.headD⟩
    | cons first front =>
      cases htokens
      obtain ⟨front', one', back', rfl, hone, hback⟩ := hpairs front one back rfl hle
      exact ⟨placed' :: front', one', back', rfl, hone, hback⟩
  | @mark shift before before' gap more keyword keyword' name name' typing rest rest' hkeyword
      hstart hkeyword' hname hmarked hstop hname' htyping hroom hrest ih =>
    subst hlow hlow'
    obtain ⟨after, after', hsource, hsource'⟩ := hrest.source_eq
    have hparts : source = low ++ (text ++ gap) ++ (more ++ after) := by simpa using hsource
    have hparts' : source' = low' ++ (text ++ gap) ++ (more ++ Text.placeholder ++ after') := by
      simpa using hsource'
    have hwhole : splitEquals? keyword = none := by
      unfold splitEquals?
      rcases hkeyword with hword | hword <;> rw [hword]
    have hrestAll : all = front ++ [keyword] ++ name :: rest := by simp [hall]
    have hrestAll' : all' = front' ++ keyword' :: name' :: typing ++ rest' := by simp [hall']
    refine ⟨.ofShared hparts hparts' hwidth (.cons hkeyword' (.cons hname' .far))
      (by simpa using hwhole) (by simpa using hstart) hlonger, rfl, rfl, .behind,
      .mark rfl rfl hkeyword hname hmarked hname' htyping hroom hstop hrest hrestAll hrestAll', ?_⟩
    -- no token of the rest ends in front of the keyword
    intro front placed back htokens hle
    have hlaid' : Laid source keyword.span.start (keyword :: name :: rest) stop :=
      ⟨Nat.le_refl _, hlaid.2⟩
    have hmem : placed ∈ keyword :: name :: rest := by
      rw [htokens]
      simp
    have hlt := (hlaid.sits hmem).start_lt_stop
    have hle' := hlaid'.le_start hmem
    have hbehind : placed.span.stop ≤ keyword.span.start := hle
    omega

/-- From a place on, the two sources have a stretch in common. -/
theorem exists_stretch (h : Grown source source' finish finish' marked shift before before' tokens
      tokens') (hlaid : Laid source 0 all (Text.width source))
    (hfinish : finish.span.start = Text.width source) (hall : all = front ++ tokens)
    (hfront : endOf 0 front ≤ Text.width before) (hall' : all' = front' ++ tokens') :
    ∃ stretch : Stretch source source' finish finish', stretch.shift = shift ∧
      stretch.low = Text.width before ∧ stretch.Alike tokens tokens' ∧
      stretch.Ends marked all all' ∧ stretch.Pairs all all' := by
  rw [hall, Laid.append_iff] at hlaid
  obtain ⟨stretch, hshift, hlow, halike, hends, hpairs⟩ := h.exists_alike
    (List.append_nil _).symm (List.append_nil _).symm hlaid.2 hfinish hall hall'
  refine ⟨stretch, hshift, hlow, halike, hends, ?_⟩
  intro left placed back hparts hbehind hle
  rw [hall] at hparts
  rcases List.append_eq_append_iff.1 hparts with ⟨middle, rfl, htokens⟩ | ⟨middle, rfl, hplaced⟩
  · obtain ⟨left', placed', back', rfl, hmoved, hnext⟩ := hpairs middle placed back htokens hle
    exact ⟨front' ++ left', placed', back', by rw [hall', List.append_assoc], hmoved, hnext⟩
  · cases middle with
    | nil =>
      obtain ⟨left', placed', back', rfl, hmoved, hnext⟩ := hpairs [] placed back hplaced.symm hle
      exact ⟨front' ++ left', placed', back', by rw [hall', List.append_assoc], hmoved, hnext⟩
    | cons first middle =>
      -- what stands in front of the place ends there at the latest
      cases hplaced
      have hmem : placed ∈ left ++ placed :: middle := by simp
      have hstop := hlaid.1.stop_le hmem
      omega

end Grown

end Memberwise
