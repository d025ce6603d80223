/-
  Memberwise/Proofs/Annotations.lean
  ==================================
  **Types are taken whole and as they are written.**

  A type is not taken apart when it is read: its tokens are a run, and brackets tell where
  the run ends.  Angle brackets are no tokens of their own.  They run together with each
  other, with the signs of optionals, and with an `=` behind the type, so that `?>=` is one
  token of `A<B?>=`, and the tokens of a type are not made of those of its parts.

  So a type is taken for a body, which ends with a name or a bracket, and signs behind it,
  which are part of a longer operator (`PassedAs`).  If the run gets to its end from behind
  the body, with the brackets open there that the signs are to close, it gets there from in
  front of the body as well.  The body of a type is put together from its parts, and the
  signs of a part are closed off by the next token or handed on to the whole.
-/
import Memberwise.Proofs.Literals

namespace Memberwise

/-! ### Texts of types -/

def TypeText.listed (parts : List (List Char)) : List Char := [',', ' '].intercalate parts

/-- The texts of types.  A name is anything that is a name by itself, but for the word that
    ends types; members and arguments can stand behind any type. -/
inductive TypeText : List Char → Prop where
  | name {word : String} (hname : (Token.name word).IsAll word) (hword : word ≠ "where") :
      TypeText word.toList
  | member {base : List Char} {word : String} (hbase : TypeText base)
      (hname : (Token.name word).IsAll word) (hword : word ≠ "where") :
      TypeText (base ++ '.' :: word.toList)
  | optional {base : List Char} (hbase : TypeText base) : TypeText (base ++ ['?'])
  | unwrapped {base : List Char} (hbase : TypeText base) : TypeText (base ++ ['!'])
  | array {element : List Char} (helement : TypeText element) :
      TypeText ('[' :: element ++ [']'])
  | dictionary {key value : List Char} (hkey : TypeText key) (hvalue : TypeText value) :
      TypeText ('[' :: (key ++ [':', ' '] ++ value) ++ [']'])
  | tuple {parts : List (List Char)} (hparts : ∀ part ∈ parts, TypeText part) :
      TypeText ('(' :: TypeText.listed parts ++ [')'])
  | generic {base : List Char} {arguments : List (List Char)} (hbase : TypeText base)
      (harguments : ∀ argument ∈ arguments, TypeText argument) (hne : arguments ≠ []) :
      TypeText (base ++ '<' :: TypeText.listed arguments ++ ['>'])
  | function {parameters : List (List Char)} {result : List Char}
      (hparameters : ∀ parameter ∈ parameters, TypeText parameter) (hresult : TypeText result) :
      TypeText ('(' :: TypeText.listed parameters ++ [')'] ++ " -> ".toList ++ result)

/-! ### Names and operators -/

namespace Token

/-- What a text can start with that is neither a gap nor an operator. -/
def Plain (c : Char) : Prop := isOperatorPart c = false ∧ isSeparator c = false

instance (c : Char) : Decidable (Plain c) := inferInstanceAs (Decidable (_ ∧ _))

theorem Plain.noGap {c : Char} (h : Plain c) (rest : List Char) : NoGap (c :: rest) := by
  refine noGap_of_ne ⟨h.2, ?_⟩ rest
  rintro rfl
  exact absurd h.1 (by decide)

/-- What comes behind a name and is no part of it. -/
def EndsName (after : List Char) : Prop :=
  ∀ c ∈ after.head?, isNamePart c = false ∧ c ≠ '\x60'

theorem EndsName.cons {c : Char} (hc : isNamePart c = false ∧ c ≠ '\x60') (rest : List Char) :
    EndsName (c :: rest) := by
  rintro d ⟨⟩
  exact hc

/-- The first character of a name. -/
theorem IsAll.exists_plain {word : String} (h : (name word).IsAll word) :
    ∃ c rest, word.toList = c :: rest ∧ Plain c ∧ c ≠ '.' := by
  obtain ⟨hreads, hstop⟩ := h.stands rfl [] .nil
  obtain ⟨c, rest, hword⟩ := List.exists_cons_of_ne_nil hreads.ne_nil
  have hchar := hreads.name_char c (by rw [hword]; exact List.mem_cons_self)
  rw [hword] at hstop
  refine ⟨c, rest, hword, ⟨?_, hstop.not_separator⟩, ?_⟩
  · by_contra hpart
    rw [hword] at hreads
    have htoken := hreads.of_isOperatorPart (by simpa using hpart)
    rw [ofOperator] at htoken
    split at htoken <;> cases htoken
  · rintro rfl
    exact absurd hchar (by decide)

theorem IsAll.reads {word : String} (h : (name word).IsAll word) {after : List Char}
    (hafter : EndsName after) : (name word).Reads word.toList after := by
  obtain ⟨hreads, -⟩ := h.stands rfl [] .nil
  refine (hreads.name_iff ?_).2 fun _ c hc => (hafter c hc).1
  intro hc
  exact (hafter _ hc).2 rfl

theorem operatorRun_of_not_isOperatorPart {c : Char} (hc : isOperatorPart c = false)
    (rest : List Char) : operatorRun (c :: rest) = 0 := by
  rw [operatorRun_cons, hc]
  simp

theorem operatorRun_append {word after : List Char}
    (hword : ∀ c ∈ word, isOperatorPart c = true ∧ c ≠ '/') (hafter : operatorRun after = 0) :
    operatorRun (word ++ after) = word.length := by
  induction word with
  | nil => exact hafter
  | cons c word ih =>
    rw [List.forall_mem_cons] at hword
    rw [List.cons_append, operatorRun_cons, if_neg (fun h => hword.1.2 h.1), if_pos hword.1.1,
      ih hword.2, List.length_cons]

/-- A run of operator characters without a slash is one token. -/
theorem reads_operator (word after : List Char) (hne : word ≠ [])
    (hword : ∀ c ∈ word, isOperatorPart c = true ∧ c ≠ '/') (hafter : operatorRun after = 0) :
    (ofOperator (String.ofList word)).Reads word after ∧ NoGap (word ++ after) := by
  obtain ⟨c, word, rfl⟩ := List.exists_cons_of_ne_nil hne
  have hrun := operatorRun_append (List.forall_mem_cons.1 hword).2 hafter
  obtain ⟨hpart, hslash⟩ := hword c List.mem_cons_self
  rw [isOperatorPart, List.contains_iff_mem] at hpart
  simp only [List.mem_cons, List.not_mem_nil, or_false] at hpart
  obtain ⟨hlexeme, hsep⟩ : lexeme c (word ++ after) =
      .ok ⟨ofOperator, 1 + operatorRun (word ++ after)⟩ ∧ isSeparator c = false := by
    rcases hpart with rfl | rfl | rfl | rfl | rfl | rfl | rfl | rfl | rfl | rfl | rfl | rfl | rfl |
      rfl <;> exact ⟨rfl, rfl⟩
  refine ⟨⟨c, word ++ after, _, rfl, hlexeme, ?_, rfl⟩, noGap_of_ne ⟨hsep, hslash⟩ _⟩
  simp only [hrun, List.length_cons]
  omega

end Token

/-! ### Signs -/

/-- Signs behind a type: those of optionals, and closing angle brackets. -/
def TypeText.Signs (signs : List Char) : Prop := ∀ c ∈ signs, c ∈ ['?', '!', '>']

theorem TypeText.Signs.nil : Signs [] := List.forall_mem_nil _

theorem TypeText.Signs.concat {signs : List Char} {c : Char} (h : Signs signs)
    (hc : c ∈ ['?', '!', '>']) : Signs (signs ++ [c]) :=
  List.forall_mem_append.2 ⟨h, by simpa using hc⟩

theorem TypeText.Signs.subset {signs : List Char} (h : Signs signs) :
    ∀ c ∈ signs, c ∈ ['?', '!', '<', '>'] := by
  intro c hc
  have hsign := h c hc
  simp only [List.mem_cons, List.not_mem_nil, or_false] at hsign ⊢
  tauto

theorem TypeText.Signs.count_open {signs : List Char} (h : Signs signs) : signs.count '<' = 0 := by
  rw [List.count_eq_zero]
  intro hmem
  exact absurd (h _ hmem) (by decide)

theorem TypeText.isOperatorPart_of_mem {c : Char} (hc : c ∈ ['?', '!', '<', '>']) :
    Token.isOperatorPart c = true ∧ c ≠ '/' := by
  simp only [List.mem_cons, List.not_mem_nil, or_false] at hc
  rcases hc with rfl | rfl | rfl | rfl <;> decide

/-- An operator that is made of signs is no other operator. -/
theorem TypeText.ofList_ne {word : List Char} (hword : ∀ c ∈ word, c ∈ ['?', '!', '<', '>'])
    {c : Char} {other : String} (hc : c ∈ other.toList) (hsign : c ∉ ['?', '!', '<', '>']) :
    String.ofList word ≠ other := by
  rintro rfl
  rw [String.toList_ofList] at hc
  exact hsign (hword c hc)

theorem typeDepth_signs {word : List Char} (hword : ∀ c ∈ word, c ∈ ['?', '!', '<', '>'])
    (depth : Nat) : typeDepth (.operator (String.ofList word)) depth =
      depth + word.count '<' - word.count '>' := by
  have harrow : String.ofList word ≠ "->" :=
    TypeText.ofList_ne hword (c := '-') (by decide) (by decide)
  rw [typeDepth, if_neg harrow, angleDepth, charCount, charCount, String.toList_ofList]

/-! ### Where the run of a type ends -/

/-- Where the run of a type is to end: in which source, in front of which tokens, and at
    which offset. -/
structure TypeEnd where
  source : List Char
  finish : Placed
  left : List Placed
  stop : Nat

/-- The run of a type that goes on behind `before`, at a depth of brackets, comes to an
    end there. -/
def TypeEnd.ReachedFrom (ending : TypeEnd) (before : List Char) (depth : Nat) : Prop :=
  ∃ tokens taken, Scanned ending.source false before tokens ending.finish ∧
    (∀ first, typeRun first depth tokens = (taken, ending.left)) ∧
    endOf (Text.width before) taken = ending.stop

/-- A token that the run of a type takes as it is, at a depth of brackets. -/
def Token.Within (depth : Nat) (token : Token) : Prop :=
  ∀ span, splitEquals? ⟨token, span, false⟩ = none ∧
    (depth = 0 → ∀ first, endsType first ⟨token, span, false⟩ = false)

namespace TypeEnd.ReachedFrom

variable {ending : TypeEnd} {before text : List Char} {depth : Nat}

/-- A token is taken in front of what is taken behind it. -/
theorem of_token (token : Token) (gap after : List Char)
    (h : ending.ReachedFrom (before ++ gap ++ text) (typeDepth token depth))
    (hsource : ending.source = before ++ gap ++ text ++ after) (hgap : Token.IsGap gap)
    (hline : '\n' ∉ gap) (hreads : token.Reads text after) (hstop : Token.NoGap (text ++ after))
    (hstring : ∀ word, token ≠ .string word) (hwithin : token.Within depth) :
    ending.ReachedFrom before depth := by
  obtain ⟨tokens, taken, hscan, hrun, hend⟩ := h
  have htext : '\n' ∉ text := by
    intro hmem
    obtain ⟨word, hword, -⟩ := (hreads.newline_mem_iff hstop).1 hmem
    exact hstring word hword
  have hlines : gap.contains '\n' = false ∧ text.contains '\n' = false := by
    simpa using ⟨hline, htext⟩
  refine ⟨_, ⟨token, Span.across (before ++ gap) text, false⟩ :: taken,
    hscan.prepend hsource hgap hstop hreads hlines, ?_, ?_⟩
  · intro first
    obtain ⟨hwhole, hinside⟩ := hwithin (Span.across (before ++ gap) text)
    rw [typeRun, hwhole]
    dsimp only
    rw [if_neg, hrun, andTake]
    rintro ⟨rfl, hends⟩
    rw [hinside rfl first] at hends
    cases hends
  · rw [endOf_cons, ← hend, Text.width_append _ text]
    rfl

/-- Punctuation. -/
theorem of_mark (token : Token) (gap after : List Char) {c : Char}
    (h : ending.ReachedFrom (before ++ gap ++ [c]) (typeDepth token depth))
    (hsource : ending.source = before ++ gap ++ c :: after) (hgap : Token.IsGap gap)
    (hline : '\n' ∉ gap) (hmark : ∀ rest, Token.lexeme c rest = .ok (.mark token))
    (hc : Token.isSeparator c = false ∧ c ≠ '/') (hstring : ∀ word, token ≠ .string word)
    (hwithin : token.Within depth) : ending.ReachedFrom before depth := by
  obtain ⟨hreads, hstop⟩ := Token.stands_of_mark hmark hc after
  exact of_token token gap after h (by simp [hsource]) hgap hline hreads hstop hstring hwithin

/-- Signs of optionals and angle brackets, which are one operator. -/
theorem of_signs {word : List Char} (after : List Char)
    (hword : ∀ c ∈ word, c ∈ ['?', '!', '<', '>'])
    (hsource : ending.source = before ++ word ++ after) (hafter : Token.operatorRun after = 0)
    (h : ending.ReachedFrom (before ++ word) (depth + word.count '<' - word.count '>')) :
    ending.ReachedFrom before depth := by
  by_cases hne : word = []
  · subst hne
    simpa using h
  obtain ⟨hreads, hstop⟩ := Token.reads_operator word after hne
    (fun c hc => TypeText.isOperatorPart_of_mem (hword c hc)) hafter
  have hequals : String.ofList word ≠ "=" :=
    TypeText.ofList_ne hword (c := '=') (by decide) (by decide)
  rw [Token.ofOperator, if_neg hequals] at hreads
  refine of_token (.operator (String.ofList word)) [] after ?_ (by simpa using hsource) .nil
    List.not_mem_nil hreads hstop (by simp) ?_
  · rw [typeDepth_signs hword]
    simpa using h
  · intro span
    refine ⟨?_, fun _ first => by simp [endsType]⟩
    -- what is parted ends with an `=`
    cases hsplit : splitEquals? ⟨.operator (String.ofList word), span, false⟩ with
    | none => rfl
    | some parts =>
      obtain ⟨sign, equals⟩ := parts
      obtain ⟨text, -, -, htoken, -⟩ := splitEquals?_eq_some hsplit
      have hother : String.ofList word ≠ String.ofList (text ++ ['=']) :=
        TypeText.ofList_ne hword (c := '=') (by simp) (by decide)
      exact absurd (Token.operator.inj htoken) hother

/-- An opening bracket, round or square. -/
theorem of_opening (gap after : List Char) {c : Char} (hc : c = '(' ∨ c = '[')
    (h : ending.ReachedFrom (before ++ gap ++ [c]) (depth + 1))
    (hsource : ending.source = before ++ gap ++ c :: after) (hgap : Token.IsGap gap)
    (hline : '\n' ∉ gap) : ending.ReachedFrom before depth := by
  have hwithin : ∀ bracket, bracket ≠ .curly → (Token.opening bracket).Within depth := by
    intro bracket hcurly span
    refine ⟨rfl, fun _ first => ?_⟩
    cases bracket with
    | round => simp [endsType]
    | square => simp [endsType]
    | curly => exact absurd rfl hcurly
  rcases hc with rfl | rfl
  · exact of_mark (.opening .round) gap after h hsource hgap hline (fun _ => rfl) (by decide)
      (by simp) (hwithin .round (by decide))
  · exact of_mark (.opening .square) gap after h hsource hgap hline (fun _ => rfl) (by decide)
      (by simp) (hwithin .square (by decide))

/-- A comma, a colon or a closing bracket, which ends a type outside brackets only. -/
theorem of_inner (token : Token) {c : Char} {after : List Char}
    (hc : (c, token) ∈ [(',', Token.comma), (':', .colon), (')', .closing .round),
      (']', .closing .square)])
    (h : ending.ReachedFrom (before ++ [c]) (typeDepth token (depth + 1)))
    (hsource : ending.source = before ++ c :: after) : ending.ReachedFrom before (depth + 1) := by
  have hparts : ending.source = before ++ [] ++ c :: after := by simpa using hsource
  have hbehind : ending.ReachedFrom (before ++ [] ++ [c]) (typeDepth token (depth + 1)) := by
    simpa using h
  simp only [List.mem_cons, Prod.mk.injEq, List.not_mem_nil, or_false] at hc
  rcases hc with ⟨rfl, rfl⟩ | ⟨rfl, rfl⟩ | ⟨rfl, rfl⟩ | ⟨rfl, rfl⟩
  all_goals
    exact of_mark _ [] after hbehind hparts .nil List.not_mem_nil (fun _ => rfl) (by decide)
      (by simp) fun _ => ⟨rfl, by simp⟩

end TypeEnd.ReachedFrom

/-! ### Texts that are passed -/

/-- A text of a body and signs behind it, over which the run of a type goes at every depth
    of brackets that is not below the least.  The signs are left for the operator that they
    are a part of; the brackets that they close must be open behind the body. -/
structure PassedAs (least : Nat) (body signs : List Char) : Prop where
  start : ∃ c rest, body = c :: rest ∧ Token.Plain c
  isSigns : TypeText.Signs signs
  pass : ∀ ⦃ending : TypeEnd⦄ ⦃before : List Char⦄ (gap after : List Char) ⦃depth : Nat⦄,
    ending.source = before ++ gap ++ body ++ signs ++ after → Token.IsGap gap → '\n' ∉ gap →
    Token.EndsName after → least ≤ depth →
    ending.ReachedFrom (before ++ gap ++ body) (depth + signs.count '>') →
    ending.ReachedFrom before depth

/-- A text over which the run of a type goes. -/
def Passed (least : Nat) (text : List Char) : Prop :=
  ∃ body signs, text = body ++ signs ∧ PassedAs least body signs

namespace Passed

variable {least : Nat} {text a b : List Char}

theorem mono {more : Nat} (h : Passed least text) (hle : least ≤ more) : Passed more text := by
  obtain ⟨body, signs, rfl, h⟩ := h
  exact ⟨body, signs, rfl, h.start, h.isSigns,
    fun _ _ gap after _ hsource hgap hline hafter hmore =>
      h.pass gap after hsource hgap hline hafter (by omega)⟩

/-- In front of a character that no sign runs together with, the text is passed whole. -/
theorem closed (h : Passed least text) (gap : List Char) {ending : TypeEnd}
    {before rest : List Char} {c : Char} {depth : Nat}
    (hsource : ending.source = before ++ gap ++ text ++ c :: rest)
    (hgap : Token.IsGap gap) (hline : '\n' ∉ gap) (hc : c ∈ '.' :: Token.tokenEnds)
    (hleast : least ≤ depth) (hreached : ending.ReachedFrom (before ++ gap ++ text) depth) :
    ending.ReachedFrom before depth := by
  obtain ⟨body, signs, rfl, h⟩ := h
  obtain ⟨hname, hoperator⟩ : (Token.isNamePart c = false ∧ c ≠ '\x60') ∧
      Token.isOperatorPart c = false := by
    have hends : ('.' :: Token.tokenEnds).all (fun d =>
        !Token.isNamePart d && d != '\x60' && !Token.isOperatorPart d) = true := by decide
    simpa using List.all_eq_true.1 hends c hc
  refine h.pass gap (c :: rest) (by simp [hsource]) hgap hline (.cons hname rest) hleast ?_
  refine .of_signs (c :: rest) h.isSigns.subset (by simp [hsource])
    (Token.operatorRun_of_not_isOperatorPart hoperator rest) ?_
  rw [h.isSigns.count_open, Nat.add_zero, Nat.add_sub_cancel]
  simpa using hreached

theorem start (h : Passed least text) : ∃ c rest, text = c :: rest ∧ Token.Plain c := by
  obtain ⟨body, signs, rfl, h⟩ := h
  obtain ⟨c, rest, rfl, hplain⟩ := h.start
  exact ⟨c, rest ++ signs, rfl, hplain⟩

end Passed

theorem PassedAs.name {word : String} (hname : (Token.name word).IsAll word)
    (hword : word ≠ "where") : PassedAs 0 word.toList [] := by
  obtain ⟨c, rest, hparts, hplain, -⟩ := hname.exists_plain
  refine ⟨⟨c, rest, hparts, hplain⟩, .nil, ?_⟩
  intro ending before gap after depth hsource hgap hline hafter _ hreached
  have hstop : Token.NoGap (word.toList ++ after) := by
    rw [hparts]
    exact hplain.noGap _
  refine .of_token (.name word) gap after hreached (by simpa using hsource) hgap hline
    (hname.reads hafter) hstop (by simp) fun span => ⟨rfl, fun _ first => ?_⟩
  simp [endsType, hword]

namespace Passed

variable {least : Nat} {text a b : List Char}

/-- A name behind a point. -/
theorem member (h : Passed 0 text) {word : String} (hname : (Token.name word).IsAll word)
    (hword : word ≠ "where") : Passed 0 (text ++ '.' :: word.toList) := by
  refine ⟨text ++ '.' :: word.toList, [], by simp, ?_, .nil, ?_⟩
  · obtain ⟨c, rest, rfl, hplain⟩ := h.start
    exact ⟨c, rest ++ '.' :: word.toList, rfl, hplain⟩
  · intro ending before gap after depth hsource hgap hline hafter hleast hreached
    have hparts : ending.source = before ++ gap ++ text ++ '.' :: (word.toList ++ after) := by
      simp [hsource]
    have hbehind : ending.ReachedFrom (before ++ gap ++ text ++ [] ++ ['.']) depth :=
      (PassedAs.name hname hword).pass [] after (by simp [hparts]) .nil List.not_mem_nil hafter
        hleast (by simpa using hreached)
    have hreads : Token.dot.Reads ['.'] (word.toList ++ after) := by
      obtain ⟨c, rest, hfirst, -, hpoint⟩ := hname.exists_plain
      rw [hfirst]
      refine ⟨'.', c :: (rest ++ after), .mark .dot, rfl, ?_, rfl, rfl⟩
      rw [Token.lexeme, List.takeWhile_cons_of_neg (by simpa using hpoint)]
    have hpoint : ending.ReachedFrom (before ++ gap ++ text) depth :=
      .of_token .dot [] _ hbehind (by simp [hparts]) .nil List.not_mem_nil hreads
        (Token.noGap_of_ne (by decide) _) (by simp) fun _ => ⟨rfl, fun _ _ => by simp [endsType]⟩
    exact h.closed gap hparts hgap hline (by decide) hleast hpoint

/-- The sign of an optional is one more sign. -/
theorem sign (h : Passed least text) {c : Char} (hc : c = '?' ∨ c = '!') :
    Passed least (text ++ [c]) := by
  obtain ⟨body, signs, rfl, h⟩ := h
  have hsign : c ∈ ['?', '!', '>'] := by rcases hc with rfl | rfl <;> decide
  refine ⟨body, signs ++ [c], by simp, h.start, h.isSigns.concat hsign, ?_⟩
  intro ending before gap after depth hsource hgap hline _ hleast hreached
  have hname : Token.isNamePart c = false ∧ c ≠ '\x60' := by rcases hc with rfl | rfl <;> decide
  have hcount : (signs ++ [c]).count '>' = signs.count '>' := by rcases hc with rfl | rfl <;> simp
  rw [hcount] at hreached
  exact h.pass gap (c :: after) (by simp [hsource]) hgap hline (.cons hname _) hleast hreached

/-- Two texts in brackets, with a comma or a colon between. -/
theorem joined (ha : Passed 1 a) (hb : Passed 1 b) {c : Char} (hc : c = ',' ∨ c = ':') :
    Passed 1 (a ++ [c, ' '] ++ b) := by
  obtain ⟨body, signs, rfl, hb⟩ := hb
  refine ⟨a ++ [c, ' '] ++ body, signs, by simp, ?_, hb.isSigns, ?_⟩
  · obtain ⟨d, rest, rfl, hplain⟩ := ha.start
    exact ⟨d, rest ++ [c, ' '] ++ body, rfl, hplain⟩
  · intro ending before gap after depth hsource hgap hline hafter hleast hreached
    obtain ⟨depth, rfl⟩ := Nat.exists_eq_add_of_le' hleast
    have hparts : ending.source = before ++ gap ++ a ++ c :: (' ' :: (body ++ signs ++ after)) := by
      simp [hsource]
    have hsecond : ending.ReachedFrom (before ++ gap ++ a ++ [c]) (depth + 1) :=
      hb.pass [' '] after (by simp [hsource]) (Token.isGap_blank (by decide)) (by decide) hafter
        hleast (by simpa using hreached)
    have hmark : ending.ReachedFrom (before ++ gap ++ a) (depth + 1) := by
      rcases hc with rfl | rfl
      · exact .of_inner .comma (by simp) hsecond hparts
      · exact .of_inner .colon (by simp) hsecond hparts
    refine ha.closed gap hparts hgap hline ?_ hleast hmark
    rcases hc with rfl | rfl <;> decide

/-- Types in a row. -/
theorem listed {parts : List (List Char)} (h : ∀ part ∈ parts, Passed 0 part) (hne : parts ≠ []) :
    Passed 1 (TypeText.listed parts) := by
  induction parts with
  | nil => exact absurd rfl hne
  | cons part parts ih =>
    rw [List.forall_mem_cons] at h
    have hfirst := h.1.mono (Nat.zero_le 1)
    cases parts with
    | nil => simpa [TypeText.listed] using hfirst
    | cons next parts =>
      have hjoined := hfirst.joined (ih h.2 (by simp)) (.inl rfl)
      simpa [TypeText.listed] using hjoined

theorem listed_or_nil {parts : List (List Char)} (h : ∀ part ∈ parts, Passed 0 part) :
    TypeText.listed parts = [] ∨ Passed 1 (TypeText.listed parts) := by
  by_cases hne : parts = []
  · subst hne
    exact .inl rfl
  · exact .inr (listed h hne)

end Passed

/-- Brackets with something in them that is passed, or with nothing. -/
theorem TypeEnd.ReachedFrom.of_brackets {ending : TypeEnd} {before text : List Char}
    (gap after : List Char) {depth : Nat} {first last : Char}
    (hbrackets : first = '(' ∧ last = ')' ∨ first = '[' ∧ last = ']')
    (htext : text = [] ∨ Passed 1 text)
    (hsource : ending.source = before ++ gap ++ (first :: text ++ [last]) ++ after)
    (hgap : Token.IsGap gap) (hline : '\n' ∉ gap)
    (h : ending.ReachedFrom (before ++ gap ++ (first :: text ++ [last])) depth) :
    ending.ReachedFrom before depth := by
  have hparts : ending.source = before ++ gap ++ [first] ++ text ++ last :: after := by
    simp [hsource]
  have hclose : ending.ReachedFrom (before ++ gap ++ [first] ++ text) (depth + 1) := by
    have hbehind : ending.ReachedFrom (before ++ gap ++ [first] ++ text ++ [last]) depth := by
      simpa using h
    rcases hbrackets with ⟨rfl, rfl⟩ | ⟨rfl, rfl⟩
    · exact .of_inner (.closing .round) (by simp) hbehind hparts
    · exact .of_inner (.closing .square) (by simp) hbehind hparts
  have hinner : ending.ReachedFrom (before ++ gap ++ [first]) (depth + 1) := by
    rcases htext with rfl | htext
    · simpa using hclose
    · have hend : last ∈ '.' :: Token.tokenEnds := by
        rcases hbrackets with ⟨-, rfl⟩ | ⟨-, rfl⟩ <;> decide
      exact htext.closed [] (by simpa using hparts) .nil List.not_mem_nil hend (by omega)
        (by simpa using hclose)
  exact .of_opening gap (text ++ last :: after) (hbrackets.imp And.left And.left) hinner
    (by simp [hparts]) hgap hline

namespace Passed

variable {text : List Char}

theorem brackets {first last : Char}
    (hbrackets : first = '(' ∧ last = ')' ∨ first = '[' ∧ last = ']')
    (htext : text = [] ∨ Passed 1 text) : Passed 0 (first :: text ++ [last]) := by
  refine ⟨first :: text ++ [last], [], by simp, ⟨first, text ++ [last], rfl, ?_⟩, .nil, ?_⟩
  · rcases hbrackets with ⟨rfl, -⟩ | ⟨rfl, -⟩ <;> decide
  · intro ending before gap after depth hsource hgap hline _ _ hreached
    exact .of_brackets gap after hbrackets htext (by simpa using hsource) hgap hline
      (by simpa using hreached)

/-- Arguments in angle brackets.  The signs of the base run together with the opening one,
    and the closing one with the signs of the last argument. -/
theorem generic {base : List Char} (hbase : Passed 0 base) (htext : Passed 1 text) :
    Passed 0 (base ++ '<' :: text ++ ['>']) := by
  obtain ⟨body, signs, rfl, hbase⟩ := hbase
  obtain ⟨inner, last, rfl, htext⟩ := htext
  refine ⟨body ++ signs ++ '<' :: inner, last ++ ['>'], by simp, ?_,
    htext.isSigns.concat (by decide), ?_⟩
  · obtain ⟨c, rest, rfl, hplain⟩ := hbase.start
    exact ⟨c, rest ++ signs ++ '<' :: inner, rfl, hplain⟩
  · intro ending before gap after depth hsource hgap hline _ _ hreached
    have hdepth : depth + (last ++ ['>']).count '>' = depth + 1 + last.count '>' := by
      simp only [List.count_append, List.count_singleton_self]
      omega
    rw [hdepth] at hreached
    have hopened : ending.ReachedFrom (before ++ gap ++ body ++ (signs ++ ['<'])) (depth + 1) :=
      htext.pass [] ('>' :: after) (by simp [hsource]) .nil List.not_mem_nil
        (.cons (by decide) _) (by omega) (by simpa using hreached)
    have hsigns : ∀ c ∈ signs ++ ['<'], c ∈ ['?', '!', '<', '>'] := by
      rw [List.forall_mem_append]
      exact ⟨hbase.isSigns.subset, by simp⟩
    have hrest : Token.operatorRun (inner ++ (last ++ '>' :: after)) = 0 := by
      obtain ⟨c, rest, rfl, hplain⟩ := htext.start
      exact Token.operatorRun_of_not_isOperatorPart hplain.1 _
    have hcount : depth + signs.count '>' + (signs ++ ['<']).count '<' -
        (signs ++ ['<']).count '>' = depth + 1 := by
      have hopen := hbase.isSigns.count_open
      simp only [List.count_append, List.count_singleton_self, hopen]
      have hone : ['<'].count '>' = 0 := rfl
      omega
    have hbody : ending.ReachedFrom (before ++ gap ++ body) (depth + signs.count '>') :=
      .of_signs _ hsigns (by simp [hsource]) hrest (by rwa [hcount])
    exact hbase.pass gap ('<' :: (inner ++ (last ++ '>' :: after))) (by simp [hsource]) hgap hline
      (.cons (by decide) _) (Nat.zero_le _) hbody

/-- A function type. -/
theorem function {result : List Char} (htext : text = [] ∨ Passed 1 text)
    (hresult : Passed 0 result) : Passed 0 ('(' :: text ++ [')'] ++ " -> ".toList ++ result) := by
  obtain ⟨body, signs, rfl, hresult⟩ := hresult
  have harrow : " -> ".toList = [' ', '-', '>', ' '] := rfl
  refine ⟨'(' :: text ++ [')'] ++ " -> ".toList ++ body, signs, by simp,
    ⟨'(', text ++ [')'] ++ " -> ".toList ++ body, by simp, by decide⟩, hresult.isSigns, ?_⟩
  intro ending before gap after depth hsource hgap hline hafter hleast hreached
  rw [harrow] at hsource hreached
  have hpassed : ending.ReachedFrom (before ++ gap ++ ('(' :: text ++ [')']) ++ [' '] ++ ['-', '>'])
      depth :=
    hresult.pass [' '] after (by simp [hsource]) (Token.isGap_blank (by decide)) (by decide)
      hafter hleast (by simpa using hreached)
  obtain ⟨hreads, hstop⟩ := Token.reads_operator ['-', '>'] (' ' :: (body ++ signs ++ after))
    (by simp) (by simp [Token.isOperatorPart]) rfl
  have hparameters : ending.ReachedFrom (before ++ gap ++ ('(' :: text ++ [')'])) depth :=
    .of_token (.operator "->") [' '] _ hpassed (by simp [hsource]) (Token.isGap_blank (by decide))
      (by decide) hreads hstop (by simp) fun _ => ⟨rfl, fun _ _ => by simp [endsType]⟩
  exact .of_brackets gap ([' ', '-', '>', ' '] ++ body ++ signs ++ after) (.inl ⟨rfl, rfl⟩) htext
    (by simp [hsource]) hgap hline hparameters

end Passed

/-- **The run of a type goes over every type.** -/
theorem TypeText.passed {text : List Char} (h : TypeText text) : Passed 0 text := by
  induction h with
  | name hname hword => exact ⟨_, [], by simp, .name hname hword⟩
  | member _ hname hword ih => exact ih.member hname hword
  | optional _ ih => exact ih.sign (.inl rfl)
  | unwrapped _ ih => exact ih.sign (.inr rfl)
  | array _ ih => exact .brackets (.inr ⟨rfl, rfl⟩) (.inr (ih.mono (Nat.zero_le 1)))
  | dictionary _ _ ihKey ihValue =>
    have hentry := (ihKey.mono (Nat.zero_le 1)).joined (ihValue.mono (Nat.zero_le 1)) (.inr rfl)
    exact .brackets (.inr ⟨rfl, rfl⟩) (.inr hentry)
  | tuple _ ih => exact .brackets (.inl ⟨rfl, rfl⟩) (Passed.listed_or_nil ih)
  | generic _ _ hne ihBase ihArguments => exact ihBase.generic (.listed ihArguments hne)
  | function _ _ ihParameters ihResult =>
    exact .function (Passed.listed_or_nil ihParameters) ihResult

/-! ### The sign behind a type -/

/-- Signs with an `=` behind them are parted. -/
theorem splitEquals?_signs {signs : List Char} (hne : signs ≠ [])
    (hsigns : TypeText.Signs signs) (span : Span) (flag : Bool) :
    ∃ sign equals : Placed,
      splitEquals? ⟨.operator (String.ofList (signs ++ ['='])), span, flag⟩ = some (sign, equals) ∧
      sign.token = .operator (String.ofList signs) ∧ sign.span.stop = span.stop - 1 ∧
      sign.afterNewline = flag ∧ equals.token = .equals ∧ equals.span.stop = span.stop := by
  have hall : signs.all (fun c => c == '?' || c == '!' || c == '>') = true := by
    rw [List.all_eq_true]
    intro c hc
    simpa [or_assoc] using hsigns c hc
  have hsplit : splitEquals? ⟨.operator (String.ofList (signs ++ ['='])), span, flag⟩ =
      some (⟨.operator (String.ofList signs), span.upTo (span.stop - 1), flag⟩,
        ⟨.equals, ⟨span.stop - 1, span.stop, span.line,
          span.column + (span.stop - 1 - span.start)⟩, false⟩) := by
    simp only [splitEquals?, String.toList_ofList, List.dropLast_concat, List.getLast?_concat]
    rw [if_pos ⟨trivial, hne, hall⟩]
  exact ⟨_, _, hsplit, rfl, rfl, rfl, rfl, rfl⟩

namespace TypeEnd

variable {source before signs more : List Char} {rest : List Placed} {finish : Placed}

/-- In front of an `=` that stands by itself the run of a type is at its end. -/
theorem reachedFrom_of_equals (before blank : List Char)
    (hsource : source = before ++ blank ++ '=' :: more) (hblank : Token.IsGap blank)
    (hline : '\n' ∉ blank) (hmore : Token.operatorRun more = 0)
    (hrest : Scanned source false (before ++ blank ++ ['=']) rest finish) :
    ReachedFrom ⟨source, finish, ⟨.equals, Span.across (before ++ blank) ['='], false⟩ :: rest,
      Text.width before⟩ before 0 := by
  obtain ⟨hreads, hstop⟩ := Token.reads_operator ['='] more (by simp)
    (by simp [Token.isOperatorPart]) hmore
  have hlines : blank.contains '\n' = false ∧ ['='].contains '\n' = false := by simpa using hline
  have hscan : Scanned source false before
      (⟨.equals, Span.across (before ++ blank) ['='], false⟩ :: rest) finish :=
    hrest.prepend (by simp [hsource]) hblank hstop hreads hlines
  refine ⟨_, [], hscan, ?_, rfl⟩
  intro first
  simp [typeRun, splitEquals?, endsType]

/-- Signs that an `=` follows directly make one operator with it, which the run of a type
    parts: it takes the signs, and the `=` is left. -/
theorem reachedFrom_of_signs (hsource : source = before ++ signs ++ '=' :: more) (hne : signs ≠ [])
    (hsigns : TypeText.Signs signs) (hmore : Token.operatorRun more = 0)
    (hrest : Scanned source false (before ++ signs ++ ['=']) rest finish) :
    ∃ equals : Placed, equals.token = .equals ∧
      equals.span.stop = Text.width (before ++ signs ++ ['=']) ∧
      ReachedFrom ⟨source, finish, equals :: rest, Text.width (before ++ signs)⟩ before
        (signs.count '>') := by
  have hword : ∀ c ∈ signs ++ ['='], Token.isOperatorPart c = true ∧ c ≠ '/' := by
    rw [List.forall_mem_append]
    exact ⟨fun c hc => TypeText.isOperatorPart_of_mem (hsigns.subset c hc),
      by simp [Token.isOperatorPart]⟩
  obtain ⟨hreads, hstop⟩ := Token.reads_operator _ more (by simp) hword hmore
  have hequals : String.ofList (signs ++ ['=']) ≠ "=" := by
    intro heq
    have hlength := congrArg (fun text : String => text.toList.length) heq
    rw [String.toList_ofList, List.length_append] at hlength
    exact hne (List.length_eq_zero_iff.1 (Nat.succ.inj hlength))
  rw [Token.ofOperator, if_neg hequals] at hreads
  have hline : '\n' ∉ signs := fun hmem => absurd (hsigns _ hmem) (by decide)
  have hbehind : Scanned source false (before ++ [] ++ (signs ++ ['='])) rest finish := by
    simpa using hrest
  have hscan := hbehind.prepend (by simp [hsource]) .nil hstop hreads (by simpa using hline)
  rw [List.append_nil] at hscan
  obtain ⟨sign, equals, hsplit, hsign, hsignStop, hflag, hequals, hequalsStop⟩ :=
    splitEquals?_signs hne hsigns (Span.across before (signs ++ ['='])) false
  have hwidth : (Span.across before (signs ++ ['='])).stop =
      Text.width (before ++ signs ++ ['=']) := by
    rw [List.append_assoc]
    exact (Text.width_append _ _).symm
  have hdepth : typeDepth sign.token (signs.count '>') = 0 := by
    rw [hsign, typeDepth_signs hsigns.subset, hsigns.count_open, Nat.add_zero, Nat.sub_self]
  refine ⟨equals, hequals, by rw [hequalsStop, hwidth], _, [sign], hscan, ?_, ?_⟩
  · intro first
    have hends : endsType first sign = false := by simp [endsType, hsign, hflag]
    rw [typeRun, hsplit]
    dsimp only
    rw [if_neg (by simp [hends]), hdepth]
  · rw [endOf_cons, endOf_nil, hsignStop, hwidth, Text.width_append]
    rfl

end TypeEnd

/-- The run of a type ends in front of an `=`, which may follow the type directly or behind
    a blank. -/
theorem Passed.exists_equals {source before gap text blank more : List Char} {rest : List Placed}
    {finish : Placed} (h : Passed 0 text)
    (hsource : source = before ++ gap ++ text ++ blank ++ '=' :: more) (hgap : Token.IsGap gap)
    (hline : '\n' ∉ gap) (hblank : blank = [] ∨ blank = [' '])
    (hmore : Token.operatorRun more = 0)
    (hrest : Scanned source false (before ++ gap ++ text ++ blank ++ ['=']) rest finish) :
    ∃ equals : Placed, equals.token = .equals ∧
      equals.span.stop = Text.width (before ++ gap ++ text ++ blank ++ ['=']) ∧
      TypeEnd.ReachedFrom ⟨source, finish, equals :: rest, Text.width (before ++ gap ++ text)⟩
        before 0 := by
  rcases hblank with rfl | rfl
  · obtain ⟨body, signs, rfl, h⟩ := h
    have hparts : source = before ++ gap ++ body ++ signs ++ '=' :: more := by simp [hsource]
    have hends : Token.EndsName ('=' :: more) := .cons (by decide) more
    by_cases hne : signs = []
    · subst hne
      simp only [List.append_nil] at hparts hrest ⊢
      have hreached := TypeEnd.reachedFrom_of_equals (before ++ gap ++ body) []
        (by simpa using hparts) .nil List.not_mem_nil hmore (by simpa using hrest)
      refine ⟨_, rfl, ?_, h.pass gap _ (by simpa using hparts) hgap hline hends (Nat.zero_le 0)
        hreached⟩
      rw [Text.width_append _ ['='], List.append_nil]
      rfl
    · obtain ⟨equals, htoken, hstop, hreached⟩ := TypeEnd.reachedFrom_of_signs hparts hne h.isSigns
        hmore (by simpa using hrest)
      rw [← Nat.zero_add (signs.count '>'), List.append_assoc _ body] at hreached
      exact ⟨equals, htoken, by simpa using hstop,
        h.pass gap _ hparts hgap hline hends (Nat.zero_le 0) hreached⟩
  · have hreached := TypeEnd.reachedFrom_of_equals _ _ hsource (Token.isGap_blank rfl) (by decide)
      hmore hrest
    have hparts : source = before ++ gap ++ text ++ ' ' :: '=' :: more := by simpa using hsource
    exact ⟨_, rfl, (Text.width_append _ _).symm,
      h.closed gap hparts hgap hline (by decide) (Nat.zero_le 0) hreached⟩

/-! ### Reading a type -/

/-- A type is read as it is written, if its run comes to an end where the type does. -/
theorem Reader.type_of_reachedFrom {ending : TypeEnd} {before gap text after : List Char}
    (h : ending.ReachedFrom before 0) (hsource : ending.source = before ++ gap ++ text ++ after)
    (hgap : Token.IsGap gap) (hstop : Token.NoGap (text ++ after)) (hne : text ≠ [])
    (hend : ending.stop = Text.width (before ++ gap ++ text)) :
    ∃ tokens span, Scanned ending.source false before tokens ending.finish ∧
      ∀ readTo requests, type ending.source ⟨tokens, ending.finish, readTo, requests⟩ =
        .ok (⟨String.ofList text, span⟩, ⟨ending.left, ending.finish, ending.stop, requests⟩) := by
  obtain ⟨tokens, taken, hscan, hrun, htaken⟩ := h
  obtain ⟨last, hlast⟩ : ∃ last, taken.getLast? = some last := by
    cases hlast : taken.getLast? with
    | some last => exact ⟨last, rfl⟩
    | none =>
      rw [List.getLast?_eq_none_iff.1 hlast, endOf_nil, hend, List.append_assoc,
        Text.width_append] at htaken
      have hempty : gap ++ text = [] := Text.eq_nil_of_width_eq_zero (by omega)
      exact absurd (List.append_eq_nil_iff.1 hempty).2 hne
  rw [endOf_eq_of_getLast? hlast] at htaken
  have hstart : (tokens.headD ending.finish).span.start = Text.width (before ++ gap) := by
    cases tokens with
    | nil => 
      have hnone := hscan.gap_of_nil (by rw [hsource, List.append_assoc]) hgap hstop
      exact absurd (List.append_eq_nil_iff.1 hnone).1 hne
    | cons first tokens =>
      cases hscan with
      | @token _ _ gap' text' after' _ _ _ hparts hgap' hstop' _ hspan _ _ =>
        have heq : gap ++ (text ++ after) = gap' ++ (text' ++ after') := by
          simpa [hsource] using hparts
        obtain ⟨rfl, -⟩ := hgap.unique hstop hgap' hstop' heq
        exact congrArg Span.start hspan
  have htext : sourceText ending.source (tokens.headD ending.finish).span.start last.span.stop =
      String.ofList text := by
    rw [sourceText, hsource, Text.slice_append hstart.symm]
    rw [hstart, htaken, hend, Text.width_append _ text]
  refine ⟨tokens, (tokens.headD ending.finish).span.upTo last.span.stop, hscan, ?_⟩
  intro readTo requests
  have htake : take (typeRun true 0) ⟨tokens, ending.finish, readTo, requests⟩ =
      .ok (taken, ⟨ending.left, ending.finish, ending.stop, requests⟩) := by
    simp only [take, hrun true, hlast, Option.map_some, Option.getD_some, htaken]
  rw [type, peek_bind_eq_ok]
  refine bind_eq_ok.2 ⟨_, _, htake, ?_⟩
  rw [hlast]
  dsimp only
  rw [← htext]
  rfl

/-! ### A variable with a type -/

namespace TypeText

/-- A declaration with a variable that has a type and an initializer, with a sign between
    the two. -/
def inStruct (text : List Char) (sign : String) : List Char :=
  "struct S \x7b\nvar x: ".toList ++ text ++ sign.toList ++ "nil\n\x7d".toList

def front : List Char := "struct S \x7b\nvar x:".toList

theorem inStruct_eq (text : List Char) (sign : String) : inStruct text sign =
    front ++ [' '] ++ text ++ sign.toList ++ ("nil".toList ++ ['\n', '\x7d']) := rfl

def variableTokens : List Placed :=
  [⟨.name "var", ⟨11, 14, 2, 1⟩, true⟩, ⟨.name "x", ⟨15, 16, 2, 5⟩, false⟩,
    ⟨.colon, ⟨16, 17, 2, 6⟩, false⟩]

theorem tokenize_front :
    ∃ finish, tokenize front = .ok ⟨Expr.headerTokens ++ variableTokens, finish⟩ := ⟨_, rfl⟩

/-- The declaration is cut into the tokens in front, and those from the type on, of which
    the type is read, and then the initializer. -/
theorem tokenize_inStruct {text blank : List Char} {sign : String} (h : TypeText text)
    (hblank : blank = [] ∨ blank = [' ']) (hsign : sign.toList = blank ++ '=' :: blank) :
    ∃ tokens written typed close finish value stop,
      tokenize (inStruct text sign) =
        .ok ⟨Expr.headerTokens ++ (variableTokens ++ tokens), finish⟩ ∧
      written.text = String.ofList text ∧ close.token = .closing .curly ∧
      finish.token = .endOfInput ∧ value.unplaced = .nil ∧
      Reader.type (inStruct text sign) ⟨tokens, finish, 17, []⟩ = .ok (written, typed) ∧
      Reader.initializer? (inStruct text sign) typed =
        .ok (some value, ⟨[close], finish, stop, []⟩) := by
  have hgap : Token.IsGap blank ∧ '\n' ∉ blank := by
    rcases hblank with rfl | rfl
    · exact ⟨.nil, by decide⟩
    · exact ⟨Token.isGap_blank rfl, by decide⟩
  have hparts : inStruct text sign = front ++ [' '] ++ text ++ blank ++
      '=' :: (blank ++ "nil".toList ++ ['\n', '\x7d']) := by
    rw [inStruct_eq, hsign]
    simp only [List.append_assoc, List.cons_append]
  have hlast : inStruct text sign = front ++ [' '] ++ text ++ blank ++ ['='] ++ blank ++
      Expr.nil.text.toList ++ ['\n', '\x7d'] := by
    rw [hparts]
    simp only [List.append_assoc, List.cons_append, List.nil_append]
    rfl
  obtain ⟨first, taken, close, finish, value, stop, hscan, hclose, hfinish, hvalue, hread⟩ :=
    Expr.Built.nil.readsBack.scanned_last hlast hgap.1 hgap.2
  have hmore : Token.operatorRun (blank ++ "nil".toList ++ ['\n', '\x7d']) = 0 := by
    rcases hblank with rfl | rfl <;> rfl
  obtain ⟨equals, hequals, hstop, hreached⟩ :=
    h.passed.exists_equals hparts (Token.isGap_blank rfl) (by decide) hblank hmore hscan
  obtain ⟨c, rest, hstart, hplain⟩ := h.passed.start
  have hwhole : inStruct text sign = front ++ [' '] ++ text ++
      (blank ++ '=' :: (blank ++ "nil".toList ++ ['\n', '\x7d'])) := by
    rw [hparts, List.append_assoc]
  obtain ⟨tokens, span, htokens, htype⟩ := Reader.type_of_reachedFrom hreached hwhole
    (Token.isGap_blank rfl) (by rw [hstart]; exact hplain.noGap _) (by simp [hstart]) rfl
  refine ⟨tokens, _, _, close, finish, value, stop, ?_, rfl, hclose, hfinish, hvalue, htype 17 [],
    Reader.initializer?_of_equals hequals (by rw [hstop]; exact hread)⟩
  obtain ⟨_, hfront⟩ := tokenize_front
  have hlines : ∀ placed ∈ Expr.headerTokens ++ variableTokens, '\n' ∉ placed.token.spelling := by
    decide
  rw [tokenize_iff_scanned]
  rw [List.append_assoc, List.append_assoc] at hwhole
  rw [hwhole] at htokens ⊢
  exact (tokenize_scanned hfront).append rfl hlines nofun (.cons (by decide) _) htokens

end TypeText

/-- An outline of one declaration `S` with nothing but a variable `x`, which has a type and
    an initializer. -/
def Outline.HasAnnotated (outline : Outline) (type : String) (value : Expr) : Prop :=
  ∃ declaration member binding written, outline.declarations = [declaration] ∧
    declaration.kind = .structType ∧ declaration.name = "S" ∧
    declaration.items = [.property member] ∧ member.mutability = .mutable ∧
    member.isStatic = false ∧ member.bindings = [binding] ∧ binding.pattern.name = "x" ∧
    binding.type? = some written ∧ written.text = type ∧ binding.initializer? = some value ∧
    binding.accessors = .stored

/-- **Types are taken whole and as they are written.**  A variable with a type, however it is
    put together, and with the initializer `nil` is read as such, with blanks around the `=`
    or without. -/
theorem Outline.ofSource_annotated {text : List Char} (h : TypeText text) :
    ∀ sign ∈ [" = ", "="], ∃ outline value,
      Outline.ofSource (TypeText.inStruct text sign) = .ok outline ∧
      outline.HasAnnotated (String.ofList text) value ∧ value.shape = .nil ∧
      value.text = "nil" := by
  intro sign hmem
  obtain ⟨blank, hblank, hsign⟩ : ∃ blank : List Char, (blank = [] ∨ blank = [' ']) ∧
      sign.toList = blank ++ '=' :: blank := by
    simp only [List.mem_cons, List.not_mem_nil, or_false] at hmem
    rcases hmem with rfl | rfl
    · exact ⟨[' '], .inr rfl, rfl⟩
    · exact ⟨[], .inl rfl, rfl⟩
  obtain ⟨tokens, written, typed, close, finish, value, stop, htokens, hwritten, hclose, hfinish,
    hvalue, htype, hinitializer⟩ := h.tokenize_inStruct hblank hsign
  have hitem : Reader.item (TypeText.inStruct text sign)
      ⟨TypeText.variableTokens ++ tokens, finish, 10, []⟩ =
        .ok (.entry (.property _), ⟨[close], finish, stop, []⟩) :=
    Reader.item_of_variable rfl rfl (Reader.bind_eq_ok.2 ⟨_, _, rfl, Reader.bind_eq_ok.2
      ⟨_, _, rfl, Reader.bind_eq_ok.2 ⟨_, _, htype, rfl⟩⟩⟩) hinitializer hclose
  have hlong : 2 ≤ (TypeText.inStruct text sign).length := by
    rw [TypeText.inStruct_eq]
    simp only [List.length_append, List.length_cons]
    omega
  obtain ⟨outline, declaration, hread, hdeclarations, hkind, hname, hitems⟩ :=
    Outline.ofSource_of_member htokens rfl hitem hclose hfinish hlong
  refine ⟨outline, value, hread, ⟨declaration, _, _, written, hdeclarations, hkind, hname, hitems,
    rfl, rfl, rfl, rfl, rfl, hwritten, rfl, rfl⟩, ?_⟩
  obtain ⟨shape, word, span⟩ := value
  rw [Expr.unplaced, Expr.nil, Expr.mk.injEq] at hvalue
  obtain ⟨hshape, rfl, -⟩ := hvalue
  cases shape with
  | nil => exact ⟨rfl, rfl⟩
  | _ => cases hshape

def TypeText.nested : String := "Map<[Key: A.B!], (Set<Int?>, ()) -> Box<Box<T>?>>?"

theorem Outline.ofSource_annotated_nested :
    TypeText TypeText.nested.toList ∧ ∀ sign ∈ [" = ", "="], ∃ outline value,
      Outline.ofSource (TypeText.inStruct TypeText.nested.toList sign) = .ok outline ∧
      outline.HasAnnotated TypeText.nested value ∧ value.shape = .nil ∧ value.text = "nil" := by
  have hname : ∀ word ∈ ["Map", "Key", "A", "Set", "Int", "Box", "T"], TypeText word.toList := by
    simp only [List.forall_mem_cons]
    refine ⟨.name ⟨_, _, rfl, rfl⟩ ?_, .name ⟨_, _, rfl, rfl⟩ ?_, .name ⟨_, _, rfl, rfl⟩ ?_,
      .name ⟨_, _, rfl, rfl⟩ ?_, .name ⟨_, _, rfl, rfl⟩ ?_, .name ⟨_, _, rfl, rfl⟩ ?_,
      .name ⟨_, _, rfl, rfl⟩ ?_, List.forall_mem_nil _⟩ <;> decide
  have hgeneric : ∀ {base argument : List Char}, TypeText base → TypeText argument →
      TypeText (base ++ '<' :: TypeText.listed [argument] ++ ['>']) :=
    fun hbase hargument => .generic hbase (by simpa using hargument) (by simp)
  have hmember : (Token.name "B").IsAll "B" := ⟨_, _, rfl, rfl⟩
  have hentry : TypeText "[Key: A.B!]".toList :=
    .dictionary (hname "Key" (by decide))
      (.unwrapped (.member (hname "A" (by decide)) hmember (by decide)))
  have hset : TypeText "Set<Int?>".toList :=
    hgeneric (hname "Set" (by decide)) (.optional (hname "Int" (by decide)))
  have hbox : TypeText "Box<Box<T>?>".toList :=
    hgeneric (hname "Box" (by decide))
      (.optional (hgeneric (hname "Box" (by decide)) (hname "T" (by decide))))
  have hunit : TypeText "()".toList := .tuple (List.forall_mem_nil _)
  have hpair : ∀ {a b : List Char}, TypeText a → TypeText b → ∀ part ∈ [a, b], TypeText part := by
    intro a b ha hb
    simp only [List.forall_mem_cons]
    exact ⟨ha, hb, List.forall_mem_nil _⟩
  have hfunction : TypeText "(Set<Int?>, ()) -> Box<Box<T>?>".toList :=
    .function (hpair hset hunit) hbox
  have htext : TypeText TypeText.nested.toList :=
    .optional (.generic (hname "Map" (by decide)) (hpair hentry hfunction) (by simp))
  have hread := ofSource_annotated htext
  rw [String.ofList_toList] at hread
  exact ⟨htext, hread⟩

end Memberwise
