/-
  Memberwise/Proofs/Rendering.lean
  ================================
  **Generated declarations are read as they are meant.**

  A generated declaration is written from names, types and values that were taken over
  from somewhere else.  Where each name is a name by itself, and each of the other texts
  can be cut into tokens and ends with the last of them, the declaration consists of its
  own keywords and punctuation with the tokens of these texts between them.  So no token
  is read over the seams, at any indentation and with any number of entries.

  Which tokens these are is a function of the declaration.
-/
import Memberwise.Generated
import Memberwise.Proofs.Fragments

namespace Memberwise

/-! ### The texts that are taken over -/

/-- The tokens of a text by itself, none if it cannot be cut into tokens. -/
def tokensOf (text : String) : List Token :=
  match tokenize text.toList with
  | .ok found => found.body.map (·.token)
  | .error _ => []

def IsName (text : String) : Prop :=
  (Token.name text).IsAll text

def IsFragment (text : String) : Prop :=
  ∃ found, tokenize text.toList = .ok found ∧ endOf 0 found.body = Text.width text.toList

theorem IsName.stands {text : String} (h : IsName text) : (Token.name text).Stands text.toList :=
  Token.IsAll.stands h rfl

theorem IsName.spells {text : String} (h : IsName text) : Spells text.toList [.name text] :=
  .of_stands h.stands

theorem IsFragment.spells {text : String} (h : IsFragment text) :
    Spells text.toList (tokensOf text) := by
  obtain ⟨found, hfound, hend⟩ := h
  have htokens : tokensOf text = found.body.map (·.token) := by simp only [tokensOf, hfound]
  rw [htokens]
  exact spells_of_tokenize hfound hend

/-- A fixed text, with its tokens computed. -/
theorem IsFragment.spells_as {text : String} {tokens : List Token} (h : IsFragment text)
    (htokens : tokensOf text = tokens) : Spells text.toList tokens := by
  rw [← htokens]
  exact h.spells

/-! ### The tokens of a declaration -/

def assignedTokens : Option String → List Token
  | some value => .equals :: tokensOf value
  | none => []

def Parameter.tokens (parameter : Parameter) : List Token :=
  .name parameter.name :: .colon ::
    (tokensOf parameter.type.text ++ assignedTokens parameter.default?)

def Assignment.tokens (assignment : Assignment) : List Token :=
  .name "self" :: .dot :: .name assignment.member :: .equals :: tokensOf assignment.value

def Initializer.tokens (init : Initializer) : List Token :=
  [.name "public", .name "init", .opening .round] ++
  [Token.comma].intercalate (init.parameters.map Parameter.tokens) ++
  [.closing .round, .opening .curly] ++ init.body.flatMap Assignment.tokens ++ [.closing .curly]

def KeyCase.tokens (keyCase : KeyCase) : List Token :=
  .name "case" :: .name keyCase.name :: assignedTokens (keyCase.rawValue?.map (·.source))

def KeyEnum.tokens (keys : KeyEnum) : List Token :=
  [.name "enum", .name keys.name, .colon] ++
  [Token.comma].intercalate ((keys.rawType :: keys.conformances).map fun text => [.name text]) ++
  [.opening .curly] ++ keys.cases.flatMap KeyCase.tokens ++ [.closing .curly]

def Generated.tokens : Generated → List Token
  | initializer init => init.tokens
  | keyEnum keys => keys.tokens

/-! ### Legible declarations -/

structure Parameter.Legible (parameter : Parameter) : Prop where
  name : IsName parameter.name
  type : IsFragment parameter.type.text
  default : ∀ value ∈ parameter.default?, IsFragment value

/-- An assignment of a value to a member with a name.  The value is a name as a rule, but
    any other fragment is as good. -/
structure Assignment.Legible (assignment : Assignment) : Prop where
  member : IsName assignment.member
  value : IsFragment assignment.value

structure KeyCase.Legible (keyCase : KeyCase) : Prop where
  name : IsName keyCase.name
  rawValue : ∀ literal ∈ keyCase.rawValue?, IsFragment literal.source

structure Initializer.Legible (init : Initializer) : Prop where
  parameters : ∀ parameter ∈ init.parameters, parameter.Legible
  body : ∀ assignment ∈ init.body, assignment.Legible

structure KeyEnum.Legible (keys : KeyEnum) : Prop where
  name : IsName keys.name
  types : ∀ text ∈ keys.rawType :: keys.conformances, IsName text
  cases : ∀ keyCase ∈ keys.cases, keyCase.Legible

/-- All names of a declaration are names, and the other texts in it are fragments. -/
def Generated.Legible : Generated → Prop
  | initializer init => init.Legible
  | keyEnum keys => keys.Legible

/-! ### Entries -/

theorem detached_assigned (value? : Option String) :
    Token.Detached (assigned value?).toList := by
  cases value? with
  | none => exact .nil
  | some value =>
    rw [assigned, String.toList_append]
    exact .cons (by decide) _

theorem spells_equals : Spells "=".toList [.equals] := IsFragment.spells_as ⟨_, rfl, rfl⟩ rfl

theorem spells_assigned {value? : Option String} (h : ∀ value ∈ value?, IsFragment value) :
    Spells (assigned value?).toList (assignedTokens value?) := by
  cases value? with
  | none => exact .nil
  | some value =>
    rw [assigned, String.toList_append]
    have hvalue := (h value rfl).spells.blank (c := ' ') (by decide)
    exact (spells_equals.append hvalue (.cons (by decide) _)).blank (by decide)

theorem Parameter.Legible.spells {parameter : Parameter} (h : parameter.Legible) :
    Spells parameter.text.toList parameter.tokens := by
  have htext : parameter.text.toList = parameter.name.toList ++ ':' :: ' ' ::
      (parameter.type.text.toList ++ (assigned parameter.default?).toList) := by
    simp [Parameter.text]
  have hvalue := h.type.spells.append (spells_assigned h.default) (detached_assigned _)
  have hbehind := (hvalue.blank (c := ' ') (by decide)).mark (c := ':') (fun _ => rfl) (by decide)
  rw [htext]
  exact h.name.spells.append hbehind (.cons (by decide) _)

/-- A point in front of a name is a token by itself, since no name starts with another. -/
theorem IsName.spells_member {text : String} (h : IsName text) {rest : List Char}
    {tokens : List Token} (hrest : Spells rest tokens) (hdetached : Token.Detached rest) :
    Spells ("self.".toList ++ text.toList ++ rest)
      (.name "self" :: .dot :: .name text :: tokens) := by
  have hname := h.spells.append hrest hdetached
  obtain ⟨first, name, htext⟩ := List.exists_cons_of_ne_nil (h.stands _ .nil).1.ne_nil
  have hpoint : first ≠ '.' := by
    rintro rfl
    have hchar := (h.stands _ .nil).1.name_char '.' (by rw [htext]; exact List.mem_cons_self)
    exact absurd hchar (by decide)
  rw [List.append_assoc]
  have hdot : Spells (['.'] ++ (text.toList ++ rest)) (.dot :: .name text :: tokens) := by
    apply hname.prepend
    intro more _
    refine ⟨⟨'.', text.toList ++ rest ++ more, .mark .dot, rfl, ?_, rfl, rfl⟩,
      Token.noGap_of_ne (by decide) _⟩
    rw [htext, Token.lexeme]
    simp [hpoint]
  refine hdot.prepend "self".toList fun more _ => ⟨?_, ?_⟩
  · exact ⟨'s', _, ⟨.name, 4⟩, rfl, rfl, rfl, rfl⟩
  · exact Token.noGap_of_ne (c := 's') (by decide) _

theorem Assignment.Legible.spells {assignment : Assignment} (h : assignment.Legible) :
    Spells assignment.text.toList assignment.tokens := by
  have htext : assignment.text.toList = "self.".toList ++ assignment.member.toList ++
      (assigned (some assignment.value)).toList := by
    simp [Assignment.text, assigned]
  rw [htext]
  refine h.member.spells_member (spells_assigned ?_) (detached_assigned _)
  rintro value ⟨⟩
  exact h.value

/-- A keyword in front of a name. -/
theorem IsName.spells_behind {word text : String} (hword : IsName word) (h : IsName text)
    {rest : List Char} {tokens : List Token} (hrest : Spells rest tokens)
    (hdetached : Token.Detached rest) :
    Spells (word.toList ++ ' ' :: (text.toList ++ rest)) (.name word :: .name text :: tokens) := by
  have hname := (h.spells.append hrest hdetached).blank (c := ' ') (by decide)
  exact hword.spells.append hname (.cons (by decide) _)

theorem KeyCase.Legible.spells {keyCase : KeyCase} (h : keyCase.Legible) :
    Spells keyCase.text.toList keyCase.tokens := by
  have htext : keyCase.text.toList = "case".toList ++ ' ' :: (keyCase.name.toList ++
      (assigned (keyCase.rawValue?.map (·.source))).toList) := by
    simp [KeyCase.text]
  have hword : IsName "case" := ⟨_, _, rfl, rfl⟩
  rw [htext]
  apply hword.spells_behind h.name (spells_assigned _) (detached_assigned _)
  intro value hvalue
  obtain ⟨literal, hliteral, rfl⟩ := Option.map_eq_some_iff.1 hvalue
  exact h.rawValue literal hliteral

/-! ### Whole declarations -/

theorem spells_closing : Spells "\x7d".toList [.closing .curly] :=
  IsFragment.spells_as ⟨_, rfl, rfl⟩ rfl

/-- The indentation of a line is a gap. -/
theorem Layout.spells_indented (layout : Layout) {text : String} {tokens : List Token}
    (h : Spells text.toList tokens) : Spells (layout.indent ++ text).toList tokens := by
  rw [String.toList_append]
  apply h.gap
  apply Token.isGap_of_separators
  intro c hc
  rw [Layout.indent, String.toList_ofList] at hc
  rw [List.eq_of_mem_replicate hc]
  rfl

theorem linesSpell_parameters (layout : Layout) {parameters : List Parameter}
    (h : ∀ parameter ∈ parameters, parameter.Legible) :
    LinesSpell (parameterLines layout.indent parameters)
      ([Token.comma].intercalate (parameters.map Parameter.tokens)) := by
  fun_induction parameterLines layout.indent parameters with
  | case1 => exact .nil
  | case2 last =>
    have hlast := (h last List.mem_cons_self).spells
    rw [List.map_singleton, List.intercalate_singleton]
    exact .single (layout.spells_indented hlast)
  | case3 parameter rest hmore ih =>
    rw [List.forall_mem_cons] at h
    obtain ⟨next, rest, rfl⟩ : ∃ next more, rest = next :: more := by
      cases rest with
      | nil => exact absurd rfl hmore
      | cons next more => exact ⟨next, more, rfl⟩
    rw [List.map_cons, List.map_cons, List.intercalate_cons_cons]
    refine .cons ?_ (ih h.2)
    rw [String.toList_append]
    exact (layout.spells_indented h.1.spells).append (Spells.nil.mark (fun _ => rfl) (by decide))
      (.cons (by decide) _)

theorem Initializer.Legible.linesSpell {init : Initializer} (h : init.Legible) (layout : Layout) :
    LinesSpell (init.lines layout.indent) init.tokens := by
  have hhead : LinesSpell (init.headLines layout.indent)
      ([.name "public", .name "init", .opening .round] ++
        [Token.comma].intercalate (init.parameters.map Parameter.tokens) ++
        [.closing .round, .opening .curly]) := by
    unfold Initializer.headLines
    split
    · next hnone =>
      rw [List.isEmpty_iff] at hnone
      rw [hnone]
      have hline : Spells "public init() \x7b".toList [.name "public", .name "init",
          .opening .round, .closing .round, .opening .curly] :=
        IsFragment.spells_as ⟨_, rfl, rfl⟩ rfl
      exact .single hline
    · have hopening : Spells "public init(".toList
          [.name "public", .name "init", .opening .round] := IsFragment.spells_as ⟨_, rfl, rfl⟩ rfl
      have hclosing : Spells ") \x7b".toList [.closing .round, .opening .curly] :=
        IsFragment.spells_as ⟨_, rfl, rfl⟩ rfl
      exact (LinesSpell.cons hopening (linesSpell_parameters layout h.parameters)).append
        (.single hclosing)
  have hbody : LinesSpell (init.body.map (layout.indent ++ ·.text))
      (init.body.flatMap Assignment.tokens) :=
    .map fun assignment hmem => layout.spells_indented (h.body assignment hmem).spells
  exact (hhead.append hbody).append (.single spells_closing)

theorem KeyEnum.Legible.spells_headLine {keys : KeyEnum} (h : keys.Legible) :
    Spells keys.headLine.toList ([.name "enum", .name keys.name, .colon] ++
      [Token.comma].intercalate
        ((keys.rawType :: keys.conformances).map fun text => [.name text]) ++
      [.opening .curly]) := by
  have htext : keys.headLine.toList = "enum".toList ++ ' ' :: (keys.name.toList ++ ':' :: ' ' ::
      ([',', ' '].intercalate ((keys.rawType :: keys.conformances).map String.toList) ++
        [' ', '\x7b'])) := by
    simp [KeyEnum.headLine, String.toList_intercalate]
  have hword : IsName "enum" := ⟨_, _, rfl, rfl⟩
  have htypes := Spells.commas fun text hmem => (h.types text hmem).spells
  have hopening : Spells " \x7b".toList [.opening .curly] :=
    IsFragment.spells_as ⟨_, rfl, rfl⟩ rfl
  have hbehind := ((htypes.append hopening (.cons (by decide) _)).blank (c := ' ')
    (by decide)).mark (c := ':') (fun _ => rfl) (by decide)
  rw [htext]
  have hwhole := hword.spells_behind h.name hbehind (.cons (by decide) _)
  simpa using hwhole

theorem KeyEnum.Legible.linesSpell {keys : KeyEnum} (h : keys.Legible) (layout : Layout) :
    LinesSpell (keys.lines layout.indent) keys.tokens := by
  have hcases : LinesSpell (keys.cases.map (layout.indent ++ ·.text))
      (keys.cases.flatMap KeyCase.tokens) :=
    .map fun keyCase hmem => layout.spells_indented (h.cases keyCase hmem).spells
  exact (LinesSpell.append (.single h.spells_headLine) hcases).append (.single spells_closing)

theorem Generated.Legible.spells {generated : Generated} (h : generated.Legible)
    (layout : Layout) : Spells (generated.text layout).toList generated.tokens := by
  cases generated with
  | initializer init => exact (Initializer.Legible.linesSpell h layout).spells
  | keyEnum keys => exact (KeyEnum.Legible.linesSpell h layout).spells

/-- **A legible declaration can be cut into tokens, and they are the ones it is meant to
    consist of.**  This holds at every indentation. -/
theorem tokenize_generated_text (layout : Layout) {generated : Generated}
    (h : generated.Legible) :
    ∃ found, tokenize (generated.text layout).toList = .ok found ∧
      found.toList.map (·.token) = generated.tokens ++ [.endOfInput] := by
  obtain ⟨found, hfound, htokens⟩ := tokenize_iff_lexes.2 (h.spells layout).lexes
  refine ⟨found, hfound, ?_⟩
  have hfinish := (tokenize_scanned hfound).finish_eq.1
  rw [Tokens.toList, List.map_append, htokens, List.map_singleton, hfinish]

/-- A parameter whose default ends in a number with an exponent, in front of the comma of
    the list. -/
theorem tokenize_generated_text_exponent :
    ∃ found, tokenize ((Generated.initializer (.storing
        [⟨"rate", .double, some "1e5"⟩, ⟨"tags", .array .string, none⟩])).text ⟨2⟩).toList =
        .ok found ∧
      found.toList.map (·.token) =
        [.name "public", .name "init", .opening .round, .name "rate", .colon, .name "Double",
          .equals, .float "1e5", .comma, .name "tags", .colon, .opening .square, .name "String",
          .closing .square, .closing .round, .opening .curly, .name "self", .dot, .name "rate",
          .equals, .name "rate", .name "self", .dot, .name "tags", .equals, .name "tags",
          .closing .curly, .endOfInput] := by
  have hname : ∀ text ∈ ["rate", "tags"], IsName text := by
    intro text hmem
    simp only [List.mem_cons, List.not_mem_nil, or_false] at hmem
    rcases hmem with rfl | rfl
    · exact ⟨_, _, rfl, rfl⟩
    · exact ⟨_, _, rfl, rfl⟩
  have hfragment : ∀ text ∈ ["Double", "1e5", "[String]", "rate", "tags"], IsFragment text := by
    intro text hmem
    simp only [List.mem_cons, List.not_mem_nil, or_false] at hmem
    rcases hmem with rfl | rfl | rfl | rfl | rfl
    all_goals exact ⟨_, rfl, rfl⟩
  apply tokenize_generated_text ⟨2⟩
  refine Initializer.Legible.mk ?_ ?_
  · simp only [Initializer.storing, List.forall_mem_cons]
    refine ⟨⟨hname _ (by decide), hfragment _ (by decide), ?_⟩,
      ⟨hname _ (by decide), hfragment _ (by decide), ?_⟩, by simp⟩
    · rintro value ⟨⟩
      exact hfragment _ (by decide)
    · rintro value ⟨⟩
  · simp only [Initializer.storing, List.map_cons, List.forall_mem_cons]
    exact ⟨⟨hname _ (by decide), hfragment _ (by decide)⟩,
      ⟨hname _ (by decide), hfragment _ (by decide)⟩, by simp⟩

end Memberwise
