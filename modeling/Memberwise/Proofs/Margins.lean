/-
  Memberwise/Proofs/Margins.lean
  ==============================
  **What a margin does to the text behind it.**

  A generated declaration is moved to the right line by line, and a line may lie inside
  a string literal that was taken over as a default value.  `Text.moved` says the same
  character by character, so it can be followed through a text that is put together
  from parts.

  The value of a literal over several lines is what is left of its lines without the
  white space in front of the closing quotes.  That white space is moved to the right
  just as the lines are, and empty lines stay empty, so the value is kept.
-/
import Memberwise.Generated
import Memberwise.Proofs.Fragments

namespace Memberwise

namespace Text

/-! ### Moved texts -/

/-- A text with a margin in front of each line that is not empty, and with a line feed for
    each line ending.  The flag tells whether the text starts a line. -/
def moved (margin : List Char) : Bool → List Char → List Char
  | _, [] => []
  | _, '\n' :: rest => '\n' :: moved margin true rest
  | _, '\r' :: '\n' :: rest => '\n' :: moved margin true rest
  | atStart, c :: rest => (if atStart then margin else []) ++ c :: moved margin false rest

/-- A character that starts no line ending in front of a text. -/
def StaysInLine (c : Char) (rest : List Char) : Prop :=
  c ≠ '\n' ∧ ∀ more, c = '\r' → rest ≠ '\n' :: more

theorem StaysInLine.of_ne {c : Char} (h : c ≠ '\n' ∧ c ≠ '\r') (rest : List Char) :
    StaysInLine c rest :=
  ⟨h.1, fun _ hreturn => absurd hreturn h.2⟩

theorem moved_cons {margin rest : List Char} {c : Char} {atStart : Bool}
    (hc : StaysInLine c rest) :
    moved margin atStart (c :: rest) =
      (if atStart then margin else []) ++ c :: moved margin false rest := by
  rw [moved]
  · exact hc.1
  · exact hc.2

/-- A part of a line stays as it is, apart from the margin in front of it. -/
theorem moved_append_plain {margin line rest : List Char}
    (hline : ∀ c ∈ line, c ≠ '\n' ∧ c ≠ '\r') :
    moved margin false (line ++ rest) = line ++ moved margin false rest := by
  induction line with
  | nil => rfl
  | cons c line ih =>
    rw [List.forall_mem_cons] at hline
    rw [List.cons_append, moved_cons (.of_ne hline.1 _), ih hline.2]
    rfl

theorem moved_line {margin line rest : List Char} (hline : ∀ c ∈ line, c ≠ '\n' ∧ c ≠ '\r') :
    moved margin true (line ++ '\n' :: rest) =
      Generated.indentedLine margin line ++ '\n' :: moved margin true rest := by
  cases line with
  | nil => rfl
  | cons c line =>
    rw [List.forall_mem_cons] at hline
    rw [List.cons_append, moved_cons (.of_ne hline.1 _),
      moved_append_plain hline.2]
    simp [moved, Generated.indentedLine]

theorem moved_lines {margin rest : List Char} {lines : List (List Char)}
    (hlines : ∀ line ∈ lines, ∀ c ∈ line, c ≠ '\n' ∧ c ≠ '\r') :
    moved margin true (lines.flatMap (· ++ ['\n']) ++ rest) =
      (lines.map (Generated.indentedLine margin)).flatMap (· ++ ['\n']) ++
        moved margin true rest := by
  induction lines with
  | nil => rfl
  | cons line lines ih =>
    rw [List.forall_mem_cons] at hlines
    simp only [List.flatMap_cons, List.map_cons, List.append_assoc, List.cons_append,
      List.nil_append]
    rw [moved_line hlines.1, ih hlines.2]

theorem moved_last {margin line : List Char} (hline : ∀ c ∈ line, c ≠ '\n' ∧ c ≠ '\r')
    (hne : line ≠ []) : moved margin true line = margin ++ line := by
  obtain ⟨c, line, rfl⟩ := List.exists_cons_of_ne_nil hne
  rw [List.forall_mem_cons] at hline
  have hrest : moved margin false (line ++ []) = line ++ moved margin false [] :=
    moved_append_plain hline.2
  rw [List.append_nil] at hrest
  rw [moved_cons (.of_ne hline.1 _), hrest]
  simp [moved]

/-- A text can be cut inside a line, where no line ending is cut. -/
theorem moved_append {margin front rest : List Char} {last : Char} {atStart : Bool}
    (hlast : last ≠ '\n' ∧ last ≠ '\r') :
    moved margin atStart (front ++ last :: rest) =
      moved margin atStart (front ++ [last]) ++ moved margin false rest := by
  fun_induction moved margin atStart front with
  | case1 atStart =>
    rw [List.nil_append, List.nil_append, moved_cons (.of_ne hlast _), moved_cons (.of_ne hlast _)]
    simp [moved]
  | case2 atStart front ih => simp only [List.cons_append, moved, ih]
  | case3 atStart front ih => simp only [List.cons_append, moved, ih]
  | case4 atStart c front hline hreturn ih =>
    have hc : ∀ more, StaysInLine c (front ++ last :: more) := by
      intro more
      refine ⟨hline, ?_⟩
      rintro _ rfl heq
      cases front with
      | nil =>
        cases heq
        exact hlast.1 rfl
      | cons d front =>
        cases heq
        exact hreturn front rfl rfl
    simp only [List.cons_append, moved_cons (hc _), ih, List.append_assoc]

/-- The lines of a text behind the first one are moved, and put together again. -/
def joined (margin : List Char) : List (List Char) → List Char
  | [] => []
  | line :: more => ['\n'].intercalate (line :: more.map (Generated.indentedLine margin))

theorem joined_cons (margin : List Char) (c : Char) (line : List Char) (more : List (List Char)) :
    joined margin ((c :: line) :: more) = c :: joined margin (line :: more) := by
  cases more with
  | nil => simp [joined]
  | cons next more => simp [joined, List.intercalate_cons_cons]

theorem lines_ne_nil {text : List Char} (h : text ≠ []) : lines text ≠ [] := by
  fun_cases lines text with
  | case1 => exact absurd rfl h
  | case2 => simp
  | case3 => simp
  | case4 => simp
  | case5 => simp

/-- What the margin in front of the first line is. -/
theorem moved_true_eq {margin text line : List Char} {more : List (List Char)}
    (h : lines text = line :: more) :
    moved margin true text = (if line.isEmpty then [] else margin) ++ moved margin false text := by
  revert h
  fun_cases lines text with
  | case1 => rintro ⟨⟩
  | case2 rest =>
    rintro ⟨⟩
    rfl
  | case3 rest =>
    rintro ⟨⟩
    rfl
  | case4 c rest hline hreturn hrest =>
    rintro ⟨⟩
    rw [moved_cons ⟨hline, hreturn⟩, moved_cons ⟨hline, hreturn⟩]
    rfl
  | case5 c rest hline hreturn _ _ hrest =>
    rintro ⟨⟩
    rw [moved_cons ⟨hline, hreturn⟩, moved_cons ⟨hline, hreturn⟩]
    rfl

theorem moved_true_eq_of_false {margin text : List Char}
    (h : moved margin false text = joined margin (lines text)) :
    moved margin true text =
      ['\n'].intercalate ((lines text).map (Generated.indentedLine margin)) := by
  cases hlines : lines text with
  | nil =>
    cases text with
    | nil => rfl
    | cons c text => exact absurd hlines (lines_ne_nil (List.cons_ne_nil c text))
  | cons line more =>
    rw [moved_true_eq hlines, h, hlines]
    cases line with
    | nil => rfl
    | cons c line =>
      rw [joined, List.map_cons]
      cases more with
      | nil => simp [Generated.indentedLine]
      | cons next more => simp [Generated.indentedLine, List.intercalate_cons_cons]

theorem moved_false_eq {margin text : List Char} (h : text.getLast? ≠ some '\n') :
    moved margin false text = joined margin (lines text) := by
  -- behind a line ending, the next line has its margin
  have hnext : ∀ {rest}, rest ≠ [] → moved margin false rest = joined margin (lines rest) →
      '\n' :: moved margin true rest = joined margin ([] :: lines rest) := by
    intro rest hne ih
    rw [moved_true_eq_of_false ih, joined,
      List.intercalate_cons_of_ne_nil (by simpa using lines_ne_nil hne)]
    rfl
  have hlast : ∀ {c : Char} {rest}, rest ≠ [] → (c :: rest).getLast? = rest.getLast? := by
    intro c rest hne
    obtain ⟨d, rest, rfl⟩ := List.exists_cons_of_ne_nil hne
    exact List.getLast?_cons_cons
  fun_induction lines text with
  | case1 => rfl
  | case2 rest ih =>
    have hne : rest ≠ [] := by
      rintro rfl
      exact h rfl
    exact hnext hne (ih (hlast hne ▸ h))
  | case3 rest ih =>
    have hne : rest ≠ [] := by
      rintro rfl
      exact h rfl
    exact hnext hne (ih (by rwa [hlast (by simp), hlast hne] at h))
  | case4 c rest hline hreturn hrest ih =>
    obtain rfl : rest = [] := by
      by_contra hne
      exact lines_ne_nil hne hrest
    rw [moved_cons ⟨hline, hreturn⟩]
    rfl
  | case5 c rest hline hreturn line more hrest ih =>
    have hne : rest ≠ [] := by
      rintro rfl
      cases hrest
    rw [moved_cons ⟨hline, hreturn⟩, joined_cons, ih (hlast hne ▸ h), hrest]
    rfl

/-- **A text that does not end with a line feed is moved line by line.** -/
theorem moved_eq {margin text : List Char} (h : text.getLast? ≠ some '\n') :
    moved margin true text =
      ['\n'].intercalate ((lines text).map (Generated.indentedLine margin)) :=
  moved_true_eq_of_false (moved_false_eq h)

theorem intercalate_append_cons (between line : List Char) (front back : List (List Char)) :
    between.intercalate (front ++ line :: back) =
      front.flatMap (· ++ between) ++ line ++ back.flatMap (between ++ ·) := by
  induction front with
  | nil =>
    induction back generalizing line with
    | nil => simp
    | cons next back ih =>
      have hrest := ih next
      simp only [List.nil_append, List.flatMap_nil] at hrest ⊢
      rw [List.intercalate_cons_cons, hrest]
      simp
  | cons first front ih =>
    rw [List.cons_append, List.intercalate_cons_of_ne_nil (by simp), ih]
    simp

end Text

/-! ### Moved declarations -/

/-- Every declaration ends with a brace. -/
theorem Generated.exists_text (layout : Layout) (generated : Generated) :
    ∃ front, (generated.text layout).toList = front ++ ['\x7d'] := by
  obtain ⟨front, hlines⟩ : ∃ front, generated.lines layout = front ++ ["\x7d"] := by
    cases generated with
    | initializer init => exact ⟨_, rfl⟩
    | keyEnum keys => exact ⟨_, rfl⟩
  rw [Generated.text, hlines, String.toList_intercalate, List.map_append, List.map_singleton,
    Text.intercalate_append_cons]
  exact ⟨_, by simp; rfl⟩

theorem Generated.indented_eq_moved (layout : Layout) (margin : List Char)
    (generated : Generated) :
    generated.indented layout margin = Text.moved margin true (generated.text layout).toList := by
  obtain ⟨front, htext⟩ := generated.exists_text layout
  rw [Generated.indented, Text.moved_eq]
  rw [htext, List.getLast?_concat]
  decide

/-! ### Parameters -/

theorem parameterLines_append_cons (indent : String) (front : List Parameter)
    (parameter : Parameter) (back : List Parameter) :
    parameterLines indent (front ++ parameter :: back) =
      front.map (fun other => indent ++ other.text ++ ",") ++
        (indent ++ parameter.text ++ if back.isEmpty then "" else ",") ::
          parameterLines indent back := by
  induction front with
  | nil =>
    cases back with
    | nil => simp [parameterLines]
    | cons next back => simp [parameterLines]
  | cons first front ih =>
    rw [List.cons_append, List.map_cons, List.cons_append, ← ih]
    cases front with
    | nil => rfl
    | cons second front => rfl

def Initializer.withDefault (init : Initializer) (front : List Parameter) (parameter : Parameter)
    (back : List Parameter) (value : String) : Initializer :=
  { init with parameters := front ++ { parameter with default? := some value } :: back }

/-- The default of a parameter stands between two texts that do not depend on it. -/
theorem Initializer.exists_around (layout : Layout) (init : Initializer)
    (front : List Parameter) (parameter : Parameter) (back : List Parameter) :
    ∃ start behind, ∀ value,
      ((Generated.initializer (init.withDefault front parameter back value)).text layout).toList =
        start ++ [' '] ++ value.toList ++ behind := by
  -- the lines in front of that of the parameter, and those behind it
  obtain ⟨lines, more, hlines⟩ : ∃ lines more, ∀ value,
      (Generated.initializer (init.withDefault front parameter back value)).lines layout =
        lines ++ (layout.indent ++ { parameter with default? := some value }.text ++
          if back.isEmpty then "" else ",") :: more := by
    refine ⟨"public init(" :: front.map fun other => layout.indent ++ other.text ++ ",",
      parameterLines layout.indent back ++ ([") \x7b"] ++
        (init.body.map (layout.indent ++ ·.text) ++ ["\x7d"])), ?_⟩
    intro value
    simp [Generated.lines, Initializer.lines, Initializer.headLines, Initializer.withDefault,
      parameterLines_append_cons]
  refine ⟨(lines.map String.toList).flatMap (· ++ ['\n']) ++
      (layout.indent ++ parameter.name ++ ": " ++ parameter.type.text ++ " =").toList,
    (if back.isEmpty then "" else ",").toList ++
      (more.map String.toList).flatMap (['\n'] ++ ·), ?_⟩
  intro value
  rw [Generated.text, hlines, String.toList_intercalate, List.map_append, List.map_cons,
    Text.intercalate_append_cons]
  simp [Parameter.text, assigned]

/-! ### Literals over several lines -/

/-- A string literal over several lines.  The white space in front of the closing quotes is
    its margin, and every line starts with it, unless the line is empty. -/
structure BlockLiteral where
  margin : List Char
  lines : List (List Char)
  margin_blank : ∀ c ∈ margin, c = ' ' ∨ c = '\t'
  lines_plain : ∀ line ∈ lines, ∀ c ∈ line, c ≠ '\n' ∧ c ≠ '\r'
  lines_open : ∀ line ∈ lines, ¬ ['"', '"', '"'] <:+: line
  lines_behind : ∀ line ∈ lines, line ≠ [] → margin <+: line

/-- A word lies on one side of a character that it does not have in it. -/
theorem Text.infix_append_cons {word a b : List Char} {c : Char} (hc : c ∉ word)
    (h : word <:+: a ++ c :: b) : word <:+: a ∨ word <:+: b := by
  obtain ⟨front, back, h⟩ := h
  rw [List.append_assoc, List.append_eq_append_iff] at h
  rcases h with ⟨a', rfl, h⟩ | ⟨front', rfl, h⟩
  · -- the word starts in front of the character, so it ends there as well
    rw [List.append_eq_append_iff] at h
    rcases h with ⟨rest, rfl, -⟩ | ⟨word', rfl, h⟩
    · exact .inl ⟨front, rest, by simp⟩
    · cases word' with
      | nil => exact .inl ⟨front, [], by simp⟩
      | cons d word' =>
        cases h
        simp at hc
  · cases front' with
    | nil =>
      cases word with
      | nil => exact .inl (List.nil_infix)
      | cons d word =>
        cases h
        simp at hc
    | cons d front' =>
      cases h
      exact .inr ⟨front', back, by simp⟩

theorem Text.infix_append_of_notMem {word a b : List Char} (hword : word ≠ [])
    (ha : ∀ c ∈ a, c ∉ word) (h : word <:+: a ++ b) : word <:+: b := by
  induction a with
  | nil => exact h
  | cons c a ih =>
    rw [List.forall_mem_cons] at ha
    rcases infix_append_cons (a := []) ha.1 h with hnil | hrest
    · exact absurd (List.infix_nil.1 hnil) hword
    · exact ih ha.2 hrest

namespace BlockLiteral

def content (literal : BlockLiteral) : List Char :=
  '\n' :: (literal.lines.flatMap (· ++ ['\n']) ++ literal.margin)

def text (literal : BlockLiteral) : List Char :=
  ['"', '"', '"'] ++ literal.content ++ ['"', '"', '"']

def value (literal : BlockLiteral) : List (List Char) :=
  literal.lines.map fun line => line.drop literal.margin.length

theorem ne_of_blank {c : Char} (h : c = ' ' ∨ c = '\t') : c ≠ '\n' ∧ c ≠ '\r' := by
  rcases h with rfl | rfl <;> decide

theorem mem_indentedLine {margin line : List Char} {c : Char}
    (h : c ∈ Generated.indentedLine margin line) : c ∈ margin ∨ c ∈ line := by
  cases line with
  | nil => cases h
  | cons d line => exact List.mem_append.1 h

def moved (literal : BlockLiteral) (margin : List Char)
    (hmargin : ∀ c ∈ margin, c = ' ' ∨ c = '\t') : BlockLiteral where
  margin := margin ++ literal.margin
  lines := literal.lines.map (Generated.indentedLine margin)
  margin_blank := List.forall_mem_append.2 ⟨hmargin, literal.margin_blank⟩
  lines_plain := by
    rw [List.forall_mem_map]
    intro line hline c hc
    rcases mem_indentedLine hc with hc | hc
    · exact ne_of_blank (hmargin c hc)
    · exact literal.lines_plain line hline c hc
  lines_open := by
    rw [List.forall_mem_map]
    intro line hline hquotes
    apply literal.lines_open line hline
    cases line with
    | nil => exact hquotes
    | cons d line =>
      refine Text.infix_append_of_notMem (by simp) ?_ hquotes
      intro c hc
      rcases hmargin c hc with rfl | rfl <;> decide
  lines_behind := by
    rw [List.forall_mem_map]
    intro line hline hne
    cases line with
    | nil => exact absurd rfl hne
    | cons c line =>
      exact (List.prefix_append_right_inj margin).2
        (literal.lines_behind _ hline (List.cons_ne_nil c line))

theorem value_moved (literal : BlockLiteral) {margin : List Char}
    (hmargin : ∀ c ∈ margin, c = ' ' ∨ c = '\t') :
    (literal.moved margin hmargin).value = literal.value := by
  simp only [value, moved, List.map_map, List.map_inj_left]
  intro line _
  cases line with
  | nil => simp [Generated.indentedLine]
  | cons c line => simp [Generated.indentedLine]

theorem moved_text (literal : BlockLiteral) {margin : List Char}
    (hmargin : ∀ c ∈ margin, c = ' ' ∨ c = '\t') :
    Text.moved margin false literal.text = (literal.moved margin hmargin).text := by
  have hlast : ∀ c ∈ literal.margin ++ ['"', '"', '"'], c ≠ '\n' ∧ c ≠ '\r' :=
    List.forall_mem_append.2
      ⟨fun c hc => ne_of_blank (literal.margin_blank c hc), by simp⟩
  have hfirst : Text.moved margin false literal.text = ['"', '"', '"', '\n'] ++
      Text.moved margin true (literal.lines.flatMap (· ++ ['\n']) ++
        (literal.margin ++ ['"', '"', '"'])) := by
    simp [text, content, Text.moved]
  rw [hfirst, Text.moved_lines literal.lines_plain, Text.moved_last hlast (by simp)]
  simp [text, content, moved]

theorem getLast?_of_tail {c d : Char} {rest : List Char} (h : d ∈ rest.getLast?) :
    d ∈ (c :: rest).getLast? := by
  cases rest with
  | nil => cases h
  | cons e rest => rwa [List.getLast?_cons_cons]

/-- The scanner of literals goes on up to three quotes, if there are none before, and neither
    a backslash nor another quote directly in front of them. -/
theorem quotationFrom_block_closes {opened read : Nat} {content after : List Char}
    (hopen : ¬ ['"', '"', '"'] <:+: content)
    (hlast : ∀ c ∈ content.getLast?, c ≠ '"' ∧ c ≠ '\\') :
    Token.quotationFrom [.block opened] read (content ++ '"' :: '"' :: '"' :: after) =
      .ok (read + content.length + 3) := by
  -- a backslash takes two characters at once
  induction hlength : content.length using Nat.strongRecOn generalizing content read with
  | ind length ih =>
    subst hlength
    cases content with
    | nil => simp [Token.quotationFrom]
    | cons c rest =>
      have hopenRest : ¬ ['"', '"', '"'] <:+: rest := fun h => hopen (List.infix_cons h)
      have hlastRest : ∀ d ∈ rest.getLast?, d ≠ '"' ∧ d ≠ '\\' :=
        fun d hd => hlast d (getLast?_of_tail hd)
      by_cases hescape : c = '\\'
      · subst hescape
        cases rest with
        | nil => exact absurd rfl (hlast _ rfl).2
        | cons d rest =>
          rw [List.cons_append, List.cons_append, Token.quotationFrom,
            ih rest.length (by simp only [List.length_cons]; omega)
              (fun h => hopenRest (List.infix_cons h))
              (fun d hd => hlastRest d (getLast?_of_tail hd)) rfl]
          simp only [List.length_cons, Except.ok.injEq]
          omega
      · rw [List.cons_append, Token.quotationFrom_block_plain hescape,
          ih rest.length (by simp) hopenRest hlastRest rfl]
        · simp only [List.length_cons, Except.ok.injEq]
          omega
        · -- three quotes would come too early, or go on with those at the end
          rintro ⟨rfl, more, hmore⟩
          rcases rest with _ | ⟨_, _ | ⟨_, rest⟩⟩
          · exact (hlast _ rfl).1 rfl
          · cases hmore
            exact (hlast _ rfl).1 rfl
          · cases hmore
            exact hopen ⟨[], rest, rfl⟩

theorem content_open (literal : BlockLiteral) : ¬ ['"', '"', '"'] <:+: literal.content := by
  have hmargin : ¬ ['"', '"', '"'] <:+: literal.margin ++ [] := by
    intro hquotes
    have hnil := Text.infix_append_of_notMem (by simp) (fun c hc => ?_) hquotes
    · exact absurd (List.infix_nil.1 hnil) (by simp)
    · rcases literal.margin_blank c hc with rfl | rfl <;> decide
  rw [List.append_nil] at hmargin
  -- what the lines and the margin do not have in them, they do not have in a row
  have hlines : ∀ lines : List (List Char), (∀ line ∈ lines, ¬ ['"', '"', '"'] <:+: line) →
      ¬ ['"', '"', '"'] <:+: lines.flatMap (· ++ ['\n']) ++ literal.margin := by
    intro lines
    induction lines with
    | nil => exact fun _ => hmargin
    | cons line lines ih =>
      intro hall hquotes
      rw [List.forall_mem_cons] at hall
      rw [List.flatMap_cons, List.append_assoc, List.append_assoc, List.singleton_append] at hquotes
      rcases Text.infix_append_cons (by decide) hquotes with hquotes | hquotes
      · exact hall.1 hquotes
      · exact ih hall.2 hquotes
  intro hquotes
  rcases Text.infix_append_cons (a := []) (by decide) hquotes with hnil | hrest
  · exact absurd (List.infix_nil.1 hnil) (by simp)
  · exact hlines literal.lines literal.lines_open hrest

theorem content_last (literal : BlockLiteral) :
    ∀ c ∈ literal.content.getLast?, c ≠ '"' ∧ c ≠ '\\' := by
  obtain ⟨front, hfront⟩ : ∃ front,
      '\n' :: literal.lines.flatMap (· ++ ['\n']) = front ++ ['\n'] := by
    cases literal.lines using List.reverseRecOn with
    | nil => exact ⟨[], rfl⟩
    | append_singleton lines line =>
      exact ⟨'\n' :: (lines.flatMap (· ++ ['\n']) ++ line), by simp⟩
  intro c hc
  rw [content, ← List.cons_append, hfront, List.getLast?_append, List.getLast?_concat] at hc
  cases hlast : literal.margin.getLast? with
  | none =>
    rw [hlast] at hc
    cases hc
    decide
  | some d =>
    rw [hlast] at hc
    cases hc
    rcases literal.margin_blank c (List.mem_of_getLast? hlast) with rfl | rfl <;> decide

/-- A literal over several lines is one token, whatever comes behind it. -/
theorem reads (literal : BlockLiteral) (after : List Char) :
    (Token.string (String.ofList literal.text)).Reads literal.text after := by
  refine ⟨'"', '"' :: '"' :: (literal.content ++ '"' :: '"' :: '"' :: after),
    ⟨.string, literal.text.length⟩, by simp [text], ?_, rfl, rfl⟩
  rw [Token.lexeme, Token.quotationLength,
    quotationFrom_block_closes literal.content_open literal.content_last]
  simp [Except.map, text]
  omega

end BlockLiteral

/-- **A margin keeps the value of a default over several lines.**  Wherever such a literal
    stands among the parameters, the declaration that is moved to the right has a literal
    with the same value in its place.  The texts around the default are moved as well, and
    do not depend on it. -/
theorem indented_block_default (layout : Layout) {margin : List Char}
    (hmargin : ∀ c ∈ margin, c = ' ' ∨ c = '\t') (literal : BlockLiteral) {init : Initializer}
    {front back : List Parameter} {parameter : Parameter}
    (hparameters : init.parameters = front ++ parameter :: back)
    (hdefault : parameter.default? = some (String.ofList literal.text)) :
    ∃ (before behind : List Char) (printed : BlockLiteral),
      (∀ value, ((Generated.initializer (init.withDefault front parameter back value)).text
        layout).toList = before ++ value.toList ++ behind) ∧
      (Generated.initializer init).indented layout margin =
        Text.moved margin true before ++ printed.text ++ Text.moved margin false behind ∧
      (∀ after, (Token.string (String.ofList printed.text)).Reads printed.text after) ∧
      printed.margin = margin ++ literal.margin ∧ printed.value = literal.value := by
  obtain ⟨start, behind, haround⟩ := init.exists_around layout front parameter back
  refine ⟨start ++ [' '], behind, literal.moved margin hmargin, haround, ?_,
    (literal.moved margin hmargin).reads, rfl, literal.value_moved hmargin⟩
  have hinit : init = init.withDefault front parameter back (String.ofList literal.text) := by
    rw [Initializer.withDefault, ← hdefault, ← hparameters]
  have htext := haround (String.ofList literal.text)
  rw [← hinit, String.toList_ofList] at htext
  have hends : ∀ rest, literal.text ++ rest =
      ['"', '"', '"'] ++ literal.content ++ ['"', '"'] ++ '"' :: rest := by
    simp [BlockLiteral.text]
  have hdefaultMoved : Text.moved margin false (literal.text ++ behind) =
      (literal.moved margin hmargin).text ++ Text.moved margin false behind := by
    have hcut := hends []
    rw [List.append_nil] at hcut
    rw [hends, Text.moved_append (by decide), ← hcut, literal.moved_text hmargin]
  rw [Generated.indented_eq_moved, htext, List.append_assoc, List.append_assoc,
    List.singleton_append, Text.moved_append (by decide), hdefaultMoved, List.append_assoc]

/-- A literal with an empty line and a line that is indented further, moved behind a tab. -/
theorem indented_block_default_tab :
    ∃ (before behind : List Char) (printed : BlockLiteral),
      (∀ value, ((Generated.initializer ((Initializer.storing [⟨"note", .string,
        some "\"\"\"\n  a\n\n    b\n  \"\"\""⟩]).withDefault [] ⟨"note", .string,
        some "\"\"\"\n  a\n\n    b\n  \"\"\""⟩ [] value)).text ⟨4⟩).toList =
          before ++ value.toList ++ behind) ∧
      (Generated.initializer (.storing [⟨"note", .string,
        some "\"\"\"\n  a\n\n    b\n  \"\"\""⟩])).indented ⟨4⟩ ['\t'] =
          Text.moved ['\t'] true before ++ printed.text ++ Text.moved ['\t'] false behind ∧
      (∀ after, (Token.string (String.ofList printed.text)).Reads printed.text after) ∧
      printed.margin = ['\t', ' ', ' '] ∧ printed.value = [['a'], [], [' ', ' ', 'b']] :=
  indented_block_default ⟨4⟩ (by simp)
    ⟨[' ', ' '], [[' ', ' ', 'a'], [], [' ', ' ', ' ', ' ', 'b']], by simp, by simp, by decide,
      by decide⟩ rfl rfl

end Memberwise
