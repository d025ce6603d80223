/-
  Memberwise/Proofs/Requests.lean
  ===============================
  **What an attribute requests, rule by rule.**

  Three functions look at the arguments of an attribute: one for labels that do not belong,
  one for the value behind a label, and one for what that value says.  Which of their errors
  is reported follows from the order in which they are asked.

  Here the outcome is given by rules instead (`Attribute.Requests`), and each rule names all
  that it depends on: the name of the attribute, and either the first argument with a label
  that does not belong, or, where all labels belong, the first argument.  What stands behind
  that argument never matters.
-/
import Mathlib.Data.List.TakeWhile
import Memberwise.Proofs.Declarations

namespace Memberwise

/-! ### Rules -/

def Argument.Labelled (labels : List String) (argument : Argument) : Prop :=
  ∃ label ∈ labels, argument.label? = some label

def Argument.shownLabel (argument : Argument) : String := argument.label?.getD "_"

def Request.allowedLabels : List (String × List String) :=
  [(publicInitName, []), (codingKeysName, ["using"]), (codingKeyName, ["name"])]

def Expr.strategy : Expr → String
  | ⟨.implicitMember name, _, _⟩ => name
  | ⟨_, text, _⟩ => text

def Naming.words : List (String × Naming) :=
  [("default", .identity), ("identity", .identity), ("snake_case", .snakeCase)]

/-- The word of a text, which may have points in front of it. -/
def Naming.WordOf (text word : String) : Prop :=
  ∃ points : List Char, text.toList = points ++ word.toList ∧ (∀ c ∈ points, c = '.') ∧
    word.toList.head? ≠ some '.'

/-- What comes of an attribute. -/
inductive Attribute.Requests (attr : Attribute) :
    Except ArgumentError (Option Request) → Prop where
  /-- An attribute with another name requests nothing, whatever its arguments are. -/
  | nothing (hname : attr.name ∉ requestNames) : attr.Requests (.ok none)
  /-- The first argument with a label that does not belong is reported, whatever the others
      are. -/
  | unexpected {labels : List String} {front back : List Argument} {argument : Argument}
      (hname : (attr.name, labels) ∈ Request.allowedLabels)
      (harguments : attr.arguments = front ++ argument :: back)
      (hfront : ∀ earlier ∈ front, earlier.Labelled labels)
      (hlabel : ¬ argument.Labelled labels) :
      attr.Requests (.error (.unexpectedArgument attr.name argument.shownLabel))
  | publicInit (hname : attr.name = Request.publicInitName) (hnone : attr.arguments = []) :
      attr.Requests (.ok (some .publicInit))
  /-- Keys are the names of the members, if nothing else is asked for. -/
  | names (hname : attr.name = Request.codingKeysName) (hnone : attr.arguments = []) :
      attr.Requests (.ok (some (.codingKeys .identity)))
  /-- The first argument says how keys are made from names. -/
  | strategy {argument : Argument} {more : List Argument} {word : String} {naming : Naming}
      (hname : attr.name = Request.codingKeysName) (hfirst : attr.arguments = argument :: more)
      (hlabels : ∀ given ∈ attr.arguments, given.Labelled ["using"])
      (hword : Naming.WordOf argument.value.strategy word)
      (hnaming : (word, naming) ∈ Naming.words) :
      attr.Requests (.ok (some (.codingKeys naming)))
  | unknownStrategy {argument : Argument} {more : List Argument} {word : String}
      (hname : attr.name = Request.codingKeysName) (hfirst : attr.arguments = argument :: more)
      (hlabels : ∀ given ∈ attr.arguments, given.Labelled ["using"])
      (hword : Naming.WordOf argument.value.strategy word)
      (hnaming : ∀ naming, (word, naming) ∉ Naming.words) :
      attr.Requests (.error (.unknownStrategy word))
  | missing (hname : attr.name = Request.codingKeyName) (hnone : attr.arguments = []) :
      attr.Requests (.error (.missingArgument attr.name "name"))
  /-- The first argument is the key of the member. -/
  | literal {argument : Argument} {more : List Argument}
      (hname : attr.name = Request.codingKeyName) (hfirst : attr.arguments = argument :: more)
      (hlabels : ∀ given ∈ attr.arguments, given.Labelled ["name"])
      (hshape : argument.value.shape = .string) :
      attr.Requests (.ok (some (.codingKey ⟨argument.value.text⟩)))
  | noLiteral {argument : Argument} {more : List Argument}
      (hname : attr.name = Request.codingKeyName) (hfirst : attr.arguments = argument :: more)
      (hlabels : ∀ given ∈ attr.arguments, given.Labelled ["name"])
      (hshape : argument.value.shape ≠ .string) :
      attr.Requests (.error (.expectedStringLiteral attr.name "name"))

/-! ### Labels -/

/-- `_` is no label that an argument may have, so an argument without a label never passes. -/
theorem Argument.contains_shownLabel {labels : List String} (hlabels : "_" ∉ labels)
    (argument : Argument) :
    labels.contains argument.shownLabel = true ↔ argument.Labelled labels := by
  rw [List.contains_iff_mem, shownLabel]
  cases hlabel : argument.label? with
  | none => simp [Labelled, hlabel, hlabels]
  | some label => simp [Labelled, hlabel]

theorem Request.not_mem_of_allowedLabels {name : String} {labels : List String}
    (h : (name, labels) ∈ allowedLabels) : "_" ∉ labels := by
  have hall : ∀ entry ∈ allowedLabels, "_" ∉ entry.2 := by decide
  exact hall _ h

namespace Attribute

variable {attr : Attribute} {labels : List String}

theorem rejectUnknown_of_labelled (hlabels : "_" ∉ labels)
    (hall : ∀ argument ∈ attr.arguments, argument.Labelled labels) :
    attr.rejectUnknown labels = .ok () := by
  have hnone : (attr.arguments.map (·.label?.getD "_")).find? (!labels.contains ·) = none := by
    rw [List.find?_eq_none, List.forall_mem_map]
    intro argument hmem hreject
    have hlabelled := (argument.contains_shownLabel hlabels).2 (hall argument hmem)
    rw [Argument.shownLabel] at hlabelled
    rw [hlabelled] at hreject
    cases hreject
  rw [rejectUnknown, hnone]

theorem rejectUnknown_of_none (hlabels : "_" ∉ labels)
    (hnone : attr.arguments = []) : attr.rejectUnknown labels = .ok () :=
  rejectUnknown_of_labelled hlabels (by rw [hnone]; nofun)

theorem rejectUnknown_of_unexpected {front back : List Argument} {argument : Argument}
    (hlabels : "_" ∉ labels) (harguments : attr.arguments = front ++ argument :: back)
    (hfront : ∀ earlier ∈ front, earlier.Labelled labels) (hlabel : ¬ argument.Labelled labels) :
    attr.rejectUnknown labels = .error (.unexpectedArgument attr.name argument.shownLabel) := by
  have hsome : (attr.arguments.map (·.label?.getD "_")).find? (!labels.contains ·) =
      some argument.shownLabel := by
    rw [List.find?_eq_some_iff_append]
    refine ⟨?_, front.map Argument.shownLabel, back.map Argument.shownLabel, ?_, ?_⟩
    · rw [Bool.not_eq_true', Bool.eq_false_iff, ne_eq, argument.contains_shownLabel hlabels]
      exact hlabel
    · rw [harguments, List.map_append, List.map_cons]
      rfl
    · rw [List.forall_mem_map]
      intro earlier hmem
      rw [Bool.not_not]
      exact (earlier.contains_shownLabel hlabels).2 (hfront earlier hmem)
  rw [rejectUnknown, hsome]

/-- Either all labels belong, or there is a first one that does not. -/
theorem labelled_or_unexpected (labels : List String) (arguments : List Argument) :
    (∀ argument ∈ arguments, argument.Labelled labels) ∨
      ∃ front argument back, arguments = front ++ argument :: back ∧
        (∀ earlier ∈ front, earlier.Labelled labels) ∧ ¬ argument.Labelled labels := by
  induction arguments with
  | nil => exact .inl nofun
  | cons first rest ih =>
    by_cases hfirst : first.Labelled labels
    · rcases ih with hall | ⟨front, argument, back, hrest, hfront, hlabel⟩
      · exact .inl (List.forall_mem_cons.2 ⟨hfirst, hall⟩)
      · refine .inr ⟨first :: front, argument, back, ?_, ?_, hlabel⟩
        · rw [hrest, List.cons_append]
        · exact List.forall_mem_cons.2 ⟨hfirst, hfront⟩
    · exact .inr ⟨[], first, rest, rfl, nofun, hfirst⟩

theorem argument?_of_first {label : String} {argument : Argument} {more : List Argument}
    (hfirst : attr.arguments = argument :: more)
    (hlabels : ∀ given ∈ attr.arguments, given.Labelled [label]) :
    attr.argument? label = some argument.value := by
  rw [hfirst] at hlabels
  obtain ⟨_, hmem, hlabel⟩ := hlabels argument List.mem_cons_self
  obtain rfl := List.mem_singleton.1 hmem
  rw [argument?, hfirst, List.find?_cons_of_pos (by rw [hlabel, beq_self_eq_true])]
  rfl

theorem argument?_of_none {label : String} (hnone : attr.arguments = []) :
    attr.argument? label = none := by
  rw [argument?, hnone]
  rfl

end Attribute

/-! ### Ways of naming -/

namespace Naming

variable {text word : String}

theorem exists_wordOf (text : String) : ∃ word, WordOf text word := by
  refine ⟨String.ofList (text.toList.dropWhile (· == '.')), text.toList.takeWhile (· == '.'),
    ?_, ?_, ?_⟩
  · rw [String.toList_ofList, List.takeWhile_append_dropWhile]
  · intro c hc
    simpa using List.mem_takeWhile_imp hc
  · rw [String.toList_ofList]
    intro hhead
    have hnot := List.head?_dropWhile_not (· == '.') text.toList
    rw [hhead] at hnot
    cases hnot

theorem dropWhile_of_wordOf (h : WordOf text word) :
    String.ofList (text.toList.dropWhile (· == '.')) = word := by
  obtain ⟨points, htext, hpoints, hhead⟩ := h
  have hall : ∀ c ∈ points, (c == '.') = true := by simpa using hpoints
  have hkept : word.toList.dropWhile (· == '.') = word.toList := by
    cases hword : word.toList with
    | nil => rfl
    | cons c rest =>
      rw [hword] at hhead
      exact List.dropWhile_cons_of_neg (by simpa using hhead)
  rw [htext, List.dropWhile_append_of_pos hall, hkept, String.ofList_toList]

theorem ofText_of_mem {naming : Naming} (hword : WordOf text word)
    (hnaming : (word, naming) ∈ words) : ofText text = .ok naming := by
  rw [ofText, dropWhile_of_wordOf hword]
  simp only [words, List.mem_cons, Prod.mk.injEq, List.not_mem_nil, or_false] at hnaming
  rcases hnaming with ⟨rfl, rfl⟩ | ⟨rfl, rfl⟩ | ⟨rfl, rfl⟩ <;> rfl

theorem ofText_of_not_mem (hword : WordOf text word)
    (hnaming : ∀ naming, (word, naming) ∉ words) :
    ofText text = .error (.unknownStrategy word) := by
  rw [ofText, dropWhile_of_wordOf hword]
  have hidentity : ¬ (word = "default" ∨ word = "identity") := by
    rintro (rfl | rfl) <;> exact hnaming .identity (by decide)
  have hsnake : ¬ word = "snake_case" := by
    rintro rfl
    exact hnaming .snakeCase (by decide)
  rw [if_neg hidentity, if_neg hsnake]

end Naming

namespace Attribute

variable {attr : Attribute} {argument : Argument} {more : List Argument}

theorem naming_of_first (hfirst : attr.arguments = argument :: more)
    (hlabels : ∀ given ∈ attr.arguments, given.Labelled ["using"]) :
    attr.naming = Naming.ofText argument.value.strategy := by
  have hreject := rejectUnknown_of_labelled (by decide) hlabels
  have hvalue := argument?_of_first hfirst hlabels
  rw [naming, hreject, hvalue]
  obtain ⟨label?, shape, text, span⟩ := argument
  -- which text is read does not depend on how it is read
  generalize Naming.ofText = ofText
  cases shape <;> rfl

theorem key_of_first (hfirst : attr.arguments = argument :: more)
    (hlabels : ∀ given ∈ attr.arguments, given.Labelled ["name"]) :
    (argument.value.shape = .string → attr.key = .ok ⟨argument.value.text⟩) ∧
    (argument.value.shape ≠ .string →
      attr.key = .error (.expectedStringLiteral attr.name "name")) := by
  have hreject := rejectUnknown_of_labelled (by decide) hlabels
  have hvalue := argument?_of_first hfirst hlabels
  rw [key, hreject, hvalue]
  obtain ⟨label?, shape, text, span⟩ := argument
  constructor
  · rintro ⟨⟩
    rfl
  · intro hshape
    cases shape with
    | string => exact absurd rfl hshape
    | _ => rfl

/-! ### Outcomes -/

theorem request?_publicInit (hname : attr.name = Request.publicInitName) :
    attr.request? = (attr.rejectUnknown []).map fun _ => some .publicInit := by
  rw [request?, if_pos hname]

theorem request?_codingKeys (hname : attr.name = Request.codingKeysName) :
    attr.request? = attr.naming.map fun naming => some (.codingKeys naming) := by
  have hother : ¬ attr.name = Request.publicInitName := by rw [hname]; decide
  rw [request?, if_neg hother, if_pos hname]

theorem request?_codingKey (hname : attr.name = Request.codingKeyName) :
    attr.request? = attr.key.map fun key => some (.codingKey key) := by
  have hinit : ¬ attr.name = Request.publicInitName := by rw [hname]; decide
  have hkeys : ¬ attr.name = Request.codingKeysName := by rw [hname]; decide
  rw [request?, if_neg hinit, if_neg hkeys, if_pos hname]

theorem request?_of_not_mem (hname : attr.name ∉ requestNames) : attr.request? = .ok none := by
  simp only [requestNames, List.mem_cons, List.not_mem_nil, or_false, not_or] at hname
  obtain ⟨hinit, hkeys, hkey⟩ := hname
  rw [request?, if_neg hinit, if_neg hkeys, if_neg hkey]

/-- An argument that does not belong is reported before anything else is looked at. -/
theorem request?_of_reject {labels : List String} {cause : ArgumentError}
    (hname : (attr.name, labels) ∈ Request.allowedLabels)
    (hreject : attr.rejectUnknown labels = .error cause) : attr.request? = .error cause := by
  simp only [Request.allowedLabels, List.mem_cons, Prod.mk.injEq, List.not_mem_nil,
    or_false] at hname
  rcases hname with ⟨hname, rfl⟩ | ⟨hname, rfl⟩ | ⟨hname, rfl⟩
  · rw [request?_publicInit hname, hreject]
    rfl
  · rw [request?_codingKeys hname, naming, hreject]
    rfl
  · rw [request?_codingKey hname, key, hreject]
    rfl

/-- Each rule says what comes of an attribute. -/
theorem Requests.request?_eq {outcome : Except ArgumentError (Option Request)}
    (h : attr.Requests outcome) : attr.request? = outcome := by
  cases h with
  | nothing hname => exact request?_of_not_mem hname
  | unexpected hname harguments hfront hlabel =>
    have hlabels := Request.not_mem_of_allowedLabels hname
    exact request?_of_reject hname
      (rejectUnknown_of_unexpected hlabels harguments hfront hlabel)
  | publicInit hname hnone =>
    rw [request?_publicInit hname, rejectUnknown_of_none (by decide) hnone]
    rfl
  | names hname hnone =>
    rw [request?_codingKeys hname, naming, rejectUnknown_of_none (by decide) hnone,
      argument?_of_none hnone]
    rfl
  | strategy hname hfirst hlabels hword hnaming =>
    rw [request?_codingKeys hname, naming_of_first hfirst hlabels,
      Naming.ofText_of_mem hword hnaming]
    rfl
  | unknownStrategy hname hfirst hlabels hword hnaming =>
    rw [request?_codingKeys hname, naming_of_first hfirst hlabels,
      Naming.ofText_of_not_mem hword hnaming]
    rfl
  | missing hname hnone =>
    rw [request?_codingKey hname, key, rejectUnknown_of_none (by decide) hnone,
      argument?_of_none hnone]
    rfl
  | literal hname hfirst hlabels hshape =>
    rw [request?_codingKey hname, (key_of_first hfirst hlabels).1 hshape]
    rfl
  | noLiteral hname hfirst hlabels hshape =>
    rw [request?_codingKey hname, (key_of_first hfirst hlabels).2 hshape]
    rfl

theorem requests_codingKeys (hname : attr.name = Request.codingKeysName)
    (hlabels : ∀ given ∈ attr.arguments, given.Labelled ["using"]) :
    ∃ outcome, attr.Requests outcome := by
  cases hfirst : attr.arguments with
  | nil => exact ⟨_, .names hname hfirst⟩
  | cons argument more =>
    obtain ⟨word, hword⟩ := Naming.exists_wordOf argument.value.strategy
    by_cases hnaming : ∃ naming, (word, naming) ∈ Naming.words
    · obtain ⟨naming, hnaming⟩ := hnaming
      exact ⟨_, .strategy hname hfirst hlabels hword hnaming⟩
    · exact ⟨_, .unknownStrategy hname hfirst hlabels hword (not_exists.1 hnaming)⟩

theorem requests_codingKey (hname : attr.name = Request.codingKeyName)
    (hlabels : ∀ given ∈ attr.arguments, given.Labelled ["name"]) :
    ∃ outcome, attr.Requests outcome := by
  cases hfirst : attr.arguments with
  | nil => exact ⟨_, .missing hname hfirst⟩
  | cons argument more =>
    by_cases hshape : argument.value.shape = .string
    · exact ⟨_, .literal hname hfirst hlabels hshape⟩
    · exact ⟨_, .noLiteral hname hfirst hlabels hshape⟩

/-- Some rule applies to each attribute. -/
theorem exists_requests (attr : Attribute) : ∃ outcome, attr.Requests outcome := by
  by_cases hnames : attr.name ∈ Request.allowedLabels.map Prod.fst
  · obtain ⟨⟨_, labels⟩, hname, rfl⟩ := List.mem_map.1 hnames
    rcases labelled_or_unexpected labels attr.arguments with
      hlabels | ⟨front, argument, back, harguments, hfront, hlabel⟩
    · simp only [Request.allowedLabels, List.mem_cons, Prod.mk.injEq, List.not_mem_nil,
        or_false] at hname
      rcases hname with ⟨hname, rfl⟩ | ⟨hname, rfl⟩ | ⟨hname, rfl⟩
      · have hnone : attr.arguments = [] := by
          rw [List.eq_nil_iff_forall_not_mem]
          intro argument hmem
          obtain ⟨label, hlabel, -⟩ := hlabels argument hmem
          cases hlabel
        exact ⟨_, .publicInit hname hnone⟩
      · exact requests_codingKeys hname hlabels
      · exact requests_codingKey hname hlabels
    · exact ⟨_, .unexpected hname harguments hfront hlabel⟩
  · exact ⟨_, .nothing hnames⟩

theorem requests_iff (attr : Attribute) (outcome : Except ArgumentError (Option Request)) :
    attr.request? = outcome ↔ attr.Requests outcome := by
  constructor
  · rintro rfl
    obtain ⟨outcome, houtcome⟩ := attr.exists_requests
    rwa [houtcome.request?_eq]
  · exact Requests.request?_eq

/-- **The rules decide what an attribute requests.**  It requests nothing exactly if its name is
    none of the three.  As an attribute of a member, it gives the same key or the same error
    if it is the one that fixes keys, and never fails otherwise. -/
theorem request?_iff (attr : Attribute) :
    (∀ outcome, attr.request? = outcome ↔ attr.Requests outcome) ∧
    (attr.request? = .ok none ↔ attr.name ∉ requestNames) ∧
    (attr.name = Request.codingKeyName →
      ∃ key : Except ArgumentError StringLiteral,
        attr.request? = key.map (fun key => some (.codingKey key)) ∧
          attr.marker = key.map .codingKey) ∧
    (attr.name ≠ Request.codingKeyName → attr.marker = .ok (.other attr.name)) := by
  refine ⟨attr.requests_iff, ⟨?_, request?_of_not_mem⟩, ?_, ?_⟩
  · intro hnothing
    cases (attr.requests_iff _).1 hnothing with
    | nothing hname => exact hname
  · intro hname
    exact ⟨attr.key, request?_codingKey hname, by rw [marker, if_pos hname]⟩
  · intro hname
    rw [marker, if_neg hname]

end Attribute

end Memberwise
