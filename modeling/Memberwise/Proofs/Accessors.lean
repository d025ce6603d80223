/-
  Memberwise/Proofs/Accessors.lean
  ================================
  **Blocks of accessors end at the brace that matches, and are told by their words.**

  The reader of a block looks for its end with a count of braces, and for the words in it
  with two counts, one of braces and one of all other brackets.  Where brackets nest, the
  open brackets are a stack and the counts are counts of its entries.  So a bracketed part
  of the block leaves both counts as they were, and as long as it lasts, one of them is
  above zero: no word in it is taken for an accessor, whatever it says.

  What is left of an accessor then is its word, and a block of accessors is told by the
  words of its accessors alone.
-/
import Memberwise.Proofs.Nesting

namespace Memberwise

/-! ### Bracketed parts -/

/-- Tokens from a bracket to the one that matches it: what stands between the two nests. -/
structure Bracketed (bracket : Bracket) where
  opening : Placed
  inside : List Placed
  closing : Placed
  opens : opening.token = .opening bracket
  nests : nest [] inside = some []
  closes : closing.token = .closing bracket

namespace Bracketed

variable {bracket : Bracket}

def tokens (part : Bracketed bracket) : List Placed :=
  part.opening :: part.inside ++ [part.closing]

/-- The token behind the opening bracket, which is the closing one if nothing stands between
    them. -/
def first (part : Bracketed bracket) : Placed := part.inside.headD part.closing

theorem nest_tokens (part : Bracketed bracket) : nest [] part.tokens = some [] := by
  have hinside : nest [bracket] part.inside = some [bracket] := nest_lift part.nests [bracket]
  rw [tokens, List.cons_append, nest_cons_eq_some]
  refine ⟨[bracket], by rw [part.opens]; rfl, ?_⟩
  rw [nest_append_eq_some]
  refine ⟨[bracket], hinside, ?_⟩
  rw [nest_singleton, part.closes, Token.openAfter_closing]

end Bracketed

/-! ### Counts of open brackets -/

def braceCount (stack : List Bracket) : Nat := stack.countP (· == .curly)

/-- Number of brackets other than braces among open brackets. -/
def bracketCount (stack : List Bracket) : Nat := stack.countP (· != .curly)

theorem braceCount_pos_or {stack : List Bracket} (h : stack ≠ []) :
    ¬ (braceCount stack = 0 ∧ bracketCount stack = 0) := by
  obtain ⟨bracket, below, rfl⟩ := List.exists_cons_of_ne_nil h
  cases bracket <;> simp [braceCount, bracketCount]

/-- A token that nests moves the run of a block from one count of braces to the next. -/
theorem blockRun?_cons {stack above : List Bracket} {placed : Placed}
    (h : placed.token.openAfter stack = some above) (rest : List Placed) :
    blockRun? (braceCount stack) (placed :: rest) =
      (blockRun? (braceCount above) rest).map (andTake placed) := by
  cases htoken : placed.token with
  | opening bracket =>
    rw [htoken] at h
    cases h
    cases bracket <;> simp [blockRun?, htoken, braceCount]
  | closing bracket =>
    rw [htoken] at h
    obtain rfl := Token.openAfter_closing.1 h
    cases bracket <;> simp [blockRun?, htoken, braceCount]
  | _ =>
    rw [htoken] at h
    cases h
    simp only [blockRun?, htoken]

/-- Tokens that nest are taken whole by the run of a block. -/
theorem blockRun?_append {stack above : List Bracket} {inside : List Placed}
    (h : nest stack inside = some above) (rest : List Placed) :
    blockRun? (braceCount stack) (inside ++ rest) =
      (blockRun? (braceCount above) rest).map fun parts => (inside ++ parts.1, parts.2) := by
  induction inside generalizing stack with
  | nil =>
    cases h
    simp
  | cons placed inside ih =>
    obtain ⟨between, hplaced, hinside⟩ := nest_cons_eq_some.1 h
    rw [List.cons_append, blockRun?_cons hplaced, ih hinside, Option.map_map]
    rfl

/-- Inside some bracket no word is found, and the counts stay those of the open brackets. -/
theorem accessorsIn_cons {stack above : List Bracket} {placed : Placed} (hinside : stack ≠ [])
    (h : placed.token.openAfter stack = some above) (rest : List Placed) :
    accessorsIn (braceCount stack) (bracketCount stack) (placed :: rest) =
      accessorsIn (braceCount above) (bracketCount above) rest := by
  cases htoken : placed.token with
  | opening bracket =>
    rw [htoken] at h
    cases h
    cases bracket <;> simp [accessorsIn, htoken, braceCount, bracketCount]
  | closing bracket =>
    rw [htoken] at h
    obtain rfl := Token.openAfter_closing.1 h
    cases bracket <;> simp [accessorsIn, htoken, braceCount, bracketCount]
  | name word =>
    rw [htoken] at h
    cases h
    simp only [accessorsIn, htoken]
    rw [if_neg]
    rintro ⟨hbraces, hbrackets, -⟩
    exact braceCount_pos_or hinside ⟨hbraces, hbrackets⟩
  | _ =>
    rw [htoken] at h
    cases h
    simp only [accessorsIn, htoken]

/-- No word is found in tokens that nest inside some bracket. -/
theorem accessorsIn_append {low stack above : List Bracket} {inside : List Placed}
    (hlow : low ≠ []) (h : nest stack inside = some above) (rest : List Placed) :
    accessorsIn (braceCount (stack ++ low)) (bracketCount (stack ++ low)) (inside ++ rest) =
      accessorsIn (braceCount (above ++ low)) (bracketCount (above ++ low)) rest := by
  induction inside generalizing stack with
  | nil =>
    cases h
    rfl
  | cons placed inside ih =>
    obtain ⟨between, hplaced, hinside⟩ := nest_cons_eq_some.1 h
    rw [List.cons_append, accessorsIn_cons (by simp [hlow]) (Token.openAfter_append hplaced low),
      ih hinside]

namespace Bracketed

variable {bracket : Bracket}

/-- A bracketed part holds no accessor words. -/
theorem accessorsIn_tokens (part : Bracketed bracket) (rest : List Placed) :
    accessorsIn 0 0 (part.tokens ++ rest) = accessorsIn 0 0 rest := by
  have hopen : accessorsIn 0 0 (part.opening :: (part.inside ++ part.closing :: rest)) =
      accessorsIn (braceCount [bracket]) (bracketCount [bracket])
        (part.inside ++ part.closing :: rest) := by
    cases bracket <;> simp [accessorsIn, part.opens, braceCount, bracketCount]
  have hinside := accessorsIn_append (List.cons_ne_nil bracket []) part.nests
    (part.closing :: rest)
  have hafter : part.closing.token.openAfter [bracket] = some [] := by
    rw [part.closes, Token.openAfter_closing]
  have hclose := accessorsIn_cons (List.cons_ne_nil bracket []) hafter rest
  rw [tokens, List.cons_append, List.cons_append, List.append_assoc, List.singleton_append, hopen]
  exact hinside.trans hclose

end Bracketed

/-! ### Accessors as they are written -/

/-- An accessor: perhaps a word that says whether it changes the value it belongs to, the word
    that introduces it, perhaps parameters, further names such as `async`, and perhaps a
    body. -/
structure AccessorClause where
  modifier? : Option Placed
  keyword : Placed
  word : String
  parameters? : Option (Bracketed .round)
  names : List Placed
  body? : Option (Bracketed .curly)
  modifies : ∀ modifier ∈ modifier?,
    modifier.token = .name "mutating" ∨ modifier.token = .name "nonmutating"
  introduces : keyword.token = .name word
  isAccessor : word ∈ accessorWords
  areNames : ∀ placed ∈ names, ∃ name, placed.token = .name name ∧ name ∉ accessorWords

namespace AccessorClause

def tokens (clause : AccessorClause) : List Placed :=
  clause.modifier?.toList ++ (clause.keyword :: ((clause.parameters?.toList.flatMap (·.tokens)) ++
    (clause.names ++ clause.body?.toList.flatMap (·.tokens))))

/-- Tokens that open and close nothing. -/
theorem nest_of_names {names : List Placed}
    (h : ∀ placed ∈ names, ∃ name, placed.token = .name name) : nest [] names = some [] := by
  induction names with
  | nil => rfl
  | cons placed names ih =>
    rw [List.forall_mem_cons] at h
    obtain ⟨⟨name, hname⟩, hrest⟩ := h
    exact nest_cons_eq_some.2 ⟨[], by rw [hname]; rfl, ih hrest⟩

theorem nest_optional {bracket : Bracket} (part? : Option (Bracketed bracket)) :
    nest [] (part?.toList.flatMap (·.tokens)) = some [] := by
  cases part? with
  | none => rfl
  | some part => simpa using part.nest_tokens

theorem nest_tokens (clause : AccessorClause) : nest [] clause.tokens = some [] := by
  have hmodifier : nest [] clause.modifier?.toList = some [] := by
    apply nest_of_names
    intro modifier hmodifier
    rcases clause.modifies modifier (by simpa using hmodifier) with hword | hword
    · exact ⟨_, hword⟩
    · exact ⟨_, hword⟩
  have hnames : nest [] clause.names = some [] := by
    apply nest_of_names
    intro placed hplaced
    obtain ⟨name, hname, -⟩ := clause.areNames placed hplaced
    exact ⟨name, hname⟩
  rw [tokens, nest_append_eq_some]
  refine ⟨[], hmodifier, nest_cons_eq_some.2 ⟨[], by rw [clause.introduces]; rfl, ?_⟩⟩
  rw [nest_append_eq_some]
  refine ⟨[], nest_optional _, ?_⟩
  rw [nest_append_eq_some]
  exact ⟨[], hnames, nest_optional _⟩

theorem nest_flatMap_tokens (clauses : List AccessorClause) :
    nest [] (clauses.flatMap (·.tokens)) = some [] := by
  induction clauses with
  | nil => rfl
  | cons clause clauses ih =>
    rw [List.flatMap_cons, nest_append_eq_some]
    exact ⟨[], clause.nest_tokens, ih⟩

/-! ### The words of accessors -/

theorem accessorsIn_names {names : List Placed}
    (h : ∀ placed ∈ names, ∃ name, placed.token = .name name ∧ name ∉ accessorWords)
    (rest : List Placed) : accessorsIn 0 0 (names ++ rest) = accessorsIn 0 0 rest := by
  induction names with
  | nil => rfl
  | cons placed names ih =>
    rw [List.forall_mem_cons] at h
    obtain ⟨⟨name, hname, hword⟩, hrest⟩ := h
    rw [List.cons_append, accessorsIn, hname]
    simp [hword, ih hrest]

theorem accessorsIn_optional {bracket : Bracket} (part? : Option (Bracketed bracket))
    (rest : List Placed) :
    accessorsIn 0 0 (part?.toList.flatMap (·.tokens) ++ rest) = accessorsIn 0 0 rest := by
  cases part? with
  | none => rfl
  | some part => simpa using part.accessorsIn_tokens rest

/-- Of an accessor the word that introduces it is found, and nothing else. -/
theorem accessorsIn_tokens (clause : AccessorClause) (rest : List Placed) :
    accessorsIn 0 0 (clause.tokens ++ rest) = clause.word :: accessorsIn 0 0 rest := by
  have hmodifier : ∀ placed ∈ clause.modifier?.toList,
      ∃ name, placed.token = .name name ∧ name ∉ accessorWords := by
    intro modifier hmodifier
    rcases clause.modifies modifier (by simpa using hmodifier) with hword | hword
    · exact ⟨_, hword, by decide⟩
    · exact ⟨_, hword, by decide⟩
  have hkeyword : ∀ behind, accessorsIn 0 0 (clause.keyword :: behind) =
      clause.word :: accessorsIn 0 0 behind := by
    intro behind
    rw [accessorsIn, clause.introduces]
    simp [clause.isAccessor]
  rw [tokens, List.append_assoc, accessorsIn_names hmodifier, List.cons_append, hkeyword,
    List.append_assoc, accessorsIn_optional, List.append_assoc,
    accessorsIn_names clause.areNames, accessorsIn_optional]

theorem accessorsIn_flatMap_tokens (clauses : List AccessorClause) (rest : List Placed) :
    accessorsIn 0 0 (clauses.flatMap (·.tokens) ++ rest) =
      clauses.map (·.word) ++ accessorsIn 0 0 rest := by
  induction clauses with
  | nil => rfl
  | cons clause clauses ih =>
    rw [List.flatMap_cons, List.append_assoc, accessorsIn_tokens, ih]
    rfl

/-- An accessor starts with a word that shows a block of accessors. -/
theorem exists_tokens_cons (clause : AccessorClause) :
    ∃ lead rest, clause.tokens = lead :: rest ∧ listsAccessors lead.token = true := by
  rw [tokens]
  cases hmodifier : clause.modifier? with
  | none =>
    refine ⟨clause.keyword, _, rfl, ?_⟩
    rw [clause.introduces, listsAccessors]
    simp [clause.isAccessor]
  | some modifier =>
    refine ⟨modifier, _, rfl, ?_⟩
    rcases clause.modifies modifier hmodifier with hword | hword
    · rw [hword]
      rfl
    · rw [hword]
      rfl

end AccessorClause

structure AccessorBlock where
  opening : Placed
  lead : AccessorClause
  others : List AccessorClause
  closing : Placed
  opens : opening.token = .opening .curly
  closes : closing.token = .closing .curly

namespace AccessorBlock

def clauses (block : AccessorBlock) : List AccessorClause := block.lead :: block.others

/-- The block as a bracketed part: its braces match, since its accessors nest. -/
def bracketed (block : AccessorBlock) : Bracketed .curly where
  opening := block.opening
  inside := block.clauses.flatMap (·.tokens)
  closing := block.closing
  opens := block.opens
  nests := AccessorClause.nest_flatMap_tokens block.clauses
  closes := block.closes

theorem listsAccessors_first (block : AccessorBlock) :
    listsAccessors block.bracketed.first.token = true := by
  obtain ⟨lead, rest, htokens, hlists⟩ := block.lead.exists_tokens_cons
  simpa [bracketed, Bracketed.first, clauses, htokens] using hlists

end AccessorBlock

/-! ### Reading a block -/

namespace Reader

variable (rest : List Placed) (finish : Placed) (readTo : Nat) (requests : List Span)

/-- A block is taken up to the brace that matches its first one. -/
theorem accessorBlock_bracketed (block : Bracketed .curly) :
    accessorBlock ⟨block.tokens ++ rest, finish, readTo, requests⟩ =
      .ok (.ofBlock block.first.token (block.inside ++ [block.closing]),
        ⟨rest, finish, block.closing.span.stop, requests⟩) := by
  have hrun : blockRun? 0 (block.inside ++ block.closing :: rest) =
      some (block.inside ++ [block.closing], rest) := by
    have hclose : blockRun? 0 (block.closing :: rest) = some ([block.closing], rest) := by
      rw [blockRun?]
      exact block.closes
    have hwhole := blockRun?_append block.nests (block.closing :: rest)
    rwa [show braceCount [] = 0 from rfl, hclose] at hwhole
  have hnext : next ⟨block.tokens ++ rest, finish, readTo, requests⟩ = .ok (block.opening,
      ⟨block.inside ++ block.closing :: rest, finish, block.opening.span.stop, requests⟩) := by
    simp [next, Bracketed.tokens]
  have hhead : TokenStream.head ⟨block.inside ++ block.closing :: rest, finish,
      block.opening.span.stop, requests⟩ = block.first := by
    rw [TokenStream.head, Bracketed.first]
    cases block.inside <;> rfl
  rw [accessorBlock]
  refine bind_eq_ok.2 ⟨_, _, hnext, ?_⟩
  rw [get_bind_eq_ok, hrun, hhead]
  refine bind_eq_ok.2 ⟨block.inside ++ [block.closing], _, ?_, rfl⟩
  simp [take]

/-- **A block of accessors is read up to the brace that matches its first one, and is a block
    of observers exactly if each of its accessors is one.**  Whatever the accessors hold in
    brackets does not count.  A block that starts with anything else is the body of a
    getter. -/
theorem accessorBlock_eq_ok :
    (∀ block : AccessorBlock,
      accessorBlock ⟨block.bracketed.tokens ++ rest, finish, readTo, requests⟩ =
        .ok (if ∀ clause ∈ block.clauses, clause.word = "willSet" ∨ clause.word = "didSet"
            then .observed else .computed,
          ⟨rest, finish, block.closing.span.stop, requests⟩)) ∧
    ∀ block : Bracketed .curly, block.first.token ≠ .atSign →
      (∀ word, block.first.token = .name word →
        word ∉ accessorWords ∧ word ≠ "mutating" ∧ word ≠ "nonmutating") →
      accessorBlock ⟨block.tokens ++ rest, finish, readTo, requests⟩ =
        .ok (.computed, ⟨rest, finish, block.closing.span.stop, requests⟩) := by
  constructor
  · intro block
    have hwords : accessorsIn 0 0 (block.bracketed.inside ++ [block.bracketed.closing]) =
        block.clauses.map (·.word) := by
      have hclose : accessorsIn 0 0 [block.closing] = [] := by
        rw [accessorsIn, block.closes]
        rfl
      have hall := AccessorClause.accessorsIn_flatMap_tokens block.clauses [block.closing]
      rwa [hclose, List.append_nil] at hall
    rw [accessorBlock_bracketed, Accessors.ofBlock, hwords, block.listsAccessors_first]
    congr 2
    simp [AccessorBlock.clauses, isObserverWord]
  · intro block hsign hword
    have hlists : listsAccessors block.first.token = false := by
      cases htoken : block.first.token with
      | name word =>
        obtain ⟨haccessor, hmutating, hnonmutating⟩ := hword word htoken
        simp [listsAccessors, haccessor, hmutating, hnonmutating]
      | atSign => exact absurd htoken hsign
      | _ => rfl
    rw [accessorBlock_bracketed, Accessors.ofBlock, hlists]
    simp

end Reader

def Token.unplaced (token : Token) : Placed := ⟨token, .nowhere, false⟩

/-- A block of observers in which `get` stands in the body of the first, and the second has
    no body: `{ willSet(new) { get } nonmutating didSet async }`. -/
def observersWithGet : AccessorBlock where
  opening := (Token.opening .curly).unplaced
  lead :=
    { modifier? := none
      keyword := (Token.name "willSet").unplaced
      word := "willSet"
      parameters? := some ⟨(Token.opening .round).unplaced, [(Token.name "new").unplaced],
        (Token.closing .round).unplaced, rfl, rfl, rfl⟩
      names := []
      body? := some ⟨(Token.opening .curly).unplaced, [(Token.name "get").unplaced],
        (Token.closing .curly).unplaced, rfl, rfl, rfl⟩
      modifies := nofun
      introduces := rfl
      isAccessor := by decide
      areNames := nofun }
  others :=
    [{ modifier? := some (Token.name "nonmutating").unplaced
       keyword := (Token.name "didSet").unplaced
       word := "didSet"
       parameters? := none
       names := [(Token.name "async").unplaced]
       body? := none
       modifies := by
         rintro _ ⟨⟩
         exact .inr rfl
       introduces := rfl
       isAccessor := by decide
       areNames := by
         intro placed hplaced
         obtain rfl := List.mem_singleton.1 hplaced
         exact ⟨"async", rfl, by decide⟩ }]
  closing := (Token.closing .curly).unplaced
  opens := rfl
  closes := rfl

def getterWithWillSet : Bracketed .curly :=
  ⟨(Token.opening .curly).unplaced, [(Token.name "return").unplaced,
    (Token.name "willSet").unplaced], (Token.closing .curly).unplaced, rfl, rfl, rfl⟩

theorem Reader.accessorBlock_eq_ok_words :
    accessorBlock ⟨observersWithGet.bracketed.tokens ++ [Token.comma.unplaced],
        Token.endOfInput.unplaced, 0, []⟩ =
      .ok (.observed, ⟨[Token.comma.unplaced], Token.endOfInput.unplaced, 0, []⟩) ∧
    accessorBlock ⟨getterWithWillSet.tokens ++ [Token.comma.unplaced],
        Token.endOfInput.unplaced, 0, []⟩ =
      .ok (.computed, ⟨[Token.comma.unplaced], Token.endOfInput.unplaced, 0, []⟩) := by
  obtain ⟨hclauses, hother⟩ :=
    accessorBlock_eq_ok [Token.comma.unplaced] Token.endOfInput.unplaced 0 []
  constructor
  · have hread := hclauses observersWithGet
    rwa [if_pos (by decide)] at hread
  · refine hother getterWithWillSet nofun ?_
    rintro _ ⟨⟩
    decide

end Memberwise
