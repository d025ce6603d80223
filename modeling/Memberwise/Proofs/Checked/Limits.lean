/-
  Memberwise/Proofs/Checked/Limits.lean
  =====================================
  **What fits into words and texts, and what does not.**

  Two sizes are limited.  An indentation is a text, and a text has fewer than `2 ^ 63`
  bytes; a balance of brackets in a type or in a clause of generic parameters is a signed
  word of 32 bits.  Below both limits nothing is undefined.

  Beyond the first, answering is undefined just if there is something to indent
  (`expand_eq_none_iff`).  Beyond the second, reading can be undefined: a cast wraps
  `2 ^ 31` brackets to the least word, and none can be taken off that
  (`angles_eq_none`).
-/
import Memberwise.Proofs.Annotations
import Memberwise.Proofs.Checked.Expanding

namespace Memberwise.Checked

/-! ### Below the limits -/

/-- **Nothing is undefined while brackets and indentation fit.**  If a source has fewer than
    `2 ^ 31` of the brackets that are counted, and the indentation fits into a text or nothing is
    indented, the tokens, the outline, the expansion and the text with any fix-its applied are
    got with all indices inside their rows, all counts inside their range, all differences at
    least zero and all slices at places between characters, in order and inside the text; every
    loop ends, and the results are those of the library. -/
theorem defined_of_countable (layout : Layout) {source : String}
    (hfits : layout.fits = true ∨ generates source = false)
    (hcountable : Countable source.toList) :
    tokenize source.toList = some (Memberwise.tokenize source.toList) ∧
    outline source.toList = some (Outline.ofSource source.toList) ∧
    expand layout source = some (Memberwise.expand layout source) ∧
    ∀ diagnostics,
      applyFixIts source diagnostics = some (Memberwise.applyFixIts source diagnostics) :=
  ⟨tokenize_eq source.toList, outline_eq hcountable, expand_eq hfits hcountable,
    applyFixIts_eq source⟩

def bracketedStruct : String :=
  "@PublicInit struct S<T: Box<[T]>> \x7b let a: [T: (Int) -> A<B>]?= [:] \x7d"

theorem defined_of_countable_brackets :
    Countable bracketedStruct.toList ∧ generates bracketedStruct = true ∧
    outline bracketedStruct.toList = some (Outline.ofSource bracketedStruct.toList) ∧
    expand .standard bracketedStruct = some (Memberwise.expand .standard bracketedStruct) := by
  have hcountable : Countable bracketedStruct.toList := by decide +kernel
  obtain ⟨-, houtline, hexpand, -⟩ :=
    defined_of_countable .standard (.inl (by decide)) hcountable
  exact ⟨hcountable, by decide +kernel, houtline, hexpand⟩

/-! ### Indentations that do not fit -/

theorem mapM_eq_none {α β : Type} {f : α → Option β} {list : List α} {a : α} (ha : a ∈ list)
    (h : f a = none) : list.mapM f = none := by
  induction list with
  | nil => cases ha
  | cons first rest ih =>
    rw [List.mapM_cons]
    rcases List.mem_cons.1 ha with rfl | ha
    · rw [h]
      rfl
    · rw [ih ha]
      cases f first <;> rfl

theorem settled_eq_none {layout : Layout} {declaration : Declaration}
    (hfits : layout.fits = false) (hgenerated : declaration.generated ≠ [])
    (source : List Char) : settled layout source declaration = none := by
  have hinsertion : ∀ generated, insertion layout source declaration generated = none := by
    intro generated
    rw [insertion, indentable, hfits]
    rfl
  rw [settled_eq_match]
  split
  · next hnil => exact absurd hnil hgenerated
  · rw [hinsertion, Option.map_none]

/-- **Answering is undefined just if something is to be indented by what does not fit.** -/
theorem expand_eq_none_iff {layout : Layout} {source : String}
    (hcountable : Countable source.toList) :
    expand layout source = none ↔ layout.fits = false ∧ generates source = true := by
  constructor
  · intro hnone
    by_contra hdefined
    have hfits : layout.fits = true ∨ generates source = false := by
      cases hfits : layout.fits <;> simp_all
    rw [expand_eq hfits hcountable] at hnone
    cases hnone
  · rintro ⟨hfits, hgenerates⟩
    unfold generates at hgenerates
    unfold expand
    rw [outline_eq hcountable]
    cases houtline : Outline.ofSource source.toList with
    | error cause =>
      rw [houtline] at hgenerates
      cases hgenerates
    | ok outline =>
      rw [houtline] at hgenerates
      obtain ⟨declaration, hmem, hgenerated⟩ := List.any_eq_true.1 hgenerates
      have hsettled := mapM_eq_none hmem
        (settled_eq_none hfits (by simpa using hgenerated) source.toList)
      simp only [Option.bind_eq_bind, Option.bind_some, (answerable_of_ofSource houtline).2,
        hsettled]
      rfl

/-! ### Brackets that do not fit -/

def openedAngles (n : Nat) : List Char := List.replicate n '<' ++ ['>']

/-- As many opening angle brackets as make the cast wrap, and one that closes.  The count comes
    to the least word, and there is none below it. -/
theorem angles_eq_none {n : Nat} (hn : n = 0x80000000) :
    angles (String.ofList (openedAngles n)) 0 = none := by
  have hopen : charCount '<' (String.ofList (openedAngles n)) = n := by
    rw [charCount, String.toList_ofList, openedAngles, List.count_append,
      List.count_replicate_self]
    rfl
  have hclose : charCount '>' (String.ofList (openedAngles n)) = 1 := by
    rw [charCount, String.toList_ofList, openedAngles, List.count_append, List.count_replicate]
    rfl
  rw [angles, hopen, hclose, hn]
  rfl

section Clause

variable {source : List Char} {keyword name lead finish : Placed} {pending : List Placed}
  {word text : String}

theorem genericClause_eq_none {passed : List Placed} {requests : List Span}
    (hlead : lead.token = .operator text) (hangle : text.toList.head? = some '<')
    (hangles : angles text 0 = none) :
    genericClause source (rowOf passed (lead :: pending) finish requests) = none := by
  have hrest : genericRest (readingLimit source) 0
      (rowOf passed (lead :: pending) finish requests) = none := by
    rw [readingLimit, genericRest, bind_apply, next_rowOf_cons (by rw [hlead]; simp), andThen_ok,
      hlead]
    simp only [bind_apply, hangles]
    rfl
  rw [genericClause, bind_apply, peek_rowOf, andThen_ok, List.headD_cons, hlead]
  simp only [hangle, if_true, bind_apply, hrest]
  rfl

theorem qualifiedName_rowOf {passed : List Placed} {requests : List Span}
    (hname : name.token = .name word) (hlead : lead.token = .operator text) :
    qualifiedName source (rowOf passed (name :: lead :: pending) finish requests) =
      some (.ok (word, rowOf (passed ++ [name]) (lead :: pending) finish requests)) := by
  have hfirst : Checked.name (rowOf passed (name :: lead :: pending) finish requests) =
      some (.ok (⟨word, name.span⟩,
        rowOf (passed ++ [name]) (lead :: pending) finish requests)) := by
    rw [Checked.name, bind_apply, peek_rowOf, andThen_ok, List.headD_cons, hname]
    simp only [bind_apply, next_rowOf_cons (by rw [hname]; simp), andThen_ok, pure_apply]
  rw [qualifiedName, bind_apply, hfirst, andThen_ok, readingLimit, qualifiers]
  simp only [bind_apply, peek_rowOf, ahead_one_rowOf, andThen_ok, List.headD_cons, hlead,
    reduceCtorEq, false_and, if_false, pure_apply]

theorem header_eq_none {kind : Declaration.Kind} {start : Span} {passed : List Placed}
    {requests : List Span} (hkeyword : keyword.token = .name "struct")
    (hname : name.token = .name word) (hlead : lead.token = .operator text)
    (hangle : text.toList.head? = some '<') (hangles : angles text 0 = none) :
    header source kind start []
      (rowOf passed (keyword :: name :: lead :: pending) finish requests) = none := by
  rw [header, bind_apply, next_rowOf_cons (by rw [hkeyword]; simp), andThen_ok, bind_apply,
    attachments, pure_apply, andThen_ok, bind_apply, qualifiedName_rowOf hname hlead, andThen_ok,
    bind_apply, genericClause_eq_none hlead hangle hangles]
  rfl

/-- A keyword with a name behind it is the start of a declaration. -/
theorem item_rowOf {passed : List Placed} {requests : List Span}
    (hkeyword : keyword.token = .name "struct") (hname : name.token = .name word) :
    item source (rowOf passed (keyword :: name :: pending) finish requests) =
      (header source .structType keyword.span [] >>= fun header => pure (.opened header))
        (rowOf passed (keyword :: name :: pending) finish requests) := by
  have hattributes : attributes source (readingLimit source)
      (rowOf passed (keyword :: name :: pending) finish requests) =
        some (.ok ([], rowOf passed (keyword :: name :: pending) finish requests)) := by
    rw [readingLimit, attributes, bind_apply, peek_rowOf, andThen_ok, List.headD_cons, hkeyword]
    rfl
  have hmodifier : ∀ following?, modifier? keyword following? = none := by
    intro following?
    rw [modifier?, hkeyword]
    rfl
  have hmodifiers : modifiers (readingLimit source) false
      (rowOf passed (keyword :: name :: pending) finish requests) =
        some (.ok (false, rowOf passed (keyword :: name :: pending) finish requests)) := by
    rw [readingLimit, modifiers]
    simp only [bind_apply, peek_rowOf, ahead_one_rowOf, andThen_ok, List.headD_cons, hmodifier]
    rfl
  rw [item, bind_apply, peek_rowOf, andThen_ok, List.headD_cons, bind_apply, hattributes,
    andThen_ok, bind_apply, hmodifiers, andThen_ok, bind_apply, peek_rowOf, andThen_ok,
    List.headD_cons, hkeyword]
  simp only [bind_apply, ahead_one_rowOf, andThen_ok, List.tail_cons, List.headD_cons, hname]
  rw [if_neg (by decide)]
  exact bind_apply _ _ _

/-- A declaration cannot be read if the first operator of its generic parameters cannot be
    counted. -/
theorem outline_eq_none (htokens : Memberwise.tokenize source =
      .ok ⟨keyword :: name :: lead :: pending, finish⟩)
    (hkeyword : keyword.token = .name "struct") (hname : name.token = .name word)
    (hlead : lead.token = .operator text) (hangle : text.toList.head? = some '<')
    (hangles : angles text 0 = none) : outline source = none := by
  have hitem : item source (rowOf [] (keyword :: name :: lead :: pending) finish []) = none := by
    rw [item_rowOf hkeyword hname, bind_apply, header_eq_none hkeyword hname hlead hangle hangles]
    rfl
  have hitems : items source (readingLimit source)
      (rowOf [] (keyword :: name :: lead :: pending) finish []) = none := by
    rw [readingLimit, items, bind_apply, peek_rowOf, andThen_ok, List.headD_cons, hkeyword]
    simp only [bind_apply, hitem]
    rfl
  have hwhole : wholeOutline source ⟨keyword :: name :: lead :: pending ++ [finish], 0, []⟩ =
      none := by
    rw [wholeOutline, bind_apply]
    exact congrArg (andThen · _) hitems
  rw [outline, tokenize_eq, htokens]
  simp only [Option.bind_eq_bind, Option.bind_some, Tokens.toList, hwhole]
  rfl

end Clause

theorem lexes_openedAngles (n : Nat) :
    Lexes (openedAngles n) [.operator (String.ofList (openedAngles n))] := by
  have hsigns : ∀ c ∈ openedAngles n, c ∈ ['?', '!', '<', '>'] := by
    intro c hc
    rw [openedAngles, List.mem_append, List.mem_replicate, List.mem_singleton] at hc
    rcases hc with ⟨-, rfl⟩ | rfl <;> decide
  have hequals : String.ofList (openedAngles n) ≠ "=" :=
    TypeText.ofList_ne hsigns (c := '=') (by decide) (by decide)
  obtain ⟨hreads, hstop⟩ := Token.reads_operator (openedAngles n) []
    (List.concat_ne_nil _ _) (fun c hc => TypeText.isOperatorPart_of_mem (hsigns c hc)) rfl
  rw [Token.ofOperator, if_neg hequals] at hreads
  rw [List.append_nil] at hstop
  exact .token (hstop 0) (List.append_nil _).symm hreads (.finish rfl)

/-- A structure with a clause that opens angle brackets and closes one is cut into three
    tokens. -/
theorem tokenize_openedAngles {n : Nat} (hn : 0 < n) :
    ∃ keyword name lead finish,
      Memberwise.tokenize ("struct S".toList ++ openedAngles n) =
        .ok ⟨[keyword, name, lead], finish⟩ ∧
      keyword.token = .name "struct" ∧ name.token = .name "S" ∧
      lead.token = .operator (String.ofList (openedAngles n)) := by
  have hstruct : (Token.name "struct").IsAll "struct" := ⟨_, _, rfl, rfl⟩
  have hname : (Token.name "S").IsAll "S" := ⟨_, _, rfl, rfl⟩
  have hends : Token.EndsName (openedAngles n) := by
    obtain ⟨more, rfl⟩ := Nat.exists_eq_add_one_of_ne_zero (Nat.ne_of_gt hn)
    exact .cons (by decide) _
  have hstop : ∀ rest, Token.NoGap ("struct".toList ++ rest) := fun rest =>
    Token.noGap_of_ne (c := 's') (by decide) _
  have hstop' : ∀ rest, Token.NoGap ("S".toList ++ rest) := fun rest =>
    Token.noGap_of_ne (c := 'S') (by decide) _
  have hlexes : Lexes ("struct".toList ++ ([' '] ++ ("S".toList ++ openedAngles n)))
      [.name "struct", .name "S", .operator (String.ofList (openedAngles n))] := by
    refine (Lexes.token_iff (hstop _) rfl).2 ⟨hstruct.reads (.cons (by decide) _), ?_⟩
    refine (Lexes.gap_iff (Token.isGap_blank rfl)).2 ?_
    exact (Lexes.token_iff (hstop' _) rfl).2 ⟨hname.reads hends, lexes_openedAngles n⟩
  obtain ⟨⟨body, finish⟩, htokens, hbody⟩ := tokenize_iff_lexes.2 hlexes
  simp only [List.map_eq_cons_iff, List.map_eq_nil_iff] at hbody
  obtain ⟨keyword, _, rfl, hkeyword, name, _, rfl, hname, lead, _, rfl, hlead, rfl⟩ := hbody
  exact ⟨keyword, name, lead, finish, htokens, hkeyword, hname, hlead⟩

theorem outline_openedAngles {n : Nat} (hn : n = 0x80000000) :
    outline ("struct S".toList ++ openedAngles n) = none := by
  have hpos : 0 < n := hn ▸ Nat.succ_pos 0x7FFFFFFF
  obtain ⟨keyword, name, lead, finish, htokens, hkeyword, hname, hlead⟩ :=
    tokenize_openedAngles hpos
  refine outline_eq_none htokens hkeyword hname hlead ?_ (angles_eq_none hn)
  obtain ⟨more, rfl⟩ := Nat.exists_eq_add_one_of_ne_zero (Nat.ne_of_gt hpos)
  rw [String.toList_ofList]
  rfl

/-- **Reading and answering can be undefined beyond the limits**: there is no indentation of
    `2 ^ 64 - 1` spaces for the initializer of an empty structure, and the brackets behind a name
    are counted to the least word and one below. -/
theorem undefined_beyond_words :
    expand ⟨0xFFFFFFFFFFFFFFFF⟩ "@PublicInit\nstruct S \x7b\x7d" = none ∧
      outline ("struct S".toList ++ openedAngles 0x80000000) = none := by
  exact ⟨(expand_eq_none_iff (by decide +kernel)).2 ⟨by decide, by decide +kernel⟩,
    outline_openedAngles rfl⟩

end Memberwise.Checked
