/-
  Memberwise/Proofs/Clauses.lean
  ==============================
  **Which clauses of generic parameters are taken whole.**

  Types and clauses count angle brackets by different rules: in a type the arrow holds no
  bracket, and in a clause its `>` closes one.  A clause is described here by the rule of
  types (`GenericClause`), and is read by the other one.  So the reader is ahead by one
  bracket for each arrow it has passed, and it gets to the end of the clause exactly if at
  every place before more brackets are open than arrows were passed (`Covered`).  A clause
  without arrows is always covered.  Of one that is not, the rest stands where the body
  should open.
-/
import Mathlib.Data.List.Infix
import Memberwise.Proofs.Rereading

namespace Memberwise

/-! ### Angle brackets -/

/-- The angle brackets of a token.  The arrow holds none. -/
def Token.angles : Token → List Char
  | .operator text => if text = "->" then [] else text.toList.filter fun c => c == '<' || c == '>'
  | _ => []

def anglesIn (tokens : List Placed) : List Char := tokens.flatMap (·.token.angles)

def arrowsIn (tokens : List Placed) : Nat := tokens.countP (·.token == .operator "->")

/-- A clause of generic parameters, by the rule of types: its angle brackets balance for the
    first time at the last character of its last token. -/
structure GenericClause where
  tokens : List Placed
  starts : ∃ lead ∈ tokens.head?, ∃ text, lead.token = .operator text ∧ text.toList.head? = some '<'
  ends : ∃ last ∈ tokens.getLast?, ∃ text, last.token = .operator text ∧ text ≠ "->" ∧
    text.toList.getLast? = some '>'
  balances : (anglesIn tokens).count '<' = (anglesIn tokens).count '>'
  notBefore : ∀ front, front <+: anglesIn tokens → front ≠ [] → front ≠ anglesIn tokens →
    front.count '<' ≠ front.count '>'

/-- Brackets that the reader of a clause sees opened. -/
def openedIn (tokens : List Placed) : Nat := (anglesIn tokens).count '<'

/-- Brackets that the reader of a clause sees closed, one by each arrow among them. -/
def closedIn (tokens : List Placed) : Nat := (anglesIn tokens).count '>' + arrowsIn tokens

/-- At every place inside the clause, more brackets are open than arrows were passed. -/
def GenericClause.Covered (clause : GenericClause) : Prop :=
  ∀ front, front <+: clause.tokens → front ≠ [] → front ≠ clause.tokens →
    closedIn front < openedIn front

theorem anglesIn_append (front back : List Placed) :
    anglesIn (front ++ back) = anglesIn front ++ anglesIn back := List.flatMap_append

theorem openedIn_append (front back : List Placed) :
    openedIn (front ++ back) = openedIn front + openedIn back := by
  rw [openedIn, anglesIn_append, List.count_append]
  rfl

theorem closedIn_append (front back : List Placed) :
    closedIn (front ++ back) = closedIn front + closedIn back := by
  simp only [closedIn, anglesIn_append, List.count_append, arrowsIn, List.countP_append]
  omega

/-- Brackets that start with an opening one and do not balance on the way are open all the
    way. -/
theorem count_lt_of_prefix {angles : List Char} (hfirst : angles.head? = some '<')
    (hopen : ∀ front, front <+: angles → front ≠ [] → front ≠ angles →
      front.count '<' ≠ front.count '>') {front : List Char} (hfront : front <+: angles)
    (hne : front ≠ []) (hproper : front ≠ angles) : front.count '>' < front.count '<' := by
  induction front using List.reverseRecOn with
  | nil => exact absurd rfl hne
  | append_singleton front c ih =>
    have hshort := (List.prefix_append front [c]).trans hfront
    have hdiffers := hopen _ hfront hne hproper
    by_cases hnil : front = []
    · subst hnil
      obtain ⟨rest, rfl⟩ := hfront
      obtain rfl : c = '<' := by simpa using hfirst
      decide
    · have hlt := ih hshort hnil (by
        rintro rfl
        have hlength := hfront.length_le
        rw [List.length_append, List.length_singleton] at hlength
        omega)
      have hstep : [c].count '>' ≤ 1 := List.count_le_length
      rw [List.count_append, List.count_append] at *
      omega

namespace GenericClause

variable (clause : GenericClause)

theorem head?_anglesIn {front : List Placed} (hfront : front <+: clause.tokens)
    (hne : front ≠ []) : (anglesIn front).head? = some '<' := by
  obtain ⟨lead, hlead, text, htoken, hhead⟩ := clause.starts
  obtain ⟨others, rfl⟩ : ∃ others, front = lead :: others := by
    obtain ⟨first, others, rfl⟩ := List.exists_cons_of_ne_nil hne
    obtain ⟨back, hparts⟩ := hfront
    rw [← hparts] at hlead
    cases hlead
    exact ⟨others, rfl⟩
  have harrow : text ≠ "->" := by
    rintro rfl
    cases hhead
  obtain ⟨rest, hrest⟩ : ∃ rest, text.toList = '<' :: rest := ⟨_, List.eq_cons_of_mem_head? hhead⟩
  rw [anglesIn, List.flatMap_cons, htoken, Token.angles, if_neg harrow, hrest]
  rfl

theorem tokens_ne_nil : clause.tokens ≠ [] := by
  obtain ⟨lead, hlead, -⟩ := clause.starts
  exact List.ne_nil_of_mem (List.mem_of_mem_head? hlead)

/-- Behind each place inside a clause there is a bracket that closes it. -/
theorem anglesIn_ne_nil {front back : List Placed} (htokens : clause.tokens = front ++ back)
    (hback : back ≠ []) : anglesIn back ≠ [] := by
  obtain ⟨last, hlast, text, htoken, harrow, hclose⟩ := clause.ends
  rw [htokens, List.getLast?_append_of_ne_nil _ hback] at hlast
  have hmem : '>' ∈ last.token.angles := by
    rw [htoken, Token.angles, if_neg harrow, List.mem_filter]
    exact ⟨List.mem_of_getLast? hclose, rfl⟩
  exact List.ne_nil_of_mem (List.mem_flatMap.2 ⟨last, List.mem_of_getLast? hlast, hmem⟩)

theorem covered_of_arrowsIn (h : arrowsIn clause.tokens = 0) : clause.Covered := by
  rintro front ⟨back, hparts⟩ hne hproper
  have hangles : anglesIn clause.tokens = anglesIn front ++ anglesIn back := by
    rw [← hparts, anglesIn_append]
  have hback : anglesIn back ≠ [] := by
    refine clause.anglesIn_ne_nil hparts.symm ?_
    rintro rfl
    exact hproper (by simpa using hparts)
  have hfirst := clause.head?_anglesIn ⟨back, hparts⟩ hne
  have hlt := count_lt_of_prefix (clause.head?_anglesIn (List.prefix_refl _) clause.tokens_ne_nil)
    clause.notBefore ⟨_, hangles.symm⟩ (by rintro hnil; rw [hnil] at hfirst; cases hfirst)
    (by simpa [hangles] using hback)
  rw [← hparts, arrowsIn, List.countP_append] at h
  have hnone : arrowsIn front = 0 := by
    rw [arrowsIn]
    omega
  rw [closedIn, openedIn, hnone]
  omega

theorem openedIn_le_closedIn : openedIn clause.tokens ≤ closedIn clause.tokens := by
  rw [openedIn, closedIn, clause.balances]
  exact Nat.le_add_right _ _

end GenericClause

/-! ### Runs of generic parameters -/

def Token.isOperator : Token → Bool
  | .operator _ => true
  | _ => false

theorem angleDepth_eq {placed : Placed} {text : String} (htoken : placed.token = .operator text)
    (depth : Nat) : angleDepth text depth = depth + openedIn [placed] - closedIn [placed] := by
  obtain ⟨_, span, flag⟩ := placed
  subst htoken
  by_cases harrow : text = "->"
  · subst harrow
    rfl
  · have hangles : anglesIn [⟨.operator text, span, flag⟩] =
        text.toList.filter fun c => c == '<' || c == '>' := by
      rw [anglesIn, List.flatMap_singleton, Token.angles, if_neg harrow]
    have hnone : arrowsIn [⟨.operator text, span, flag⟩] = 0 := by simp [arrowsIn, harrow]
    rw [angleDepth, openedIn, closedIn, hnone, hangles, List.count_filter rfl,
      List.count_filter rfl, Nat.add_zero, charCount, charCount]

/-- Only operators hold angle brackets. -/
theorem openedIn_of_not_isOperator {placed : Placed} (h : placed.token.isOperator = false) :
    openedIn [placed] = 0 ∧ closedIn [placed] = 0 := by
  obtain ⟨token, span, flag⟩ := placed
  cases token with
  | operator text => cases h
  | _ => exact ⟨rfl, rfl⟩

/-- One token of a clause: it ends the clause, or the reader goes on at the depth behind it. -/
theorem genericRun_cons (depth : Nat) (placed : Placed) (rest : List Placed) :
    genericRun depth (placed :: rest) =
      if placed.token.isOperator = true ∧ depth + openedIn [placed] ≤ closedIn [placed] then
        ([placed], rest)
      else andTake placed (genericRun (depth + openedIn [placed] - closedIn [placed]) rest) := by
  by_cases hoperator : placed.token.isOperator = true
  · obtain ⟨text, htoken⟩ : ∃ text, placed.token = .operator text := by
      cases htoken : placed.token with
      | operator text => exact ⟨text, rfl⟩
      | _ => rw [htoken] at hoperator; cases hoperator
    rw [genericRun, htoken]
    dsimp only
    rw [← angleDepth_eq htoken]
    have hends := angleDepth_eq htoken depth
    cases hdepth : angleDepth text depth with
    | zero => rw [if_pos ⟨rfl, by omega⟩]
    | succ inside => rw [if_neg (fun h => by have := h.2; omega)]
  · obtain ⟨hopened, hclosed⟩ := openedIn_of_not_isOperator (Bool.eq_false_iff.2 hoperator)
    rw [if_neg (fun h => hoperator h.1), hopened, hclosed, genericRun]
    split
    · next htoken => rw [htoken] at hoperator; exact absurd rfl hoperator
    · rfl

/-- A token that does not end a clause does not close more than is open. -/
theorem closedIn_le_of_not {depth : Nat} {placed : Placed}
    (h : ¬ (placed.token.isOperator = true ∧ depth + openedIn [placed] ≤ closedIn [placed])) :
    closedIn [placed] ≤ depth + openedIn [placed] ∧
      (0 < depth ∨ placed.token.isOperator = true →
        closedIn [placed] < depth + openedIn [placed]) := by
  by_cases hoperator : placed.token.isOperator = true
  · have hlt : closedIn [placed] < depth + openedIn [placed] := by
      by_contra hle
      exact h ⟨hoperator, by omega⟩
    exact ⟨Nat.le_of_lt hlt, fun _ => hlt⟩
  · obtain ⟨hopened, hclosed⟩ := openedIn_of_not_isOperator (Bool.eq_false_iff.2 hoperator)
    rw [hopened, hclosed]
    refine ⟨Nat.zero_le _, fun hstart => ?_⟩
    have hdepth := hstart.resolve_right hoperator
    omega

/-- A clause that the reader does not take to the end of all tokens is closed where it ends. -/
theorem genericRun_closed {depth : Nat} {tokens : List Placed}
    (hleft : (genericRun depth tokens).2 ≠ []) :
    depth + openedIn (genericRun depth tokens).1 ≤ closedIn (genericRun depth tokens).1 := by
  induction tokens generalizing depth with
  | nil => exact absurd rfl hleft
  | cons placed rest ih =>
    rw [genericRun_cons] at *
    split
    · next hends => exact hends.2
    · next hends =>
      rw [if_neg hends] at hleft
      have hrest := ih hleft
      have hle := (closedIn_le_of_not hends).1
      rw [andTake_fst, ← List.singleton_append, openedIn_append, closedIn_append]
      omega

/-- Everywhere before the end of what the reader takes for a clause, something is open. -/
theorem genericRun_open {depth : Nat} {tokens : List Placed}
    (hstart : 0 < depth ∨ ∀ lead ∈ tokens.head?, lead.token.isOperator = true) :
    ∀ front, front <+: (genericRun depth tokens).1 → front ≠ [] →
      front ≠ (genericRun depth tokens).1 → closedIn front < depth + openedIn front := by
  induction tokens generalizing depth with
  | nil =>
    intro front hfront hne
    exact absurd (List.prefix_nil.1 hfront) hne
  | cons placed rest ih =>
    rw [genericRun_cons]
    intro front hfront hne hproper
    obtain ⟨first, front, rfl⟩ := List.exists_cons_of_ne_nil hne
    split at hfront
    · next hends =>
      obtain ⟨rfl, hnil⟩ := List.cons_prefix_cons.1 hfront
      rw [List.prefix_nil.1 hnil, if_pos hends] at hproper
      exact absurd rfl hproper
    · next hends =>
      rw [if_neg hends, andTake_fst] at hproper
      rw [andTake_fst] at hfront
      obtain ⟨rfl, hfront⟩ := List.cons_prefix_cons.1 hfront
      have hlt := (closedIn_le_of_not hends).2 (hstart.imp_right fun h => h first rfl)
      by_cases hnil : front = []
      · rw [hnil]
        exact hlt
      · have hrest := ih (.inl (by omega)) front hfront hnil (by rintro rfl; exact hproper rfl)
        rw [← List.singleton_append, openedIn_append, closedIn_append]
        omega

theorem genericRun_ne_nil {tokens : List Placed} (h : tokens ≠ []) (depth : Nat) :
    (genericRun depth tokens).1 ≠ [] := by
  obtain ⟨placed, rest, rfl⟩ := List.exists_cons_of_ne_nil h
  rw [genericRun_cons]
  split <;> exact List.cons_ne_nil _ _

namespace GenericClause

variable (clause : GenericClause) (rest : List Placed)

theorem starts_append : ∃ lead ∈ (clause.tokens ++ rest).head?, ∃ text,
    lead.token = .operator text ∧ text.toList.head? = some '<' := by
  rw [List.head?_append_of_ne_nil _ clause.tokens_ne_nil]
  exact clause.starts

theorem isOperator_head? :
    ∀ lead ∈ (clause.tokens ++ rest).head?, lead.token.isOperator = true := by
  obtain ⟨lead, hlead, text, htoken, -⟩ := clause.starts_append rest
  intro other hother
  cases Option.mem_unique hlead hother
  rw [htoken]
  rfl

/-- What the reader takes for the clause is a first part of it, and is all of it exactly if
    the clause is covered. -/
theorem exists_genericRun : ∃ front back, clause.tokens = front ++ back ∧
    genericRun 0 (clause.tokens ++ rest) = (front, back ++ rest) ∧
    (back = [] ↔ clause.Covered) := by
  have hne := clause.tokens_ne_nil
  have hopen := @genericRun_open 0 _ (.inr (clause.isOperator_head? rest))
  have hparts := genericRun_append 0 (clause.tokens ++ rest)
  have htaken := genericRun_ne_nil (List.append_ne_nil_of_left_ne_nil hne rest) 0
  have hclosed := @genericRun_closed 0 (clause.tokens ++ rest)
  generalize genericRun 0 (clause.tokens ++ rest) = parts at *
  obtain ⟨taken, left⟩ := parts
  dsimp only at *
  simp only [Nat.zero_add] at hopen hclosed
  obtain ⟨back, htokens, rfl⟩ : ∃ back, clause.tokens = taken ++ back ∧ left = back ++ rest := by
    rcases List.append_eq_append_iff.1 hparts with ⟨back, htokens, hleft⟩ | ⟨more, htaken, hrest⟩
    · exact ⟨back, htokens, hleft⟩
    · by_cases hmore : more = []
      · subst hmore
        exact ⟨[], by simpa using htaken.symm, by simpa using hrest.symm⟩
      · -- behind the last token of the clause nothing is open
        have hlt := hopen clause.tokens ⟨more, htaken.symm⟩ hne (by simpa [htaken] using hmore)
        have hle := clause.openedIn_le_closedIn
        omega
  refine ⟨taken, back, htokens, rfl, ?_, ?_⟩
  · rintro rfl
    rw [List.append_nil] at htokens
    rw [Covered, htokens]
    exact hopen
  · intro hcovered
    by_contra hback
    have hle := hclosed (List.append_ne_nil_of_left_ne_nil hback rest)
    have hlt := hcovered taken ⟨back, htokens.symm⟩ htaken (by simpa [htokens] using hback)
    omega

end GenericClause

/-! ### Headers with generic parameters -/

namespace Reader

variable {α β : Type} {stream between : TokenStream}

theorem bind_of_eq {x y : Reader α} (f : α → Reader β) (h : x stream = y between) :
    (x >>= f) stream = (y >>= f) between := by
  change (x stream >>= fun p => f p.1 p.2) = _
  rw [h]
  rfl

theorem bind_of_ok {x : Reader α} {a : α} (f : α → Reader β) (h : x stream = .ok (a, between)) :
    (x >>= f) stream = f a between := by
  change (x stream >>= fun p => f p.1 p.2) = _
  rw [h]
  rfl

theorem bind_of_error {x : Reader α} {error : ReadError} (f : α → Reader β)
    (h : x stream = .error error) : (x >>= f) stream = .error error := by
  change (x stream >>= fun p => f p.1 p.2) = _
  rw [h]
  rfl

section Headers

variable {keyword name lead next : Placed} {word text : String} {taken left : List Placed}
  (finish : Placed) (pending : List Placed) (readTo : Nat) (requests : List Span)

theorem qualifiedName_of_operator (hname : name.token = .name word)
    (hlead : lead.token = .operator text) :
    qualifiedName ⟨name :: lead :: pending, finish, readTo, requests⟩ =
      .ok (word, ⟨lead :: pending, finish, name.span.stop, requests⟩) := by
  obtain ⟨_, nameSpan, nameFlag⟩ := name
  cases hname
  have hrun : qualifierRun (lead :: pending) = ([], lead :: pending) := by
    cases pending with
    | nil => rfl
    | cons second pending => rw [qualifierRun, if_neg (by simp [hlead])]
  have hfirst : Reader.name ⟨⟨.name word, nameSpan, nameFlag⟩ :: lead :: pending, finish, readTo,
      requests⟩ = .ok (⟨word, nameSpan⟩, ⟨lead :: pending, finish, nameSpan.stop, requests⟩) := rfl
  have htake : take qualifierRun ⟨lead :: pending, finish, nameSpan.stop, requests⟩ =
      .ok ([], ⟨lead :: pending, finish, nameSpan.stop, requests⟩) := by
    simp only [take, hrun, List.getLast?_nil, Option.map_none, Option.getD_none]
  rw [qualifiedName, bind_of_ok _ hfirst, bind_of_ok _ htake]
  simp only [List.map_nil, String.join_nil, String.append_empty]
  rfl

theorem genericClause_of_operator (hlead : lead.token = .operator text)
    (hangle : text.toList.head? = some '<')
    (hrun : genericRun 0 (lead :: pending) = (taken, left)) :
    ∃ stop, genericClause ⟨lead :: pending, finish, readTo, requests⟩ =
      .ok ((), ⟨left, finish, stop, requests⟩) := by
  obtain ⟨stop, htake⟩ : ∃ stop, take (genericRun 0) ⟨lead :: pending, finish, readTo, requests⟩ =
      .ok (taken, ⟨left, finish, stop, requests⟩) := by
    simp only [take, hrun]
    exact ⟨_, rfl⟩
  refine ⟨stop, ?_⟩
  have hhead : TokenStream.head ⟨lead :: pending, finish, readTo, requests⟩ = lead := rfl
  rw [genericClause, peek_bind_eq_ok, hhead, hlead]
  dsimp only
  rw [if_pos hangle]
  exact bind_of_ok _ htake

/-- Where neither a colon nor a clause of requirements follows, the body has to open. -/
theorem headEnd_of_ne (source : List Char) (f : List String → Span → Reader Header)
    (hcolon : next.token ≠ .colon) (hwhere : next.token ≠ .name "where") :
    (inheritance source >>= fun inherited => requirements >>= fun _ =>
      openingBrace >>= f inherited) ⟨next :: left, finish, readTo, requests⟩ =
      (openingBrace >>= f []) ⟨next :: left, finish, readTo, requests⟩ := by
  have hhead : TokenStream.head ⟨next :: left, finish, readTo, requests⟩ = next := rfl
  have hinheritance : inheritance source ⟨next :: left, finish, readTo, requests⟩ =
      .ok ([], ⟨next :: left, finish, readTo, requests⟩) := by
    rw [inheritance, peek_bind_eq_ok, hhead]
    generalize next.token = token at hcolon
    split
    · exact absurd rfl hcolon
    · rfl
  have hrequirements : requirements ⟨next :: left, finish, readTo, requests⟩ =
      .ok ((), ⟨next :: left, finish, readTo, requests⟩) := by
    rw [requirements, peek_bind_eq_ok, hhead]
    generalize next.token = token at hwhere
    split
    · exact absurd rfl hwhere
    · rfl
  rw [bind_of_ok _ hinheritance, bind_of_ok _ hrequirements]

/-- The head of a declaration with generic parameters, if neither inherited types nor
    requirements follow what is taken for the parameters: the body has to open there. -/
theorem header_of_generic (source : List Char) (hname : name.token = .name word)
    (hlead : lead.token = .operator text) (hangle : text.toList.head? = some '<')
    (hrun : genericRun 0 (lead :: pending) = (taken, next :: left))
    (hcolon : next.token ≠ .colon) (hwhere : next.token ≠ .name "where") :
    ∃ stop, header source .structType keyword.span []
        ⟨keyword :: name :: lead :: pending, finish, readTo, requests⟩ =
      (openingBrace >>= fun brace => pure ⟨.structType, word, [], [], keyword.span, brace⟩)
        ⟨next :: left, finish, stop, requests⟩ := by
  obtain ⟨stop, hclause⟩ :=
    genericClause_of_operator finish pending name.span.stop requests hlead hangle hrun
  have hqualified := qualifiedName_of_operator finish pending keyword.span.stop requests hname hlead
  have hnext : Reader.next ⟨keyword :: name :: lead :: pending, finish, readTo, requests⟩ =
      .ok (keyword, ⟨name :: lead :: pending, finish, keyword.span.stop, requests⟩) := rfl
  have hattachments : attachments []
      ⟨name :: lead :: pending, finish, keyword.span.stop, requests⟩ = .ok ([], _) := rfl
  refine ⟨stop, ?_⟩
  rw [header, bind_of_ok _ hnext, bind_of_ok _ hattachments, bind_of_ok _ hqualified,
    bind_of_ok _ hclause, headEnd_of_ne finish stop requests source _ hcolon hwhere]

/-- A keyword with a name behind it is the start of a declaration. -/
theorem item_of_keyword (source : List Char) (hkeyword : keyword.token = .name "struct")
    (hname : name.token = .name word) :
    item source ⟨keyword :: name :: pending, finish, readTo, requests⟩ =
      (header source .structType keyword.span [] >>= fun header => pure (.opened header))
        ⟨keyword :: name :: pending, finish, readTo, requests⟩ := by
  obtain ⟨_, keywordSpan, keywordFlag⟩ := keyword
  obtain ⟨_, nameSpan, nameFlag⟩ := name
  cases hkeyword
  cases hname
  rfl

/-- The head of a declaration with generic parameters is read up to where its body has to
    open, if neither inherited types nor requirements come before. -/
theorem item_of_generic (source : List Char) {pending : List Placed}
    (hkeyword : keyword.token = .name "struct") (hname : name.token = .name word)
    (hpending : ∃ lead ∈ pending.head?, ∃ text, lead.token = .operator text ∧
      text.toList.head? = some '<')
    (hrun : genericRun 0 pending = (taken, next :: left))
    (hcolon : next.token ≠ .colon) (hwhere : next.token ≠ .name "where") :
    ∃ stop, item source ⟨keyword :: name :: pending, finish, readTo, requests⟩ =
      (openingBrace >>= fun brace =>
        pure (.opened ⟨.structType, word, [], [], keyword.span, brace⟩))
        ⟨next :: left, finish, stop, requests⟩ := by
  obtain ⟨lead, hlead, text, htoken, hangle⟩ := hpending
  rw [List.eq_cons_of_mem_head? hlead] at hrun ⊢
  obtain ⟨stop, hheader⟩ := header_of_generic finish _ readTo requests source hname htoken hangle
    hrun hcolon hwhere
  refine ⟨stop, ?_⟩
  rw [item_of_keyword finish _ readTo requests source hkeyword hname, bind_of_eq _ hheader,
    bind_assoc]
  simp only [pure_bind]

/-- Items go on at a word. -/
theorem not_end_of_name (hname : name.token = .name word) :
    ¬ (name.token = .closing .curly ∨ name.token = .endOfInput) := by
  rw [hname]
  simp

theorem openingBrace_of_brace (hbrace : next.token = .opening .curly) :
    openingBrace ⟨next :: left, finish, readTo, requests⟩ =
      .ok (next.span, ⟨left, finish, next.span.stop, requests⟩) := by
  have hhead : TokenStream.head ⟨next :: left, finish, readTo, requests⟩ = next := rfl
  rw [openingBrace, peek_bind_eq_ok, hhead, hbrace]
  rfl

theorem openingBrace_of_ne (hbrace : next.token ≠ .opening .curly) :
    openingBrace ⟨next :: left, finish, readTo, requests⟩ =
      .error (.malformed next.span.position (.expected .bodyStart next.token)) := by
  obtain ⟨token, span, flag⟩ := next
  have hpeek : peek ⟨⟨token, span, flag⟩ :: left, finish, readTo, requests⟩ =
      .ok (⟨token, span, flag⟩, ⟨⟨token, span, flag⟩ :: left, finish, readTo, requests⟩) := rfl
  rw [openingBrace, bind_of_ok _ hpeek]
  dsimp only at hbrace ⊢
  split
  · exact absurd rfl hbrace
  · rfl

end Headers

end Reader

namespace Outline

theorem ofSource_of_items_error {source : List Char} {tokens : Tokens} {error : ReadError}
    (htokens : tokenize source = .ok tokens)
    (hitems : Reader.items source (readingLimit source) (.start tokens) = .error error) :
    ofSource source = .error error := by
  have hread : Reader.outline source (.start tokens) = .error error :=
    Reader.bind_of_error _ hitems
  unfold ofSource
  rw [htokens]
  change ((Reader.outline source).run (.start tokens) >>= fun p => .ok p.1) = _
  rw [StateT.run, hread]
  rfl

def IsEmptyStruct (outline : Outline) (word : String) : Prop :=
  ∃ declaration, outline.declarations = [declaration] ∧ declaration.kind = .structType ∧
    declaration.name = word ∧ declaration.items = []

section Generic

variable {source : List Char} {keyword name opening closing finish : Placed} {word : String}
  {clause : GenericClause}
  (htokens : tokenize source =
    .ok ⟨keyword :: name :: (clause.tokens ++ [opening, closing]), finish⟩)

include htokens

theorem exists_readingLimit : ∃ limit, readingLimit source = limit + 1 + 1 := by
  cases source with
  | nil => cases htokens
  | cons c rest => exact ⟨rest.length, rfl⟩

variable (hkeyword : keyword.token = .name "struct") (hname : name.token = .name word)

include hkeyword hname

theorem ofSource_covered (hopening : opening.token = .opening .curly)
    (hclosing : closing.token = .closing .curly) (hcovered : clause.Covered) :
    ∃ outline, ofSource source = .ok outline ∧ outline.IsEmptyStruct word := by
  have hfinish := (tokenize_scanned htokens).finish_eq.1
  obtain ⟨limit, hlimit⟩ := exists_readingLimit htokens
  obtain ⟨front, back, -, hrun, hback⟩ := clause.exists_genericRun [opening, closing]
  rw [hback.2 hcovered, List.nil_append] at hrun
  obtain ⟨stop, hitem⟩ := Reader.item_of_generic finish 0 [] source hkeyword hname
    (clause.starts_append _) hrun (by rw [hopening]; nofun) (by rw [hopening]; nofun)
  rw [Reader.bind_of_ok _ (Reader.openingBrace_of_brace finish stop [] hopening)] at hitem
  have hfirst := Reader.not_end_of_name hkeyword
  have hinner : Reader.items source (limit + 1) ⟨[closing], finish, opening.span.stop, []⟩ =
      .ok ([], _) := Reader.items_of_stop (.inl hclosing)
  have hclose : Reader.closingBrace word ⟨[closing], finish, opening.span.stop, []⟩ =
      .ok (closing.span, ⟨[], finish, closing.span.stop, []⟩) := by
    have hhead : TokenStream.head ⟨[closing], finish, opening.span.stop, []⟩ = closing := rfl
    rw [Reader.closingBrace, Reader.peek_bind_eq_ok, hhead, hclosing]
    rfl
  have hmore : Reader.items source (limit + 1) ⟨[], finish, closing.span.stop, []⟩ =
      .ok ([], _) := Reader.items_of_stop (.inr hfinish)
  have hitems := Reader.items_of_opened (by exact hfirst) hitem hinner hclose hmore
  rw [← hlimit] at hitems
  exact ⟨_, ofSource_of_items htokens hitems hfinish, _, rfl, rfl, rfl, rfl⟩

theorem ofSource_uncovered {front back : List Placed} {next : Placed}
    (hrun : genericRun 0 (clause.tokens ++ [opening, closing]) = (front, next :: back))
    (hcolon : next.token ≠ .colon) (hwhere : next.token ≠ .name "where")
    (hbrace : next.token ≠ .opening .curly) :
    ofSource source =
      .error (.malformed next.span.position (.expected .bodyStart next.token)) := by
  obtain ⟨limit, hlimit⟩ := exists_readingLimit htokens
  obtain ⟨stop, hitem⟩ := Reader.item_of_generic finish 0 [] source hkeyword hname
    (clause.starts_append _) hrun hcolon hwhere
  rw [Reader.bind_of_error _ (Reader.openingBrace_of_ne finish stop [] hbrace)] at hitem
  have hfirst := Reader.not_end_of_name hkeyword
  refine ofSource_of_items_error htokens ?_
  rw [hlimit, Reader.items_succ_eq (by exact hfirst)]
  exact Reader.bind_of_error _ hitem

/-- **Generic parameters are passed over whole exactly if they are covered**, as they are
    where no arrow is among them; then a structure with nothing in it is read as such.
    Otherwise the reader stops at a token inside the clause.  Unless the head can go on with
    that token, the source cannot be read: the body is missed there. -/
theorem ofSource_generic (hopening : opening.token = .opening .curly)
    (hclosing : closing.token = .closing .curly) :
    (arrowsIn clause.tokens = 0 → clause.Covered) ∧
    (clause.Covered → ∃ outline, ofSource source = .ok outline ∧ outline.IsEmptyStruct word) ∧
    (¬ clause.Covered → ∃ front next back, clause.tokens = front ++ next :: back ∧
      genericRun 0 (clause.tokens ++ [opening, closing]) =
        (front, next :: back ++ [opening, closing]) ∧
      (next.token ≠ .colon → next.token ≠ .name "where" → next.token ≠ .opening .curly →
        ofSource source =
          .error (.malformed next.span.position (.expected .bodyStart next.token)))) := by
  refine ⟨clause.covered_of_arrowsIn, ofSource_covered htokens hkeyword hname hopening hclosing, ?_⟩
  intro huncovered
  obtain ⟨front, back, hparts, hrun, hback⟩ := clause.exists_genericRun [opening, closing]
  obtain ⟨next, back, rfl⟩ := List.exists_cons_of_ne_nil fun hnil => huncovered (hback.1 hnil)
  exact ⟨front, next, back, hparts, hrun, ofSource_uncovered htokens hkeyword hname hrun⟩

end Generic

theorem forall_prefix_of_inits {α : Type} {list : List α} {p : List α → Prop}
    (h : ∀ front ∈ list.inits, p front) (front : List α) (hfront : front <+: list) : p front :=
  h front ((List.mem_inits _ _).2 hfront)

/-- The parameters of `struct S<T: Box<() -> T>> {}`. -/
def innerArrow : GenericClause where
  tokens := [⟨.operator "<", ⟨8, 9, 1, 9⟩, false⟩, ⟨.name "T", ⟨9, 10, 1, 10⟩, false⟩,
    ⟨.colon, ⟨10, 11, 1, 11⟩, false⟩, ⟨.name "Box", ⟨12, 15, 1, 13⟩, false⟩,
    ⟨.operator "<", ⟨15, 16, 1, 16⟩, false⟩, ⟨.opening .round, ⟨16, 17, 1, 17⟩, false⟩,
    ⟨.closing .round, ⟨17, 18, 1, 18⟩, false⟩, ⟨.operator "->", ⟨19, 21, 1, 20⟩, false⟩,
    ⟨.name "T", ⟨22, 23, 1, 23⟩, false⟩, ⟨.operator ">>", ⟨23, 25, 1, 24⟩, false⟩]
  starts := ⟨_, rfl, _, rfl, rfl⟩
  ends := ⟨_, rfl, _, rfl, by decide, rfl⟩
  balances := rfl
  notBefore := forall_prefix_of_inits (by decide)

/-- The parameters of `struct S<T: () -> U> {}`. -/
def outerArrow : GenericClause where
  tokens := [⟨.operator "<", ⟨8, 9, 1, 9⟩, false⟩, ⟨.name "T", ⟨9, 10, 1, 10⟩, false⟩,
    ⟨.colon, ⟨10, 11, 1, 11⟩, false⟩, ⟨.opening .round, ⟨12, 13, 1, 13⟩, false⟩,
    ⟨.closing .round, ⟨13, 14, 1, 14⟩, false⟩, ⟨.operator "->", ⟨15, 17, 1, 16⟩, false⟩,
    ⟨.name "U", ⟨18, 19, 1, 19⟩, false⟩, ⟨.operator ">", ⟨19, 20, 1, 20⟩, false⟩]
  starts := ⟨_, rfl, _, rfl, rfl⟩
  ends := ⟨_, rfl, _, rfl, by decide, rfl⟩
  balances := rfl
  notBefore := forall_prefix_of_inits (by decide)

theorem ofSource_generic_arrows :
    innerArrow.Covered ∧ ¬ outerArrow.Covered ∧
    (∃ outline, ofSource "struct S<T: Box<() -> T>> \x7b\x7d".toList = .ok outline ∧
      outline.IsEmptyStruct "S") ∧
    ofSource "struct S<T: () -> U> \x7b\x7d".toList =
      .error (.malformed ⟨1, 19⟩ (.expected .bodyStart (.name "U"))) := by
  have hinner : innerArrow.Covered := forall_prefix_of_inits (by decide)
  have houter : ¬ outerArrow.Covered := by
    intro hcovered
    exact absurd (hcovered (outerArrow.tokens.take 6) (List.take_prefix _ _) (by decide)
      (by decide)) (by decide)
  have hread : tokenize "struct S<T: Box<() -> T>> \x7b\x7d".toList =
      .ok ⟨⟨.name "struct", ⟨0, 6, 1, 1⟩, true⟩ :: ⟨.name "S", ⟨7, 8, 1, 8⟩, false⟩ ::
        (innerArrow.tokens ++ [⟨.opening .curly, ⟨26, 27, 1, 27⟩, false⟩,
          ⟨.closing .curly, ⟨27, 28, 1, 28⟩, false⟩]), _⟩ := rfl
  have hfailed : tokenize "struct S<T: () -> U> \x7b\x7d".toList =
      .ok ⟨⟨.name "struct", ⟨0, 6, 1, 1⟩, true⟩ :: ⟨.name "S", ⟨7, 8, 1, 8⟩, false⟩ ::
        (outerArrow.tokens ++ [⟨.opening .curly, ⟨21, 22, 1, 22⟩, false⟩,
          ⟨.closing .curly, ⟨22, 23, 1, 23⟩, false⟩]), _⟩ := rfl
  obtain ⟨-, hwhole, -⟩ := ofSource_generic hread rfl rfl rfl rfl
  obtain ⟨-, -, hcut⟩ := ofSource_generic hfailed rfl rfl rfl rfl
  obtain ⟨front, next, back, -, hrun, herror⟩ := hcut houter
  refine ⟨hinner, houter, hwhole hinner, ?_⟩
  have hnext := congrArg (·.2.head?) hrun
  cases hnext
  exact herror nofun nofun nofun

end Outline

end Memberwise
