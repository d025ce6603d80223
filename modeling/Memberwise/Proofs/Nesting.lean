/-
  Memberwise/Proofs/Nesting.lean
  ==============================
  **Open brackets, and runs that count some of them.**

  `nest` goes over tokens and keeps the brackets that are open, innermost first;
  it fails at a bracket that does not close the innermost one.  Runs of tokens
  keep a number instead, and each counts brackets of its own class: all of them,
  all but braces, parentheses only, braces only.  Where the brackets do nest, the
  number is enough: of the brackets that a run has opened the outermost is always
  of its class (`Rooted`), so when the count is back at zero, none is open.

  Two runs can leave a bracket open, or close one that was open before.  No brace
  that they open stays open, and this bounds what they do to the braces around them
  (`Sinks`).
-/
import Memberwise.Proofs.Members

namespace Memberwise

/-! ### Open brackets -/

/-- The open brackets behind a token, innermost first. -/
def Token.openAfter : Token → List Bracket → Option (List Bracket)
  | opening bracket, stack => some (bracket :: stack)
  | closing bracket, top :: below => if top = bracket then some below else none
  | closing _, [] => none
  | _, stack => some stack

/-- The open brackets behind some tokens, or nothing if the tokens do not nest. -/
def nest : List Bracket → List Placed → Option (List Bracket)
  | stack, [] => some stack
  | stack, placed :: rest => (placed.token.openAfter stack).bind fun above => nest above rest

@[simp] theorem nest_nil (stack : List Bracket) : nest stack [] = some stack := rfl

theorem nest_append (stack : List Bracket) (front back : List Placed) :
    nest stack (front ++ back) = (nest stack front).bind fun above => nest above back := by
  induction front generalizing stack with
  | nil => rfl
  | cons placed rest ih =>
    rw [List.cons_append, nest, nest, Option.bind_assoc]
    congr
    funext above
    exact ih above

theorem nest_append_eq_some {stack stack' : List Bracket} {front back : List Placed} :
    nest stack (front ++ back) = some stack' ↔
      ∃ above, nest stack front = some above ∧ nest above back = some stack' := by
  rw [nest_append, Option.bind_eq_some_iff]

theorem nest_cons_eq_some {stack stack' : List Bracket} {placed : Placed} {rest : List Placed} :
    nest stack (placed :: rest) = some stack' ↔
      ∃ above, placed.token.openAfter stack = some above ∧ nest above rest = some stack' := by
  rw [nest, Option.bind_eq_some_iff]

theorem nest_singleton (stack : List Bracket) (placed : Placed) :
    nest stack [placed] = placed.token.openAfter stack := by
  rw [nest]
  cases placed.token.openAfter stack <;> rfl

theorem Token.openAfter_closing {bracket : Bracket} {stack above : List Bracket} :
    (closing bracket).openAfter stack = some above ↔ stack = bracket :: above := by
  cases stack with
  | nil => simp [openAfter]
  | cons top below => simp [openAfter]

/-- Brackets further out do not matter. -/
theorem Token.openAfter_append {token : Token} {stack above : List Bracket}
    (h : token.openAfter stack = some above) (low : List Bracket) :
    token.openAfter (stack ++ low) = some (above ++ low) := by
  cases token with
  | opening bracket =>
    cases h
    rfl
  | closing bracket =>
    obtain rfl := openAfter_closing.1 h
    exact openAfter_closing.2 rfl
  | _ =>
    cases h
    rfl

theorem nest_lift {stack above : List Bracket} {tokens : List Placed}
    (h : nest stack tokens = some above) (low : List Bracket) :
    nest (stack ++ low) tokens = some (above ++ low) := by
  induction tokens generalizing stack with
  | nil =>
    cases h
    rfl
  | cons placed rest ih =>
    obtain ⟨between, hplaced, hrest⟩ := nest_cons_eq_some.1 h
    exact nest_cons_eq_some.2 ⟨between ++ low, Token.openAfter_append hplaced low, ih hrest⟩

/-- Parting operators leaves the brackets as they are. -/
theorem Refines.nest_eq {a b : List Placed} (h : Refines a b) (stack : List Bracket) :
    nest stack a = nest stack b := by
  induction h generalizing stack with
  | nil => rfl
  | keep placed _ ih =>
    rw [nest, nest]
    congr
    funext above
    exact ih above
  | part hpart _ ih =>
    obtain ⟨text, -, -, htoken, rfl, rfl⟩ := splitEquals?_eq_some hpart
    rw [nest, htoken]
    exact ih stack

/-! ### Counts of brackets -/

def Token.countAfter (counted : Bracket → Bool) : Token → Nat → Nat
  | opening bracket, depth => if counted bracket then depth + 1 else depth
  | closing bracket, depth => if counted bracket then depth - 1 else depth
  | _, depth => depth

/-- Whether a run that counts brackets of a class can take a token where it has counted
    none: the token closes nothing, and if it opens something, that is counted. -/
def Token.enters (counted : Bracket → Bool) : Token → Bool
  | opening bracket => counted bracket
  | closing _ => false
  | _ => true

/-- Tokens along which a count goes from one number to another. -/
inductive Counts (counted : Bracket → Bool) : Nat → List Placed → Nat → Prop where
  | nil (depth : Nat) : Counts counted depth [] depth
  | cons {depth last : Nat} {placed : Placed} {rest : List Placed}
      (henters : depth = 0 → placed.token.enters counted = true)
      (hrest : Counts counted (placed.token.countAfter counted depth) rest last) :
      Counts counted depth (placed :: rest) last

/-- Open brackets of which some are counted, the outermost among them. -/
structure Rooted (counted : Bracket → Bool) (stack : List Bracket) (depth : Nat) : Prop where
  count : stack.countP counted = depth
  root : ∀ bracket ∈ stack.getLast?, counted bracket = true

namespace Rooted

variable {counted : Bracket → Bool} {stack : List Bracket} {depth : Nat}

theorem nil : Rooted counted [] 0 := ⟨rfl, by simp⟩

theorem singleton {bracket : Bracket} (h : counted bracket = true) :
    Rooted counted [bracket] 1 :=
  ⟨by simp [h], by simpa using h⟩

theorem eq_nil (h : Rooted counted stack 0) : stack = [] := by
  by_cases hne : stack = []
  · exact hne
  · -- otherwise the outermost bracket is counted
    have hroot := h.root _ (List.getLast?_eq_some_getLast hne)
    exact absurd hroot (List.countP_eq_zero.1 h.count _ (List.getLast_mem hne))

theorem push {bracket : Bracket} (h : Rooted counted stack depth)
    (henters : depth = 0 → counted bracket = true) :
    Rooted counted (bracket :: stack) ((Token.opening bracket).countAfter counted depth) := by
  constructor
  case count =>
    rw [List.countP_cons, h.count, Token.countAfter]
    split <;> rfl
  case root =>
    cases stack with
    | nil =>
      have hzero : depth = 0 := h.count.symm
      simpa using henters hzero
    | cons top below =>
      rw [List.getLast?_cons_cons]
      exact h.root

theorem pop {bracket : Bracket} (h : Rooted counted (bracket :: stack) depth) :
    Rooted counted stack ((Token.closing bracket).countAfter counted depth) := by
  constructor
  case count =>
    rw [← h.count, List.countP_cons, Token.countAfter]
    split <;> omega
  case root =>
    cases stack with
    | nil => simp
    | cons top below =>
      have hroot := h.root
      rwa [List.getLast?_cons_cons] at hroot

/-- A token that can be taken changes the brackets that the run has opened, and no bracket
    further out. -/
theorem step {token : Token} {low above : List Bracket} (h : Rooted counted stack depth)
    (henters : depth = 0 → token.enters counted = true)
    (hopen : token.openAfter (stack ++ low) = some above) :
    ∃ stack', above = stack' ++ low ∧ token.openAfter stack = some stack' ∧
      Rooted counted stack' (token.countAfter counted depth) := by
  cases token with
  | opening bracket =>
    cases hopen
    exact ⟨bracket :: stack, rfl, rfl, h.push henters⟩
  | closing bracket =>
    cases stack with
    | nil =>
      have hzero : depth = 0 := h.count.symm
      cases henters hzero
    | cons top below =>
      obtain ⟨rfl, rfl⟩ := List.cons.inj (Token.openAfter_closing.1 hopen)
      exact ⟨below, rfl, Token.openAfter_closing.2 rfl, h.pop⟩
  | _ =>
    cases hopen
    exact ⟨stack, rfl, rfl, h⟩

end Rooted

/-- Along tokens that are counted, only brackets that were opened there are closed. -/
theorem Counts.nest {counted : Bracket → Bool} {depth last : Nat} {taken : List Placed}
    (h : Counts counted depth taken last) {stack low above : List Bracket}
    (hrooted : Rooted counted stack depth) (hnest : nest (stack ++ low) taken = some above) :
    ∃ stack', above = stack' ++ low ∧ Memberwise.nest stack taken = some stack' ∧
      Rooted counted stack' last := by
  induction h generalizing stack with
  | nil depth =>
    cases hnest
    exact ⟨stack, rfl, rfl, hrooted⟩
  | cons henters _ ih =>
    obtain ⟨between, hopen, hrest⟩ := nest_cons_eq_some.1 hnest
    obtain ⟨stack₁, rfl, hopen₁, hrooted₁⟩ := hrooted.step henters hopen
    obtain ⟨stack₂, rfl, hrest₂, hrooted₂⟩ := ih hrooted₁ hrest
    exact ⟨stack₂, rfl, nest_cons_eq_some.2 ⟨stack₁, hopen₁, hrest₂⟩, hrooted₂⟩

/-- **A run that counts closes all that it opens**, where the tokens nest: it ends with the
    count at zero, or at the end of the tokens, and then nothing is open. -/
theorem Counts.nest_eq_nil {counted : Bracket → Bool} {depth last : Nat}
    {taken rest : List Placed} {stack low : List Bracket} (h : Counts counted depth taken last)
    (hends : last = 0 ∨ rest = []) (hrooted : Rooted counted stack depth)
    (hnest : Memberwise.nest (stack ++ low) (taken ++ rest) = some []) :
    Memberwise.nest stack taken = some [] := by
  obtain ⟨above, htaken, hrest⟩ := nest_append_eq_some.1 hnest
  obtain ⟨stack', rfl, hstack', hrooted'⟩ := h.nest hrooted htaken
  rw [hstack']
  rcases hends with rfl | rfl
  · rw [hrooted'.eq_nil]
  · cases stack' with
    | nil => rfl
    | cons top below => cases hrest

/-! ### Runs that count -/

/-- A run that counts brackets of a class takes tokens until the count is at zero, or all. -/
def Counted (counted : Bracket → Bool) (depth : Nat) (parts : List Placed × List Placed) : Prop :=
  ∃ last, Counts counted depth parts.1 last ∧ (last = 0 ∨ parts.2 = [])

namespace Counted

variable {counted : Bracket → Bool} {depth : Nat}

theorem stop (rest : List Placed) : Counted counted 0 ([], rest) := ⟨0, .nil 0, .inl rfl⟩

theorem finish (depth : Nat) : Counted counted depth ([], []) := ⟨depth, .nil depth, .inr rfl⟩

theorem take {placed : Placed} {parts : List Placed × List Placed}
    (henters : depth = 0 → placed.token.enters counted = true)
    (h : Counted counted (placed.token.countAfter counted depth) parts) :
    Counted counted depth (andTake placed parts) := by
  obtain ⟨last, hcounts, hends⟩ := h
  exact ⟨last, .cons henters hcounts, hends⟩

/-- The token that ends a run may be its last. -/
theorem last {placed : Placed} (henters : depth = 0 → placed.token.enters counted = true)
    (hzero : placed.token.countAfter counted depth = 0) (rest : List Placed) :
    Counted counted depth ([placed], rest) := by
  refine ⟨0, .cons henters ?_, .inl rfl⟩
  rw [hzero]
  exact .nil 0

theorem nest_eq_nil {parts : List Placed × List Placed} {stack low : List Bracket}
    (h : Counted counted depth parts) (hrooted : Rooted counted stack depth)
    (hnest : nest (stack ++ low) (parts.1 ++ parts.2) = some []) :
    nest stack parts.1 = some [] := by
  obtain ⟨last, hcounts, hends⟩ := h
  exact hcounts.nest_eq_nil hends hrooted hnest

end Counted

theorem Token.depthAfter_eq (token : Token) (depth : Nat) :
    token.depthAfter depth = token.countAfter (fun _ => true) depth := by
  cases token <;> rfl

/-- An expression takes no closing bracket outside all that it has opened. -/
theorem enters_of_endsExpr {stopAtColon first : Bool} {placed : Placed}
    {following? : Option Placed} (h : endsExpr stopAtColon first placed following? = false) :
    placed.token.enters (fun _ => true) = true := by
  unfold endsExpr at h
  cases htoken : placed.token with
  | closing bracket =>
    rw [htoken] at h
    cases h
  | _ => rfl

theorem exprRun_counted (stopAtColon first : Bool) (depth : Nat) (tokens : List Placed) :
    Counted (fun _ => true) depth (exprRun stopAtColon first depth tokens) := by
  fun_induction exprRun stopAtColon first depth tokens with
  | case1 first depth => exact .finish depth
  | case2 first depth placed rest hend =>
    obtain ⟨rfl, -⟩ := hend
    exact .stop _
  | case3 first depth placed rest hend ih =>
    refine .take ?_ (Token.depthAfter_eq placed.token depth ▸ ih)
    intro hzero
    exact enters_of_endsExpr (Bool.eq_false_iff.2 fun hends => hend ⟨hzero, hends⟩)

/-- The run of a collection starts behind the bracket that opens it. -/
theorem collectionRun_counted (depth : Nat) (tokens : List Placed) :
    Counted (fun _ => true) (depth + 1) (collectionRun depth tokens) := by
  fun_induction collectionRun depth tokens with
  | case1 depth => exact .finish _
  | case2 placed rest bracket htoken =>
    refine .last (fun h => absurd h (Nat.succ_ne_zero 0)) ?_ rest
    rw [htoken]
    rfl
  | case3 depth placed rest hclosing ih =>
    refine .take (fun h => absurd h (Nat.succ_ne_zero _)) ?_
    have hdepth : placed.token.countAfter (fun _ => true) (depth + 1) =
        placed.token.depthAfter depth + 1 := by
      cases htoken : placed.token with
      | closing bracket =>
        have hpos : depth ≠ 0 := hclosing bracket htoken
        simp only [Token.countAfter, Token.depthAfter, if_true]
        omega
      | _ => rfl
    rw [hdepth]
    exact ih

/-- Whether a token is no operator with an angle bracket in it, the arrow apart. -/
def Token.isPlain : Token → Bool
  | operator text => text == "->" || (!text.toList.contains '<' && !text.toList.contains '>')
  | _ => true

theorem Token.isPlain_operator {text : String} :
    (operator text).isPlain = true ↔ text = "->" ∨ '<' ∉ text.toList ∧ '>' ∉ text.toList := by
  simp [isPlain]

theorem typeDepth_eq {token : Token} (h : token.isPlain = true) (depth : Nat) :
    typeDepth token depth = token.countAfter (· != .curly) depth := by
  cases token with
  | opening bracket => cases bracket <;> rfl
  | closing bracket => cases bracket <;> rfl
  | operator text =>
    show (if text = "->" then depth else angleDepth text depth) = depth
    rcases Token.isPlain_operator.1 h with harrow | ⟨hopen, hclose⟩
    · rw [if_pos harrow]
    · rw [angleDepth, charCount, charCount, List.count_eq_zero.2 hopen,
        List.count_eq_zero.2 hclose, Nat.add_zero, Nat.sub_zero, ite_self]
  | _ => rfl

theorem splitEquals?_isPlain {placed sign equals : Placed}
    (h : splitEquals? placed = some (sign, equals)) (hplain : placed.token.isPlain = true) :
    sign.token.isPlain = true := by
  obtain ⟨text, -, -, htoken, rfl, -⟩ := splitEquals?_eq_some h
  rw [htoken, Token.isPlain_operator, String.toList_ofList] at hplain
  rw [Token.isPlain_operator, String.toList_ofList]
  rcases hplain with harrow | ⟨hopen, hclose⟩
  · -- the arrow does not end in `=`
    have hlast := congrArg (fun s => s.toList.getLast?) harrow
    simp at hlast
  · simp only [List.mem_append, not_or] at hopen hclose
    exact .inr ⟨hopen.1, hclose.1⟩

theorem enters_of_endsType {first : Bool} {placed : Placed} (h : endsType first placed = false) :
    placed.token.enters (· != .curly) = true := by
  unfold endsType at h
  cases htoken : placed.token with
  | closing bracket => simp [htoken] at h
  | opening bracket =>
    cases bracket with
    | curly => simp [htoken] at h
    | _ => rfl
  | _ => rfl

theorem typeRun_counted (first : Bool) (depth : Nat) {tokens : List Placed}
    (hplain : ∀ placed ∈ tokens, placed.token.isPlain = true) :
    Counted (· != .curly) depth (typeRun first depth tokens) := by
  fun_induction typeRun first depth tokens with
  | case1 first depth => exact .finish depth
  | case2 first depth placed rest sign equals hpart hend =>
    obtain ⟨rfl, -⟩ := hend
    exact .stop _
  | case3 first depth placed rest sign equals hpart hend hdepth =>
    rw [List.forall_mem_cons] at hplain
    rw [typeDepth_eq (splitEquals?_isPlain hpart hplain.1)] at hdepth
    obtain ⟨text, -, -, -, rfl, -⟩ := splitEquals?_eq_some hpart
    exact .last (fun _ => rfl) hdepth _
  | case4 first depth placed rest sign equals hpart hend inside hdepth ih =>
    rw [List.forall_mem_cons] at hplain
    rw [typeDepth_eq (splitEquals?_isPlain hpart hplain.1)] at hdepth
    obtain ⟨text, -, -, -, rfl, rfl⟩ := splitEquals?_eq_some hpart
    refine .take (fun _ => rfl) (.take (fun _ => rfl) ?_)
    rw [hdepth]
    exact ih hplain.2
  | case5 first depth placed rest hpart hend =>
    obtain ⟨rfl, -⟩ := hend
    exact .stop _
  | case6 first depth placed rest hpart hend ih =>
    rw [List.forall_mem_cons] at hplain
    refine .take ?_ (typeDepth_eq hplain.1 depth ▸ ih hplain.2)
    intro hzero
    exact enters_of_endsType (Bool.eq_false_iff.2 fun hends => hend ⟨hzero, hends⟩)

theorem modifierRun_counted (depth : Nat) (tokens : List Placed) :
    Counted (· == .round) depth (modifierRun depth tokens).2 := by
  -- a modifier is a word, and so not counted
  have hmodifier : ∀ {placed : Placed} {following? : Option Placed} {isStatic : Bool}
      {parts : List Placed × List Placed}, modifier? placed following? = some isStatic →
      Counted (· == .round) 0 parts → Counted (· == .round) 0 (andTake placed parts) := by
    intro placed following? isStatic parts h hparts
    obtain ⟨word, -, hword⟩ := introduces_of_modifier? h
    exact .take (fun _ => by rw [hword]; rfl) (by rw [hword]; exact hparts)
  fun_induction modifierRun depth tokens with
  | case1 depth => exact .finish depth
  | case2 placed isStatic h => exact hmodifier h (.finish 0)
  | case3 placed h => exact .stop _
  | case4 placed following rest isStatic h hopens others parts hrun ih =>
    have hopen : following.token = .opening .round := by
      simp only [opensArguments, Bool.and_eq_true, beq_iff_eq] at hopens
      exact hopens.1
    rw [hrun] at ih
    refine hmodifier h (.take (fun _ => by rw [hopen]; rfl) ?_)
    rw [hopen]
    exact ih
  | case5 placed following rest isStatic h hopens others parts hrun ih =>
    rw [hrun] at ih
    exact hmodifier h ih
  | case6 placed following rest h => exact .stop _
  | case7 depth placed rest inside others parts hrun ih =>
    rw [hrun] at ih
    refine .take (fun hzero => absurd hzero (Nat.succ_ne_zero depth)) ?_
    have hinside : placed.token.countAfter (· == .round) (depth + 1) = inside := by
      cases htoken : placed.token with
      | opening bracket => cases bracket <;> simp only [inside, htoken] <;> rfl
      | closing bracket => cases bracket <;> simp only [inside, htoken] <;> rfl
      | _ => simp only [inside, htoken]; rfl
    rw [hinside]
    exact ih

theorem qualifierRun_counted (tokens : List Placed) :
    Counted (fun _ => true) 0 (qualifierRun tokens) := by
  fun_induction qualifierRun tokens with
  | case1 point part rest hparts ih =>
    obtain ⟨hpoint, hpart⟩ := hparts
    obtain ⟨word, hword⟩ : ∃ word, part.token = .name word := by
      cases htoken : part.token with
      | name word => exact ⟨word, rfl⟩
      | _ =>
        rw [htoken] at hpart
        cases hpart
    have hrest : Counted (fun _ => true) 0 (andTake part (qualifierRun rest)) :=
      .take (fun _ => by rw [hword]; rfl) (by rw [hword]; exact ih)
    exact .take (fun _ => by rw [hpoint]; rfl) (by rw [hpoint]; exact hrest)
  | case2 point part rest hparts => exact .stop _
  | case3 rest hshort => exact .stop _

/-- The run of a block starts behind the brace that opens it. -/
theorem blockRun?_counts {depth : Nat} {tokens taken rest : List Placed}
    (h : blockRun? depth tokens = some (taken, rest)) :
    Counts (· == .curly) (depth + 1) taken 0 := by
  -- in all cases but the last brace, a token is put in front of what is taken already
  have hstep : ∀ {placed : Placed} {depth depth' : Nat}
      {parts : Option (List Placed × List Placed)},
      placed.token.countAfter (· == .curly) (depth + 1) = depth' + 1 →
      (∀ {taken rest}, parts = some (taken, rest) → Counts (· == .curly) (depth' + 1) taken 0) →
      ∀ {taken rest}, parts.map (andTake placed) = some (taken, rest) →
        Counts (· == .curly) (depth + 1) taken 0 := by
    intro placed depth depth' parts hdepth ih taken rest h
    obtain ⟨⟨inner, left⟩, hparts, heq⟩ := Option.map_eq_some_iff.1 h
    cases heq
    refine .cons (fun hzero => absurd hzero (Nat.succ_ne_zero depth)) ?_
    rw [hdepth]
    exact ih hparts
  fun_induction blockRun? depth tokens generalizing taken rest with
  | case1 => cases h
  | case2 placed rest htoken =>
    cases h
    refine .cons (fun hzero => absurd hzero (Nat.succ_ne_zero 0)) ?_
    rw [htoken]
    exact .nil 0
  | case3 placed rest depth htoken ih => exact hstep (by rw [htoken]; rfl) ih h
  | case4 placed rest depth htoken ih => exact hstep (by rw [htoken]; rfl) ih h
  | case5 placed rest depth hclose hclose' hopen ih =>
    refine hstep ?_ ih h
    cases htoken : placed.token with
    | opening bracket =>
      cases bracket with
      | curly => exact absurd htoken hopen
      | _ => rfl
    | closing bracket =>
      cases bracket with
      | curly =>
        cases depth with
        | zero => exact absurd rfl (hclose htoken)
        | succ depth => exact absurd rfl (hclose' depth htoken)
      | _ => rfl
    | _ => rfl

/-! ### The braces around a run -/

def fromBrace (stack : List Bracket) : List Bracket := stack.dropWhile (· != .curly)

theorem fromBrace_suffix (stack : List Bracket) : fromBrace stack <:+ stack :=
  List.dropWhile_suffix _

theorem fromBrace_cons {bracket : Bracket} (h : bracket ≠ .curly) (stack : List Bracket) :
    fromBrace (bracket :: stack) = fromBrace stack :=
  List.dropWhile_cons_of_pos (by simpa using h)

/-- A brace further out is open behind the innermost brace. -/
theorem suffix_fromBrace {stack low : List Bracket} (h : .curly :: low <:+ stack) :
    .curly :: low <:+ fromBrace stack := by
  induction stack with
  | nil => simp at h
  | cons top below ih =>
    rcases List.suffix_cons_iff.1 h with heq | hbelow
    · cases heq
      exact List.suffix_refl _
    · by_cases htop : top = .curly
      · subst htop
        exact hbelow.trans (List.suffix_cons _ _)
      · rw [fromBrace_cons htop]
        exact ih hbelow

/-- Along some tokens, brackets that are open stay open. -/
def Over (low stack : List Bracket) (tokens : List Placed) (above : List Bracket) : Prop :=
  ∃ inner inner', stack = inner ++ low ∧ above = inner' ++ low ∧ nest inner tokens = some inner'

namespace Over

variable {low stack between above : List Bracket} {front back : List Placed}

theorem refl (h : low <:+ stack) : Over low stack [] stack := by
  obtain ⟨inner, rfl⟩ := h
  exact ⟨inner, inner, rfl, rfl, rfl⟩

theorem trans (hfront : Over low stack front between) (hback : Over low between back above) :
    Over low stack (front ++ back) above := by
  obtain ⟨inner, inner₁, rfl, rfl, hfront⟩ := hfront
  obtain ⟨inner₂, inner', heq, rfl, hback⟩ := hback
  obtain rfl := List.append_cancel_right heq
  exact ⟨inner, inner', rfl, rfl, nest_append_eq_some.2 ⟨inner₁, hfront, hback⟩⟩

theorem mono {lower : List Bracket} (h : Over low stack front above) (hlower : lower <:+ low) :
    Over lower stack front above := by
  obtain ⟨inner, inner', rfl, rfl, hnest⟩ := h
  obtain ⟨middle, rfl⟩ := hlower
  exact ⟨inner ++ middle, inner' ++ middle, by simp, by simp, nest_lift hnest middle⟩

theorem nest_eq (h : Over low stack front above) : nest stack front = some above := by
  obtain ⟨inner, inner', rfl, rfl, hnest⟩ := h
  exact nest_lift hnest low

/-- If all that is open stays open, the tokens close what they open. -/
theorem nest_eq_nil (h : Over stack stack front stack) : nest [] front = some [] := by
  obtain ⟨inner, inner', hinner, hinner', hnest⟩ := h
  obtain rfl := List.self_eq_append_left.1 hinner
  obtain rfl := List.self_eq_append_left.1 hinner'
  exact hnest

/-- Brackets that close each other leave all others open. -/
theorem of_nest (h : nest [] front = some []) (hlow : low <:+ stack) :
    Over low stack front stack := by
  obtain ⟨inner, rfl⟩ := hlow
  exact ⟨inner, inner, rfl, rfl, nest_lift h inner⟩

/-- Between two brackets of a kind, what is open around the first stays open if it does
    between them. -/
theorem enclose {bracket : Bracket} {opening closing : Placed} {inside : List Placed}
    (h : Over low (bracket :: stack) inside (bracket :: above))
    (hopening : opening.token = .opening bracket) (hclosing : closing.token = .closing bracket)
    (hstack : low <:+ stack) (habove : low <:+ above) :
    Over low stack (opening :: (inside ++ [closing])) above := by
  obtain ⟨inner, rfl⟩ := hstack
  obtain ⟨inner', rfl⟩ := habove
  obtain ⟨full, full', hfull, hfull', hnest⟩ := h
  obtain rfl := List.append_cancel_right ((List.cons_append ..).trans hfull)
  obtain rfl := List.append_cancel_right ((List.cons_append ..).trans hfull')
  refine ⟨inner, inner', rfl, rfl, nest_cons_eq_some.2 ⟨bracket :: inner, ?_, ?_⟩⟩
  · rw [hopening]
    rfl
  · refine nest_append_eq_some.2 ⟨bracket :: inner', hnest, ?_⟩
    rw [nest_singleton, hclosing]
    exact Token.openAfter_closing.2 rfl

end Over

/-- Some tokens open no brace that they do not close, and the brackets from the innermost
    brace on that is open behind them are open all along. -/
structure Sinks (stack : List Bracket) (tokens : List Placed) (above : List Bracket) : Prop where
  sinks : fromBrace above <:+ fromBrace stack
  stays : Over (fromBrace above) stack tokens above

namespace Sinks

variable {stack between above : List Bracket} {front back : List Placed}

theorem refl (stack : List Bracket) : Sinks stack [] stack :=
  ⟨List.suffix_refl _, .refl (fromBrace_suffix stack)⟩

theorem trans (hfront : Sinks stack front between) (hback : Sinks between back above) :
    Sinks stack (front ++ back) above :=
  ⟨hback.sinks.trans hfront.sinks, (hfront.stays.mono hback.sinks).trans hback.stays⟩

theorem of_nest (h : nest [] front = some []) (stack : List Bracket) : Sinks stack front stack :=
  ⟨List.suffix_refl _, .of_nest h (fromBrace_suffix stack)⟩

/-- A token that opens no brace. -/
theorem step {placed : Placed} (hbrace : placed.token ≠ .opening .curly)
    (hopen : placed.token.openAfter stack = some above) : Sinks stack [placed] above := by
  cases htoken : placed.token with
  | opening bracket =>
    rw [htoken] at hopen
    cases hopen
    have hcurly : bracket ≠ .curly := by
      rintro rfl
      exact hbrace htoken
    have hfrom := fromBrace_cons hcurly stack
    obtain ⟨inner, hinner⟩ := fromBrace_suffix stack
    refine ⟨hfrom ▸ List.suffix_refl _, inner, bracket :: inner, ?_, ?_, ?_⟩
    · rw [hfrom, hinner]
    · rw [hfrom, List.cons_append, hinner]
    · rw [nest_singleton, htoken]
      rfl
  | closing bracket =>
    rw [htoken] at hopen
    obtain rfl := Token.openAfter_closing.1 hopen
    obtain ⟨inner, hinner⟩ := fromBrace_suffix above
    refine ⟨?_, bracket :: inner, inner, by rw [List.cons_append, hinner], hinner.symm, ?_⟩
    · by_cases hcurly : bracket = .curly
      · subst hcurly
        exact (fromBrace_suffix above).trans (List.suffix_cons _ _)
      · exact fromBrace_cons hcurly above ▸ List.suffix_refl _
    · rw [nest_singleton, htoken]
      exact Token.openAfter_closing.2 rfl
  | _ =>
    rw [htoken] at hopen
    cases hopen
    exact .of_nest (by rw [nest_singleton, htoken]; rfl) stack

end Sinks

theorem sinks_of_no_brace {tokens : List Placed} {stack above : List Bracket}
    (h : ∀ placed ∈ tokens, placed.token ≠ .opening .curly)
    (hnest : nest stack tokens = some above) : Sinks stack tokens above := by
  induction tokens generalizing stack with
  | nil =>
    obtain rfl := Option.some.inj hnest
    exact .refl stack
  | cons placed rest ih =>
    rw [List.forall_mem_cons] at h
    obtain ⟨between, hopen, hrest⟩ := nest_cons_eq_some.1 hnest
    exact (Sinks.step h.1 hopen).trans (ih h.2 hrest)

/-- An item that is not taken apart may close brackets that were open before. -/
theorem otherRun_sinks {first : Bool} {depth : Nat} {tokens : List Placed}
    {stack low : List Bracket} (hrooted : Rooted (fun _ => true) stack depth)
    (hnest : nest (stack ++ low) tokens = some []) :
    ∃ above, fromBrace above <:+ fromBrace low ∧
      Over (fromBrace above) (stack ++ low) (otherRun first depth tokens).1 above := by
  fun_induction otherRun first depth tokens generalizing stack low with
  | case1 first depth =>
    -- at the end nothing is open
    obtain ⟨rfl, rfl⟩ := List.append_eq_nil_iff.1 (Option.some.inj hnest)
    exact ⟨[], List.suffix_refl _, .refl (List.suffix_refl _)⟩
  | case2 first depth placed rest hend =>
    obtain ⟨rfl, -⟩ := hend
    obtain rfl := hrooted.eq_nil
    exact ⟨low, List.suffix_refl _, .refl (fromBrace_suffix low)⟩
  | case3 first depth placed rest hend ih =>
    obtain ⟨between, hopen, hrest⟩ := nest_cons_eq_some.1 hnest
    by_cases henters : depth = 0 → placed.token.enters (fun _ => true) = true
    · obtain ⟨stack', rfl, hopen', hrooted'⟩ := hrooted.step henters hopen
      rw [← Token.depthAfter_eq] at hrooted'
      obtain ⟨above, hsinks, hover⟩ := ih hrooted' hrest
      have hstep : Over low (stack ++ low) [placed] (stack' ++ low) :=
        ⟨stack, stack', rfl, rfl, by rw [nest_singleton, hopen']⟩
      exact ⟨above, hsinks, (hstep.mono (hsinks.trans (fromBrace_suffix low))).trans hover⟩
    · -- a bracket is closed that the item has not opened
      obtain ⟨rfl, hcloses⟩ := Classical.not_imp.1 henters
      obtain rfl := hrooted.eq_nil
      have hstep : Sinks low [placed] between := by
        refine .step ?_ hopen
        intro hcurly
        rw [hcurly] at hcloses
        exact hcloses rfl
      have hdepth : placed.token.depthAfter 0 = 0 := by
        cases htoken : placed.token with
        | opening bracket =>
          rw [htoken] at hcloses
          exact absurd rfl hcloses
        | _ => rfl
      rw [hdepth] at ih ⊢
      obtain ⟨above, hsinks, hover⟩ := ih .nil hrest
      exact ⟨above, hsinks.trans hstep.sinks, (hstep.stays.mono hsinks).trans hover⟩

end Memberwise
