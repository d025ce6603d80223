/-
  Memberwise/Proofs/Shapes.lean
  =============================
  **An expression has the shape of a literal only if it is one.**

  An expression is taken for a literal by its first token, and loses the shape again if
  anything goes on behind the literal.  So the text of an expression with the shape of a
  literal of one token is that token and nothing else: cut into tokens by itself, it gives
  the same token again.  The text of an array stands between two square brackets, and the
  texts of its elements stand there in order.

  Tokens that were parted while a type was read are operators and `=`, and no literal
  starts with one.  All other tokens are as they were cut from the source, which is what
  makes them tokens by themselves (`Placed.Alone`).
-/
import Memberwise.Proofs.Accounting
import Memberwise.Proofs.Fragments

namespace Memberwise

/-! ### Texts that occur in a text -/

inductive Text.OccurInOrder : List (List Char) → List Char → Prop where
  | nil (text : List Char) : OccurInOrder [] text
  | cons {word rest : List Char} {words : List (List Char)} (gap : List Char)
      (h : OccurInOrder words rest) : OccurInOrder (word :: words) (gap ++ word ++ rest)

/-- Expressions whose spans lie in order in a stretch of the source occur in order in the
    text of that stretch. -/
theorem Text.occurInOrder_of_inOrder {source front text back : List Char} {exprs : List Expr}
    {low high : Nat} (hsource : source = front ++ text ++ back)
    (hlocated : Expr.AllLocated source exprs) (hlow : width front = low)
    (hhigh : width (front ++ text) = high)
    (horder : Span.InOrder low (writtenSpans exprs) high) :
    OccurInOrder (exprs.map (·.text.toList)) text := by
  induction exprs generalizing front text low with
  | nil => exact .nil text
  | cons expr rest ih =>
    obtain ⟨hfirst, hrest⟩ := hlocated
    rw [List.map_cons]
    by_cases hempty : expr.text = ""
    · -- an empty expression occurs anywhere
      have horder' : Span.InOrder low (writtenSpans rest) high := by
        simpa [writtenSpans, hempty] using horder
      rw [hempty]
      exact .cons [] (ih hsource hrest hlow hhigh horder')
    · have hspans : writtenSpans (expr :: rest) = expr.span :: writtenSpans rest := by
        simp [writtenSpans, hempty]
      rw [hspans] at horder
      obtain ⟨hstart, -, hbehind⟩ := horder
      obtain ⟨before, after, hparts, hspan⟩ : expr.span.Covers source expr.text.toList := by
        obtain ⟨shape, written, span⟩ := expr
        exact hfirst.1
      have hstop : expr.span.stop = width (before ++ expr.text.toList) := by
        rw [hspan, width_append]
        rfl
      rw [hspan] at hstart
      obtain ⟨gap, rfl, -⟩ := exists_append_of_width_le (a := front) (b := text ++ back)
        (c := before) (d := expr.text.toList ++ after) (by simpa [hsource] using hparts)
        (by rw [hlow]; exact hstart)
      have hend := hbehind.le
      obtain ⟨more, hmore, -⟩ := exists_append_of_width_le
        (a := front ++ gap ++ expr.text.toList) (b := after) (c := front ++ text) (d := back)
        (by rw [← hparts, hsource]) (by rw [← hstop, hhigh]; exact hend)
      obtain rfl : text = gap ++ expr.text.toList ++ more :=
        List.append_cancel_left (hmore.trans (by simp))
      exact .cons gap (ih (by rw [hsource]; simp) hrest hstop.symm (by rw [← hhigh]; simp) hbehind)

/-! ### Sound shapes -/

mutual

/-- An expression whose text is what its shape says; and so on for the elements of an
    array. -/
def Expr.Sound : Expr → Prop
  | ⟨shape, text, _⟩ => Expr.Shape.Sound text shape

def Expr.Shape.Sound (text : String) : Expr.Shape → Prop
  | .bool value => (Token.name (if value then "true" else "false")).IsAll text
  | .nil => (Token.name "nil").IsAll text
  | .integer => (Token.integer text).IsAll text
  | .float => (Token.float text).IsAll text
  | .string => (Token.string text).IsAll text
  | .implicitMember name => text = "." ++ name
  | .array elements =>
    (∃ inner, text.toList = '[' :: inner ++ [']'] ∧
      Text.OccurInOrder (elements.map (·.text.toList)) inner) ∧ Expr.AllSound elements
  | .other => True

def Expr.AllSound : List Expr → Prop
  | [] => True
  | first :: rest => first.Sound ∧ Expr.AllSound rest

end

/-! ### Tokens by themselves -/

/-- A token that is the only one of its spelling. -/
theorem Token.isAll_of_reads {token : Token} {text : String} (h : token.Reads text.toList [])
    (hstop : NoGap text.toList) : token.IsAll text := by
  have hstop' : NoGap (text.toList ++ []) := by rwa [List.append_nil]
  have hlexes : Lexes (text.toList ++ []) [token] :=
    (Lexes.token_iff hstop' h.spelling_eq).2 ⟨h, .finish rfl⟩
  rw [List.append_nil] at hlexes
  obtain ⟨⟨body, finish⟩, hfound, hbody⟩ := tokenize_iff_lexes.2 hlexes
  obtain ⟨placed, rfl, hplaced⟩ := List.map_eq_singleton_iff.1 hbody
  exact ⟨placed, finish, hfound, hplaced⟩

/-- A token that was not parted is cut from its spelling alone. -/
def Placed.Alone (placed : Placed) : Prop :=
  placed.token.isWhole = true → placed.token.IsAll (String.ofList placed.token.spelling)

theorem Scanned.alone {source before : List Char} {flag : Bool} {tokens : List Placed}
    {finish : Placed} (h : Scanned source flag before tokens finish) :
    ∀ placed ∈ tokens, placed.Alone := by
  induction h with
  | finish => simp
  | @token _ _ _ text after placed _ _ _ _ hstop hreads _ _ _ ih =>
    refine List.forall_mem_cons.2 ⟨fun _ => ?_, ih⟩
    -- what comes behind the token does not matter to it
    have hfurther : Token.NoFurther after [] := ⟨nofun, nofun, nofun⟩
    have hend := hstop.of_noFurther hreads.ne_nil hfurther
    rw [List.append_nil] at hend
    rw [hreads.spelling_eq]
    refine Token.isAll_of_reads ?_ ?_
    · rw [String.toList_ofList]
      exact hreads.of_noFurther hfurther
    · rwa [String.toList_ofList]

theorem Refines.alone {a b : List Placed} (h : Refines a b) (ha : ∀ placed ∈ a, placed.Alone) :
    ∀ placed ∈ b, placed.Alone := by
  induction h with
  | nil => exact ha
  | keep placed _ ih =>
    rw [List.forall_mem_cons] at ha
    exact List.forall_mem_cons.2 ⟨ha.1, ih ha.2⟩
  | part hpart _ ih =>
    rw [List.forall_mem_cons] at ha
    obtain ⟨text, -, -, -, rfl, rfl⟩ := splitEquals?_eq_some hpart
    exact List.forall_mem_cons.2 ⟨nofun, List.forall_mem_cons.2 ⟨nofun, ih ha.2⟩⟩

/-- A stream whose tokens are laid in the source and are as they were cut from it, parted
    operators aside. -/
structure Genuine (source : List Char) (stream : TokenStream) : Prop where
  ready : Ready source stream
  alone : ∀ placed ∈ stream.pending, placed.Alone

namespace Genuine

variable {source : List Char} {stream after : TokenStream}

theorem start {tokens : Tokens} (h : tokenize source = .ok tokens) :
    Genuine source (.start tokens) :=
  ⟨.start h, (tokenize_scanned h).alone⟩

theorem taken {taken : List Placed} {noted : List Span} (h : Genuine source stream)
    (htakes : Takes stream taken noted after) : Genuine source after := by
  have halone := htakes.pending.alone h.alone
  exact ⟨(h.ready.taken htakes).2, fun placed hmem => halone placed (List.mem_append_right _ hmem)⟩

theorem head_alone (h : Genuine source stream) (hend : stream.head.token ≠ .endOfInput) :
    stream.head.Alone := by
  obtain ⟨rest, hpending, -⟩ := h.ready.pending_eq hend
  exact h.alone stream.head (by rw [hpending]; exact List.mem_cons_self)

end Genuine

/-- The source of a token is its spelling. -/
theorem Placed.Sits.sourceText_eq {source : List Char} {placed : Placed}
    (h : placed.Sits source) :
    sourceText source placed.span.start placed.span.stop = String.ofList placed.token.spelling := by
  rw [sourceText, h.2.slice_eq]

/-- The source of two tokens without a gap is the spelling of both. -/
theorem Placed.Sits.sourceText_pair {source : List Char} {first second : Placed}
    (hfirst : first.Sits source) (hsecond : second.Sits source)
    (hjoin : second.span.start = first.span.stop) :
    sourceText source first.span.start second.span.stop =
      String.ofList (first.token.spelling ++ second.token.spelling) := by
  obtain ⟨before, after, hsource, hspan⟩ := hfirst.2
  obtain ⟨before', after', hsource', hspan'⟩ := hsecond.2
  rw [hspan, hspan'] at hjoin
  have hwidth : Text.width (before ++ first.token.spelling) = Text.width before' := by
    rw [Text.width_append]
    exact hjoin.symm
  rw [List.append_assoc before'] at hsource'
  obtain ⟨rfl, rfl⟩ := Text.append_inj_of_width_eq (hsource.symm.trans hsource') hwidth
  have hparts : source = before ++ (first.token.spelling ++ second.token.spelling) ++ after' := by
    rw [hsource]
    simp
  rw [sourceText, hspan, hspan', hparts]
  refine congrArg String.ofList (Text.slice_append rfl ?_)
  simp [Span.across, Nat.add_assoc]

/-! ### Reading sound expressions -/

namespace Reader

variable {source : List Char} {stream after : TokenStream}

/-- What is known of a reader for what follows an opening bracket: if it gives elements, it
    takes a closing bracket last, and the elements are sound and lie in order in front of
    that. -/
def ReadsSound (source : List Char) (elements : Reader (Option (List Expr))) : Prop :=
  ∀ {stream after : TokenStream} {items : List Expr}, Genuine source stream →
    elements stream = .ok (some items, after) →
    ∃ taken close, Takes stream (taken ++ [close]) [] after ∧ close.token = .closing .square ∧
      Expr.AllLocated source items ∧ Expr.AllSound items ∧
      Span.InOrder stream.readTo (writtenSpans items) close.span.start

/-- A literal of one token is sound if its shape says what the token is. -/
theorem single_sound {shape shape' : Expr.Shape} (h : Genuine source stream)
    (hend : stream.head.token ≠ .endOfInput) (hwhole : stream.head.token.isWhole = true)
    (hread : (next >>= fun _ => pure (some shape')) stream = .ok (some shape, after))
    (hsound : stream.head.token.IsAll (String.ofList stream.head.token.spelling) →
      shape'.Sound (String.ofList stream.head.token.spelling)) :
    shape.Sound (sourceText source stream.head.span.start after.readTo) := by
  simp only [bind_eq_ok, pure_eq_ok, Option.some.injEq] at hread
  obtain ⟨placed, _, hnext, rfl, rfl⟩ := hread
  obtain ⟨rfl, -, htakes⟩ := next_takes h.ready hend hnext
  obtain ⟨-, -, hsits⟩ := h.ready.pending_eq hend
  have hstop : after.readTo = stream.head.span.stop := htakes.readTo
  rw [hstop, hsits.sourceText_eq]
  exact hsound (h.head_alone hend hwhole)

/-- An array stands between its brackets, and its elements stand in order between them. -/
theorem array_sound {between : TokenStream} {items : List Expr} {taken : List Placed}
    {close : Placed} (h : Genuine source stream) (hopen : stream.head.token = .opening .square)
    (hfront : Takes stream [stream.head] [] between)
    (hback : Takes between (taken ++ [close]) [] after) (hclose : close.token = .closing .square)
    (hlocated : Expr.AllLocated source items) (hsound : Expr.AllSound items)
    (horder : Span.InOrder between.readTo (writtenSpans items) close.span.start) :
    (Expr.Shape.array items).Sound (sourceText source stream.head.span.start after.readTo) := by
  obtain ⟨-, -, -, hopened⟩ := h.ready.pending_eq (by rw [hopen]; simp)
  have hlaid := ((h.taken hfront).ready.taken hback).1
  obtain ⟨-, hclosed⟩ : close.Sits source := hlaid.sits (by simp)
  have hlow : between.readTo = stream.head.span.stop := hfront.readTo
  have hstop : after.readTo = close.span.stop := by
    rw [hback.readTo]
    simp
  have hle := horder.le
  rw [hlow] at hle horder
  rw [hopen] at hopened
  rw [hclose] at hclosed
  obtain ⟨inner, hwhole⟩ := hopened.join hclosed hle
  have htext : (sourceText source stream.head.span.start after.readTo).toList =
      '[' :: inner ++ [']'] := by
    rw [sourceText, String.toList_ofList, hstop]
    exact hwhole.slice_eq
  refine ⟨⟨inner, htext, ?_⟩, hsound⟩
  obtain ⟨before, rest, hsource, hspan⟩ := hwhole
  have hstart : stream.head.span.start = Text.width before := congrArg Span.start hspan
  have hbrackets : Text.width ['['] = 1 ∧ Text.width [']'] = 1 := ⟨rfl, rfl⟩
  obtain ⟨_, _, -, hopenSpan⟩ := hopened
  obtain ⟨_, _, -, hcloseSpan⟩ := hclosed
  have hopenStop : stream.head.span.stop = stream.head.span.start + 1 := by
    rw [hopenSpan]
    rfl
  have hcloseStop : close.span.stop = close.span.start + 1 := by
    rw [hcloseSpan]
    rfl
  have hend : close.span.stop = Text.width (before ++ ('[' :: inner ++ [']'])) := by
    rw [Text.width_append]
    exact congrArg Span.stop hspan
  have hbetween : source = before ++ ['['] ++ inner ++ ']' :: rest := by
    have hparts : source = before ++ ('[' :: inner ++ [']']) ++ rest := hsource
    rw [hparts]
    simp
  refine Text.occurInOrder_of_inOrder hbetween hlocated ?_ ?_ horder
  · rw [Text.width_append, hbrackets.1, hopenStop, hstart]
  · simp only [Text.width_append, Text.width_cons, List.cons_append] at hend ⊢
    have hone : (']' : Char).utf8Size = 1 := rfl
    simp only [Text.width_nil] at hend ⊢
    omega

theorem literal?_sound {elements : Reader (Option (List Expr))} {shape : Expr.Shape}
    (hsound : ReadsSound source elements) (h : Genuine source stream)
    (hread : literal? elements stream = .ok (some shape, after)) :
    shape.Sound (sourceText source stream.head.span.start after.readTo) := by
  rw [literal?, get_bind_eq_ok] at hread
  have hsingle := fun shape' => @single_sound source stream after shape shape' h
  generalize htoken : stream.head.token = token at hread hsingle
  split at hread
  case h_7 =>
    simp only [bind_eq_ok] at hread
    obtain ⟨placed, between, hnext, result, between', helements, hread⟩ := hread
    obtain ⟨rfl, -, htakes⟩ := next_takes h.ready (by rw [htoken]; simp) hnext
    cases result with
    | none =>
      obtain ⟨hshape, rfl⟩ := pure_eq_ok.1 hread
      cases hshape
      trivial
    | some items =>
      obtain ⟨hshape, rfl⟩ := pure_eq_ok.1 hread
      cases hshape
      obtain ⟨taken, close, hback, hclose, hlocated, hall, horder⟩ :=
        hsound (h.taken htakes) helements
      exact array_sound h htoken htakes hback hclose hlocated hall horder
  case h_8 =>
    generalize hname : implicitName? stream.head stream.second = name? at hread
    split at hread
    · next name =>
      simp only [bind_eq_ok, pure_eq_ok, Option.some.injEq] at hread
      obtain ⟨point, between, hnext, member, between', hnext', rfl, rfl⟩ := hread
      obtain ⟨rfl, hpending, htakes⟩ := next_takes h.ready (by rw [htoken]; simp) hnext
      rw [second_eq_head hpending htakes] at hname
      unfold implicitName? at hname
      split at hname
      · next hmember =>
        split at hname
        · next hjoin =>
          cases hname
          have hbetween := (h.taken htakes).ready
          have hend : between.head.token ≠ .endOfInput := by rw [hmember]; simp
          obtain ⟨rfl, -, htakes'⟩ := next_takes hbetween hend hnext'
          obtain ⟨-, -, hpoint⟩ := h.ready.pending_eq (by rw [htoken]; simp)
          obtain ⟨-, -, hsits⟩ := hbetween.pending_eq hend
          have hstop : after.readTo = between.head.span.stop := htakes'.readTo
          rw [Expr.Shape.Sound, hstop, hpoint.sourceText_pair hsits hjoin, htoken, hmember,
            Token.spelling, Token.spelling, String.ofList_append, String.ofList_toList]
        · cases hname
      · cases hname
    · obtain ⟨hshape, -⟩ := pure_eq_ok.1 hread
      cases hshape
  case h_9 =>
    obtain ⟨hshape, -⟩ := pure_eq_ok.1 hread
    cases hshape
  case h_4 | h_5 | h_6 =>
    refine hsingle _ (by simp) rfl hread fun hall => ?_
    simpa only [Expr.Shape.Sound, Token.spelling, String.ofList_toList] using hall
  all_goals exact hsingle _ (by simp) rfl hread fun hall => hall

/-- The shape of a literal is kept only if nothing is taken behind it. -/
theorem exprWith_sound {elements : Reader (Option (List Expr))} {stopAtColon : Bool} {value : Expr}
    (hreads : ReadsElements source elements) (hsound : ReadsSound source elements)
    (h : Genuine source stream)
    (hread : exprWith source elements stopAtColon stream = .ok (value, after)) : value.Sound := by
  rw [exprWith, peek_bind_eq_ok, bind_eq_ok] at hread
  obtain ⟨literal?, between, hliteral, hread⟩ := hread
  rw [bind_eq_ok] at hread
  obtain ⟨shape, _, hshape, hread⟩ := hread
  rw [get_bind_eq_ok, pure_eq_ok] at hread
  obtain ⟨rfl, rfl⟩ := hread
  obtain ⟨front, hfront, -, hsome⟩ := literal?_takes hreads h.ready hliteral
  obtain ⟨_, -, -, hkind⟩ := exprShape_takes (h.ready.taken hfront).2 hshape
  rcases hkind with ⟨rfl, rfl, -⟩ | rfl
  · have hlt := h.ready.head_lt_readTo hfront (hsome shape rfl).1
    rw [Expr.Sound, Nat.max_eq_left (Nat.le_of_lt hlt)]
    exact literal?_sound hsound h hliteral
  · trivial

theorem elements_sound (limit : Nat) : ReadsSound source (elements source limit) := by
  induction limit with
  | zero =>
    intro stream after items _ hread
    exact absurd hread tooLong_ne_ok
  | succ limit ih =>
    intro stream after items h hread
    have hdictionary : ∀ {between : TokenStream},
        dictionary between ≠ .ok (some items, after) := by
      intro between hread
      exact absurd (dictionary_takes hread).1 (by simp)
    rw [elements, peek_bind_eq_ok] at hread
    generalize htoken : stream.head.token = token at hread
    split at hread
    · simp only [bind_eq_ok, pure_eq_ok, Option.some.injEq] at hread
      obtain ⟨close, _, hnext, rfl, rfl⟩ := hread
      obtain ⟨rfl, -, htakes⟩ := next_takes h.ready (by rw [htoken]; simp) hnext
      exact ⟨[], stream.head, htakes, htoken, trivial, trivial, h.ready.readTo_le_head⟩
    · exact absurd hread hdictionary
    · exact absurd hread expected_ne_ok
    · rw [bind_eq_ok] at hread
      obtain ⟨element, between, helement, hread⟩ := hread
      have hfirst := exprWith_sound (elements_reads limit) ih h helement
      obtain ⟨front, hfront, -, hlocated, horder⟩ :=
        exprWith_takes (elements_reads limit) h.ready helement
      have hbetween := h.taken hfront
      -- an element in front of those that are read from a later place on
      have hmore : ∀ {middle : List Placed} {later : TokenStream}, Takes between middle [] later →
          (elements source limit >>= fun items => pure (items.map (element :: ·))) later =
            .ok (some items, after) →
          ∃ taken close, Takes stream (taken ++ [close]) [] after ∧
            close.token = .closing .square ∧ Expr.AllLocated source items ∧
            Expr.AllSound items ∧
            Span.InOrder stream.readTo (writtenSpans items) close.span.start := by
        intro middle later hmiddle hread
        simp only [bind_eq_ok, pure_eq_ok] at hread
        obtain ⟨more, _, hrest, hitems, rfl⟩ := hread
        obtain ⟨rest, rfl, rfl⟩ := Option.map_eq_some_iff.1 hitems.symm
        obtain ⟨back, close, hback, hclose, hall, hsound, hrestOrder⟩ :=
          ih (hbetween.taken hmiddle) hrest
        have htakes := (hfront.trans hmiddle).trans hback
        rw [← List.append_assoc] at htakes
        refine ⟨_, close, htakes, hclose, ⟨hlocated, hall⟩, ⟨hfirst, hsound⟩, ?_⟩
        have hle := hbetween.ready.readTo_le hmiddle
        have hjoined := horder.append (hrestOrder.mono hle (Nat.le_refl _))
        unfold writtenSpans at *
        rwa [← List.map_append, ← List.filter_append] at hjoined
      rw [peek_bind_eq_ok] at hread
      generalize hnext : between.head.token = token' at hread
      split at hread
      · rw [bind_eq_ok] at hread
        obtain ⟨_, later, hcomma, hread⟩ := hread
        obtain ⟨-, -, hone⟩ := next_takes hbetween.ready (by rw [hnext]; simp) hcomma
        exact hmore hone hread
      · exact hmore (.refl _) hread
      · exact absurd hread hdictionary
      · exact absurd hread expected_ne_ok

/-- **Every expression that is read is sound.** -/
theorem expr_sound {stopAtColon : Bool} {value : Expr} (h : Genuine source stream)
    (hread : expr source stopAtColon stream = .ok (value, after)) : value.Sound :=
  exprWith_sound (elements_reads _) (elements_sound _) h hread

theorem binding_sound {binding : Binding} (h : Genuine source stream)
    (hread : Reader.binding source stream = .ok (binding, after)) :
    ∀ value ∈ binding.initializer?, value.Sound := by
  rw [Reader.binding, bind_eq_ok] at hread
  obtain ⟨pattern, afterName, hname, hread⟩ := hread
  obtain ⟨-, -, -, hnameTakes⟩ := name_takes h.ready hname
  have hafterName := h.taken hnameTakes
  rw [bind_eq_ok] at hread
  obtain ⟨type?, afterType, htype, hread⟩ := hread
  obtain ⟨_, htypeTakes, -⟩ := type?_takes hafterName.ready htype
  have hafterType := hafterName.taken htypeTakes
  simp only [bind_eq_ok, pure_eq_ok] at hread
  obtain ⟨value?, _, hvalue, accessors, _, -, rfl, -⟩ := hread
  rw [initializer?, peek_bind_eq_ok] at hvalue
  generalize hequals : afterType.head.token = token at hvalue
  split at hvalue
  · simp only [bind_eq_ok, pure_eq_ok] at hvalue
    obtain ⟨equals, between, hnext, value, _, hvalue, rfl, -⟩ := hvalue
    obtain ⟨-, -, hone⟩ := next_takes hafterType.ready (by rw [hequals]; simp) hnext
    rintro _ ⟨⟩
    exact expr_sound (hafterType.taken hone) hvalue
  · obtain ⟨rfl, -⟩ := pure_eq_ok.1 hvalue
    simp

/-! ### Where bindings are read -/

def BoundBehind (source : List Char) (stream : TokenStream) (binding : Binding) : Prop :=
  ∃ taken noted between after, Takes stream taken noted between ∧
    Reader.binding source between = .ok (binding, after)

theorem BoundBehind.of_takes {between : TokenStream} {binding : Binding} {taken : List Placed}
    {noted : List Span} (htakes : Takes stream taken noted between)
    (h : BoundBehind source between binding) : BoundBehind source stream binding := by
  obtain ⟨_, _, later, after, hlater, hread⟩ := h
  exact ⟨_, _, later, after, htakes.trans hlater, hread⟩

theorem bindings_behind {limit : Nat} {bindings : List Binding} (hready : Ready source stream)
    (hread : Reader.bindings source limit stream = .ok (bindings, after)) :
    ∀ binding ∈ bindings, BoundBehind source stream binding := by
  induction limit generalizing stream bindings after with
  | zero => exact absurd hread tooLong_ne_ok
  | succ limit ih =>
    rw [Reader.bindings, bind_eq_ok] at hread
    obtain ⟨first, between, hfirst, hread⟩ := hread
    have hbehind : BoundBehind source stream first :=
      ⟨[], [], stream, between, .refl stream, hfirst⟩
    obtain ⟨_, htakes, -⟩ := binding_takes hready hfirst
    have hbetween := (hready.taken htakes).2
    rw [peek_bind_eq_ok] at hread
    generalize htoken : between.head.token = token at hread
    split at hread
    · simp only [bind_eq_ok, pure_eq_ok] at hread
      obtain ⟨comma, between', hcomma, more, _, hmore, rfl, -⟩ := hread
      obtain ⟨-, -, hone⟩ := next_takes hbetween (by rw [htoken]; simp) hcomma
      have hrest := ih (hbetween.taken hone).2 hmore
      exact List.forall_mem_cons.2
        ⟨hbehind, fun binding hmem => (hrest binding hmem).of_takes (htakes.trans hone)⟩
    · obtain ⟨rfl, -⟩ := pure_eq_ok.1 hread
      simpa using hbehind

theorem property_behind {start : Span} {attrs : List Attribute} {isStatic : Bool}
    {member : Member} (hready : Ready source stream) (hhead : stream.head.token ≠ .endOfInput)
    (hread : property source start attrs isStatic stream = .ok (.property member, after)) :
    ∀ binding ∈ member.bindings, BoundBehind source stream binding := by
  rw [property, bind_eq_ok] at hread
  obtain ⟨keyword, between, hkeyword, hread⟩ := hread
  obtain ⟨-, -, htakes⟩ := next_takes hready hhead hkeyword
  have hbetween := (hready.taken htakes).2
  rw [peek_bind_eq_ok] at hread
  generalize between.head.token = token at hread
  split at hread
  · rw [bind_eq_ok] at hread
    obtain ⟨markers, marked, hmarkers, hread⟩ := hread
    obtain ⟨hmarked, -, -⟩ := markers_takes hmarkers
    rw [bind_eq_ok] at hread
    obtain ⟨bindings, bound, hbindings, hread⟩ := hread
    rw [get_bind_eq_ok, pure_eq_ok] at hread
    obtain ⟨hmember, -⟩ := hread
    cases hmember
    have hbehind := bindings_behind (hbetween.taken hmarked).2 hbindings
    exact fun binding hmem => (hbehind binding hmem).of_takes (htakes.trans hmarked)
  · simp only [bind_eq_ok, pure_eq_ok] at hread
    obtain ⟨_, _, -, hitem, -⟩ := hread
    cases hitem

theorem item_behind {member : Member} (hready : Ready source stream)
    (hread : Reader.item source stream = .ok (.entry (.property member), after)) :
    ∀ binding ∈ member.bindings, BoundBehind source stream binding := by
  rw [Reader.item, peek_bind_eq_ok, bind_eq_ok] at hread
  obtain ⟨attrs, afterAttrs, hattrs, hread⟩ := hread
  obtain ⟨_, hattrsTakes, -⟩ := attributes_takes hready hattrs
  rw [bind_eq_ok] at hread
  obtain ⟨isStatic, here, hmodifiers, hread⟩ := hread
  obtain ⟨_, hmodifiersTakes, -⟩ := modifiers_takes hmodifiers
  have htakes := hattrsTakes.trans hmodifiersTakes
  have hhere := (hready.taken htakes).2
  rw [get_bind_eq_ok] at hread
  -- whatever is no property gives another item
  have hother : (other stream.head.span >>= fun span => pure (Item.entry (.other span))) here ≠
      .ok (.entry (.property member), after) := by
    intro hread
    simp only [bind_eq_ok, pure_eq_ok] at hread
    obtain ⟨_, _, -, hitem, -⟩ := hread
    cases hitem
  generalize htoken : here.head.token = token at hread
  split at hread
  · simp only [bind_eq_ok, pure_eq_ok] at hread
    obtain ⟨_, _, -, hitem, -⟩ := hread
    cases hitem
  · next word =>
    split at hread
    · simp only [bind_eq_ok, pure_eq_ok] at hread
      obtain ⟨item, _, hproperty, hitem, rfl⟩ := hread
      cases hitem
      have hbehind := property_behind hhere (by rw [htoken]; simp) hproperty
      exact fun binding hmem => (hbehind binding hmem).of_takes htakes
    · generalize Declaration.Kind.ofKeyword? word = kind? at hread
      generalize here.second.token.isName = named at hread
      split at hread
      · simp only [bind_eq_ok, pure_eq_ok] at hread
        obtain ⟨_, _, -, hitem, -⟩ := hread
        cases hitem
      · exact absurd hread hother
  · exact absurd hread hother

/-- Every binding of a body was read somewhere in it. -/
theorem items_behind {limit : Nat} {items : List BodyItem} (hready : Ready source stream)
    (hread : Reader.items source limit stream = .ok (items, after)) :
    ∀ member, BodyItem.HaveMember items member →
      ∀ binding ∈ member.bindings, BoundBehind source stream binding := by
  induction limit generalizing stream items after with
  | zero => exact absurd hread tooLong_ne_ok
  | succ limit ih =>
    rw [Reader.items, peek_bind_eq_ok] at hread
    generalize stream.head.token = token at hread
    split at hread
    · obtain ⟨rfl, -⟩ := pure_eq_ok.1 hread
      simp [BodyItem.HaveMember, Declaration.nestedIn]
    · obtain ⟨rfl, -⟩ := pure_eq_ok.1 hread
      simp [BodyItem.HaveMember, Declaration.nestedIn]
    · rw [bind_eq_ok] at hread
      obtain ⟨found, between, hitem, hread⟩ := hread
      obtain ⟨attrs, segments, tail, noted, htaken⟩ := item_takes hready hitem
      have hbetween := (hready.taken htaken.takes).2
      intro member hmember binding hbinding
      cases found with
      | separator => exact (ih hbetween hread member hmember binding hbinding).of_takes htaken.takes
      | entry entry =>
        simp only [bind_eq_ok, pure_eq_ok] at hread
        obtain ⟨more, _, hmore, rfl, -⟩ := hread
        rw [BodyItem.HaveMember, htaken.nestedIn_entry, List.mem_cons, or_assoc] at hmember
        rcases hmember with rfl | hmember
        · exact item_behind hready hitem binding hbinding
        · exact (ih hbetween hmore member hmember binding hbinding).of_takes htaken.takes
      | opened header =>
        simp only [bind_eq_ok, pure_eq_ok] at hread
        obtain ⟨inner, closing, hinner, close, outside, hclose, more, _, hmore, rfl, -⟩ := hread
        obtain ⟨_, _, hread⟩ := items_read hbetween hinner
        have hclosing := htaken.takes.trans hread.takes.2
        obtain ⟨-, -, hcloses⟩ := closingBrace_takes (hready.taken hclosing).2 hclose
        have houtside := hclosing.trans hcloses
        rcases BodyItem.haveMember_nested.1 hmember with hmember | hmember
        · exact (ih hbetween hinner member hmember binding hbinding).of_takes htaken.takes
        · have hbehind := ih (hready.taken houtside).2 hmore member hmember binding hbinding
          exact hbehind.of_takes houtside

end Reader

/-- **The shapes of initializers are sound.**  In every source that can be read, an
    initializer, or an element in one, that has the shape of a literal is that literal:
    cut into tokens by itself, its text is one token of the sort that the shape says, or it
    is a point and a name, or an array in which its elements stand in order. -/
theorem Outline.initializers_sound {source : List Char} {outline : Outline}
    (h : Outline.ofSource source = .ok outline) :
    ∀ declaration ∈ outline.allDeclarations, ∀ member ∈ declaration.members,
      ∀ binding ∈ member.bindings, ∀ value ∈ binding.initializer?, value.Sound := by
  obtain ⟨tokens, items, after, htokens, hitems, -, hdeclarations, -⟩ := Outline.ofSource_eq_ok h
  have hstart : Genuine source (.start tokens) := .start htokens
  intro declaration hmem member hmember binding hbinding
  rw [Outline.allDeclarations, hdeclarations, ← Declaration.nestedIn_eq] at hmem
  obtain ⟨_, _, between, _, htakes, hread⟩ := Reader.items_behind hstart.ready hitems member
    (.inr ⟨declaration, hmem, hmember⟩) binding hbinding
  exact Reader.binding_sound (hstart.taken htakes) hread

def Outline.initializerTexts (outline : Outline) : List String :=
  outline.allDeclarations.flatMap fun declaration => declaration.members.flatMap fun member =>
    member.bindings.filterMap fun binding => binding.initializer?.map (·.text)

def literalStruct : String :=
  "struct S \x7b var a = [1, [.x, nil], f(2)], b = \"q\" + c, d = true \x7b willSet \x7d \x7d"

theorem Outline.initializers_sound_nested :
    ∃ outline, Outline.ofSource literalStruct.toList = .ok outline ∧
      outline.initializerTexts = ["[1, [.x, nil], f(2)]", "\"q\" + c", "true"] ∧
      ∀ declaration ∈ outline.allDeclarations, ∀ member ∈ declaration.members,
        ∀ binding ∈ member.bindings, ∀ value ∈ binding.initializer?, value.Sound := by
  have hread : (Outline.ofSource literalStruct.toList).toOption.map (·.initializerTexts) =
      some ["[1, [.x, nil], f(2)]", "\"q\" + c", "true"] := by decide +kernel
  cases h : Outline.ofSource literalStruct.toList with
  | error cause =>
    rw [h] at hread
    cases hread
  | ok outline =>
    rw [h] at hread
    exact ⟨outline, rfl, Option.some.inj hread, Outline.initializers_sound h⟩

end Memberwise
