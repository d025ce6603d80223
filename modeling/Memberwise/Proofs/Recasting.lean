/-
  Memberwise/Proofs/Recasting.lean
  ================================
  **A source without its requests is read to the same end.**

  The places at which expanding a source changes it are its marks: a request is taken
  out there, or more is put in front of a closing brace.  `Recast` tells the tokens of
  both sources from one mark to the next.  Between two marks they are the same, and the
  readers stop at a mark as they do at any seam.

  An item that stops at a mark is empty in the first source, since the token in front of
  the mark asks for no other one.  In the second source it is empty if nothing comes in
  its place, which is so at a closing brace and at the end (`Seam.Calm`).
-/
import Memberwise.Proofs.Answering
import Memberwise.Proofs.Checked.Reading
import Memberwise.Proofs.Requests
import Memberwise.Proofs.Rereading
import Memberwise.Proofs.Stopping

namespace Memberwise

/-! ### Marks -/

/-- A place at which expanding a source changes it. -/
inductive Mark where
  /-- An attribute is taken out. -/
  | request (span : Span)
  /-- Text is put in front of the brace that closes a declaration. -/
  | answer (declaration : Declaration)

def Mark.place : Mark → Nat
  | request span => span.start
  | answer declaration => declaration.body.stop - 1

/-- The tokens have come to the next mark, or to the seam if there is no mark left. -/
def Seam.Stands (seam : Seam) : List Mark → List Placed → Prop
  | [], pending => pending = seam.behind
  | mark :: _, pending => pending.head?.map (·.span.start) = some mark.place

/-- Items are read from one stream to another, whatever the limit. -/
def ItemsGo (source : List Char) (stream after : TokenStream) : Prop :=
  ∀ limit, weight stream.pending < limit →
    ∃ items, Reader.items source limit stream = .ok (items, after)

/-- Items that request nothing are read from some tokens on. -/
def Passes (source : List Char) (finish : Placed) (tokens left : List Placed) : Prop :=
  ∀ stream : TokenStream, Ready source stream → stream.pending = tokens → stream.finish = finish →
    ∃ after, ItemsGo source stream after ∧ after.pending = left ∧ after.finish = finish ∧
      after.requests = stream.requests

/-- The tokens of a source, and of a second one in which what stands at the marks is changed:
    requests are gone, and in front of braces there are more items. -/
inductive Recast (source' : List Char) (seam : Seam) :
    Bool → Nat → Nat → List Placed → List Placed → List Mark → Prop where
  | behind {fresh : Bool} {low low' : Nat} :
      Recast source' seam fresh low low' seam.behind seam.behind' []
  | keep {fresh : Bool} {low low' : Nat} {placed placed' : Placed} {rest rest' : List Placed}
      {marks : List Mark} (h : placed.Echoes fresh low low' placed')
      (hapart : ∀ mark ∈ marks.head?, placed.span.stop ≤ mark.place)
      (hsettled : seam.Stands marks rest → placed.token.asksForMore = false)
      (hrest : Recast source' seam false placed.span.stop placed'.span.stop rest rest' marks) :
      Recast source' seam fresh low low' (placed :: rest) (placed' :: rest') marks
  | drop {fresh : Bool} {low low' : Nat} {sign last head' : Placed}
      {rest tokens tail' : List Placed} {span : Span} {marks : List Mark}
      (hsign : sign.token = .atSign)
      (hlast : (sign :: rest).getLast? = some last)
      (hspan : span.start = sign.span.start ∧ span.stop = last.span.stop)
      (hgoes : head'.token = .atSign ∨ Introduces head')
      (hhalt : fresh = false → Halt sign head')
      (hrest : Recast source' seam true 0 0 tokens (head' :: tail') marks) :
      Recast source' seam fresh low low' (sign :: rest ++ tokens) (head' :: tail')
        (.request span :: marks)
  | put {fresh : Bool} {low low' : Nat} {brace brace' head' : Placed}
      {rest rest' tail' : List Placed} {declaration : Declaration} {marks : List Mark}
      (hbrace : brace.token = .closing .curly)
      (hplace : brace.span.start = declaration.body.stop - 1)
      (hhalt : Halt brace head')
      (hpasses : Passes source' seam.finish' (head' :: tail') (brace' :: rest'))
      (hrest : Recast source' seam true 0 0 (brace :: rest) (brace' :: rest') marks) :
      Recast source' seam fresh low low' (brace :: rest) (head' :: tail')
        (.answer declaration :: marks)

/-! ### From seam to seam -/

namespace Seam

variable {source source' : List Char} {seam : Seam} {fresh : Bool} {low low' high : Nat}
  {pending pending' : List Placed} {marks : List Mark}

theorem Echo.exists_front (h : seam.Echo fresh low low' pending pending') :
    ∃ front, pending = front ++ seam.behind := by
  induction h with
  | behind => exact ⟨[], rfl⟩
  | @cons _ _ _ placed _ _ _ _ _ _ ih =>
    obtain ⟨front, rfl⟩ := ih
    exact ⟨placed :: front, rfl⟩

/-- The next mark is a seam, with the tokens in front of it the same in both sources. -/
structure Next (source' : List Char) (seam seam' : Seam) (marks : List Mark) : Prop where
  finish : seam'.finish = seam.finish
  finish' : seam'.finish' = seam.finish'
  stands : seam.Stands marks seam'.behind
  behind' : marks = [] → seam'.behind' = seam.behind'
  recast : ∀ (fresh : Bool) (low low' : Nat),
    Recast source' seam fresh low low' seam'.behind seam'.behind' marks

end Seam

section

variable {source source' : List Char} {seam seam' : Seam} {fresh : Bool} {low low' high : Nat}
  {pending pending' : List Placed} {marks : List Mark}

theorem Recast.next (h : Recast source' seam fresh low low' pending pending' marks)
    (hstart : fresh = false ∨ ¬ seam.Stands marks pending) :
    ∃ seam', seam.Next source' seam' marks ∧ seam'.Echo fresh low low' pending pending' := by
  induction h with
  | behind => exact ⟨seam, ⟨rfl, rfl, rfl, fun _ => rfl, fun _ _ _ => .behind⟩, .behind⟩
  | keep h hapart hsettled hrest ih =>
    obtain ⟨seam', hnext, hechoes⟩ := ih (.inl rfl)
    refine ⟨seam', hnext, .cons h (fun hbehind => hsettled ?_) hechoes⟩
    rw [hbehind]
    exact hnext.stands
  | @drop fresh low low' sign last head' rest tokens tail' span marks hsign hlast hspan hgoes hhalt
      hrest ih =>
    have hhalt : Halt sign head' := by
      refine hhalt (hstart.resolve_right fun hnot => hnot ?_)
      simp [Seam.Stands, Mark.place, hspan.1]
    refine ⟨⟨seam.finish, seam.finish', sign :: rest ++ tokens, head' :: tail', hhalt, ?_, ?_,
      seam.finish_token, seam.finish_token'⟩, ⟨rfl, rfl, ?_, ?_, ?_⟩, .behind⟩
    · rintro _ ⟨⟩
      rw [hsign]
      simp [Token.spelling]
    · simp
    · simp [Seam.Stands, Mark.place, hspan.1]
    · simp
    · exact fun _ _ _ => .drop hsign hlast hspan hgoes (fun _ => hhalt) hrest
  | @put fresh low low' brace brace' head' rest rest' tail' declaration marks hbrace hplace hhalt
      hpasses hrest ih =>
    refine ⟨⟨seam.finish, seam.finish', brace :: rest, head' :: tail', hhalt, ?_, ?_,
      seam.finish_token, seam.finish_token'⟩, ⟨rfl, rfl, ?_, ?_, ?_⟩, .behind⟩
    · rintro _ ⟨⟩
      rw [hbrace]
      simp [Token.spelling]
    · simp
    · simp [Seam.Stands, Mark.place, hplace]
    · simp
    · exact fun _ _ _ => .put hbrace hplace hhalt hpasses hrest

/-- Behind the end of a run of tokens, something that stands further on is still left. -/
theorem weight_le_of_place {front behind taken rest : List Placed} {first : Placed}
    (hlaid : Laid source low (front ++ first :: behind) high)
    (h : Refines (front ++ first :: behind) (taken ++ rest))
    (hle : endOf low taken ≤ first.span.start) : weight (first :: behind) ≤ weight rest := by
  obtain ⟨before, back, hparts, -, hback⟩ := h.of_append
  rcases List.append_eq_append_iff.1 hparts with ⟨more, -, rfl⟩ | ⟨more, rfl, rfl⟩
  · rw [← weight_of_refines hback, weight_append]
    exact Nat.le_add_left _ _
  · cases more with
    | nil => exact Nat.le_of_eq (weight_of_refines hback).symm
    | cons second more =>
      -- else the first token behind the place would have been taken
      have hlaid' := (h.laid hlaid).1
      rw [List.append_assoc, Laid.append_iff, Laid.append_iff] at hlaid'
      have hlt := hlaid'.2.1.2.1.start_lt_stop
      have hend := hlaid'.2.1.2.2.le
      have hstart := hback.start_eq
      rw [endOf_append, endOf_cons] at hle
      rw [endOf_cons] at hend
      omega

/-- Behind a reader that has not come further than the next mark, what stands there is left. -/
theorem Seam.Next.keeps {stream stream' after : TokenStream} {taken : List Placed}
    {noted : List Span} (hnext : seam.Next source' seam' marks) (hready : Ready source stream)
    (h : seam'.Echo fresh stream.readTo stream'.readTo stream.pending stream'.pending)
    (htakes : Takes stream taken noted after)
    (hmarks : ∀ mark ∈ marks.head?, after.readTo ≤ mark.place)
    (hseam : weight seam.behind ≤ weight after.pending) :
    weight seam'.behind ≤ weight after.pending := by
  have hstands := hnext.stands
  cases marks with
  | nil =>
    rw [show seam'.behind = seam.behind from hstands]
    exact hseam
  | cons mark marks =>
    obtain ⟨front, hfront⟩ := h.exists_front
    obtain ⟨first, behind, hbehind⟩ : ∃ first behind, seam'.behind = first :: behind := by
      cases hbehind : seam'.behind with
      | nil =>
        rw [hbehind] at hstands
        cases hstands
      | cons first behind => exact ⟨first, behind, rfl⟩
    have hlaid := hready.laid
    have hrefines := htakes.pending
    rw [hbehind] at hstands
    rw [hfront, hbehind] at hlaid hrefines
    have hplace : first.span.start = mark.place := Option.some.inj hstands
    have hle := hmarks mark rfl
    rw [htakes.readTo, ← hplace] at hle
    rw [hbehind]
    exact weight_le_of_place hlaid hrefines hle

/-- What is in front of the next mark, and what is there. -/
theorem Seam.Echo.recast {place : Nat} (h : seam'.Echo fresh low low' pending pending')
    (hnext : seam.Next source' seam' marks) (hlaid : Laid source place pending high) :
    Recast source' seam fresh low low' pending pending' marks := by
  induction h generalizing place with
  | behind => exact hnext.recast _ _ _
  | @cons fresh low low' placed placed' rest rest' h hsettled hrest ih =>
    obtain ⟨-, hsits, hlaid⟩ := hlaid
    obtain ⟨front, hfront⟩ := hrest.exists_front
    have hstands := hnext.stands
    refine .keep h ?_ (fun hhere => hsettled ?_) (ih hlaid)
    · intro mark hmark
      obtain ⟨marks, rfl⟩ := List.head?_eq_some_iff.1 hmark
      obtain ⟨first, hfirst, hplace⟩ := Option.map_eq_some_iff.1 hstands
      rw [← hplace]
      rw [hfront] at hlaid
      exact hlaid.le_start (List.mem_append_right _ (List.mem_of_mem_head? hfirst))
    · cases marks with
      | nil => exact hhere.trans (show seam'.behind = seam.behind from hstands).symm
      | cons mark marks =>
        -- nothing else starts where the mark is
        cases front with
        | nil => exact hfront
        | cons first front =>
          rw [hfront] at hlaid hhere
          obtain ⟨second, hsecond, hplace⟩ := Option.map_eq_some_iff.1 hstands
          have hsame : first.span.start = mark.place := Option.some.inj hhere
          have hlt := hlaid.2.1.start_lt_stop
          have hle := hlaid.2.2.le_start
            (List.mem_append_right _ (List.mem_of_mem_head? hsecond))
          omega

end

/-! ### Readers that part no operator -/

namespace Reader

/-- A reader that leaves the tokens behind it as they are. -/
structure Leaves {α : Type} (reader : Reader α) : Prop where
  tokens : ∀ {stream after value}, reader stream = .ok (value, after) →
    ∃ taken, stream.pending = taken ++ after.pending ∧ after.readTo = endOf stream.readTo taken

namespace Leaves

variable {α β : Type} {reader : Reader α} {more : α → Reader β}

theorem pure (a : α) : Leaves (Pure.pure a) := by
  constructor
  intro stream after value hread
  obtain ⟨-, rfl⟩ := pure_eq_ok.1 hread
  exact ⟨[], rfl, rfl⟩

theorem fail (h : ∀ {stream result}, reader stream ≠ .ok result) : Leaves reader :=
  ⟨fun hread => absurd hread h⟩

theorem expected (what : Expected) : Leaves (Reader.expected what : Reader α) :=
  .fail expected_ne_ok

theorem bind (h : Leaves reader) (hmore : ∀ a, Leaves (more a)) : Leaves (reader >>= more) := by
  constructor
  intro stream after value hread
  obtain ⟨a, between, hfirst, hrest⟩ := bind_eq_ok.1 hread
  obtain ⟨taken, hpending, hreadTo⟩ := h.tokens hfirst
  obtain ⟨taken', hpending', hreadTo'⟩ := (hmore a).tokens hrest
  refine ⟨taken ++ taken', ?_, ?_⟩
  · rw [hpending, hpending', List.append_assoc]
  · rw [hreadTo', hreadTo, endOf_append]

theorem peek {more : Placed → Reader β} (h : ∀ placed, Leaves (more placed)) :
    Leaves (Reader.peek >>= more) :=
  ⟨fun hread => (h _).tokens hread⟩

theorem get {more : TokenStream → Reader β} (h : ∀ stream, Leaves (more stream)) :
    Leaves (MonadState.get >>= more) :=
  ⟨fun hread => (h _).tokens hread⟩

theorem next : Leaves Reader.next := by
  constructor
  intro stream after placed hread
  unfold Reader.next at hread
  split at hread
  · cases hread
    exact ⟨[], rfl, rfl⟩
  · next hpending =>
    cases hread
    exact ⟨[_], hpending, rfl⟩

theorem take {run : Run} (h : ∀ tokens, (run tokens).1 ++ (run tokens).2 = tokens) :
    Leaves (Reader.take run) := by
  constructor
  intro stream after taken hread
  cases hread
  exact ⟨_, (h _).symm, rfl⟩

theorem name : Leaves Reader.name := by
  refine .peek fun placed => ?_
  split
  · exact .bind .next fun _ => .pure _
  · exact .expected _

variable {source : List Char}

theorem literal? {elements : Reader (Option (List Expr))} (h : Leaves elements) :
    Leaves (Reader.literal? elements) := by
  refine .get fun stream => ?_
  have hsingle : ∀ shape : Expr.Shape, Leaves (Reader.next >>= fun _ => Pure.pure (some shape)) :=
    fun shape => .bind .next fun _ => .pure _
  split
  · exact hsingle _
  · exact hsingle _
  · exact hsingle _
  · exact hsingle _
  · exact hsingle _
  · exact hsingle _
  · refine .bind .next fun _ => .bind h fun items? => ?_
    cases items? <;> exact .pure _
  · split
    · exact .bind .next fun _ => .bind .next fun _ => .pure _
    · exact .pure _
  · exact .pure _

theorem exprShape (stopAtColon : Bool) (shape? : Option Expr.Shape) :
    Leaves (Reader.exprShape stopAtColon shape?) := by
  have hrun : ∀ first, Leaves (Reader.take (exprRun stopAtColon first 0) >>= fun _ =>
      Pure.pure Expr.Shape.other) :=
    fun first => .bind (.take (exprRun_append stopAtColon first 0)) fun _ => .pure _
  cases shape? with
  | none => exact hrun true
  | some shape =>
    refine .bind (.get fun _ => .pure _) fun ends => ?_
    split
    · exact .pure _
    · exact hrun false

theorem exprWith {elements : Reader (Option (List Expr))} (h : Leaves elements)
    (stopAtColon : Bool) : Leaves (Reader.exprWith source elements stopAtColon) :=
  .peek fun _ => .bind (.literal? h) fun _ => .bind (.exprShape stopAtColon _) fun _ =>
    .get fun _ => .pure _

theorem elements (limit : Nat) : Leaves (Reader.elements source limit) := by
  have hdictionary : Leaves dictionary :=
    .bind (.take (collectionRun_append 0)) fun _ => .pure _
  induction limit with
  | zero => exact .fail tooLong_ne_ok
  | succ limit ih =>
    refine .peek fun placed => ?_
    split
    · exact .bind .next fun _ => .pure _
    · exact hdictionary
    · exact .expected _
    · refine .bind (.exprWith ih true) fun _ => .peek fun placed => ?_
      split
      · exact .bind .next fun _ => .bind ih fun _ => .pure _
      · exact .bind ih fun _ => .pure _
      · exact hdictionary
      · exact .expected _

theorem arguments (limit : Nat) : Leaves (Reader.arguments source limit) := by
  induction limit with
  | zero => exact .fail tooLong_ne_ok
  | succ limit ih =>
    refine .peek fun placed => ?_
    split
    · exact .pure _
    · refine .bind (.get fun stream => ?_) fun _ => .bind (.exprWith (.elements _) false) fun _ =>
        .peek fun placed => ?_
      · split
        · exact .bind .next fun _ => .bind .next fun _ => .pure _
        · exact .pure _
      · split
        · exact .bind .next fun _ => .bind ih fun _ => .pure _
        · exact .bind ih fun _ => .pure _
        · exact .expected _

theorem attr : Leaves (Reader.attr source) := by
  refine .bind .next fun _ => .bind .name fun _ => .peek fun _ => ?_
  split
  · exact .bind .next fun _ => .bind (.arguments _) fun _ => .bind .next fun _ => .pure _
  · exact .pure _

end Leaves

/-- Behind an attribute, the tokens are those behind its last one. -/
theorem attr_pending {source : List Char} {stream after : TokenStream} {found : Attribute}
    {front tokens : List Placed} (hready : Ready source stream)
    (h : attr source stream = .ok (found, after)) (hpending : stream.pending = front ++ tokens)
    (hstop : after.readTo = endOf stream.readTo front) : after.pending = tokens := by
  obtain ⟨taken, hparts, hreadTo⟩ := Leaves.attr.tokens h
  have hlaid := hready.laid
  have hlaid' := hready.laid
  rw [hpending, Laid.append_iff, ← hstop] at hlaid
  rw [hparts, Laid.append_iff, ← hreadTo] at hlaid'
  rw [hpending] at hparts
  -- what one of the two has more would stand nowhere
  have hnone : ∀ {more behind : List Placed}, Laid source after.readTo (more ++ behind)
      (Text.width source) → endOf after.readTo more = after.readTo → more = [] := by
    intro more behind hmore hend
    cases more with
    | nil => rfl
    | cons placed more =>
      rw [Laid.append_iff] at hmore
      have hlt := hmore.1.2.1.start_lt_stop
      have hle := hmore.1.2.2.le
      have hlow := hmore.1.1
      rw [hend] at hle
      omega
  rcases List.append_eq_append_iff.1 hparts with ⟨more, rfl, htokens⟩ | ⟨more, rfl, hafter⟩
  · rw [endOf_append, ← hstop] at hreadTo
    obtain rfl := hnone (htokens ▸ hlaid.2) hreadTo.symm
    exact htokens.symm
  · rw [endOf_append, ← hreadTo] at hstop
    obtain rfl := hnone (hafter ▸ hlaid'.2) hstop.symm
    exact hafter

end Reader

/-! ### Streams at marks -/

/-- Every limit of a loop is larger than what is left to read. -/
theorem Ready.weight_lt_readingLimit {source : List Char} {stream : TokenStream}
    (h : Ready source stream) : weight stream.pending < readingLimit source := by
  have hle := Checked.weight_le_of_laid h.laid
  have hparts := congrArg List.length (Text.takeBytes_append_dropBytes stream.readTo source)
  rw [List.length_append] at hparts
  unfold readingLimit
  omega

/-- A stream, and one of a second source, which has the same to read up to the next mark. -/
structure Seam.Meets (source source' : List Char) (seam : Seam) (marks : List Mark)
    (stream stream' : TokenStream) : Prop where
  ready : Ready source stream
  ready' : Ready source' stream'
  finish : stream.finish = seam.finish
  finish' : stream'.finish = seam.finish'
  recast : Recast source' seam true 0 0 stream.pending stream'.pending marks

/-- No more of an item comes behind the seam in the second source. -/
def Seam.Calm (seam : Seam) : Prop :=
  (seam.behind'.headD seam.finish').token = .closing .curly ∨
    (seam.behind'.headD seam.finish').token = .endOfInput

section

variable {source source' : List Char} {seam seam' : Seam} {fresh : Bool} {low low' : Nat}
  {pending pending' : List Placed} {marks more : List Mark}
  {stream stream' after after' : TokenStream}

/-- The first token of a stretch may stand anywhere. -/
theorem Seam.Echo.anywhere (h : seam.Echo true low low' pending pending') (low₂ low₂' : Nat) :
    seam.Echo true low₂ low₂' pending pending' := by
  cases h with
  | behind => exact .behind
  | cons h hsettled hrest =>
    exact .cons ⟨h.token, h.solid, nofun, nofun⟩ hsettled hrest

/-- At the seam, there are no marks left. -/
theorem Recast.eq_behind' (h : Recast source' seam fresh low low' pending pending' [])
    (hbehind : pending = seam.behind) : pending' = seam.behind' := by
  cases h with
  | behind => rfl
  | keep _ _ _ hrest =>
    obtain ⟨seam', hnext, hechoes⟩ := hrest.next (.inl rfl)
    have hstands : seam'.behind = seam.behind := hnext.stands
    have hle := hechoes.weight_le
    rw [hstands] at hle
    exact absurd hbehind (Seam.Echo.ne_of_weight_le hle)

namespace Seam

theorem Meets.next (h : seam.Meets source source' marks stream stream')
    (hnot : ¬ seam.Stands marks stream.pending) :
    ∃ seam', seam.Next source' seam' marks ∧ seam'.InStep true stream stream' ∧
      weight stream.pending + 1 ≤ readingLimit source' + weight seam'.behind ∧
      stream.pending ≠ seam'.behind := by
  obtain ⟨seam', hnext, hechoes⟩ := h.recast.next (.inr hnot)
  refine ⟨seam', hnext, ⟨h.finish.trans hnext.finish.symm, h.finish'.trans hnext.finish'.symm,
    hechoes.anywhere _ _⟩, ?_, ?_⟩
  · have hsame := hechoes.weight_eq
    have hlt := h.ready'.weight_lt_readingLimit
    omega
  · intro hbehind
    rw [hbehind] at hnot
    exact hnot hnext.stands

theorem InStep.meets (h : seam'.InStep fresh after after') (hnext : seam.Next source' seam' marks)
    (hready : Ready source after) (hready' : Ready source' after') :
    seam.Meets source source' marks after after' := by
  have hechoes : seam'.Echo true after.readTo after'.readTo after.pending after'.pending := by
    cases fresh with
    | true => exact h.pending
    | false => exact h.pending.mono
  refine ⟨hready, hready', h.finish.trans hnext.finish, h.finish'.trans hnext.finish', ?_⟩
  exact (hechoes.anywhere 0 0).recast hnext hready.laid

end Seam

end

/-! ### Attributes and modifiers -/

section

variable {source source' : List Char} {seam : Seam} {marks more : List Mark}
  {stream stream' after : TokenStream}

def marksOf (drop : Attribute → Bool) (attrs : List Attribute) : List Mark :=
  (attrs.filter drop).map fun attr => .request attr.span

/-- At a mark, nothing is taken by a reader that does not pass it. -/
theorem Seam.Stands.taken_eq_nil {taken : List Placed} {noted : List Span}
    (h : seam.Stands more stream.pending) (hready : Ready source stream)
    (htakes : Takes stream taken noted after)
    (hmore : ∀ mark ∈ more.head?, after.readTo ≤ mark.place)
    (hseam : weight seam.behind ≤ weight after.pending) : taken = [] := by
  have hlaid := (hready.taken htakes).1
  cases taken with
  | nil => rfl
  | cons first taken =>
    cases more with
    | nil =>
      have hpos := List.length_pos_iff.2 hlaid.2.1.1
      have hweight := weight_of_takes htakes
      rw [show stream.pending = seam.behind from h, weight_cons] at hweight
      omega
    | cons mark more =>
      have hle := hmore mark rfl
      have hrefines := htakes.pending
      obtain ⟨head, hhead, hplace⟩ := Option.map_eq_some_iff.1 h
      obtain ⟨rest, hpending⟩ := List.head?_eq_some_iff.1 hhead
      rw [hpending, List.cons_append] at hrefines
      have hstart := hrefines.start_eq
      have hlt := hlaid.2.1.start_lt_stop
      have hend := hlaid.2.2.le
      omega

/-- The marks at the attributes of an item, and behind them, do not come sooner than the
    attributes. -/
theorem le_place_of_attributes {limit : Nat} {attrs : List Attribute} {drop : Attribute → Bool}
    (hready : Ready source stream)
    (hread : Reader.attributes source limit stream = .ok (attrs, after))
    (hmore : ∀ mark ∈ more.head?, after.readTo ≤ mark.place) :
    ∀ mark ∈ (marksOf drop attrs ++ more).head?, stream.readTo ≤ mark.place := by
  obtain ⟨segments, htakes, hwritten⟩ := Reader.attributes_takes hready hread
  have horder := (attributes_inOrder hwritten (hready.taken htakes).1).1
  have hsub : ((attrs.filter drop).map (·.span)).Sublist (attrs.map (·.span)) :=
    List.filter_sublist.map _
  have hrequests := horder.sublist hsub
  have hle := hready.readTo_le htakes
  intro mark hmark
  unfold marksOf at hmark
  cases hdropped : attrs.filter drop with
  | nil =>
    rw [hdropped] at hmark
    exact hle.trans (hmore mark hmark)
  | cons attr rest =>
    rw [hdropped] at hmark hrequests
    cases hmark
    exact hrequests.1

/-- An attribute that is a request is passed in the first source only. -/
theorem Seam.Meets.pass {attr : Attribute} (h : seam.Meets source source'
      (.request attr.span :: marks) stream stream') (hsign : stream.head.token = .atSign)
    (hread : Reader.attr source stream = .ok (attr, after)) :
    seam.Meets source source' marks after stream' := by
  obtain ⟨taken, htakes, hwritten⟩ := Reader.attr_takes h.ready hsign hread
  obtain ⟨hlaid, hafter⟩ := h.ready.taken htakes
  have hend := (hwritten.laid hlaid).2.1
  have hstart : attr.span.start = stream.head.span.start := by
    obtain ⟨sign, name, rest, last, rfl, htoken, -, -, -, hspan⟩ := hwritten
    rw [htakes.head_eq htoken, hspan]
    rfl
  refine ⟨hafter, h.ready', htakes.finish.trans h.finish, h.finish', ?_⟩
  have hrecast := h.recast
  obtain ⟨rest, hpending, hsits⟩ := h.ready.pending_eq (by rw [hsign]; simp)
  generalize htokens : stream.pending = tokens at hrecast
  generalize htokens' : stream'.pending = tokens' at hrecast ⊢
  cases hrecast with
  | keep _ hapart _ _ =>
    -- the mark is at the first token already
    cases hpending.symm.trans htokens
    have hle : stream.head.span.stop ≤ attr.span.start := hapart _ rfl
    have hlt := hsits.start_lt_stop
    omega
  | @drop _ _ _ sign last head' front tokens tail' _ _ _ hlast hspan _ _ hrest =>
    have hstop : after.readTo = endOf stream.readTo (sign :: front) := by
      rw [endOf_eq_of_getLast? hlast, ← hspan.2, hend, htakes.readTo]
    rw [Reader.attr_pending h.ready hread htokens hstop]
    exact hrest

/-- An attribute that is none is read in both sources. -/
theorem Seam.Meets.attr {attr : Attribute} (h : seam.Meets source source' marks stream stream')
    (hsign : stream.head.token = .atSign)
    (hread : Reader.attr source stream = .ok (attr, after))
    (hmarks : ∀ mark ∈ marks.head?, after.readTo ≤ mark.place)
    (hseam : weight seam.behind ≤ weight after.pending) :
    ∃ attr' after', Reader.attr source' stream' = .ok (attr', after') ∧
      seam.Meets source source' marks after after' ∧ after'.requests = stream'.requests ∧
      attr'.name = attr.name ∧ stream'.head.token = .atSign ∧
      weight after'.pending < weight stream'.pending := by
  obtain ⟨taken, htakes, hwritten⟩ := Reader.attr_takes h.ready hsign hread
  have hne : taken ≠ [] := by
    obtain ⟨sign, name, rest, last, rfl, -⟩ := hwritten
    exact List.cons_ne_nil _ _
  have hnot : ¬ seam.Stands marks stream.pending := fun hstands =>
    hne (hstands.taken_eq_nil h.ready htakes hmarks hseam)
  obtain ⟨seam', hnext, hstep, hroom, hinside⟩ := h.next hnot
  have hkeeps := hnext.keeps h.ready hstep.pending htakes hmarks hseam
  have hechoes : Reader.Echoes seam' true _ (fun _ => True) (Reader.attr source)
      (Reader.attr source') _ := Reader.attr_echoes hroom
  obtain ⟨attr', after', hread', hafter, hrequests, hname⟩ :=
    hechoes.follows hstep (Nat.lt_succ_self _) trivial hread hkeeps
  have hsign' : stream'.head.token = .atSign := (hstep.head hinside).token.trans hsign
  obtain ⟨taken', htakes', hwritten'⟩ := Reader.attr_takes h.ready' hsign' hread'
  have hne' : taken' ≠ [] := by
    obtain ⟨sign, name, rest, last, rfl, -⟩ := hwritten'
    exact List.cons_ne_nil _ _
  exact ⟨attr', after', hread', hafter.meets hnext (h.ready.taken htakes).2
    (h.ready'.taken htakes').2, hrequests, hname, hsign', weight_lt_of_takes h.ready' htakes' hne'⟩

theorem Reader.attributes_none {source : List Char} {limit : Nat} {stream : TokenStream}
    (h : stream.head.token ≠ .atSign) :
    Reader.attributes source (limit + 1) stream = .ok ([], stream) := by
  rw [Reader.attributes, Reader.peek_bind_eq_ok]
  generalize stream.head.token = token at h
  cases token with
  | atSign => exact absurd rfl h
  | _ => rfl

/-- Attributes are read up to the same place, less those that are requests. -/
theorem Seam.Meets.attributes {limit : Nat} {attrs : List Attribute} {drop : Attribute → Bool}
    (h : seam.Meets source source' (marksOf drop attrs ++ more) stream stream')
    (hread : Reader.attributes source limit stream = .ok (attrs, after))
    (hmore : ∀ mark ∈ more.head?, after.readTo ≤ mark.place)
    (hseam : weight seam.behind ≤ weight after.pending)
    (hcalm : seam.Stands more after.pending → more = [] ∧ seam.Calm) :
    ∃ attrs' after', (∀ limit', weight stream'.pending < limit' →
        Reader.attributes source' limit' stream' = .ok (attrs', after')) ∧
      seam.Meets source source' more after after' ∧ after'.requests = stream'.requests ∧
      ∀ attr' ∈ attrs', ∃ attr ∈ attrs, drop attr = false ∧ attr'.name = attr.name := by
  induction limit generalizing stream stream' attrs with
  | zero => exact absurd hread Reader.tooLong_ne_ok
  | succ limit ih =>
    by_cases hsign : stream.head.token = .atSign
    · rw [Reader.attributes, Reader.peek_bind_eq_ok, hsign] at hread
      obtain ⟨first, between, hfirst, hread⟩ := Reader.bind_eq_ok.1 hread
      obtain ⟨attrs, _, hrest, hread⟩ := Reader.bind_eq_ok.1 hread
      obtain ⟨rfl, rfl⟩ := Reader.pure_eq_ok.1 hread
      cases hdrop : drop first with
      | true =>
        -- a request is not there any more
        rw [marksOf, List.filter_cons_of_pos hdrop, List.map_cons, List.cons_append] at h
        obtain ⟨attrs', after', hread', hafter, hrequests, hnames⟩ := ih (h.pass hsign hfirst) hrest
        refine ⟨attrs', after', hread', hafter, hrequests, fun attr' hattr' => ?_⟩
        obtain ⟨attr, hattr, hkept⟩ := hnames attr' hattr'
        exact ⟨attr, List.mem_cons_of_mem _ hattr, hkept⟩
      | false =>
        rw [marksOf, List.filter_cons_of_neg (by simp [hdrop])] at h
        obtain ⟨taken, htakes, -⟩ := Reader.attr_takes h.ready hsign hfirst
        have hbetween := (h.ready.taken htakes).2
        obtain ⟨segments, hrestTakes, -⟩ := Reader.attributes_takes hbetween hrest
        have hweight := weight_of_takes hrestTakes
        obtain ⟨first', between', hfirst', hmeets, hquiet, hname, hsign', hless⟩ :=
          h.attr hsign hfirst (le_place_of_attributes hbetween hrest hmore) (by omega)
        obtain ⟨attrs', after', hread', hafter, hrequests, hnames⟩ := ih hmeets hrest
        refine ⟨first' :: attrs', after', fun limit' hlimit' => ?_, hafter, hrequests.trans hquiet,
          List.forall_mem_cons.2 ⟨⟨first, List.mem_cons_self, hdrop, hname⟩, fun attr' hattr' =>
            ?_⟩⟩
        · obtain ⟨limit', rfl⟩ : ∃ k, limit' = k + 1 := ⟨limit' - 1, by omega⟩
          rw [Reader.attributes, Reader.peek_bind_eq_ok, hsign']
          exact Reader.bind_eq_ok.2 ⟨first', between', hfirst', Reader.bind_eq_ok.2
            ⟨attrs', after', hread' limit' (by omega), rfl⟩⟩
        · obtain ⟨attr, hattr, hkept⟩ := hnames attr' hattr'
          exact ⟨attr, List.mem_cons_of_mem _ hattr, hkept⟩
    · rw [Reader.attributes_none hsign] at hread
      cases hread
      -- what comes next is no attribute in the second source either
      have hsign' : stream'.head.token ≠ .atSign := by
        by_cases hstands : seam.Stands more after.pending
        · obtain ⟨rfl, hends⟩ := hcalm hstands
          rw [TokenStream.head, h.recast.eq_behind' hstands, h.finish']
          rcases hends with hclose | hend
          · rw [hclose]
            simp
          · rw [hend]
            simp
        · obtain ⟨seam', -, hstep, -, hinside⟩ := h.next hstands
          rw [(hstep.head hinside).token]
          exact hsign
      refine ⟨[], stream', fun limit' hlimit' => ?_, h, rfl, by simp⟩
      obtain ⟨limit', rfl⟩ : ∃ k, limit' = k + 1 := ⟨limit' - 1, by omega⟩
      exact Reader.attributes_none hsign'

end

/-! ### Items -/

namespace Reader

inductive ItemSort where
  | separator
  | member
  | declaration (kind : Declaration.Kind)
  | other

def itemSort (head : Token) (named : Bool) : ItemSort :=
  match head with
  | .semicolon => .separator
  | .name word =>
    if word = "let" ∨ word = "var" then .member
    else
      match Declaration.Kind.ofKeyword? word, named with
      | some kind, true => .declaration kind
      | _, _ => .other
  | _ => .other

def itemRest (source : List Char) (start : Span) (attrs : List Attribute) (isStatic : Bool) :
    ItemSort → Reader Item
  | .separator => do let _ ← next; return .separator
  | .member => do return .entry (← property source start attrs isStatic)
  | .declaration kind => do return .opened (← header source kind start attrs)
  | .other => do return .entry (.other (← other start))

theorem item_eq (source : List Char) : item source = peek >>= fun start =>
    attributes source (readingLimit source) >>= fun attrs => modifiers >>= fun isStatic =>
      MonadState.get >>= fun stream => itemRest source start.span attrs isStatic
        (itemSort stream.head.token stream.second.token.isName) := by
  unfold item
  congr 1
  funext start
  congr 1
  funext attrs
  congr 1
  funext isStatic
  congr 1
  funext stream
  cases stream.head.token with
  | name word =>
    simp only [itemSort]
    by_cases hword : word = "let" ∨ word = "var"
    · rw [if_pos hword, if_pos hword]
      rfl
    · rw [if_neg hword, if_neg hword]
      cases Declaration.Kind.ofKeyword? word with
      | none => rfl
      | some kind => cases stream.second.token.isName <;> rfl
  | _ => rfl

/-- What is read of an item, from the ends of its attributes and of its modifiers. -/
theorem item_eq_ok {source : List Char} {stream : TokenStream} {result : Item × TokenStream} :
    item source stream = .ok result ↔
      ∃ attrs between isStatic here,
        attributes source (readingLimit source) stream = .ok (attrs, between) ∧
        modifiers between = .ok (isStatic, here) ∧
        itemRest source stream.head.span attrs isStatic
          (itemSort here.head.token here.second.token.isName) here = .ok result := by
  rw [item_eq, peek_bind_eq_ok]
  constructor
  · intro h
    obtain ⟨attrs, between, hattrs, h⟩ := bind_eq_ok.1 h
    obtain ⟨isStatic, here, hmodifiers, hrest⟩ := bind_eq_ok.1 h
    exact ⟨attrs, between, isStatic, here, hattrs, hmodifiers, get_bind_eq_ok.1 hrest⟩
  · rintro ⟨attrs, between, isStatic, here, hattrs, hmodifiers, hrest⟩
    exact bind_eq_ok.2 ⟨attrs, between, hattrs,
      bind_eq_ok.2 ⟨isStatic, here, hmodifiers, get_bind_eq_ok.2 hrest⟩⟩

end Reader

/-- The attributes of an item that are requests, by what the item is. -/
def Item.drops : Item → Attribute → Bool
  | .entry (.property _), attr => attr.name == Request.codingKeyName
  | .opened _, attr => requestNames.contains attr.name
  | _, _ => false

/-- An item that ends where it should begin, perhaps behind attributes and modifiers. -/
def BodyItem.isBare : BodyItem → Bool
  | .other span => span.start == span.stop
  | _ => false

namespace Reader

variable {source : List Char} {here after : TokenStream}

theorem itemSort_of_eq {head : Token} {named : Bool} {sort : ItemSort}
    (h : itemSort head named = sort) (hsort : sort ≠ .other) :
    head ≠ .endOfInput ∧ head ≠ .closing .curly := by
  constructor
  · rintro rfl
    exact hsort h.symm
  · rintro rfl
    exact hsort h.symm

theorem itemSort_member {head : Token} {named : Bool} (h : itemSort head named = .member) :
    ∃ word, head = .name word ∧ (word = "let" ∨ word = "var") := by
  cases head with
  | name word =>
    refine ⟨word, rfl, ?_⟩
    by_contra hword
    simp only [itemSort, if_neg hword] at h
    split at h <;> cases h
  | _ => cases h

theorem itemRest_takes {start : Span} {attrs : List Attribute} {isStatic : Bool} {found : Item}
    (hready : Ready source here)
    (h : itemRest source start attrs isStatic
      (itemSort here.head.token here.second.token.isName) here = .ok (found, after)) :
    ∃ taken, Takes here taken ((attrs.filter found.drops).map (·.span)) after ∧
      (taken = [] → found = .entry (.other (start.upTo start.start)) ∧ after = here ∧
        (here.head.token = .closing .curly ∨ here.head.token = .endOfInput)) := by
  have hnothing : ∀ found : Item, (∀ attr, found.drops attr = false) →
      (attrs.filter found.drops).map (·.span) = [] := by
    intro found hnone
    rw [List.filter_eq_nil_iff.2 fun attr _ => by simp [hnone attr]]
    rfl
  generalize hsort : itemSort here.head.token here.second.token.isName = sort at h ⊢
  cases sort with
  | separator =>
    obtain ⟨placed, _, hnext, h⟩ := bind_eq_ok.1 h
    obtain ⟨rfl, rfl⟩ := pure_eq_ok.1 h
    obtain ⟨-, -, htakes⟩ := next_takes hready (itemSort_of_eq hsort (by simp)).1 hnext
    rw [hnothing _ fun _ => rfl]
    exact ⟨_, htakes, nofun⟩
  | member =>
    obtain ⟨item, _, hproperty, h⟩ := bind_eq_ok.1 h
    obtain ⟨rfl, rfl⟩ := pure_eq_ok.1 h
    obtain ⟨taken, noted, htakes, -, hnoted⟩ :=
      property_takes hready (itemSort_of_eq hsort (by simp)).1 hproperty
    refine ⟨here.head :: taken, ?_, nofun⟩
    rcases hnoted with ⟨member, rfl, rfl, -⟩ | ⟨span, rfl, rfl, -⟩
    · exact htakes
    · rw [hnothing _ fun _ => rfl]
      exact htakes
  | declaration kind =>
    obtain ⟨header, _, hheader, h⟩ := bind_eq_ok.1 h
    obtain ⟨rfl, rfl⟩ := pure_eq_ok.1 h
    obtain ⟨taken, brace, htakes, -, -, -, hattached⟩ :=
      header_takes hready (itemSort_of_eq hsort (by simp)).1 hheader
    rw [attachment_spans hattached] at htakes
    exact ⟨_, htakes, nofun⟩
  | other =>
    obtain ⟨span, _, hother, h⟩ := bind_eq_ok.1 h
    obtain ⟨rfl, rfl⟩ := pure_eq_ok.1 h
    rw [hnothing _ fun _ => rfl]
    have hsemicolon : here.head.token ≠ .semicolon := by
      intro hsemicolon
      rw [hsemicolon] at hsort
      cases hsort
    by_cases hends : endsOther true here.head = true
    · rw [other_bare hends hsemicolon] at hother
      cases hother
      refine ⟨[], .refl _, fun _ => ⟨rfl, rfl, ?_⟩⟩
      unfold endsOther at hends
      split at hends
      · next hend => exact .inr hend
      · next hclose => exact .inl hclose
      · next hmark => exact absurd hmark hsemicolon
      all_goals cases hends
    · obtain ⟨taken, htakes, -⟩ := other_takes hready hother
      refine ⟨taken, htakes, ?_⟩
      rintro rfl
      -- the first token would have been taken
      have hweight := weight_of_takes htakes
      have hlt := Checked.weight_lt_of_other hready
        (fun hclose => hends (by simp [endsOther, hclose]))
        (fun hend => hends (by simp [endsOther, hend])) hsemicolon hother
      rw [weight_nil] at hweight
      omega

end Reader

/-- Two items behind which reading goes on in the same way. -/
inductive Item.Like : Item → Item → Prop where
  | separator : Like .separator .separator
  | entry (entry entry' : BodyItem) : Like (.entry entry) (.entry entry')
  | opened (header header' : Header) : Like (.opened header) (.opened header')

theorem Reader.modifiers_eq_self {source : List Char} {stream after : TokenStream}
    {isStatic : Bool} (hready : Ready source stream)
    (h : modifiers stream = .ok (isStatic, after))
    (hle : weight stream.pending ≤ weight after.pending) : after = stream := by
  have happend := modifierRun_append 0 stream.pending
  have hsolid : ∀ placed ∈ stream.pending, placed.token.spelling ≠ [] :=
    fun _ hmem => (hready.laid.sits hmem).1
  unfold modifiers at h
  generalize modifierRun 0 stream.pending = parts at *
  obtain ⟨found, taken, rest⟩ := parts
  cases h
  simp only at happend hle
  rw [← happend, weight_append] at hle
  cases taken with
  | nil =>
    rw [List.nil_append] at happend
    subst happend
    rfl
  | cons first taken =>
    have hpos := List.length_pos_iff.2 (hsolid first (by rw [← happend]; simp))
    rw [weight_cons] at hle
    omega

theorem Reader.modifiers_none {stream : TokenStream}
    (h : ∀ following?, modifier? stream.head following? = none) :
    modifiers stream = .ok (false, stream) := by
  have hrun : modifierRun 0 stream.pending = (false, [], stream.pending) := by
    unfold TokenStream.head at h
    match hpending : stream.pending with
    | [] => rfl
    | [placed] =>
      rw [hpending] at h
      simp only [modifierRun, show modifier? placed none = none from h none]
    | placed :: following :: rest =>
      rw [hpending] at h
      simp only [modifierRun, show modifier? placed (some following) = none from h _]
  unfold modifiers
  rw [hrun]
  rfl

section

variable {source source' : List Char} {seam seam' : Seam} {fresh : Bool} {marks more : List Mark}
  {stream stream' after : TokenStream}

/-- Where nothing more of an item comes, the second source has a brace or its end. -/
theorem Seam.Meets.head_of_calm (h : seam.Meets source source' more stream stream')
    (hstands : seam.Stands more stream.pending)
    (hcalm : seam.Stands more stream.pending → more = [] ∧ seam.Calm) :
    stream'.head.token = .closing .curly ∨ stream'.head.token = .endOfInput := by
  obtain ⟨rfl, hends⟩ := hcalm hstands
  rw [TokenStream.head, h.recast.eq_behind' hstands, h.finish']
  exact hends

/-- Modifiers are taken up to the same place. -/
theorem Seam.Meets.modifiers {isStatic : Bool} (h : seam.Meets source source' more stream stream')
    (hread : Reader.modifiers stream = .ok (isStatic, after))
    (hmore : ∀ mark ∈ more.head?, after.readTo ≤ mark.place)
    (hseam : weight seam.behind ≤ weight after.pending)
    (hcalm : seam.Stands more after.pending → more = [] ∧ seam.Calm) :
    ∃ isStatic' after', Reader.modifiers stream' = .ok (isStatic', after') ∧
      seam.Meets source source' more after after' ∧ after'.requests = stream'.requests := by
  obtain ⟨taken, htakes, hlead⟩ := Reader.modifiers_takes hread
  have hafter := (h.ready.taken htakes).2
  by_cases hstands : seam.Stands more stream.pending
  · obtain rfl := hstands.taken_eq_nil h.ready htakes hmore hseam
    -- a word that is a modifier would have been taken
    obtain rfl := Reader.modifiers_eq_self h.ready hread
      (by rw [weight_of_takes htakes, weight_nil]; omega)
    refine ⟨false, stream', Reader.modifiers_none fun following? => ?_, h, rfl⟩
    rcases h.head_of_calm hstands hcalm with htoken | htoken <;> rw [modifier?, htoken]
  · obtain ⟨seam', hnext, hstep, -, -⟩ := h.next hstands
    have hkeeps := hnext.keeps h.ready hstep.pending htakes hmore hseam
    have hquiet : after.pending = seam'.behind →
        ¬ Introduces (seam'.behind'.headD seam'.finish') := by
      intro hbehind
      obtain ⟨hnil, hends⟩ := hcalm (hbehind ▸ hnext.stands)
      rw [hnext.behind' hnil, hnext.finish']
      rintro ⟨word, -, hword⟩
      rcases hends with htoken | htoken <;> rw [hword] at htoken <;> cases htoken
    obtain ⟨isStatic', after', hread', hafter', hrequests⟩ :=
      Reader.modifiers_inStep hstep hread hkeeps hquiet
    obtain ⟨taken', htakes', -⟩ := Reader.modifiers_takes hread'
    exact ⟨isStatic', after', hread', hafter'.meets hnext hafter (h.ready'.taken htakes').2,
      hrequests⟩

end

section

variable {source source' : List Char} {seam seam' : Seam} {fresh : Bool} {marks more : List Mark}
  {stream stream' after : TokenStream}

/-- Behind its modifiers an item is of the same sort. -/
theorem Seam.InStep.itemSort_eq (h : seam.InStep fresh stream stream')
    (hne : stream.pending ≠ seam.behind) :
    Reader.itemSort stream'.head.token stream'.second.token.isName =
      Reader.itemSort stream.head.token stream.second.token.isName := by
  obtain ⟨placed, placed', rest, rest', hpending, hpending', hechoes, hsettled, hrest⟩ :=
    h.pending.uncons hne
  have hhead : stream.head = placed := by rw [TokenStream.head, hpending]; rfl
  have hhead' : stream'.head = placed' := by rw [TokenStream.head, hpending']; rfl
  rw [hhead, hhead', hechoes.token]
  by_cases hasks : placed.token.asksForMore = true
  · -- then the next token is the same as well
    have hinside : rest ≠ seam.behind := fun hbehind => by
      rw [hsettled hbehind] at hasks
      cases hasks
    obtain ⟨second, second', more, more', rfl, rfl, hsecond, -⟩ := hrest.uncons hinside
    rw [TokenStream.second, TokenStream.second, hpending, hpending']
    simp only [List.tail_cons, List.headD_cons, hsecond.token]
  · cases htoken : placed.token with
    | name word =>
      rw [htoken] at hasks
      have hkind : Declaration.Kind.ofKeyword? word = none := by
        cases hkind : Declaration.Kind.ofKeyword? word with
        | none => rfl
        | some kind => exact absurd (by simp [Token.asksForMore, hkind]) hasks
      simp only [Reader.itemSort, hkind]
    | _ => rfl

/-- In front of a seam, what is left of an item behind its modifiers is read in both sources, if
    the attributes in front of it request nothing any more. -/
theorem Seam.InStep.itemRest {start : Span} {attrs attrs' : List Attribute} {isStatic : Bool}
    {found : Item} (hstep : seam.InStep true stream stream')
    (hinside : stream.pending ≠ seam.behind)
    (hroom : weight stream.pending + 1 ≤ readingLimit source' + weight seam.behind)
    (start' : Span) (isStatic' : Bool)
    (hread : Reader.itemRest source start attrs isStatic
      (Reader.itemSort stream.head.token stream.second.token.isName) stream = .ok (found, after))
    (hkeeps : weight seam.behind ≤ weight after.pending)
    (hquiet : ∀ attr' ∈ attrs', ∃ attr ∈ attrs, found.drops attr = false ∧ attr'.name = attr.name) :
    ∃ found' after', Reader.itemRest source' start' attrs' isStatic'
        (Reader.itemSort stream'.head.token stream'.second.token.isName) stream' =
          .ok (found', after') ∧
      found.Like found' ∧ (∃ fresh, seam.InStep fresh after after') ∧
      after'.requests = stream'.requests := by
  obtain ⟨placed, -, rest, -, hpending, -⟩ := hstep.pending.uncons hinside
  have hfaces : seam.Faces stream.head.token stream.pending := by
    refine ⟨hinside, ?_⟩
    rw [TokenStream.head, hpending]
    rfl
  rw [hstep.itemSort_eq hinside]
  generalize hsort : Reader.itemSort stream.head.token stream.second.token.isName = sort at hread
  cases sort with
  | separator =>
    obtain ⟨placed, _, hnext, hread⟩ := Reader.bind_eq_ok.1 hread
    obtain ⟨rfl, rfl⟩ := Reader.pure_eq_ok.1 hread
    obtain ⟨placed', after', hread', -, hafter', hrequests⟩ := hstep.next hnext hkeeps
    exact ⟨.separator, after', Reader.bind_eq_ok.2 ⟨placed', after', hread', rfl⟩, .separator,
      ⟨_, hafter'⟩, hrequests⟩
  | member =>
    obtain ⟨item, _, hproperty, hread⟩ := Reader.bind_eq_ok.1 hread
    obtain ⟨rfl, rfl⟩ := Reader.pure_eq_ok.1 hread
    obtain ⟨word, hword, hkeyword⟩ := Reader.itemSort_member hsort
    rw [hword] at hfaces
    have hkept : (∃ member, item = .property member) →
        ∀ attr ∈ attrs', attr.name ≠ Request.codingKeyName := by
      rintro ⟨member, rfl⟩ attr' hattr'
      obtain ⟨attr, -, hdrop, hname⟩ := hquiet attr' hattr'
      simpa [hname, Item.drops] using hdrop
    obtain ⟨item', after', hread', hafter', hrequests⟩ :=
      Reader.property_inStep hkeyword (Nat.le_trans (Nat.le_succ _) hroom) hstep hfaces hproperty
        hkeeps hkept
    exact ⟨.entry item', after', Reader.bind_eq_ok.2 ⟨item', after', hread', rfl⟩, .entry _ _,
      ⟨_, hafter'⟩, hrequests⟩
  | declaration kind =>
    obtain ⟨header, _, hheader, hread⟩ := Reader.bind_eq_ok.1 hread
    obtain ⟨rfl, rfl⟩ := Reader.pure_eq_ok.1 hread
    have hkept : ∀ attr ∈ attrs', attr.request? = .ok none := by
      intro attr' hattr'
      obtain ⟨attr, -, hdrop, hname⟩ := hquiet attr' hattr'
      apply Attribute.request?_of_not_mem
      simpa [hname, Item.drops] using hdrop
    have hechoes : Reader.Echoes seam true _ (fun _ => True)
        (Reader.header source kind start attrs) (Reader.header source' kind start' attrs') _ :=
      Reader.header_echoes hroom kind start start' hkept
    obtain ⟨header', after', hread', hafter', hrequests, -⟩ :=
      hechoes.follows hstep (Nat.lt_succ_self _) trivial hheader hkeeps
    exact ⟨.opened header', after', Reader.bind_eq_ok.2 ⟨header', after', hread', rfl⟩,
      .opened _ _, ⟨_, hafter'⟩, hrequests⟩
  | other =>
    obtain ⟨span, _, hother, hread⟩ := Reader.bind_eq_ok.1 hread
    obtain ⟨rfl, rfl⟩ := Reader.pure_eq_ok.1 hread
    have hsemicolon : stream.head.token ≠ .semicolon := by
      intro hsemicolon
      rw [hsemicolon] at hsort
      cases hsort
    obtain ⟨span', after', hread', hafter', hrequests⟩ :=
      Reader.other_inStep hstep hinside hsemicolon hother hkeeps
    exact ⟨_, after', Reader.bind_eq_ok.2 ⟨span', after', hread', rfl⟩, .entry _ _,
      ⟨_, hafter'⟩, hrequests⟩

/-- In front of what ends a body, there is nothing left of an item. -/
theorem Reader.itemRest_bare {source : List Char} {stream : TokenStream}
    (hhead : stream.head.token = .closing .curly ∨ stream.head.token = .endOfInput) (start : Span)
    (attrs : List Attribute) (isStatic : Bool) :
    itemRest source start attrs isStatic
      (itemSort stream.head.token stream.second.token.isName) stream =
        .ok (.entry (.other (start.upTo start.start)), stream) := by
  have hsort : itemSort stream.head.token stream.second.token.isName = .other := by
    rcases hhead with htoken | htoken <;> rw [htoken] <;> rfl
  have hother : other start stream = .ok (start.upTo start.start, stream) := by
    apply other_bare
    · rcases hhead with htoken | htoken <;> simp [endsOther, htoken]
    · rcases hhead with htoken | htoken <;> simp [htoken]
  rw [hsort]
  exact bind_eq_ok.2 ⟨_, _, hother, rfl⟩

/-- What is left of an item behind its modifiers is read in both sources, up to the next mark. -/
theorem Seam.Meets.itemRest {start : Span} {attrs attrs' : List Attribute} {isStatic : Bool}
    {found : Item} (h : seam.Meets source source' more stream stream') (start' : Span)
    (isStatic' : Bool)
    (hread : Reader.itemRest source start attrs isStatic
      (Reader.itemSort stream.head.token stream.second.token.isName) stream = .ok (found, after))
    (hmore : ∀ mark ∈ more.head?, after.readTo ≤ mark.place)
    (hseam : weight seam.behind ≤ weight after.pending)
    (hcalm : seam.Stands more stream.pending → more = [] ∧ seam.Calm)
    (hquiet : ∀ attr' ∈ attrs', ∃ attr ∈ attrs, found.drops attr = false ∧ attr'.name = attr.name) :
    ∃ found' after', Reader.itemRest source' start' attrs' isStatic'
        (Reader.itemSort stream'.head.token stream'.second.token.isName) stream' =
          .ok (found', after') ∧
      found.Like found' ∧ (Ready source' after' → seam.Meets source source' more after after') ∧
      after'.requests = stream'.requests := by
  obtain ⟨taken, htakes, hbare⟩ := Reader.itemRest_takes h.ready hread
  have hafter := (h.ready.taken htakes).2
  by_cases hstands : seam.Stands more stream.pending
  · -- then nothing is taken, and the item is empty in both sources
    obtain rfl := hstands.taken_eq_nil h.ready htakes hmore hseam
    obtain ⟨rfl, rfl, -⟩ := hbare rfl
    exact ⟨_, stream', Reader.itemRest_bare (h.head_of_calm hstands hcalm) start' attrs' isStatic',
      .entry _ _, fun _ => h, rfl⟩
  · obtain ⟨seam', hnext, hstep, hroom, hinside⟩ := h.next hstands
    have hkeeps := hnext.keeps h.ready hstep.pending htakes hmore hseam
    obtain ⟨found', after', hread', hlike, ⟨_, hafter'⟩, hrequests⟩ :=
      hstep.itemRest hinside hroom start' isStatic' hread hkeeps hquiet
    exact ⟨found', after', hread', hlike, fun hready' => hafter'.meets hnext hafter hready',
      hrequests⟩

/-- **An item is read in both sources, less its requests.** -/
theorem Seam.Meets.item {found : Item} {taken : List Placed} {noted : List Span}
    (h : seam.Meets source source' (noted.map .request ++ more) stream stream')
    (hread : Reader.item source stream = .ok (found, after))
    (htakes : Takes stream taken noted after)
    (hmore : ∀ mark ∈ more.head?, after.readTo ≤ mark.place)
    (hseam : weight seam.behind ≤ weight after.pending)
    (hcalm : seam.Stands more after.pending →
      (after.head.token = .closing .curly ∨ after.head.token = .endOfInput) →
      (∃ entry : BodyItem, found = .entry entry ∧ entry.isBare = true) → more = [] ∧ seam.Calm) :
    ∃ found' after', Reader.item source' stream' = .ok (found', after') ∧ found.Like found' ∧
      seam.Meets source source' more after after' ∧ after'.requests = stream'.requests := by
  obtain ⟨attrs, between, isStatic, here, hattrs, hmodifiers, hrest⟩ := Reader.item_eq_ok.1 hread
  obtain ⟨segments, hattrsTakes, -⟩ := Reader.attributes_takes h.ready hattrs
  have hbetween := (h.ready.taken hattrsTakes).2
  obtain ⟨modifiers, hmodifiersTakes, -⟩ := Reader.modifiers_takes hmodifiers
  have hhere := (hbetween.taken hmodifiersTakes).2
  obtain ⟨restTaken, hrestTakes, hbare⟩ := Reader.itemRest_takes hhere hrest
  -- the spans that are noted are those of the attributes that are dropped
  have hmarks : noted.map Mark.request = marksOf found.drops attrs := by
    have hrequests := htakes.requests
    rw [((hattrsTakes.trans hmodifiersTakes).trans hrestTakes).requests] at hrequests
    rw [← List.append_cancel_left hrequests]
    simp [marksOf]
  rw [hmarks] at h
  -- where nothing more is read, the item is empty
  have hcalmHere : seam.Stands more here.pending → more = [] ∧ seam.Calm := by
    intro hstands
    obtain rfl := hstands.taken_eq_nil hhere hrestTakes hmore hseam
    obtain ⟨rfl, rfl, hhead⟩ := hbare rfl
    exact hcalm hstands hhead ⟨_, rfl, by simp [BodyItem.isBare, Span.upTo]⟩
  have hmoreHere : ∀ mark ∈ more.head?, here.readTo ≤ mark.place := fun mark hmark =>
    (hhere.readTo_le hrestTakes).trans (hmore mark hmark)
  have hseamHere : weight seam.behind ≤ weight here.pending := by
    have := weight_of_takes hrestTakes
    omega
  have hmoreBetween : ∀ mark ∈ more.head?, between.readTo ≤ mark.place := fun mark hmark =>
    (hbetween.readTo_le hmodifiersTakes).trans (hmoreHere mark hmark)
  have hseamBetween : weight seam.behind ≤ weight between.pending := by
    have := weight_of_takes hmodifiersTakes
    omega
  have hcalmBetween : seam.Stands more between.pending → more = [] ∧ seam.Calm := by
    intro hstands
    obtain rfl := hstands.taken_eq_nil hbetween hmodifiersTakes hmoreHere hseamHere
    obtain rfl := Reader.modifiers_eq_self hbetween hmodifiers
      (by rw [weight_of_takes hmodifiersTakes, weight_nil]; omega)
    exact hcalmHere hstands
  obtain ⟨attrs', between', hattrs', hmeets, hrequests, hquiet⟩ :=
    h.attributes hattrs hmoreBetween hseamBetween hcalmBetween
  obtain ⟨isStatic', here', hmodifiers', hmeets', hrequests'⟩ :=
    hmeets.modifiers hmodifiers hmoreHere hseamHere hcalmHere
  obtain ⟨found', after', hrest', hlike, hafter, hrequests''⟩ :=
    hmeets'.itemRest stream'.head.span isStatic' hrest hmore hseam hcalmHere hquiet
  obtain ⟨restTaken', hrestTakes', -⟩ := Reader.itemRest_takes hmeets'.ready' hrest'
  refine ⟨found', after', Reader.item_eq_ok.2 ⟨attrs', between', isStatic', here', hattrs' _ ?_,
    hmodifiers', hrest'⟩, hlike, hafter (hmeets'.ready'.taken hrestTakes').2,
    hrequests''.trans (hrequests'.trans hrequests)⟩
  exact h.ready'.weight_lt_readingLimit

end

end Memberwise
