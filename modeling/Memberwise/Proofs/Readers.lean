/-
  Memberwise/Proofs/Readers.lean
  ==============================
  **Inversion of readers.**

  Readers are put together from a few small ones.  This file says of each of these
  what it means that it succeeds, and that every run of tokens parts the pending
  tokens and loses none.  Proofs about larger readers cite these statements and
  never open the monad again.
-/
import Memberwise.Proofs.Taking

namespace Memberwise

/-! ### Runs -/

@[simp] theorem andTake_fst (placed : Placed) (parts : List Placed × List Placed) :
    (andTake placed parts).1 = placed :: parts.1 := rfl

@[simp] theorem andTake_snd (placed : Placed) (parts : List Placed × List Placed) :
    (andTake placed parts).2 = parts.2 := rfl

theorem exprRun_append (stopAtColon first : Bool) (depth : Nat) (tokens : List Placed) :
    (exprRun stopAtColon first depth tokens).1 ++ (exprRun stopAtColon first depth tokens).2 =
      tokens := by
  fun_induction exprRun stopAtColon first depth tokens <;> simp_all

theorem collectionRun_append (depth : Nat) (tokens : List Placed) :
    (collectionRun depth tokens).1 ++ (collectionRun depth tokens).2 = tokens := by
  fun_induction collectionRun depth tokens <;> simp_all

theorem genericRun_append (depth : Nat) (tokens : List Placed) :
    (genericRun depth tokens).1 ++ (genericRun depth tokens).2 = tokens := by
  fun_induction genericRun depth tokens <;> simp_all

theorem otherRun_append (first : Bool) (depth : Nat) (tokens : List Placed) :
    (otherRun first depth tokens).1 ++ (otherRun first depth tokens).2 = tokens := by
  fun_induction otherRun first depth tokens <;> simp_all

theorem qualifierRun_append (tokens : List Placed) :
    (qualifierRun tokens).1 ++ (qualifierRun tokens).2 = tokens := by
  fun_induction qualifierRun tokens <;> simp_all

theorem modifierRun_append (depth : Nat) (tokens : List Placed) :
    (modifierRun depth tokens).2.1 ++ (modifierRun depth tokens).2.2 = tokens := by
  fun_induction modifierRun depth tokens <;> simp_all

theorem blockRun?_eq_some {depth : Nat} {tokens taken rest : List Placed}
    (h : blockRun? depth tokens = some (taken, rest)) :
    tokens = taken ++ rest ∧
      ∃ last, taken.getLast? = some last ∧ last.token = .closing .curly := by
  -- in all cases but the last brace, a token is put in front of what is taken already
  have hstep : ∀ {placed : Placed} {rest' : List Placed}
      {parts : Option (List Placed × List Placed)},
      (∀ {taken rest}, parts = some (taken, rest) → rest' = taken ++ rest ∧
        ∃ last, taken.getLast? = some last ∧ last.token = .closing .curly) →
      ∀ {taken rest}, parts.map (andTake placed) = some (taken, rest) →
        placed :: rest' = taken ++ rest ∧
          ∃ last, taken.getLast? = some last ∧ last.token = .closing .curly := by
    intro placed rest' parts ih taken rest h
    obtain ⟨⟨inner, left⟩, hparts, heq⟩ := Option.map_eq_some_iff.1 h
    obtain ⟨htokens, last, hlast, htoken⟩ := ih hparts
    cases heq
    refine ⟨by rw [htokens]; rfl, last, ?_, htoken⟩
    rw [List.getLast?_cons, hlast]
    rfl
  fun_induction blockRun? depth tokens generalizing taken rest with
  | case1 => cases h
  | case2 placed rest htoken =>
    cases h
    exact ⟨rfl, placed, rfl, htoken⟩
  | case3 placed rest depth htoken ih => exact hstep ih h
  | case4 depth placed rest htoken ih => exact hstep ih h
  | case5 depth placed rest _ _ _ ih => exact hstep ih h

/-- The run of a type may part one operator at its end, and more inside it. -/
theorem typeRun_refines (first : Bool) (depth : Nat) (tokens : List Placed) :
    Refines tokens ((typeRun first depth tokens).1 ++ (typeRun first depth tokens).2) := by
  fun_induction typeRun first depth tokens with
  | case1 => exact .nil
  | case2 first depth placed rest sign equals hpart hend => exact .part hpart (.refl rest)
  | case3 first depth placed rest sign equals hpart hend hdepth =>
    exact .part hpart (.refl rest)
  | case4 first depth placed rest sign equals hpart hend inside hdepth ih =>
    exact .part hpart ih
  | case5 first depth placed rest hpart hend => exact .refl _
  | case6 first depth placed rest hpart hend ih => exact .keep placed ih

/-! ### Where runs end

Items end at a new line or behind a token that nothing follows.  Of a token `@` only
the new line can end an expression, a type or an item of no interest; that token is
the one that counts, since only in front of it something may later be removed. -/

theorem exprRun_break {stopAtColon first : Bool} {depth : Nat} {tokens rest : List Placed}
    {placed : Placed} (h : (exprRun stopAtColon first depth tokens).2 = placed :: rest)
    (htoken : placed.token = .atSign) : placed.afterNewline = true := by
  fun_induction exprRun stopAtColon first depth tokens with
  | case1 => cases h
  | case2 first depth head tail hend =>
    cases h
    simp only [endsExpr, htoken, Bool.and_eq_true] at hend
    exact hend.2.1
  | case3 first depth head tail hend ih => exact ih h

theorem typeRun_break {first : Bool} {depth : Nat} {tokens rest : List Placed} {placed : Placed}
    (h : (typeRun first depth tokens).2 = placed :: rest) (htoken : placed.token = .atSign) :
    placed.afterNewline = true := by
  -- the parts of an operator are no `@`
  have hparts : ∀ {whole sign equals : Placed}, splitEquals? whole = some (sign, equals) →
      sign.token ≠ .atSign ∧ equals.token ≠ .atSign := by
    intro whole sign equals hpart
    obtain ⟨-, -, -, -, rfl, rfl⟩ := splitEquals?_eq_some hpart
    exact ⟨by simp, by simp⟩
  fun_induction typeRun first depth tokens with
  | case1 => cases h
  | case2 first depth whole tail sign equals hpart hend =>
    cases h
    exact absurd htoken (hparts hpart).1
  | case3 first depth whole tail sign equals hpart hend hdepth =>
    cases h
    exact absurd htoken (hparts hpart).2
  | case4 first depth whole tail sign equals hpart hend inside hdepth ih => exact ih h
  | case5 first depth head tail hpart hend =>
    cases h
    simp only [endsType, htoken, Bool.or_false, Bool.and_eq_true] at hend
    exact hend.2.2
  | case6 first depth head tail hpart hend ih => exact ih h

theorem otherRun_break {first : Bool} {depth : Nat} {tokens rest : List Placed} {placed : Placed}
    (h : (otherRun first depth tokens).2 = placed :: rest) (htoken : placed.token = .atSign) :
    placed.afterNewline = true := by
  fun_induction otherRun first depth tokens with
  | case1 => cases h
  | case2 first depth head tail hend =>
    cases h
    simp only [endsOther, htoken, Bool.and_eq_true] at hend
    exact hend.2.2
  | case3 first depth head tail hend ih => exact ih h

/-- If an `@` comes next in a stream, it is on a new line. -/
def AtBreak (stream : TokenStream) : Prop :=
  stream.head.token = .atSign → stream.head.afterNewline = true

theorem AtBreak.of_pending {source : List Char} {stream : TokenStream}
    (hready : Ready source stream)
    (h : ∀ {placed rest}, stream.pending = placed :: rest → placed.token = .atSign →
      placed.afterNewline = true) : AtBreak stream := by
  intro htoken
  obtain ⟨rest, hpending, -⟩ := hready.pending_eq (by rw [htoken]; simp)
  exact h hpending htoken

/-! ### Small readers -/

namespace Reader

variable {α β : Type} {stream after : TokenStream}

theorem bind_eq_ok {x : Reader α} {f : α → Reader β} {result : β × TokenStream} :
    (x >>= f) stream = .ok result ↔
      ∃ a between, x stream = .ok (a, between) ∧ f a between = .ok result := by
  change (x stream >>= fun p => f p.1 p.2) = .ok result ↔ _
  cases x stream with
  | error e =>
    constructor
    · intro h
      cases h
    · rintro ⟨a, between, h, -⟩
      cases h
  | ok p =>
    constructor
    · intro h
      exact ⟨p.1, p.2, rfl, h⟩
    · rintro ⟨a, between, h, hf⟩
      cases h
      exact hf

theorem pure_eq_ok {a b : α} :
    (pure a : Reader α) stream = .ok (b, after) ↔ b = a ∧ after = stream := by
  change Except.ok (a, stream) = .ok (b, after) ↔ _
  simp only [Except.ok.injEq, Prod.mk.injEq, eq_comm]

theorem get_bind_eq_ok {f : TokenStream → Reader β} {result : β × TokenStream} :
    ((get : Reader TokenStream) >>= f) stream = .ok result ↔ f stream stream = .ok result := by
  rfl

theorem peek_bind_eq_ok {f : Placed → Reader β} {result : β × TokenStream} :
    (peek >>= f) stream = .ok result ↔ f stream.head stream = .ok result := by
  rfl

theorem expected_ne_ok {what : Expected} {result : α × TokenStream} :
    ¬ (expected what : Reader α) stream = .ok result := by
  intro h
  cases h

theorem failAt_ne_ok {place : Position} {fault : Fault} {result : α × TokenStream} :
    ¬ (failAt place fault : Reader α) stream = .ok result := by
  intro h
  cases h

theorem tooLong_ne_ok {result : α × TokenStream} :
    ¬ (tooLong : Reader α) stream = .ok result := by
  intro h
  cases h

theorem typed_eq_ok {span : Span} {result : Except ArgumentError α} {value : α} :
    typed span result stream = .ok (value, after) ↔ result = .ok value ∧ after = stream := by
  unfold typed
  cases result with
  | error cause =>
    constructor
    · intro h
      cases h
    · rintro ⟨h, -⟩
      cases h
  | ok other => simp only [Except.ok.injEq, Prod.mk.injEq, eq_comm]

theorem note_takes {spans : List Span} {value : Unit}
    (h : note spans stream = .ok (value, after)) :
    Takes stream [] spans after ∧ after.pending = stream.pending := by
  cases h
  exact ⟨⟨.refl _, rfl, rfl, rfl⟩, rfl⟩

theorem next_takes {source : List Char} {placed : Placed} (hready : Ready source stream)
    (hhead : stream.head.token ≠ .endOfInput) (h : next stream = .ok (placed, after)) :
    placed = stream.head ∧ stream.pending = placed :: after.pending ∧
      Takes stream [placed] [] after := by
  obtain ⟨rest, hpending, -⟩ := hready.pending_eq hhead
  unfold next at h
  rw [hpending] at h
  cases h
  refine ⟨rfl, hpending, ?_, rfl, rfl, (List.append_nil _).symm⟩
  rw [hpending]
  exact .refl _

theorem second_eq_head {placed : Placed} {noted : List Span}
    (hpending : stream.pending = placed :: after.pending)
    (htakes : Takes stream [placed] noted after) : stream.second = after.head := by
  unfold TokenStream.second TokenStream.head
  rw [hpending, List.tail_cons, htakes.finish]

theorem take_takes {run : Run} {taken : List Placed}
    (hrun : Refines stream.pending ((run stream.pending).1 ++ (run stream.pending).2))
    (h : take run stream = .ok (taken, after)) :
    taken = (run stream.pending).1 ∧ after.pending = (run stream.pending).2 ∧
      Takes stream taken [] after := by
  cases h
  exact ⟨rfl, rfl, hrun, rfl, rfl, (List.append_nil _).symm⟩

theorem name_takes {source : List Char} {pattern : Pattern} (hready : Ready source stream)
    (h : name stream = .ok (pattern, after)) :
    stream.head.token = .name pattern.name ∧ pattern.span = stream.head.span ∧
      stream.pending = stream.head :: after.pending ∧ Takes stream [stream.head] [] after := by
  rw [name, peek_bind_eq_ok] at h
  generalize htoken : stream.head.token = token at h
  split at h
  · next text =>
    simp only [bind_eq_ok, pure_eq_ok] at h
    obtain ⟨placed, _, hnext, rfl, rfl⟩ := h
    obtain ⟨rfl, hpending, htakes⟩ := next_takes hready (by rw [htoken]; simp) hnext
    exact ⟨rfl, rfl, hpending, htakes⟩
  · exact absurd h expected_ne_ok

end Reader

end Memberwise
