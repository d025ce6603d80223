/-
  Memberwise/Proofs/Checked/Agreement.lean
  ========================================
  **Readers of rows that agree with readers of streams.**

  A reader stands somewhere in a source: some tokens are passed, and a stream holds the
  rest.  The two together make up a row (`Standing.row`).  A reader of rows agrees with a
  reader of streams at such a place if it is defined there, fails with the same error or
  gives the same result, and comes to a place that makes up the row it leaves (`Agrees`).

  Agreement passes from the parts of a reader to the whole.  What has to be shown of a
  reader is only that it is put together in the same way from parts that agree.
-/
import Memberwise.Proofs.Checked.Rows

namespace Memberwise.Checked

/-! ### Places in a source -/

/-- A place where a reader stands in a source, between the tokens passed and those to come.  In
    the source the counts of brackets stay within a word. -/
structure Standing (source : List Char) where
  countable : Countable source
  passed : List Placed
  stream : TokenStream
  laid : Laid source 0 (passed ++ stream.pending) (Text.width source)
  readTo : stream.readTo = endOf 0 passed
  finish_token : stream.finish.token = .endOfInput
  finish_span : stream.finish.span = Span.across source []

theorem dropBytes_suffix {low high : Nat} (h : low ≤ high) (text : List Char) :
    Text.dropBytes high text <:+ Text.dropBytes low text := by
  induction text generalizing low high with
  | nil => cases low <;> cases high <;> exact List.suffix_refl _
  | cons c rest ih =>
    cases low with
    | zero => exact ⟨_, Text.takeBytes_append_dropBytes high (c :: rest)⟩
    | succ low =>
      obtain ⟨high, rfl⟩ : ∃ k, high = k + 1 := ⟨high - 1, by omega⟩
      exact ih (by omega)

/-- The characters of tokens that are laid in a source stand in this order behind the place
    where the tokens begin. -/
theorem sublist_of_laid {source : List Char} {low high : Nat} {tokens : List Placed}
    (h : Laid source low tokens high) :
    (tokens.flatMap (·.token.spelling)).Sublist (Text.dropBytes low source) := by
  induction tokens generalizing low with
  | nil => exact List.nil_sublist _
  | cons placed rest ih =>
    obtain ⟨hlow, ⟨-, before, after, hsource, hspan⟩, hrest⟩ := h
    have hstart : placed.span.start = Text.width before := by rw [hspan]; rfl
    have hstop : placed.span.stop = Text.width (before ++ placed.token.spelling) := by
      rw [hspan, Text.width_append]
      rfl
    have hbehind : Text.dropBytes placed.span.stop source = after := by
      rw [hstop, hsource, Text.dropBytes_width_append]
    have hhere : Text.dropBytes placed.span.start source = placed.token.spelling ++ after := by
      conv_lhs => rw [hstart, hsource, List.append_assoc, Text.dropBytes_width_append]
    have hsublist := (List.Sublist.refl placed.token.spelling).append (hbehind ▸ ih hrest)
    rw [← hhere] at hsublist
    exact hsublist.trans (dropBytes_suffix hlow source).sublist

theorem weight_eq_length (tokens : List Placed) :
    weight tokens = (tokens.flatMap (·.token.spelling)).length := by
  induction tokens with
  | nil => rfl
  | cons placed rest ih => rw [weight_cons, List.flatMap_cons, List.length_append, ih]

/-- Tokens that are laid in a source have no more characters than there are behind the place
    where they begin. -/
theorem weight_le_of_laid {source : List Char} {low high : Nat} {tokens : List Placed}
    (h : Laid source low tokens high) : weight tokens ≤ (Text.dropBytes low source).length := by
  rw [weight_eq_length]
  exact (sublist_of_laid h).length_le

section

variable {source : List Char} {stream after : TokenStream} {taken : List Placed}
  {noted : List Span}

/-- If a whole token comes next that did not before, some token has been taken. -/
theorem weight_lt_of_head (hready : Ready source stream) (h : Takes stream taken noted after)
    (hwhole : after.head.token.isWhole = true)
    (hnew : stream.head.token ≠ after.head.token) :
    weight after.pending < weight stream.pending := by
  refine weight_lt_of_takes hready h ?_
  rintro rfl
  have hrefines := h.pending
  rw [List.nil_append] at hrefines
  have hhead : stream.head = after.head := by
    unfold TokenStream.head at *
    rw [h.finish] at hwhole ⊢
    generalize stream.pending = before at *
    generalize after.pending = behind at *
    cases behind with
    | nil =>
      cases hrefines
      rfl
    | cons placed rest =>
      obtain ⟨tail, rfl, -⟩ := hrefines.exists_cons hwhole
      rfl
  exact hnew (congrArg Placed.token hhead)

end

namespace Standing

variable {source : List Char}

def row (s : Standing source) : Row :=
  rowOf s.passed s.stream.pending s.stream.finish s.stream.requests

def left (s : Standing source) : Nat := weight s.stream.pending

theorem ready (s : Standing source) : Ready source s.stream := by
  refine ⟨?_, s.finish_token, s.finish_span⟩
  rw [s.readTo]
  exact (Laid.append_iff.1 s.laid).2

theorem ends (s : Standing source) : Ends s.stream.pending s.stream.finish :=
  ⟨s.finish_token, fun _ hmem => (s.ready.laid.sits hmem).ne_endOfInput⟩

def start {tokens : Tokens} (hcountable : Countable source)
    (h : Memberwise.tokenize source = .ok tokens) : Standing source where
  countable := hcountable
  passed := []
  stream := .start tokens
  laid := (Ready.start h).laid
  readTo := rfl
  finish_token := (Ready.start h).finish_token
  finish_span := (Ready.start h).finish_span

def past (s : Standing source) {taken : List Placed} {noted : List Span} {after : TokenStream}
    (h : Takes s.stream taken noted after) : Standing source where
  countable := s.countable
  passed := s.passed ++ taken
  stream := after
  laid := by
    have hrefines := (Refines.refl s.passed).append h.pending
    rw [← List.append_assoc] at hrefines
    exact (hrefines.laid s.laid).1
  readTo := by rw [h.readTo, s.readTo, endOf_append]
  finish_token := by rw [h.finish, s.finish_token]
  finish_span := by rw [h.finish, s.finish_span]

theorem left_le (s : Standing source) : s.left ≤ source.length := by
  have hle := weight_le_of_laid s.ready.laid
  have hparts := congrArg List.length
    (Text.takeBytes_append_dropBytes s.stream.readTo source)
  rw [List.length_append] at hparts
  unfold left
  omega

/-- The brackets to come can be counted. -/
theorem brackets_lt (s : Standing source) : 0 + brackets s.stream.pending < 0x80000000 := by
  have hle := (sublist_of_laid s.ready.laid).countP_le (p := isCounted)
  have hparts := congrArg (List.countP isCounted)
    (Text.takeBytes_append_dropBytes s.stream.readTo source)
  have hlt := s.countable
  rw [List.countP_append] at hparts
  unfold Countable at hlt
  unfold brackets
  omega

/-- There are fewer tokens to come than any loop may have turns. -/
theorem length_lt (s : Standing source) : s.stream.pending.length < readingLimit source := by
  have hle := s.left_le
  have hlength := length_le_weight fun _ hmem => (s.ready.laid.sits hmem).1
  unfold left at hle
  unfold readingLimit
  omega

/-- The token passed last ends where reading stopped. -/
theorem last_row (s : Standing source) (hpassed : s.passed ≠ []) :
    ∃ placed, last s.row = some (.ok (placed, s.row)) ∧ placed.span.stop = s.stream.readTo := by
  refine ⟨_, last_rowOf hpassed, ?_⟩
  rw [s.readTo, endOf_eq_of_getLast? (List.getLast?_eq_some_getLast hpassed)]

/-- A place is reached from another by taking tokens and noting requests. -/
def Reaches (s s' : Standing source) : Prop :=
  ∃ taken noted, s'.passed = s.passed ++ taken ∧ Takes s.stream taken noted s'.stream

namespace Reaches

variable {s s' s'' : Standing source}

theorem refl (s : Standing source) : s.Reaches s :=
  ⟨[], [], (List.append_nil _).symm, .refl _⟩

theorem trans (h : s.Reaches s') (h' : s'.Reaches s'') : s.Reaches s'' := by
  obtain ⟨taken, noted, hpassed, htakes⟩ := h
  obtain ⟨taken', noted', hpassed', htakes'⟩ := h'
  refine ⟨taken ++ taken', noted ++ noted', ?_, htakes.trans htakes'⟩
  rw [hpassed', hpassed, List.append_assoc]

theorem left_le (h : s.Reaches s') : s'.left ≤ s.left := by
  obtain ⟨taken, noted, -, htakes⟩ := h
  have hweight := weight_of_takes htakes
  unfold left
  omega

theorem left_lt_of_head (h : s.Reaches s') (hwhole : s'.stream.head.token.isWhole = true)
    (hnew : s.stream.head.token ≠ s'.stream.head.token) : s'.left < s.left := by
  obtain ⟨taken, noted, -, htakes⟩ := h
  exact weight_lt_of_head s.ready htakes hwhole hnew

/-- Tokens have been passed just if fewer characters are left. -/
theorem passed_lt_iff (h : s.Reaches s') :
    s.passed.length < s'.passed.length ↔ s'.left < s.left := by
  obtain ⟨taken, noted, hpassed, htakes⟩ := h
  rw [hpassed, List.length_append]
  cases taken with
  | nil =>
    have hweight := weight_of_takes htakes
    rw [weight_nil] at hweight
    unfold left
    simp only [List.length_nil]
    omega
  | cons placed rest =>
    have hlt := weight_lt_of_takes s.ready htakes (List.cons_ne_nil placed rest)
    simp only [List.length_cons]
    exact ⟨fun _ => hlt, fun _ => by omega⟩

theorem passed_le (h : s.Reaches s') : s.passed.length ≤ s'.passed.length := by
  obtain ⟨taken, noted, hpassed, -⟩ := h
  rw [hpassed, List.length_append]
  exact Nat.le_add_right _ _

theorem taken_ne_nil {taken : List Placed} {noted : List Span}
    (htakes : Takes s.stream taken noted s'.stream) (hlt : s'.left < s.left) : taken ≠ [] := by
  rintro rfl
  have hweight := weight_of_takes htakes
  unfold left at hlt
  rw [weight_nil] at hweight
  omega

/-- If tokens have been passed since a place, the last of them ends where reading stopped,
    behind where the next one began there. -/
theorem readTo_eq (h : s.Reaches s') (hlt : s'.left < s.left) (low : Nat) :
    endOf low (s'.passed.drop s.passed.length) = s'.stream.readTo ∧
      s.stream.head.span.start < s'.stream.readTo := by
  obtain ⟨taken, noted, hpassed, htakes⟩ := h
  have hne := taken_ne_nil htakes hlt
  have hlast := List.getLast?_eq_some_getLast hne
  refine ⟨?_, s.ready.head_lt_readTo htakes hne⟩
  rw [hpassed, List.drop_left, htakes.readTo, endOf_eq_of_getLast? hlast,
    endOf_eq_of_getLast? hlast]

/-- Where the tokens passed since a place end, or the next one began there. -/
theorem stop_eq (h : s.Reaches s') :
    endOf s.stream.head.span.start (s'.passed.drop s.passed.length) =
        max s'.stream.readTo s.stream.head.span.start ∧
      (s.stream.head.span.upTo (max s'.stream.readTo s.stream.head.span.start)).Lies source := by
  by_cases hlt : s'.left < s.left
  · obtain ⟨hend, hbehind⟩ := h.readTo_eq hlt s.stream.head.span.start
    obtain ⟨taken, noted, -, htakes⟩ := h
    have hmax : max s'.stream.readTo s.stream.head.span.start = s'.stream.readTo := by omega
    rw [hmax]
    exact ⟨hend, s.ready.upTo_lies htakes (taken_ne_nil htakes hlt)⟩
  · have hsame : s'.passed.drop s.passed.length = [] := by
      refine List.drop_of_length_le ?_
      have hiff := h.passed_lt_iff
      omega
    obtain ⟨taken, noted, hpassed, htakes⟩ := h
    rw [hpassed, List.drop_left] at hsame
    subst hsame
    have hlow := s.ready.readTo_le_head
    have hstop : s'.stream.readTo = s.stream.readTo := htakes.readTo
    have hmax : max s'.stream.readTo s.stream.head.span.start = s.stream.head.span.start := by
      omega
    rw [hmax, hpassed, List.drop_left]
    exact ⟨rfl, s.ready.head_lies.empty⟩

end Reaches

theorem takes_parts (s : Standing source) {parts : List Placed × List Placed}
    (h : Refines s.stream.pending (parts.1 ++ parts.2)) :
    Takes s.stream parts.1 []
      { s.stream with pending := parts.2, readTo := endOf s.stream.readTo parts.1 } :=
  ⟨h, rfl, rfl, (List.append_nil _).symm⟩

def pass (s : Standing source) (parts : List Placed × List Placed)
    (h : Refines s.stream.pending (parts.1 ++ parts.2)) : Standing source :=
  s.past (s.takes_parts h)

theorem reaches_pass (s : Standing source) {parts : List Placed × List Placed}
    (h : Refines s.stream.pending (parts.1 ++ parts.2)) : s.Reaches (s.pass parts h) :=
  ⟨parts.1, [], rfl, s.takes_parts h⟩

theorem row_pass (s : Standing source) {parts : List Placed × List Placed}
    (h : Refines s.stream.pending (parts.1 ++ parts.2)) :
    (s.pass parts h).row = rowPast s.passed parts s.stream.finish s.stream.requests := rfl

end Standing

/-! ### Agreement -/

section

variable {source : List Char} {α β : Type} {s : Standing source}

/-- At a place, a reader of rows does what a reader of streams does. -/
inductive Agrees (s : Standing source) (checked : RowReader α) (plain : Reader α) : Prop where
  | fails {error : ReadError} (hplain : plain s.stream = .error error)
      (hchecked : checked s.row = some (.error error))
  | gives {value : α} {s' : Standing source} (hreaches : s.Reaches s')
      (hplain : plain s.stream = .ok (value, s'.stream))
      (hchecked : checked s.row = some (.ok (value, s'.row)))

namespace Agrees

variable {checked : RowReader α} {plain : Reader α} {g : α → RowReader β} {f : α → Reader β}

theorem pure (value : α) : Agrees s (Pure.pure value : RowReader α) (Pure.pure value) :=
  .gives (.refl s) rfl rfl

theorem bind (h : Agrees s checked plain)
    (hf : ∀ {value s'}, s.Reaches s' → plain s.stream = .ok (value, s'.stream) →
      Agrees s' (g value) (f value)) : Agrees s (checked >>= g) (plain >>= f) := by
  have hbind : (plain >>= f) s.stream = plain s.stream >>= fun p => f p.1 p.2 := rfl
  cases h with
  | fails hplain hchecked =>
    refine .fails (by rw [hbind, hplain]; rfl) ?_
    rw [bind_apply, hchecked, andThen_error]
  | gives hreaches hplain hchecked =>
    cases hf hreaches hplain with
    | fails hplain' hchecked' =>
      refine .fails (by rw [hbind, hplain]; exact hplain') ?_
      rw [bind_apply, hchecked, andThen_ok, hchecked']
    | gives hreaches' hplain' hchecked' =>
      refine .gives (hreaches.trans hreaches') (by rw [hbind, hplain]; exact hplain') ?_
      rw [bind_apply, hchecked, andThen_ok, hchecked']

/-- The reader of rows looks something up, and the reader of streams need not. -/
theorem of_look {look : RowReader α} {value : α} {plain : Reader β}
    (hlook : look s.row = some (.ok (value, s.row))) (h : Agrees s (g value) plain) :
    Agrees s (look >>= g) plain := by
  have hsame : (look >>= g) s.row = g value s.row := by rw [bind_apply, hlook, andThen_ok]
  cases h with
  | fails hplain hchecked => exact .fails hplain (hsame.trans hchecked)
  | gives hreaches hplain hchecked => exact .gives hreaches hplain (hsame.trans hchecked)

theorem of_get {checked : RowReader β} {f : TokenStream → Reader β}
    (h : Agrees s checked (f s.stream)) : Agrees s checked (get >>= f) := by
  cases h with
  | fails hplain hchecked => exact .fails hplain hchecked
  | gives hreaches hplain hchecked => exact .gives hreaches hplain hchecked

theorem peek {g : Placed → RowReader β} {f : Placed → Reader β}
    (h : Agrees s (g s.stream.head) (f s.stream.head)) :
    Agrees s (Checked.peek >>= g) (Reader.peek >>= f) :=
  of_look peek_rowOf (of_get (f := fun stream => f stream.head) h)

theorem next : Agrees s Checked.next Reader.next := by
  cases hpending : s.stream.pending with
  | nil =>
    refine .gives (.refl s) (by rw [Reader.next, hpending]) ?_
    rw [Standing.row, hpending, next_rowOf_nil s.finish_token]
  | cons placed rest =>
    have hparts : Refines s.stream.pending ([placed] ++ rest) := by
      rw [hpending]
      exact .refl _
    have hplaced : placed.token ≠ .endOfInput := by
      refine s.ends.solid placed ?_
      rw [hpending]
      exact List.mem_cons_self
    have hplain : Reader.next s.stream =
        .ok (placed, (s.pass ([placed], rest) hparts).stream) := by
      rw [Reader.next, hpending]
      rfl
    refine .gives (s.reaches_pass hparts) hplain ?_
    rw [Standing.row_pass, Standing.row, hpending, next_rowOf_cons hplaced]
    rfl

/-- A loop takes what a run takes. -/
theorem take {run : Run} {loop : RowReader Unit} {checked : RowReader β}
    {f : List Placed → Reader β}
    (hrun : Refines s.stream.pending ((run s.stream.pending).1 ++ (run s.stream.pending).2))
    (hloop : loop s.row = some (.ok ((), rowPast s.passed (run s.stream.pending) s.stream.finish
      s.stream.requests)))
    (h : ∀ {s' : Standing source}, s.Reaches s' →
      s'.passed = s.passed ++ (run s.stream.pending).1 →
      s'.stream.pending = (run s.stream.pending).2 →
      Agrees s' checked (f (run s.stream.pending).1)) :
    Agrees s (loop >>= fun _ => checked) (Reader.take run >>= f) := by
  have hreaches := s.reaches_pass hrun
  have hsame : (loop >>= fun _ => checked) s.row =
      checked (s.pass (run s.stream.pending) hrun).row := by
    rw [bind_apply, hloop, andThen_ok, Standing.row_pass]
  cases h hreaches rfl rfl with
  | fails hplain hchecked => exact .fails hplain (hsame.trans hchecked)
  | gives hreaches' hplain hchecked =>
    exact .gives (hreaches.trans hreaches') hplain (hsame.trans hchecked)

theorem expected (what : Expected) :
    Agrees s (Checked.expected what : RowReader α) (Reader.expected what) :=
  .fails rfl expected_rowOf

end Agrees

/-- Taking a token leaves fewer characters. -/
theorem Standing.left_lt_of_next {s' : Standing source} {placed : Placed}
    (hhead : s.stream.head.token ≠ .endOfInput)
    (h : Reader.next s.stream = .ok (placed, s'.stream)) : s'.left < s.left := by
  obtain ⟨rfl, hpending, -⟩ := Reader.next_takes s.ready hhead h
  obtain ⟨-, -, hsits⟩ := s.ready.pending_eq hhead
  have hpos := List.length_pos_iff.2 hsits.1
  unfold Standing.left
  rw [hpending, weight_cons]
  omega

end

end Memberwise.Checked
