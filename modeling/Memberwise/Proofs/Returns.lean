/-
  Memberwise/Proofs/Returns.lean
  ==============================
  **No text that is read ends with a carriage return.**

  A carriage return outside literals and comments is a gap, and a literal ends with a
  quote.  So no token ends with one, and neither does anything that is read up to the end
  of a token: types, initializers, and the arguments of attributes.  In a source in which
  no carriage return stands in front of a line feed, these texts hold no such pair, and
  none comes about when a line feed is put behind them (`Unreturned`).

  Which tokens a reader takes is known from before, and with it where reading ends.  So
  there is one lemma for each reader that gives a text, and none for those that only take
  tokens.
-/
import Memberwise.Proofs.Accounting
import Memberwise.Proofs.Relexing

namespace Memberwise

namespace Text

/-! ### Returned lines -/

theorem returned_prefix_iff (c : Char) (rest : List Char) :
    ['\r', '\n'] <+: c :: rest ↔ c = '\r' ∧ rest.head? = some '\n' := by
  rw [List.cons_prefix_cons, eq_comm]
  cases rest with
  | nil => simp
  | cons d rest => simp [List.cons_prefix_cons, eq_comm]

/-- In a text put together from two, a line is returned in one of them or at the seam. -/
theorem returned_append_iff (a b : List Char) :
    ['\r', '\n'] <:+: a ++ b ↔ ['\r', '\n'] <:+: a ∨ ['\r', '\n'] <:+: b ∨
      a.getLast? = some '\r' ∧ b.head? = some '\n' := by
  induction a with
  | nil => simp
  | cons c a ih =>
    rw [List.cons_append, List.infix_cons_iff, List.infix_cons_iff, returned_prefix_iff,
      returned_prefix_iff, ih]
    cases a with
    | nil => simp [or_comm]
    | cons d a => simp only [List.cons_append, List.head?_cons, List.getLast?_cons_cons, or_assoc]

/-- A text without a returned line, in front of a line feed as well. -/
def Unreturned (text : List Char) : Prop :=
  ¬ ['\r', '\n'] <:+: text ∧ text.getLast? ≠ some '\r'

theorem Unreturned.nil : Unreturned [] := ⟨by simp, by simp⟩

theorem Unreturned.append {a b : List Char} (ha : Unreturned a) (hb : Unreturned b) :
    Unreturned (a ++ b) := by
  constructor
  · rw [returned_append_iff]
    rintro (h | h | ⟨hlast, -⟩)
    · exact ha.1 h
    · exact hb.1 h
    · exact ha.2 hlast
  · rw [List.getLast?_append]
    have hlast := hb.2
    cases hb : b.getLast? with
    | none => exact ha.2
    | some c =>
      rw [hb] at hlast
      exact hlast

theorem Unreturned.of_notMem {text : List Char} (h : '\r' ∉ text) : Unreturned text :=
  ⟨fun hpart => h (hpart.subset (by simp)), fun hlast => h (List.mem_of_getLast? hlast)⟩

/-- A text stands in a source, and does not end with a carriage return. -/
def Written (source text : List Char) : Prop :=
  text <:+: source ∧ text.getLast? ≠ some '\r'

theorem Written.unreturned {source text : List Char} (h : Written source text)
    (hsource : ¬ ['\r', '\n'] <:+: source) : Unreturned text :=
  ⟨fun hpair => hsource (hpair.trans h.1), h.2⟩

end Text

/-! ### Tokens -/

namespace Token

def Quotation.isLiteral : Quotation → Bool
  | .interpolation _ _ => false
  | _ => true

/-- A text has a quote, behind which `n` characters have been read. -/
def QuotedTo (read n : Nat) (text : List Char) : Prop :=
  ∃ body rest, text = body ++ '"' :: rest ∧ n = read + body.length + 1

theorem QuotedTo.prepend {read n : Nat} {text : List Char} (front : List Char)
    (h : QuotedTo (read + front.length) n text) : QuotedTo read n (front ++ text) := by
  obtain ⟨body, rest, rfl, rfl⟩ := h
  exact ⟨front ++ body, rest, by simp, by simp; omega⟩

/-- The outermost literal ends with a quote. -/
theorem quotationFrom_ends {stack : List Quotation} {read n : Nat} {text : List Char}
    (h : quotationFrom stack read text = .ok n)
    (hstack : stack.getLast?.any Quotation.isLiteral = true) : QuotedTo read n text := by
  -- what is popped may have been the last
  have hpop : ∀ {top : Quotation} {outer : List Quotation}, outer ≠ [] →
      (top :: outer).getLast?.any Quotation.isLiteral = true →
      outer.getLast?.any Quotation.isLiteral = true := by
    intro top outer hne hlast
    obtain ⟨next, outer, rfl⟩ := List.exists_cons_of_ne_nil hne
    rwa [List.getLast?_cons_cons] at hlast
  fun_induction quotationFrom stack read text with
  | case1 => cases hstack
  | case2 => cases h
  | case3 opened outer read rest ih =>
    cases outer with
    | nil =>
      rw [quotationFrom] at h
      cases h
      exact ⟨[], rest, rfl, rfl⟩
    | cons next outer => exact (ih h (hpop (by simp) hstack)).prepend ['"']
  | case4 => cases h
  | case5 => cases h
  | case6 => cases h
  | case7 opened outer read rest ih =>
    exact (ih h (by simpa using hstack)).prepend ['\\', '(']
  | case8 opened outer read c rest _ _ ih => exact (ih h hstack).prepend ['\\', c]
  | case9 opened outer read c rest _ _ _ _ _ _ ih => exact (ih h hstack).prepend [c]
  | case10 => cases h
  | case11 opened outer read rest ih =>
    cases outer with
    | nil =>
      rw [quotationFrom] at h
      cases h
      exact ⟨['"', '"'], rest, rfl, rfl⟩
    | cons next outer => exact (ih h (hpop (by simp) hstack)).prepend ['"', '"', '"']
  | case12 => cases h
  | case13 opened outer read c rest ih => exact (ih h hstack).prepend ['\\', c]
  | case14 opened outer read c rest _ _ _ ih => exact (ih h hstack).prepend [c]
  | case15 => cases h
  | case16 opened depth outer read rest ih =>
    exact (ih h (by cases outer <;> exact hstack)).prepend ['(']
  | case17 opened outer read rest ih =>
    cases outer with
    | nil => cases hstack
    | cons next outer => exact (ih h (hpop (by simp) hstack)).prepend [')']
  | case18 opened outer read rest depth ih =>
    exact (ih h (by cases outer <;> exact hstack)).prepend [')']
  | case19 opened depth outer read rest ih =>
    exact (ih h (by simpa using hstack)).prepend ['"', '"', '"']
  | case20 opened depth outer read rest _ ih =>
    exact (ih h (by simpa using hstack)).prepend ['"']
  | case21 opened depth outer read c rest _ _ _ _ ih => exact (ih h hstack).prepend [c]

theorem quotationLength_ends {rest : List Char} {n : Nat} (h : quotationLength rest = .ok n) :
    QuotedTo 1 n rest := by
  unfold quotationLength at h
  split at h
  · exact (quotationFrom_ends h rfl).prepend ['"', '"']
  · exact quotationFrom_ends h rfl

/-- **No token ends with a carriage return.** -/
theorem Reads.getLast?_ne {text after : List Char} {token : Token} (h : token.Reads text after)
    (hstop : NoGap (text ++ after)) : text.getLast? ≠ some '\r' := by
  obtain ⟨first, rest, found, hparts, hfound, hlength, -⟩ := h
  obtain ⟨_, w, rfl⟩ : ∃ c w, text = c :: w := by
    cases text with
    | nil =>
      have hpos := (lexeme_spelling hfound).1
      rw [hlength] at hpos
      exact absurd hpos (by decide)
    | cons c w => exact ⟨c, w, rfl⟩
  cases hparts
  rw [List.length_cons] at hlength
  intro hlast
  by_cases hquote : first = '"'
  · subst hquote
    obtain ⟨n, hn, rfl⟩ := map_eq_ok.1 hfound
    obtain ⟨body, more, hbody, rfl⟩ := quotationLength_ends hn
    -- the text ends right behind the quote
    have hparts : w ++ after = (body ++ ['"']) ++ more := by simpa using hbody
    obtain ⟨rfl, -⟩ := List.append_inj hparts (by simp at hlength ⊢; omega)
    rw [← List.cons_append, List.getLast?_concat] at hlast
    exact absurd hlast (by decide)
  · rcases List.mem_cons.1 (List.mem_of_getLast? hlast) with rfl | hmem
    · exact absurd hstop.not_separator (by decide)
    · exact tokenEnd_notMem_of_lexeme (by decide) hfound hlength hquote hmem

end Token

/-- The spelling of a token does not end with a carriage return, and a name holds none. -/
structure Placed.Trim (placed : Placed) : Prop where
  last : placed.token.spelling.getLast? ≠ some '\r'
  name : ∀ name, placed.token = .name name → '\r' ∉ name.toList

theorem Scanned.trim {source before : List Char} {flag : Bool} {tokens : List Placed}
    {finish : Placed} (h : Scanned source flag before tokens finish) :
    ∀ placed ∈ tokens, placed.Trim := by
  induction h with
  | finish => simp
  | token _ _ hstop hreads _ _ _ ih =>
    have hspelling := hreads.spelling_eq
    refine List.forall_mem_cons.2 ⟨⟨?_, ?_⟩, ih⟩
    · rw [hspelling]
      exact hreads.getLast?_ne hstop
    · intro name hname hmem
      rw [hname] at hreads hspelling
      obtain rfl : name.toList = _ := hspelling
      exact absurd (hreads.name_char _ hmem) (by decide)

theorem Refines.trim {a b : List Placed} (h : Refines a b) (ha : ∀ placed ∈ a, placed.Trim) :
    ∀ placed ∈ b, placed.Trim := by
  induction h with
  | nil => exact ha
  | keep placed _ ih =>
    rw [List.forall_mem_cons] at ha
    exact List.forall_mem_cons.2 ⟨ha.1, ih ha.2⟩
  | part hpart _ ih =>
    rw [List.forall_mem_cons] at ha
    obtain ⟨text, -, htext, -, rfl, rfl⟩ := splitEquals?_eq_some hpart
    refine List.forall_mem_cons.2 ⟨⟨?_, by simp⟩, List.forall_mem_cons.2 ⟨⟨?_, by simp⟩, ih ha.2⟩⟩
    · intro hlast
      rw [Token.spelling, String.toList_ofList] at hlast
      rcases htext _ (List.mem_of_getLast? hlast) with h | h | h <;> exact absurd h (by decide)
    · change ['='].getLast? ≠ some '\r'
      decide

/-! ### Streams -/

/-- A stream that has been read up to the end of a token, as far as it has been read. -/
structure Trimmed (source : List Char) (stream : TokenStream) : Prop where
  ready : Ready source stream
  readTo : (Text.takeBytes stream.readTo source).getLast? ≠ some '\r'
  pending : ∀ placed ∈ stream.pending, placed.Trim

namespace Trimmed

variable {source text : List Char} {stream after : TokenStream} {span : Span}

theorem start {tokens : Tokens} (h : tokenize source = .ok tokens) :
    Trimmed source (.start tokens) :=
  ⟨.start h, by simp [TokenStream.start], (tokenize_scanned h).trim⟩

theorem taken {taken : List Placed} {noted : List Span} (h : Trimmed source stream)
    (htakes : Takes stream taken noted after) : Trimmed source after := by
  obtain ⟨hlaid, hready⟩ := h.ready.taken htakes
  have htrim := htakes.pending.trim h.pending
  refine ⟨hready, ?_, fun placed hmem => htrim placed (List.mem_append_right _ hmem)⟩
  rw [htakes.readTo]
  cases hlast : taken.getLast? with
  | none =>
    rw [List.getLast?_eq_none_iff.1 hlast]
    exact h.readTo
  | some last =>
    have hmem := List.mem_of_getLast? hlast
    obtain ⟨hne, before, rest, hsource, hspan⟩ := hlaid.sits hmem
    have hstop : Text.width (before ++ last.token.spelling) = last.span.stop := by
      rw [hspan, Text.width_append]
      rfl
    rw [endOf_eq_of_getLast? hlast, hsource, Text.takeBytes_of_width hstop,
      List.getLast?_append_of_ne_nil _ hne]
    exact (htrim last (List.mem_append_left _ hmem)).last

/-- What is read up to the end of a token is written in the source. -/
theorem written (h : Trimmed source after) (hcovers : span.Covers source text)
    (hstop : span.stop = after.readTo) : Text.Written source text := by
  obtain ⟨before, rest, hsource, hspan⟩ := hcovers
  refine ⟨⟨before, rest, hsource.symm⟩, ?_⟩
  have hlast := h.readTo
  have hwidth : Text.width (before ++ text) = after.readTo := by
    rw [← hstop, hspan, Text.width_append]
    rfl
  rw [hsource, Text.takeBytes_of_width hwidth] at hlast
  by_cases hne : text = []
  · subst hne
    simp
  · rwa [List.getLast?_append_of_ne_nil _ hne] at hlast

end Trimmed

/-! ### What is read -/

def Attribute.Quotes (source : List Char) (attr : Attribute) : Prop :=
  ∀ argument ∈ attr.arguments, Text.Written source argument.value.text.toList

/-- Type and initializer of a binding are written in the source, and its name holds no
    carriage return. -/
structure Binding.Quotes (source : List Char) (binding : Binding) : Prop where
  name : '\r' ∉ binding.pattern.name.toList
  type : ∀ written ∈ binding.type?, Text.Written source written.text.toList
  initializer : ∀ value ∈ binding.initializer?, Text.Written source value.text.toList

structure Member.Quotes (source : List Char) (member : Member) : Prop where
  bindings : ∀ binding ∈ member.bindings, binding.Quotes source
  key : ∀ key ∈ member.codingKey?, Text.Written source key.source.toList

/-- The key that an attribute gives is the text of an argument. -/
theorem Attribute.key_eq_ok {attr : Attribute} {key : StringLiteral} (h : attr.key = .ok key) :
    ∃ argument ∈ attr.arguments, argument.value.text = key.source := by
  unfold Attribute.key at h
  cases hreject : attr.rejectUnknown ["name"] with
  | error cause =>
    rw [hreject] at h
    cases h
  | ok _ =>
    rw [hreject] at h
    dsimp only [bind, Except.bind] at h
    generalize hargument : attr.argument? "name" = argument? at h
    split at h
    · cases h
    · cases h
      obtain ⟨argument, hfound, hvalue⟩ := Option.map_eq_some_iff.1 hargument
      exact ⟨argument, List.mem_of_find?_eq_some hfound, by rw [hvalue]⟩
    · cases h

theorem Member.Quotes.of_markers {source : List Char} {member : Member} {attrs : List Attribute}
    (hattrs : ∀ attr ∈ attrs, attr.Quotes source)
    (hmarkers : List.Forall₂ (fun attr marker => attr.marker = .ok marker) attrs member.markers)
    (hbindings : ∀ binding ∈ member.bindings, binding.Quotes source) : member.Quotes source := by
  refine ⟨hbindings, ?_⟩
  intro key hkey
  obtain ⟨marker, hmem, hmarker⟩ := List.exists_of_findSome?_eq_some hkey
  obtain ⟨attr, hattr, hmarked⟩ : ∃ attr ∈ attrs, attr.marker = .ok marker := by
    obtain ⟨i, hi, rfl⟩ := List.getElem_of_mem hmem
    have hlength := hmarkers.length_eq
    exact ⟨attrs[i], List.getElem_mem _, hmarkers.get (by omega) hi⟩
  unfold Attribute.marker at hmarked
  split at hmarked
  · obtain ⟨given, hgiven, rfl⟩ := Token.map_eq_ok.1 hmarked
    cases hmarker
    obtain ⟨argument, hargument, htext⟩ := Attribute.key_eq_ok hgiven
    rw [← htext]
    exact hattrs attr hattr argument hargument
  · cases hmarked
    cases hmarker

namespace Reader

variable {source : List Char} {stream after : TokenStream}

theorem type_written {written : WrittenType} (h : Trimmed source stream)
    (hread : type source stream = .ok (written, after)) :
    Text.Written source written.text.toList := by
  obtain ⟨taken, -, htakes, -, hspan, hcovers⟩ := type_takes h.ready hread
  exact (h.taken htakes).written hcovers (by rw [hspan]; rfl)

/-- An expression ends where reading does, or it is empty. -/
theorem expr_written {stopAtColon : Bool} {value : Expr} (h : Trimmed source stream)
    (hread : expr source stopAtColon stream = .ok (value, after)) :
    Text.Written source value.text.toList := by
  obtain ⟨taken, htakes, -, hlocated, -⟩ := expr_takes h.ready hread
  rw [expr, exprWith, peek_bind_eq_ok, bind_eq_ok] at hread
  obtain ⟨literal?, between, -, hread⟩ := hread
  rw [bind_eq_ok] at hread
  obtain ⟨shape, between', -, hread⟩ := hread
  rw [get_bind_eq_ok, pure_eq_ok] at hread
  obtain ⟨rfl, rfl⟩ := hread
  rcases Nat.le_total stream.head.span.start after.readTo with hle | hle
  · exact (h.taken htakes).written hlocated.1 (Nat.max_eq_left hle)
  · rw [Nat.max_eq_right hle, sourceText_self]
    exact ⟨List.nil_infix, by simp⟩

theorem arguments_written {limit : Nat} {args : List Argument} (h : Trimmed source stream)
    (hread : arguments source limit stream = .ok (args, after)) :
    ∀ argument ∈ args, Text.Written source argument.value.text.toList := by
  induction limit generalizing stream args with
  | zero => exact absurd hread tooLong_ne_ok
  | succ limit ih =>
    rw [arguments, peek_bind_eq_ok] at hread
    generalize stream.head.token = token at hread
    split at hread
    · obtain ⟨rfl, -⟩ := pure_eq_ok.1 hread
      simp
    · rw [bind_eq_ok] at hread
      obtain ⟨label?, between, hlabel, hread⟩ := hread
      obtain ⟨_, hfront⟩ := label?_takes h.ready hlabel
      have hbetween := h.taken hfront
      rw [bind_eq_ok] at hread
      obtain ⟨value, between', hvalue, hread⟩ := hread
      have hwritten := expr_written hbetween hvalue
      obtain ⟨_, hmiddle, -⟩ := expr_takes hbetween.ready hvalue
      have hbetween' := hbetween.taken hmiddle
      rw [peek_bind_eq_ok] at hread
      generalize hnext : between'.head.token = token' at hread
      split at hread
      · rw [bind_eq_ok] at hread
        obtain ⟨comma, later, hcomma, hread⟩ := hread
        obtain ⟨-, -, hone⟩ := next_takes hbetween'.ready (by rw [hnext]; simp) hcomma
        simp only [bind_eq_ok, pure_eq_ok] at hread
        obtain ⟨more, _, hmore, rfl, rfl⟩ := hread
        exact List.forall_mem_cons.2 ⟨hwritten, ih (hbetween'.taken hone) hmore⟩
      · simp only [bind_eq_ok, pure_eq_ok] at hread
        obtain ⟨more, _, hmore, rfl, rfl⟩ := hread
        exact List.forall_mem_cons.2 ⟨hwritten, ih hbetween' hmore⟩
      · exact absurd hread expected_ne_ok

theorem attr_quotes {attr : Attribute} (h : Trimmed source stream)
    (hhead : stream.head.token = .atSign)
    (hread : Reader.attr source stream = .ok (attr, after)) : attr.Quotes source := by
  rw [Reader.attr, bind_eq_ok] at hread
  obtain ⟨sign, between, hsign, hread⟩ := hread
  obtain ⟨-, -, htakes⟩ := next_takes h.ready (by rw [hhead]; simp) hsign
  have hbetween := h.taken htakes
  rw [bind_eq_ok] at hread
  obtain ⟨pattern, between', hname, hread⟩ := hread
  obtain ⟨-, -, -, htakes'⟩ := name_takes hbetween.ready hname
  have hbetween' := hbetween.taken htakes'
  rw [peek_bind_eq_ok] at hread
  split at hread
  · next hopens =>
    have hopen : between'.head.token = .opening .round := by
      simp only [opensArguments, Bool.and_eq_true, beq_iff_eq] at hopens
      exact hopens.1
    simp only [bind_eq_ok, pure_eq_ok] at hread
    obtain ⟨brace, inner, hbrace, args, _, hargs, close, _, -, rfl, -⟩ := hread
    obtain ⟨-, -, hone⟩ := next_takes hbetween'.ready (by rw [hopen]; simp) hbrace
    exact arguments_written (hbetween'.taken hone) hargs
  · obtain ⟨rfl, -⟩ := pure_eq_ok.1 hread
    simp [Attribute.Quotes]

theorem attributes_quote {limit : Nat} {attrs : List Attribute} (h : Trimmed source stream)
    (hread : attributes source limit stream = .ok (attrs, after)) :
    ∀ attr ∈ attrs, attr.Quotes source := by
  induction limit generalizing stream attrs after with
  | zero => exact absurd hread tooLong_ne_ok
  | succ limit ih =>
    rw [attributes, peek_bind_eq_ok] at hread
    generalize htoken : stream.head.token = token at hread
    split at hread
    · simp only [bind_eq_ok, pure_eq_ok] at hread
      obtain ⟨first, between, hfirst, more, _, hmore, rfl, -⟩ := hread
      obtain ⟨_, htakes, -⟩ := attr_takes h.ready htoken hfirst
      exact List.forall_mem_cons.2 ⟨attr_quotes h htoken hfirst, ih (h.taken htakes) hmore⟩
    · obtain ⟨rfl, -⟩ := pure_eq_ok.1 hread
      simp

theorem binding_quotes {binding : Binding} (h : Trimmed source stream)
    (hread : Reader.binding source stream = .ok (binding, after)) : binding.Quotes source := by
  rw [Reader.binding, bind_eq_ok] at hread
  obtain ⟨pattern, afterName, hname, hread⟩ := hread
  obtain ⟨htoken, -, hpending, hnameTakes⟩ := name_takes h.ready hname
  have hafterName := h.taken hnameTakes
  rw [bind_eq_ok] at hread
  obtain ⟨type?, afterType, htype, hread⟩ := hread
  obtain ⟨_, htypeTakes, -⟩ := type?_takes hafterName.ready htype
  have hafterType := hafterName.taken htypeTakes
  simp only [bind_eq_ok, pure_eq_ok] at hread
  obtain ⟨initializer?, afterValue, hvalue, accessors, _, -, rfl, -⟩ := hread
  refine ⟨?_, ?_, ?_⟩
  · exact (h.pending stream.head (by rw [hpending]; simp)).name _ htoken
  · rw [Reader.type?, peek_bind_eq_ok] at htype
    generalize hcolon : afterName.head.token = token at htype
    split at htype
    · simp only [bind_eq_ok, pure_eq_ok] at htype
      obtain ⟨colon, between, hnext, written, _, hwritten, rfl, -⟩ := htype
      obtain ⟨-, -, hone⟩ := next_takes hafterName.ready (by rw [hcolon]; simp) hnext
      rintro _ ⟨⟩
      exact type_written (hafterName.taken hone) hwritten
    · obtain ⟨rfl, -⟩ := pure_eq_ok.1 htype
      simp
  · rw [Reader.initializer?, peek_bind_eq_ok] at hvalue
    generalize hequals : afterType.head.token = token at hvalue
    split at hvalue
    · simp only [bind_eq_ok, pure_eq_ok] at hvalue
      obtain ⟨equals, between, hnext, value, _, hwritten, rfl, -⟩ := hvalue
      obtain ⟨-, -, hone⟩ := next_takes hafterType.ready (by rw [hequals]; simp) hnext
      rintro _ ⟨⟩
      exact expr_written (hafterType.taken hone) hwritten
    · obtain ⟨rfl, -⟩ := pure_eq_ok.1 hvalue
      simp

theorem bindings_quote {limit : Nat} {bindings : List Binding} (h : Trimmed source stream)
    (hread : Reader.bindings source limit stream = .ok (bindings, after)) :
    ∀ binding ∈ bindings, binding.Quotes source := by
  induction limit generalizing stream bindings after with
  | zero => exact absurd hread tooLong_ne_ok
  | succ limit ih =>
    rw [Reader.bindings, bind_eq_ok] at hread
    obtain ⟨first, between, hfirst, hread⟩ := hread
    have hquotes := binding_quotes h hfirst
    obtain ⟨_, htakes, -⟩ := binding_takes h.ready hfirst
    have hbetween := h.taken htakes
    rw [peek_bind_eq_ok] at hread
    generalize htoken : between.head.token = token at hread
    split at hread
    · simp only [bind_eq_ok, pure_eq_ok] at hread
      obtain ⟨comma, between', hcomma, more, _, hmore, rfl, -⟩ := hread
      obtain ⟨-, -, hone⟩ := next_takes hbetween.ready (by rw [htoken]; simp) hcomma
      exact List.forall_mem_cons.2 ⟨hquotes, ih (hbetween.taken hone) hmore⟩
    · obtain ⟨rfl, -⟩ := pure_eq_ok.1 hread
      simpa using hquotes

theorem property_quotes {start : Span} {attrs : List Attribute} {isStatic : Bool}
    {member : Member} (h : Trimmed source stream) (hattrs : ∀ attr ∈ attrs, attr.Quotes source)
    (hhead : stream.head.token ≠ .endOfInput)
    (hread : property source start attrs isStatic stream = .ok (.property member, after)) :
    member.Quotes source := by
  rw [property, bind_eq_ok] at hread
  obtain ⟨keyword, between, hkeyword, hread⟩ := hread
  obtain ⟨-, -, htakes⟩ := next_takes h.ready hhead hkeyword
  have hbetween := h.taken htakes
  rw [peek_bind_eq_ok] at hread
  generalize between.head.token = token at hread
  split at hread
  · rw [bind_eq_ok] at hread
    obtain ⟨markers, marked, hmarkers, hread⟩ := hread
    obtain ⟨hmarked, -, hall⟩ := markers_takes hmarkers
    rw [bind_eq_ok] at hread
    obtain ⟨bindings, bound, hbindings, hread⟩ := hread
    rw [get_bind_eq_ok, pure_eq_ok] at hread
    obtain ⟨hmember, -⟩ := hread
    cases hmember
    exact .of_markers hattrs hall (bindings_quote (hbetween.taken hmarked) hbindings)
  · simp only [bind_eq_ok, pure_eq_ok] at hread
    obtain ⟨_, _, -, hitem, -⟩ := hread
    cases hitem

theorem item_quotes {member : Member} (h : Trimmed source stream)
    (hread : Reader.item source stream = .ok (.entry (.property member), after)) :
    member.Quotes source := by
  rw [Reader.item, peek_bind_eq_ok, bind_eq_ok] at hread
  obtain ⟨attrs, afterAttrs, hattrs, hread⟩ := hread
  obtain ⟨_, hattrsTakes, -⟩ := attributes_takes h.ready hattrs
  rw [bind_eq_ok] at hread
  obtain ⟨isStatic, here, hmodifiers, hread⟩ := hread
  obtain ⟨_, hmodifiersTakes, -⟩ := modifiers_takes hmodifiers
  have hhere := h.taken (hattrsTakes.trans hmodifiersTakes)
  rw [get_bind_eq_ok] at hread
  -- whatever is no property gives another item
  have hother : (other stream.head.span >>= fun span => pure (Item.entry (.other span))) here ≠
      .ok (.entry (.property member), after) := by
    intro hread
    simp only [bind_eq_ok, pure_eq_ok] at hread
    obtain ⟨_, _, -, hitem, -⟩ := hread
    cases hitem
  generalize htoken : here.head.token = token at hread
  split at hread
  · simp only [bind_eq_ok, pure_eq_ok] at hread
    obtain ⟨_, _, -, hitem, -⟩ := hread
    cases hitem
  · next word =>
    split at hread
    · simp only [bind_eq_ok, pure_eq_ok] at hread
      obtain ⟨item, _, hproperty, hitem, rfl⟩ := hread
      cases hitem
      exact property_quotes hhere (attributes_quote h hattrs) (by rw [htoken]; simp) hproperty
    · generalize Declaration.Kind.ofKeyword? word = kind? at hread
      generalize here.second.token.isName = named at hread
      split at hread
      · simp only [bind_eq_ok, pure_eq_ok] at hread
        obtain ⟨_, _, -, hitem, -⟩ := hread
        cases hitem
      · exact absurd hread hother
  · exact absurd hread hother

theorem items_quote {limit : Nat} {items : List BodyItem} (h : Trimmed source stream)
    (hread : Reader.items source limit stream = .ok (items, after)) :
    ∀ member, BodyItem.HaveMember items member → member.Quotes source := by
  induction limit generalizing stream items after with
  | zero => exact absurd hread tooLong_ne_ok
  | succ limit ih =>
    rw [Reader.items, peek_bind_eq_ok] at hread
    generalize stream.head.token = token at hread
    split at hread
    · obtain ⟨rfl, -⟩ := pure_eq_ok.1 hread
      simp [BodyItem.HaveMember, Declaration.nestedIn]
    · obtain ⟨rfl, -⟩ := pure_eq_ok.1 hread
      simp [BodyItem.HaveMember, Declaration.nestedIn]
    · rw [bind_eq_ok] at hread
      obtain ⟨found, between, hitem, hread⟩ := hread
      obtain ⟨attrs, segments, tail, noted, htaken⟩ := item_takes h.ready hitem
      have hbetween := h.taken htaken.takes
      cases found with
      | separator => exact ih hbetween hread
      | entry entry =>
        simp only [bind_eq_ok, pure_eq_ok] at hread
        obtain ⟨more, _, hmore, rfl, -⟩ := hread
        intro member hmember
        rw [BodyItem.HaveMember, htaken.nestedIn_entry, List.mem_cons, or_assoc] at hmember
        rcases hmember with rfl | hmember
        · exact item_quotes h hitem
        · exact ih hbetween hmore member hmember
      | opened header =>
        simp only [bind_eq_ok, pure_eq_ok] at hread
        obtain ⟨inner, closing, hinner, close, outside, hclose, more, _, hmore, rfl, -⟩ := hread
        obtain ⟨_, _, hread⟩ := items_read hbetween.ready hinner
        have hclosing := hbetween.taken hread.takes.2
        obtain ⟨-, -, hcloses⟩ := closingBrace_takes hclosing.ready hclose
        intro member hmember
        rcases BodyItem.haveMember_nested.1 hmember with hmember | hmember
        · exact ih hbetween hinner member hmember
        · exact ih (hclosing.taken hcloses) hmore member hmember

end Reader

/-- **What is known of members is written in the source**, up to the end of a token. -/
theorem Outline.members_quote {source : List Char} {outline : Outline}
    (h : Outline.ofSource source = .ok outline) :
    ∀ declaration ∈ outline.allDeclarations, ∀ member ∈ declaration.members,
      member.Quotes source := by
  obtain ⟨tokens, items, after, htokens, hitems, -, hdeclarations, -⟩ := Outline.ofSource_eq_ok h
  have hquote := Reader.items_quote (.start htokens) hitems
  intro declaration hmem member hmember
  rw [Outline.allDeclarations, hdeclarations, ← Declaration.nestedIn_eq] at hmem
  exact hquote member (.inr ⟨declaration, hmem, hmember⟩)

end Memberwise
