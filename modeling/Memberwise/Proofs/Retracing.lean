/-
  Memberwise/Proofs/Retracing.lean
  ================================
  **Every reader does the same further on.**

  In a stretch that two sources have in common, each reader follows itself: this is
  proved reader by reader, along the text of each.  Of what is read, only attributes
  decide how reading goes on, and they do so by their names, their labels and the
  texts of their values, which are the same in both sources.
-/
import Memberwise.Proofs.Following

namespace Memberwise

/-! ### Attributes that say the same -/

/-- As far as attributes care: whether an expression is a string, or which member it names. -/
def Expr.Shape.tag : Expr.Shape → Option (Option String)
  | .string => some none
  | .implicitMember name => some (some name)
  | _ => none

/-- Expressions with the same text, and of the same shape as far as attributes care. -/
structure Expr.Alike (expr expr' : Expr) : Prop where
  tag : expr'.shape.tag = expr.shape.tag
  text : expr'.text = expr.text

structure Argument.Alike (argument argument' : Argument) : Prop where
  label? : argument'.label? = argument.label?
  value : argument.value.Alike argument'.value

structure Attribute.Alike (attr attr' : Attribute) : Prop where
  name : attr'.name = attr.name
  arguments : List.Forall₂ Argument.Alike attr.arguments attr'.arguments

theorem Expr.Alike.refl (expr : Expr) : expr.Alike expr := ⟨rfl, rfl⟩

theorem Argument.Alike.refl (argument : Argument) : argument.Alike argument := ⟨rfl, .refl _⟩

theorem Attribute.Alike.refl (attr : Attribute) : attr.Alike attr :=
  ⟨rfl, List.forall₂_same.2 fun argument _ => .refl argument⟩

namespace Attribute.Alike

variable {attr attr' : Attribute}

theorem rejectUnknown_eq (h : attr.Alike attr') (allowed : List String) :
    attr'.rejectUnknown allowed = attr.rejectUnknown allowed := by
  have hlabels : ∀ {arguments arguments'}, List.Forall₂ Argument.Alike arguments arguments' →
      arguments'.map (·.label?.getD "_") = arguments.map (·.label?.getD "_") := by
    intro arguments arguments' h
    induction h with
    | nil => rfl
    | cons hfirst _ ih => rw [List.map_cons, List.map_cons, hfirst.label?, ih]
  rw [rejectUnknown, rejectUnknown, hlabels h.arguments, h.name]

theorem argument?_rel (h : attr.Alike attr') (label : String) :
    Option.Rel Expr.Alike (attr.argument? label) (attr'.argument? label) := by
  have harguments := h.arguments
  unfold argument?
  generalize attr.arguments = arguments at harguments
  generalize attr'.arguments = arguments' at harguments
  induction harguments with
  | nil => exact .none
  | @cons first first' rest rest' hfirst _ ih =>
    rw [List.find?_cons, List.find?_cons, hfirst.label?]
    split
    · exact .some hfirst.value
    · exact ih

theorem key_eq (h : attr.Alike attr') : attr'.key = attr.key := by
  rw [key, key, h.rejectUnknown_eq, h.name]
  cases attr.rejectUnknown ["name"] with
  | error cause => rfl
  | ok value =>
    have hrel := h.argument?_rel "name"
    generalize attr.argument? "name" = given? at hrel
    generalize attr'.argument? "name" = given?' at hrel
    cases hrel with
    | none => rfl
    | @some expr expr' halike =>
      obtain ⟨shape, text, span⟩ := expr
      obtain ⟨shape', text', span'⟩ := expr'
      obtain ⟨htag, rfl⟩ := halike
      -- only the shapes that attributes care about are told apart
      cases shape <;> cases shape' <;> cases htag <;> rfl

theorem naming_eq (h : attr.Alike attr') : attr'.naming = attr.naming := by
  rw [naming, naming, h.rejectUnknown_eq]
  cases attr.rejectUnknown ["using"] with
  | error cause => rfl
  | ok value =>
    have hrel := h.argument?_rel "using"
    generalize attr.argument? "using" = given? at hrel
    generalize attr'.argument? "using" = given?' at hrel
    cases hrel with
    | none => rfl
    | @some expr expr' halike =>
      obtain ⟨shape, text, span⟩ := expr
      obtain ⟨shape', text', span'⟩ := expr'
      obtain ⟨htag, rfl⟩ := halike
      -- only the shapes that attributes care about are told apart
      cases shape <;> cases shape' <;> cases htag <;> rfl

theorem request?_eq (h : attr.Alike attr') : attr'.request? = attr.request? := by
  rw [request?, request?, h.name, h.rejectUnknown_eq, h.naming_eq, h.key_eq]

theorem marker_eq (h : attr.Alike attr') : attr'.marker = attr.marker := by
  rw [marker, marker, h.name, h.key_eq]

end Attribute.Alike

/-! ### Items that go on alike -/

structure Header.Alike (header header' : Header) : Prop where
  kind : header'.kind = header.kind
  requests : header'.attachments.map (·.request) = header.attachments.map (·.request)

structure Pattern.Alike (shift : Nat) (pattern pattern' : Pattern) : Prop where
  name : pattern'.name = pattern.name
  stop : pattern'.span.stop = pattern.span.stop + shift

/-- Bindings of the same name, of which both have a type or none. -/
structure Binding.Alike (shift : Nat) (binding binding' : Binding) : Prop where
  pattern : binding.pattern.Alike shift binding'.pattern
  type? : binding'.type?.isSome = binding.type?.isSome

/-- An item that holds no declaration, and that binds the names that another one binds. -/
structure BodyItem.Alike (shift : Nat) (item item' : BodyItem) : Prop where
  nested? : item'.nested? = none
  members : ∀ member', item' = .property member' → ∃ member, item = .property member ∧
    List.Forall₂ (Binding.Alike shift) member.bindings member'.bindings

/-- Items that say the same of what is requested and of what is bound. -/
inductive Item.Alike (shift : Nat) : Item → Item → Prop where
  | separator : Item.Alike shift .separator .separator
  | entry {item item' : BodyItem} (h : item.Alike shift item') :
      Item.Alike shift (.entry item) (.entry item')
  | opened {header header' : Header} (h : header.Alike header') :
      Item.Alike shift (.opened header) (.opened header')

/-- A name put some bytes further on. -/
def Pattern.moved (shift : Nat) (pattern : Pattern) : Pattern :=
  ⟨pattern.name, 0, pattern.span.stop + shift, 0, 0⟩

theorem Pattern.alike_moved (shift : Nat) (pattern : Pattern) :
    pattern.Alike shift (pattern.moved shift) :=
  ⟨rfl, rfl⟩

theorem Binding.exists_alike (shift : Nat) (binding : Binding) :
    ∃ binding', binding.Alike shift binding' :=
  ⟨{ binding with pattern := binding.pattern.moved shift }, binding.pattern.alike_moved shift, rfl⟩

theorem Binding.exists_forall₂_alike (shift : Nat) (bindings : List Binding) :
    ∃ bindings', List.Forall₂ (Binding.Alike shift) bindings bindings' := by
  induction bindings with
  | nil => exact ⟨[], .nil⟩
  | cons first rest ih =>
    obtain ⟨first', hfirst⟩ := first.exists_alike shift
    obtain ⟨rest', hrest⟩ := ih
    exact ⟨first' :: rest', .cons hfirst hrest⟩

/-! ### Small readers -/

namespace Reader

variable {source source' : List Char} {finish finish' : Placed}
  {stretch : Stretch source source' finish finish'}

theorem note_follows (spans spans' : List Span) :
    Follows stretch (note spans) (note spans') fun _ _ => True where
  shrinks := by
    rintro stream after value ⟨⟩
    exact Nat.le_refl _
  follows := by
    rintro stream stream' after value hstep ⟨⟩ _
    exact ⟨(), _, rfl, hstep.pass (.refl _) .nil hstep.pending _ _, trivial⟩

theorem typed_follows {α : Type} (span span' : Span) (result : Except ArgumentError α) :
    Follows stretch (typed span result) (typed span' result) Eq := by
  cases result with
  | error cause =>
    refine .fail ?_
    rintro stream result ⟨⟩
  | ok value =>
    refine ⟨?_, ?_⟩
    · rintro stream after _ ⟨⟩
      exact Nat.le_refl _
    · rintro stream stream' after _ hstep ⟨⟩ _
      exact ⟨value, stream', rfl, hstep, rfl⟩

theorem name_follows : Follows stretch name name (Pattern.Alike stretch.shift) := by
  refine .peek fun placed placed' hmoved => ?_
  rw [hmoved.token]
  cases placed.token with
  | name text => exact .nextThen fun _ _ hnext => .pure ⟨rfl, hnext.stop⟩
  | _ => exact .expected _ _

/-- A name, and what goes on behind it. -/
theorem nameThen_follows {β : Type} {next next' : Pattern → Reader β} {same : β → β → Prop}
    (hnext : ∀ pattern pattern', pattern.Alike stretch.shift pattern' →
      Follows stretch (next pattern) (next' pattern') same) :
    Follows stretch (name >>= next) (name >>= next') same := by
  exact name_follows.bind (fun pattern => ⟨_, pattern.alike_moved stretch.shift⟩) hnext

/-! ### Expressions and types -/

theorem type_follows (text text' : List Char) :
    Follows stretch (type text) (type text') fun _ _ => True := by
  refine .peek fun first first' _ => (typeRun_local true 0).takeThen fun taken taken' htaken => ?_
  cases hlast : taken.getLast? with
  | none => exact .fail expected_ne_ok
  | some last =>
    cases hlast' : taken'.getLast? with
    | some last' => exact .pure trivial
    | none =>
      rw [List.getLast?_eq_none_iff.1 hlast'] at htaken
      cases htaken
      cases hlast

theorem implicitName?_moved {shift : Nat} {point point' member member' : Placed}
    (hpoint : point.Moved shift point') (hmember : member.Moved shift member') :
    implicitName? point' member' = implicitName? point member := by
  rw [implicitName?, implicitName?, hmember.token, hmember.start, hpoint.stop]
  simp only [Nat.add_right_cancel_iff]

theorem literal?_follows {elements elements' : Reader (Option (List Expr))}
    (helements : Follows stretch elements elements' fun _ _ => True) :
    Follows stretch (literal? elements) (literal? elements')
      fun shape? shape?' => shape?'.map (·.tag) = shape?.map (·.tag) := by
  have hsingle : ∀ shape : Expr.Shape, Follows stretch (next >>= fun _ => pure (some shape))
      (next >>= fun _ => pure (some shape))
      fun shape? shape?' => shape?'.map (·.tag) = shape?.map (·.tag) :=
    fun shape => .nextThen fun _ _ _ => .pure rfl
  refine .get fun stream stream' hsees => ?_
  rw [hsees.head.token, implicitName?_moved hsees.head hsees.second]
  split
  · exact hsingle _
  · exact hsingle _
  · exact hsingle _
  · exact hsingle _
  · exact hsingle _
  · exact hsingle _
  · refine .nextThen fun _ _ _ => helements.bind_any fun items? items?' => ?_
    cases items? <;> cases items?' <;> exact .pure rfl
  · split
    · exact .nextThen fun _ _ _ => .nextThen fun _ _ _ => .pure rfl
    · exact .pure rfl
  · exact .pure rfl

theorem exprShape_follows (stopAtColon : Bool) {literal? literal?' : Option Expr.Shape}
    (h : literal?'.map (·.tag) = literal?.map (·.tag)) :
    Follows stretch (exprShape stopAtColon literal?) (exprShape stopAtColon literal?')
      fun shape shape' => shape'.tag = shape.tag := by
  have hrun : ∀ first, Follows stretch
      (take (exprRun stopAtColon first 0) >>= fun _ => pure Expr.Shape.other)
      (take (exprRun stopAtColon first 0) >>= fun _ => pure Expr.Shape.other)
      fun shape shape' => shape'.tag = shape.tag :=
    fun first => (exprRun_local stopAtColon first 0).takeThen fun _ _ _ => .pure rfl
  cases literal? with
  | none =>
    cases literal?' with
    | none => exact hrun true
    | some shape' => cases h
  | some shape =>
    cases literal?' with
    | none => cases h
    | some shape' =>
      have hunfold : ∀ shape : Expr.Shape, exprShape stopAtColon (some shape) =
          MonadState.get >>= fun stream : TokenStream =>
            if endsExpr stopAtColon false stream.head stream.pending.tail.head? then pure shape
            else take (exprRun stopAtColon false 0) >>= fun _ => pure .other := fun _ => rfl
      rw [hunfold, hunfold]
      refine .get fun stream stream' hsees => ?_
      rw [endsExpr_moved hsees.head hsees.following?]
      split
      · exact .pure (Option.some.inj h)
      · exact hrun false

theorem exprWith_follows {elements elements' : Reader (Option (List Expr))}
    (helements : Follows stretch elements elements' fun _ _ => True) (stopAtColon : Bool) :
    Follows stretch (exprWith source elements stopAtColon)
      (exprWith source' elements' stopAtColon) Expr.Alike := by
  have hshape : Follows stretch (literal? elements >>= exprShape stopAtColon)
      (literal? elements' >>= exprShape stopAtColon) fun shape shape' => shape'.tag = shape.tag :=
    (literal?_follows helements).bind (fun shape? => ⟨shape?, rfl⟩)
      fun _ _ => exprShape_follows stopAtColon
  -- an expression is its shape, and the text from the next token to the last one taken
  have hexpr : ∀ {source : List Char} {elements : Reader (Option (List Expr))}
      {stream after : TokenStream} {expr : Expr},
      exprWith source elements stopAtColon stream = .ok (expr, after) ↔
        ∃ shape, (literal? elements >>= exprShape stopAtColon) stream = .ok (shape, after) ∧
          expr = ⟨shape, sourceText source stream.head.span.start
            (max after.readTo stream.head.span.start),
            stream.head.span.upTo (max after.readTo stream.head.span.start)⟩ := by
    intro source elements stream after expr
    rw [exprWith, peek_bind_eq_ok]
    simp only [bind_eq_ok, pure_eq_ok]
    constructor
    · rintro ⟨literal?, between, hliteral, shape, last, hshape, _, _, hget, rfl, rfl⟩
      cases hget
      exact ⟨shape, ⟨literal?, between, hliteral, hshape⟩, rfl⟩
    · rintro ⟨shape, ⟨literal?, between, hliteral, hshape⟩, rfl⟩
      exact ⟨literal?, between, hliteral, shape, after, hshape, after, after, rfl, rfl, rfl⟩
  constructor
  · intro stream after expr hread
    obtain ⟨shape, hfirst, -⟩ := hexpr.1 hread
    exact hshape.shrinks hfirst
  · intro stream stream' after expr hstep hread hkeeps
    obtain ⟨shape, hfirst, rfl⟩ := hexpr.1 hread
    obtain ⟨shape', after', hfirst', hstep', htag⟩ := hshape.follows hstep hfirst hkeeps
    refine ⟨_, after', hexpr.2 ⟨shape', hfirst', rfl⟩, hstep', htag, ?_⟩
    have hstart := hstep.sees.head.start
    have hstop : max after'.readTo stream'.head.span.start =
        max after.readTo stream.head.span.start + stretch.shift := by
      rw [hstep'.readTo, hstart]
      omega
    simp only [hstop]
    rw [hstart]
    apply stretch.text
    · exact Nat.le_trans hstep.low hstep.ready.readTo_le_head
    · exact hstep.ready.head_lies.boundary.1
    · exact Nat.max_le.2 ⟨hstep'.readTo_le, hstep.head_le⟩

theorem dictionary_follows : Follows stretch dictionary dictionary fun _ _ => True :=
  (collectionRun_local 0).takeThen fun _ _ _ => .pure trivial

theorem elements_follows {limit limit' : Nat} (hlimit : limit ≤ limit') :
    Follows stretch (elements source limit) (elements source' limit')
      fun _ _ => True := by
  induction limit generalizing limit' with
  | zero => exact .fail tooLong_ne_ok
  | succ limit ih =>
    obtain ⟨limit', rfl⟩ : ∃ k, limit' = k + 1 := ⟨limit' - 1, by omega⟩
    have hmore := ih (Nat.le_of_succ_le_succ hlimit)
    have hmap : ∀ element element' : Expr, Follows stretch
        (elements source limit >>= fun items? => pure (items?.map (element :: ·)))
        (elements source' limit' >>= fun items? => pure (items?.map (element' :: ·)))
        fun _ _ => True :=
      fun _ _ => hmore.bind_any fun _ _ => .pure trivial
    rw [elements, elements]
    refine .peek fun placed placed' hmoved => ?_
    rw [hmoved.token]
    split
    · exact .nextThen fun _ _ _ => .pure trivial
    · exact dictionary_follows
    · exact .expected _ _
    · refine (exprWith_follows hmore true).bind (fun element => ⟨element, .refl element⟩)
        fun element element' _ => .peek fun placed placed' hmoved => ?_
      rw [hmoved.token]
      split
      · exact .nextThen fun _ _ _ => hmap element element'
      · exact hmap element element'
      · exact dictionary_follows
      · exact .expected _ _

theorem readingLimit_le (stretch : Stretch source source' finish finish') :
    readingLimit source ≤ readingLimit source' :=
  Nat.succ_le_succ stretch.longer

theorem expr_follows (stopAtColon : Bool) :
    Follows stretch (expr source stopAtColon) (expr source' stopAtColon)
      Expr.Alike :=
  exprWith_follows (elements_follows (readingLimit_le stretch)) stopAtColon

/-! ### Attributes and modifiers -/

theorem label?_follows : Follows stretch label? label? Eq := by
  refine .get fun stream stream' hsees => ?_
  rw [hsees.head.token, hsees.second.token]
  split
  · exact .nextThen fun _ _ _ => .nextThen fun _ _ _ => .pure rfl
  · exact .pure rfl

theorem arguments_follows {limit limit' : Nat} (hlimit : limit ≤ limit') :
    Follows stretch (arguments source limit) (arguments source' limit')
      (List.Forall₂ Argument.Alike) := by
  induction limit generalizing limit' with
  | zero => exact .fail tooLong_ne_ok
  | succ limit ih =>
    obtain ⟨limit', rfl⟩ : ∃ k, limit' = k + 1 := ⟨limit' - 1, by omega⟩
    have hmore : ∀ {argument argument' : Argument}, argument.Alike argument' → Follows stretch
        (arguments source limit >>= fun more => pure (argument :: more))
        (arguments source' limit' >>= fun more => pure (argument' :: more))
        (List.Forall₂ Argument.Alike) := by
      intro argument argument' h
      refine (ih (Nat.le_of_succ_le_succ hlimit)).bind ?_ fun _ _ hrest => .pure (.cons h hrest)
      exact fun more => ⟨more, List.forall₂_same.2 fun argument _ => .refl argument⟩
    rw [arguments, arguments]
    refine .peek fun placed placed' hmoved => ?_
    rw [hmoved.token]
    split
    · exact .pure .nil
    · refine label?_follows.bind (fun label? => ⟨label?, rfl⟩) ?_
      rintro label? _ rfl
      refine (expr_follows false).bind (fun value => ⟨value, .refl value⟩)
        fun value value' hvalue => .peek fun placed placed' hmoved => ?_
      rw [hmoved.token]
      split
      · exact .nextThen fun _ _ _ => hmore ⟨rfl, hvalue⟩
      · exact hmore ⟨rfl, hvalue⟩
      · exact .expected _ _

theorem opensArguments_moved {shift : Nat} {owner owner' : Span} {placed placed' : Placed}
    (howner : owner'.stop = owner.stop + shift) (h : placed.Moved shift placed') :
    opensArguments owner' placed' = opensArguments owner placed := by
  have hstart : (placed.span.start + shift == owner.stop + shift) =
      (placed.span.start == owner.stop) := by
    rw [Bool.eq_iff_iff, beq_iff_eq, beq_iff_eq]
    omega
  rw [opensArguments, opensArguments, h.token, h.start, howner, hstart]

theorem attr_follows :
    Follows stretch (attr source) (attr source') Attribute.Alike := by
  refine .nextThen fun sign sign' _ => nameThen_follows fun pattern pattern' hname => ?_
  refine .peek fun placed placed' hmoved => ?_
  rw [opensArguments_moved hname.stop hmoved]
  split
  · refine .nextThen fun _ _ _ => (arguments_follows (readingLimit_le stretch)).bind ?_
      fun given given' hgiven => .nextThen fun _ _ _ => .pure ⟨hname.name, hgiven⟩
    exact fun given => ⟨given, List.forall₂_same.2 fun argument _ => .refl argument⟩
  · exact .pure ⟨hname.name, .nil⟩

theorem attributes_follows {limit limit' : Nat} (hlimit : limit ≤ limit') :
    Follows stretch (attributes source limit) (attributes source' limit')
      (List.Forall₂ Attribute.Alike) := by
  induction limit generalizing limit' with
  | zero => exact .fail tooLong_ne_ok
  | succ limit ih =>
    obtain ⟨limit', rfl⟩ : ∃ k, limit' = k + 1 := ⟨limit' - 1, by omega⟩
    rw [attributes, attributes]
    refine .peek fun placed placed' hmoved => ?_
    rw [hmoved.token]
    split
    · refine attr_follows.bind (fun attr => ⟨attr, .refl attr⟩) fun first first' hfirst => ?_
      refine (ih (Nat.le_of_succ_le_succ hlimit)).bind ?_ fun _ _ hrest =>
        .pure (.cons hfirst hrest)
      exact fun more => ⟨more, List.forall₂_same.2 fun attr _ => .refl attr⟩
    · exact .pure .nil

theorem modifierRun_local : Run.Local fun tokens => (modifierRun 0 tokens).2 := by
  have hscan : (fun tokens => (modifierRun 0 tokens).2) = scan modifierJudge (some 0) :=
    funext (modifierRun_eq_scan 0)
  rw [hscan]
  apply scan_local
  intro shift state placed placed' following? following?' h hfollowing
  have hmodifier : modifier? placed' following?' = modifier? placed following? := by
    have hclass : following?'.any takesClass = following?.any takesClass := by
      cases hfollowing with
      | none => rfl
      | some h => simp only [Option.any_some, takesClass, h.token]
    rw [modifier?, modifier?, h.token, hclass]
  have hopens : following?'.any (opensArguments placed'.span) =
      following?.any (opensArguments placed.span) := by
    cases hfollowing with
    | none => rfl
    | some hnext => simp only [Option.any_some, opensArguments_moved h.stop hnext]
  match state with
  | none => rfl
  | some 0 => simp only [modifierJudge, hmodifier, hopens]
  | some (depth + 1) => simp only [modifierJudge, h.token]

theorem modifiers_follows : Follows stretch modifiers modifiers fun _ _ => True := by
  have htake : Follows stretch (take fun tokens => (modifierRun 0 tokens).2)
      (take fun tokens => (modifierRun 0 tokens).2) _ := modifierRun_local.take
  constructor
  · rintro stream after value ⟨⟩
    exact htake.shrinks rfl
  · rintro stream stream' after value hstep ⟨⟩ hkeeps
    obtain ⟨_, _, hread, hstep', -⟩ := htake.follows hstep rfl hkeeps
    cases hread
    exact ⟨_, _, rfl, hstep', trivial⟩

/-! ### Members -/

theorem markers_follows {attrs attrs' : List Attribute}
    (h : List.Forall₂ Attribute.Alike attrs attrs') :
    Follows stretch (markers attrs) (markers attrs') fun _ _ => True := by
  induction h with
  | nil => exact .pure trivial
  | @cons first first' _ _ hfirst _ ih =>
    rw [markers, markers, hfirst.marker_eq]
    refine (typed_follows _ _ _).bind (fun marker => ⟨marker, rfl⟩) ?_
    rintro marker _ rfl
    exact (note_follows _ _).bind_any fun _ _ => ih.bind_any fun _ _ => .pure trivial

theorem accessorBlock_follows :
    Follows stretch accessorBlock accessorBlock fun _ _ => True := by
  refine .nextThen fun brace brace' _ => ?_
  -- what stands behind the brace is read in one go
  constructor
  · intro stream after accessors hread
    rw [get_bind_eq_ok] at hread
    cases hrun : blockRun? 0 stream.pending with
    | none =>
      rw [hrun] at hread
      exact absurd hread failAt_ne_ok
    | some run =>
      rw [hrun] at hread
      cases hread
      rw [(blockRun?_eq_some hrun).1, weight_append]
      exact Nat.le_add_left _ _
  · intro stream stream' after accessors hstep hread hkeeps
    rw [get_bind_eq_ok] at hread
    cases hrun : blockRun? 0 stream.pending with
    | none =>
      rw [hrun] at hread
      exact absurd hread failAt_ne_ok
    | some run =>
      rw [hrun] at hread
      cases hread
      obtain ⟨taken', left', hrun', htaken, hleft⟩ := blockRun?_follows hstep.pending
        (fun _ hmem => hstep.ready.laid.sits hmem) hrun hkeeps
      have hparts : Refines stream.pending (run.1 ++ run.2) := by
        rw [← (blockRun?_eq_some hrun).1]
        exact .refl _
      refine ⟨.ofBlock stream'.head.token taken', _, ?_,
        hstep.pass hparts htaken hleft stream.requests stream'.requests, trivial⟩
      rw [get_bind_eq_ok, hrun']
      rfl

theorem type?_follows (text text' : List Char) :
    Follows stretch (type? text) (type? text')
      fun type? type?' => type?'.isSome = type?.isSome := by
  refine .peek fun placed placed' hmoved => ?_
  rw [hmoved.token]
  split
  · exact .nextThen fun _ _ _ => (type_follows _ _).bind_any fun _ _ => .pure rfl
  · exact .pure rfl

theorem initializer?_follows :
    Follows stretch (initializer? source) (initializer? source')
      fun _ _ => True := by
  refine .peek fun placed placed' hmoved => ?_
  rw [hmoved.token]
  split
  · refine .nextThen fun _ _ _ => (expr_follows false).bind (fun expr => ⟨expr, .refl expr⟩) ?_
    exact fun _ _ _ => .pure trivial
  · exact .pure trivial

theorem accessors_follows : Follows stretch accessors accessors fun _ _ => True := by
  refine .peek fun placed placed' hmoved => ?_
  rw [hmoved.token]
  split
  · exact accessorBlock_follows
  · exact .pure trivial

theorem binding_follows :
    Follows stretch (binding source) (binding source') (Binding.Alike stretch.shift) := by
  refine nameThen_follows fun pattern pattern' hpattern => ?_
  refine (type?_follows _ _).bind (fun type? => ⟨type?, rfl⟩) fun type? type?' htype => ?_
  refine initializer?_follows.bind_any fun _ _ => accessors_follows.bind_any fun _ _ => ?_
  exact .pure ⟨hpattern, htype⟩

theorem bindings_follows {limit limit' : Nat} (hlimit : limit ≤ limit') :
    Follows stretch (bindings source limit) (bindings source' limit')
      (List.Forall₂ (Binding.Alike stretch.shift)) := by
  induction limit generalizing limit' with
  | zero => exact .fail tooLong_ne_ok
  | succ limit ih =>
    obtain ⟨limit', rfl⟩ : ∃ k, limit' = k + 1 := ⟨limit' - 1, by omega⟩
    rw [bindings, bindings]
    refine binding_follows.bind (fun first => first.exists_alike _)
      fun first first' hfirst => .peek fun placed placed' hmoved => ?_
    rw [hmoved.token]
    split
    · exact .nextThen fun _ _ _ => (ih (Nat.le_of_succ_le_succ hlimit)).bind
        (Binding.exists_forall₂_alike _) fun _ _ hmore => .pure (.cons hfirst hmore)
    · exact .pure (.cons hfirst .nil)

theorem other_follows (start start' : Span) :
    Follows stretch (other start) (other start') fun _ _ => True := by
  refine (otherRun_local true 0).takeThen fun taken taken' htaken =>
    .peek fun placed placed' hmoved => ?_
  rw [hmoved.token]
  cases htaken with
  | nil =>
    cases placed.token with
    | semicolon => exact .nextThen fun _ _ _ => .pure trivial
    | _ => exact .pure trivial
  | cons _ _ =>
    simp only [List.getLast?_eq_some_getLast (List.cons_ne_nil _ _)]
    exact .pure trivial

theorem property_follows (start start' : Span) {attrs attrs' : List Attribute}
    (hattrs : List.Forall₂ Attribute.Alike attrs attrs') (isStatic isStatic' : Bool) :
    Follows stretch (property source start attrs isStatic)
      (property source' start' attrs' isStatic') (BodyItem.Alike stretch.shift) := by
  refine .nextThen fun keyword keyword' _ => .peek fun placed placed' hmoved => ?_
  rw [hmoved.token]
  split
  · refine (markers_follows hattrs).bind_any fun _ _ =>
      (bindings_follows (readingLimit_le stretch)).bind (Binding.exists_forall₂_alike _)
        fun _ _ hbindings => .get fun _ _ _ => .pure ⟨rfl, ?_⟩
    rintro _ ⟨⟩
    exact ⟨_, rfl, hbindings⟩
  · refine (other_follows start start').bind_any fun _ _ => .pure ⟨rfl, ?_⟩
    rintro _ ⟨⟩

/-! ### Declarations -/

theorem attachments_follows {attrs attrs' : List Attribute}
    (h : List.Forall₂ Attribute.Alike attrs attrs') :
    Follows stretch (attachments attrs) (attachments attrs')
      fun attached attached' => attached'.map (·.request) = attached.map (·.request) := by
  induction h with
  | nil => exact .pure rfl
  | @cons first first' _ _ hfirst _ ih =>
    rw [attachments, attachments, hfirst.request?_eq]
    refine (typed_follows _ _ _).bind (fun request? => ⟨request?, rfl⟩) ?_
    rintro request? _ rfl
    cases request? with
    | none => exact ih
    | some request =>
      refine (note_follows _ _).bind_any fun _ _ => ih.bind (fun more => ⟨more, rfl⟩) ?_
      intro more more' hmore
      refine .pure ?_
      rw [List.map_cons, List.map_cons, hmore]

theorem qualifiedName_follows : Follows stretch qualifiedName qualifiedName fun _ _ => True :=
  nameThen_follows fun _ _ _ => qualifierRun_local.takeThen fun _ _ _ => .pure trivial

theorem genericClause_follows : Follows stretch genericClause genericClause fun _ _ => True := by
  refine .peek fun placed placed' hmoved => ?_
  rw [hmoved.token]
  split
  · split
    · exact (genericRun_local 0).takeThen fun _ _ _ => .pure trivial
    · exact .pure trivial
  · exact .pure trivial

theorem types_follows {text text' : List Char} {limit limit' : Nat} (hlimit : limit ≤ limit') :
    Follows stretch (types text limit) (types text' limit') fun _ _ => True := by
  induction limit generalizing limit' with
  | zero => exact .fail tooLong_ne_ok
  | succ limit ih =>
    obtain ⟨limit', rfl⟩ : ∃ k, limit' = k + 1 := ⟨limit' - 1, by omega⟩
    rw [types, types]
    refine (type_follows _ _).bind_any fun _ _ => .peek fun placed placed' hmoved => ?_
    rw [hmoved.token]
    split
    · exact .nextThen fun _ _ _ => (ih (Nat.le_of_succ_le_succ hlimit)).bind_any fun _ _ =>
        .pure trivial
    · exact .pure trivial

theorem inheritance_follows :
    Follows stretch (inheritance source) (inheritance source')
      fun _ _ => True := by
  refine .peek fun placed placed' hmoved => ?_
  rw [hmoved.token]
  split
  · exact .nextThen fun _ _ _ => types_follows (readingLimit_le stretch)
  · exact .pure trivial

theorem requirements_follows : Follows stretch requirements requirements fun _ _ => True := by
  refine .peek fun placed placed' hmoved => ?_
  rw [hmoved.token]
  split
  · exact requirementRun_local.takeThen fun _ _ _ => .pure trivial
  · exact .pure trivial

theorem openingBrace_follows : Follows stretch openingBrace openingBrace fun _ _ => True := by
  refine .peek fun placed placed' hmoved => ?_
  rw [hmoved.token]
  split
  · exact .nextThen fun _ _ _ => .pure trivial
  · exact .expected _ _

theorem header_follows (kind : Declaration.Kind) (start start' : Span)
    {attrs attrs' : List Attribute} (hattrs : List.Forall₂ Attribute.Alike attrs attrs') :
    Follows stretch (header source kind start attrs)
      (header source' kind start' attrs') Header.Alike := by
  refine .nextThen fun _ _ _ => (attachments_follows hattrs).bind (fun more => ⟨more, rfl⟩) ?_
  intro attached attached' hattached
  refine qualifiedName_follows.bind_any fun _ _ => genericClause_follows.bind_any fun _ _ => ?_
  refine inheritance_follows.bind_any fun _ _ => requirements_follows.bind_any fun _ _ => ?_
  exact openingBrace_follows.bind_any fun _ _ => .pure ⟨rfl, hattached⟩

theorem item_follows :
    Follows stretch (item source) (item source') (Item.Alike stretch.shift) := by
  refine .peek fun start start' _ => (attributes_follows (readingLimit_le stretch)).bind ?_ ?_
  · exact fun attrs => ⟨attrs, List.forall₂_same.2 fun attr _ => .refl attr⟩
  · intro attrs attrs' hattrs
    refine modifiers_follows.bind_any fun isStatic isStatic' => .get fun stream stream' hsees => ?_
    have hother : Follows stretch
        (other start.span >>= fun span => pure (Item.entry (.other span)))
        (other start'.span >>= fun span => pure (Item.entry (.other span)))
        (Item.Alike stretch.shift) :=
      (other_follows _ _).bind_any fun _ _ => .pure (.entry ⟨rfl, by rintro _ ⟨⟩⟩)
    rw [hsees.head.token, hsees.second.token]
    split
    · exact .nextThen fun _ _ _ => .pure .separator
    · split
      · refine (property_follows _ _ hattrs isStatic isStatic').bind ?_ ?_
        · exact fun _ => ⟨.other start.span, rfl, by rintro _ ⟨⟩⟩
        · exact fun _ _ halike => .pure (.entry halike)
      · split
        · refine (header_follows _ _ _ hattrs).bind (fun header => ⟨header, rfl, rfl⟩) ?_
          exact fun _ _ hheader => .pure (.opened hheader)
        · exact hother
    · exact hother

end Reader

end Memberwise
