/-
  Memberwise/Proofs/LineEndings.lean
  ==================================
  **Expanding a source keeps its line endings.**

  The lines of a source end in one of two ways, and what is generated ends its lines in the
  same way.  Yet a carriage return that ends no line may stand anywhere, and it makes a
  line ending as soon as a line feed comes to stand behind it; and a line feed is no longer
  returned when what stands in front of it goes away.  So the seams matter: no edit ends in
  front of a line feed, and none puts a text behind a carriage return (`Spares`).  Two edits
  do not make a seam of their own, since something is left in front of every text that is
  put in.

  Inside the text that is put in, margins come from white space that may hold carriage
  returns, but they stand in front of lines that are not empty; and names, types, defaults
  and keys are taken over as they are written, up to the end of a token.
-/
import Memberwise.Proofs.Answering
import Memberwise.Proofs.Keys
import Memberwise.Proofs.Margins
import Memberwise.Proofs.Returns

namespace Memberwise

namespace Text

/-! ### Texts in which every line is returned -/

/-- Every line feed of a text stands behind a carriage return. -/
def Returning (text : List Char) : Prop :=
  ∀ before after, text = before ++ '\n' :: after → before.getLast? = some '\r'

theorem Returning.head?_ne {text : List Char} (h : Returning text) : text.head? ≠ some '\n' := by
  intro hhead
  obtain ⟨rest, rfl⟩ := List.head?_eq_some_iff.1 hhead
  cases h [] rest rfl

theorem Returning.append {a b : List Char} (ha : Returning a) (hb : Returning b) :
    Returning (a ++ b) := by
  intro before after h
  rcases List.append_eq_append_iff.1 h with ⟨middle, rfl, hmiddle⟩ | ⟨middle, rfl, hmiddle⟩
  · rw [List.getLast?_append, hb middle after hmiddle]
    rfl
  · cases middle with
    | nil =>
      rw [List.nil_append] at hmiddle
      subst hmiddle
      exact absurd rfl hb.head?_ne
    | cons c middle =>
      cases hmiddle
      exact ha before middle rfl

theorem Returning.of_infix {source text : List Char} (h : Returning source)
    (hpart : text <:+: source) (hhead : text.head? ≠ some '\n') : Returning text := by
  obtain ⟨front, back, rfl⟩ := hpart
  rintro before after rfl
  have hlast := h (front ++ before) (after ++ back) (by simp)
  cases before with
  | nil => exact absurd rfl hhead
  | cons c before =>
    rwa [List.getLast?_append_of_ne_nil _ (by simp)] at hlast

theorem returning_singleton {c : Char} (h : c ≠ '\n') : Returning [c] := by
  intro before after hparts
  cases before with
  | nil =>
    cases hparts
    exact absurd rfl h
  | cons d before => simp at hparts

theorem returning_withLineEnding (text : List Char) :
    Returning (withLineEnding ['\r', '\n'] text) := by
  have hpair : Returning ['\r', '\n'] := by
    intro before after hparts
    match before, hparts with
    | [], hparts => simp at hparts
    | [c], hparts =>
      cases hparts
      rfl
    | c :: d :: before, hparts => simp at hparts
  induction text with
  | nil => simp [withLineEnding, Returning]
  | cons c text ih =>
    rw [withLineEnding, List.flatMap_cons]
    refine Returning.append ?_ ih
    split
    · exact hpair
    · next hc => exact returning_singleton hc

theorem withLineEnding_newline (text : List Char) : withLineEnding ['\n'] text = text := by
  induction text with
  | nil => rfl
  | cons c text ih =>
    rw [withLineEnding, List.flatMap_cons]
    rw [withLineEnding] at ih
    rw [ih]
    split
    · next hc => rw [hc]; rfl
    · rfl

/-! ### Texts without a returned line -/

theorem unreturned_cons_iff {c : Char} {rest : List Char} :
    Unreturned (c :: rest) ↔
      Unreturned rest ∧ (c = '\r' → rest ≠ [] ∧ rest.head? ≠ some '\n') := by
  unfold Unreturned
  rw [List.infix_cons_iff, returned_prefix_iff]
  cases rest with
  | nil => simp
  | cons d rest =>
    rw [List.getLast?_cons_cons]
    simp only [ne_eq, List.cons_ne_nil, not_false_eq_true, true_and]
    tauto

/-- A text without line feeds may stand in front of one that does not start with one. -/
theorem Unreturned.append_of_head {margin text : List Char} (hmargin : '\n' ∉ margin)
    (h : Unreturned text) (hne : text ≠ []) (hhead : text.head? ≠ some '\n') :
    Unreturned (margin ++ text) := by
  constructor
  · rw [returned_append_iff]
    rintro (hpair | hpair | ⟨-, hnewline⟩)
    · exact hmargin (hpair.subset (by simp))
    · exact h.1 hpair
    · exact hhead hnewline
  · rw [List.getLast?_append_of_ne_nil _ hne]
    exact h.2

theorem Unreturned.intercalate {between : List Char} {lines : List (List Char)}
    (hbetween : Unreturned between) (hlines : ∀ line ∈ lines, Unreturned line) :
    Unreturned (between.intercalate lines) := by
  induction lines with
  | nil => exact .nil
  | cons line lines ih =>
    rw [List.forall_mem_cons] at hlines
    cases lines with
    | nil =>
      rw [List.intercalate_singleton]
      exact hlines.1
    | cons next lines =>
      rw [List.intercalate_cons_cons]
      exact (hlines.1.append hbetween).append (ih hlines.2)

/-- A margin goes in front of lines that are not empty, so it meets no line feed. -/
theorem Unreturned.moved {margin text : List Char} {atStart : Bool} (hmargin : '\n' ∉ margin)
    (h : Unreturned text) : Unreturned (moved margin atStart text) := by
  induction text generalizing atStart with
  | nil =>
    rw [Text.moved]
    exact h
  | cons c rest ih =>
    obtain ⟨hrest, hreturn⟩ := unreturned_cons_iff.1 h
    by_cases hc : c = '\n'
    · subst hc
      rw [Text.moved]
      exact unreturned_cons_iff.2 ⟨ih hrest, fun hreturn => absurd hreturn (by decide)⟩
    · -- a carriage return keeps the character behind it
      have hstays : ∀ {d : Char} {more : List Char}, Unreturned (d :: more) → d ≠ '\n' →
          StaysInLine d more := by
        intro d more hmore hd
        refine ⟨hd, ?_⟩
        rintro _ hcr rfl
        exact (unreturned_cons_iff.1 hmore).2 hcr |>.2 rfl
      rw [moved_cons (hstays h hc)]
      refine Unreturned.append_of_head ?_ (unreturned_cons_iff.2 ⟨ih hrest, fun hcr => ?_⟩)
        (by simp) (by simpa using hc)
      · split
        · exact hmargin
        · simp
      · obtain ⟨hne, hhead⟩ := hreturn hcr
        obtain ⟨d, more, rfl⟩ := List.exists_cons_of_ne_nil hne
        rw [moved_cons (hstays hrest (by simpa using hhead))]
        simpa using hhead

end Text

/-! ### Edits that spare line endings -/

namespace Edit

/-- An edit that parts no line ending: it puts no text behind a carriage return, and does
    not end in front of a line feed. -/
structure Spares (source : List Char) (edit : Edit) : Prop where
  start : edit.replacement ≠ "" → (Text.takeBytes edit.span.start source).getLast? ≠ some '\r'
  stop : (Text.dropBytes edit.span.stop source).head? ≠ some '\n'

/-- The text that is kept in front of the first edit of a row. -/
theorem InRow.exists_kept {source : List Char} {place : Nat} {edit : Edit} {rest : List Edit}
    (h : InRow source (edit :: rest)) (hplace : Text.isBoundary place source = true)
    (hle : place ≤ edit.span.start) :
    ∃ kept, Text.takeBytes edit.span.start source = Text.takeBytes place source ++ kept ∧
      Text.dropBytes place source = kept ++ Text.dropBytes edit.span.start source ∧
      edit.span.start = place + Text.width kept ∧
      splice source place (edit :: rest) =
        kept ++ edit.replacement.toList ++ splice source edit.span.stop rest ∧
      Text.isBoundary edit.span.stop source = true := by
  obtain ⟨⟨before, gone, after, hsource, hstart, hstop⟩, -, -⟩ := h.uncons
  obtain ⟨done, tail, hdone, hwidth⟩ := Text.exists_append_of_isBoundary hplace
  obtain ⟨kept, rfl, rfl⟩ := Text.exists_append_of_width_le
    (hdone.symm.trans (hsource.trans (List.append_assoc _ _ _))) (by omega)
  have hparts : source = (done ++ kept) ++ (gone ++ after) := by rw [hsource, List.append_assoc]
  refine ⟨kept, ?_, ?_, ?_, ?_, ?_⟩
  · rw [hparts, Text.takeBytes_of_width hstart.symm, List.append_assoc,
      Text.takeBytes_of_width hwidth]
  · rw [hparts, Text.dropBytes_of_width hstart.symm, List.append_assoc,
      Text.dropBytes_of_width hwidth]
  · rw [hstart, Text.width_append, hwidth]
  · rw [splice, hparts, Text.slice_append hwidth]
    rw [hstart, Text.width_append, hwidth]
  · rw [hsource]
    exact Text.isBoundary_of_width hstop.symm

theorem splice_returning {source : List Char} {chain : List Edit} {place : Nat}
    (hrow : InRow source chain) (hsource : Text.Returning source)
    (hspares : ∀ edit ∈ chain, edit.Spares source)
    (htext : ∀ edit ∈ chain, Text.Returning edit.replacement.toList)
    (hplace : Text.isBoundary place source = true) (hle : ∀ edit ∈ chain, place ≤ edit.span.start)
    (hhead : (Text.dropBytes place source).head? ≠ some '\n') :
    Text.Returning (splice source place chain) := by
  have hsuffix : Text.dropBytes place source <:+: source :=
    ⟨Text.takeBytes place source, [], by simp⟩
  induction chain generalizing place with
  | nil => exact hsource.of_infix hsuffix hhead
  | cons edit rest ih =>
    obtain ⟨kept, -, hdrop, -, hsplice, hboundary⟩ :=
      hrow.exists_kept hplace (hle edit List.mem_cons_self)
    obtain ⟨-, hrest, hbehind⟩ := hrow.uncons
    rw [List.forall_mem_cons] at hspares htext
    rw [hdrop] at hhead hsuffix
    rw [hsplice]
    refine (Text.Returning.append ?_ htext.1).append (ih hrest hspares.2 htext.2 hboundary hbehind
      hspares.1.stop ⟨Text.takeBytes edit.span.stop source, [], by simp⟩)
    refine hsource.of_infix ((List.prefix_append _ _).isInfix.trans hsuffix) ?_
    cases kept with
    | nil => simp
    | cons c kept => exact hhead

/-- What follows a place starts with a line feed only if the source does there, unless a
    text is put in right there. -/
theorem head?_splice_ne {source : List Char} {chain : List Edit} {place : Nat}
    (hrow : InRow source chain) (hclear : Clear chain)
    (hspares : ∀ edit ∈ chain, edit.Spares source)
    (hplace : Text.isBoundary place source = true)
    (hle : ∀ edit ∈ chain, place ≤ edit.span.start)
    (hlt : ∀ edit ∈ chain, edit.replacement ≠ "" → place < edit.span.start)
    (hhead : (Text.dropBytes place source).head? ≠ some '\n') :
    (splice source place chain).head? ≠ some '\n' := by
  induction chain generalizing place with
  | nil => exact hhead
  | cons edit rest ih =>
    obtain ⟨kept, -, hdrop, hstart, hsplice, hboundary⟩ :=
      hrow.exists_kept hplace (hle edit List.mem_cons_self)
    obtain ⟨-, hrest, hbehind⟩ := hrow.uncons
    rw [hsplice]
    cases kept with
    | cons c kept =>
      rw [hdrop] at hhead
      exact hhead
    | nil =>
      -- nothing is kept, so the edit only takes away
      have hnone : edit.replacement = "" := by
        by_contra hne
        have hlt := hlt edit List.mem_cons_self hne
        rw [Text.width_nil] at hstart
        omega
      rw [hnone]
      rw [List.forall_mem_cons] at hspares
      exact ih hrest hclear.of_cons hspares.2 hboundary hbehind
        (fun other hother => List.rel_of_pairwise_cons hclear hother) hspares.1.stop

theorem splice_unreturned {source : List Char} {chain : List Edit} {place : Nat}
    (hrow : InRow source chain) (hclear : Clear chain)
    (hsource : ¬ ['\r', '\n'] <:+: source) (hspares : ∀ edit ∈ chain, edit.Spares source)
    (htext : ∀ edit ∈ chain, ¬ ['\r', '\n'] <:+: edit.replacement.toList)
    (hplace : Text.isBoundary place source = true)
    (hle : ∀ edit ∈ chain, place ≤ edit.span.start) :
    ¬ ['\r', '\n'] <:+: splice source place chain := by
  induction chain generalizing place with
  | nil => exact fun hpair => hsource (hpair.trans ⟨Text.takeBytes place source, [], by
      rw [splice]; simp⟩)
  | cons edit rest ih =>
    obtain ⟨kept, htake, hdrop, hstart, hsplice, hboundary⟩ :=
      hrow.exists_kept hplace (hle edit List.mem_cons_self)
    obtain ⟨-, hrest, hbehind⟩ := hrow.uncons
    rw [List.forall_mem_cons] at hspares htext
    rw [hsplice, Text.returned_append_iff, Text.returned_append_iff]
    rintro ((hpair | hpair | ⟨hlast, hhead⟩) | hpair | ⟨-, hhead⟩)
    · apply hsource
      rw [← Text.takeBytes_append_dropBytes edit.span.start source, htake]
      exact hpair.trans ⟨Text.takeBytes place source, Text.dropBytes edit.span.start source, rfl⟩
    · exact htext.1 hpair
    · have hputs : edit.replacement ≠ "" := by
        intro hnone
        rw [hnone] at hhead
        cases hhead
      have hbefore := hspares.1.start hputs
      rw [htake, List.getLast?_append, hlast] at hbefore
      exact hbefore rfl
    · exact ih hrest hclear.of_cons hspares.2 htext.2 hboundary hbehind hpair
    · exact head?_splice_ne hrest hclear.of_cons hspares.2 hboundary hbehind
        (fun other hother => List.rel_of_pairwise_cons hclear hother) hspares.1.stop hhead

end Edit

/-! ### What is generated -/

theorem ofNat_ne_return {n : Nat} (h : 13 < n) : Char.ofNat n ≠ '\r' := by
  intro heq
  have hcode : (Char.ofNat n).toNat = 13 := by rw [heq]; rfl
  by_cases hvalid : n.isValidChar
  · have hself : Char.ofNat n = Char.ofNatAux n hvalid := dif_pos hvalid
    rw [hself] at hcode
    have hcode : n = 13 := hcode
    omega
  · have hnull : Char.ofNat n = '\x00' := dif_neg hvalid
    rw [hnull] at hcode
    cases hcode

theorem Naming.return_notMem_snakePart {c : Char} (h : c ≠ '\r') : '\r' ∉ snakePart c := by
  have hsmall : '\r' ∉ Text.small c := by
    unfold Text.small
    split
    · decide
    · split
      · next run hfound =>
        -- no small form lies as low as a carriage return
        have hlow : ∀ run ∈ Text.capitalRuns, 13 < run.small := by decide +kernel
        have hrun := hlow run (List.mem_of_find?_eq_some hfound)
        intro hmem
        exact ofNat_ne_return (by omega) (List.mem_singleton.1 hmem).symm
      · simpa using h.symm
  unfold snakePart
  split
  · simpa using hsmall
  · simpa using h.symm

theorem Naming.return_notMem_apply {naming : Naming} {name : String} (h : '\r' ∉ name.toList) :
    '\r' ∉ (naming.apply name).toList := by
  cases naming with
  | identity => exact h
  | snakeCase =>
    rw [Naming.apply, String.toList_ofList]
    cases htext : name.toList with
    | nil => simp [snake]
    | cons first rest =>
      rw [htext, List.mem_cons, not_or] at h
      rw [snake, List.mem_cons, not_or, List.mem_flatMap]
      refine ⟨h.1, ?_⟩
      rintro ⟨c, hc, hmem⟩
      exact return_notMem_snakePart (by rintro rfl; exact h.2 hc) hmem

theorem return_notMem_unquotedName {name : String} (h : '\r' ∉ name.toList) :
    '\r' ∉ (unquotedName name).toList := by
  unfold unquotedName
  split
  · next rest hname =>
    rw [hname, List.mem_cons, not_or] at h
    split
    · rw [String.toList_ofList]
      exact fun hmem => h.2 (List.dropLast_subset _ hmem)
    · rw [hname, List.mem_cons, not_or]
      exact h
  · exact h

/-- The types that literals show are made of words and brackets. -/
theorem Expr.Shows.return_notMem {value : Expr} {type : ValueType} (h : value.Shows type) :
    '\r' ∉ type.text.toList := by
  induction h with
  | bool | integer | float | string => decide
  | array _ ih =>
    rw [ValueType.text, String.toList_append, String.toList_append, List.mem_append,
      List.mem_append, not_or, not_or]
    exact ⟨⟨by decide, ih⟩, by decide⟩

theorem SetInOrder.exists_setBy {members : List Member} {parameters : List Parameter}
    (h : SetInOrder members parameters) :
    ∀ parameter ∈ parameters, ∃ member ∈ members, ∃ binding ∈ member.bindings,
      binding.SetBy parameter := by
  induction h with
  | nil => simp
  | @set member binding _ _ _ heligible hset _ ih =>
    rw [List.forall_mem_cons]
    refine ⟨⟨member, List.mem_cons_self, binding, ?_, hset⟩, ?_⟩
    · rw [heligible.stores.single]
      exact List.mem_singleton_self binding
    · intro parameter hparameter
      obtain ⟨other, hother, hrest⟩ := ih parameter hparameter
      exact ⟨other, List.mem_cons_of_mem _ hother, hrest⟩
  | skip _ _ ih =>
    intro parameter hparameter
    obtain ⟨other, hother, hrest⟩ := ih parameter hparameter
    exact ⟨other, List.mem_cons_of_mem _ hother, hrest⟩

theorem Declaration.mem_generated {declaration : Declaration} {generated : Generated}
    (h : generated ∈ declaration.generated) :
    (∃ parameters, SetInOrder declaration.members parameters ∧
      generated = .initializer (.storing parameters)) ∨
    ∃ naming, generated = .keyEnum (declaration.codingKeys naming) := by
  rw [Declaration.generated, List.mem_flatMap] at h
  obtain ⟨attachment, -, h⟩ := h
  split at h
  · next answers hanswer =>
    unfold answer at hanswer
    split at hanswer
    · obtain ⟨init, hinit, rfl⟩ := Token.map_eq_ok.1 hanswer
      rw [List.mem_singleton.1 h]
      unfold memberwiseInit at hinit
      split at hinit
      · obtain ⟨parameters, hparameters, rfl⟩ := Token.map_eq_ok.1 hinit
        rw [eligible_eq, mapM_parameter_eq_ok_iff] at hparameters
        exact .inl ⟨parameters, hparameters, rfl⟩
      · cases hinit
    · cases hanswer
      exact .inr ⟨_, List.mem_singleton.1 h⟩
    · cases hanswer
      cases h
  · cases h

theorem mem_parameterLines {indent line : String} {parameters : List Parameter}
    (h : line ∈ parameterLines indent parameters) :
    ∃ parameter ∈ parameters,
      line = indent ++ parameter.text ∨ line = indent ++ parameter.text ++ "," := by
  induction parameters with
  | nil => cases h
  | cons parameter rest ih =>
    cases rest with
    | nil => exact ⟨parameter, by simp, .inl (List.mem_singleton.1 h)⟩
    | cons next rest =>
      rcases List.mem_cons.1 h with rfl | h
      · exact ⟨parameter, by simp, .inr rfl⟩
      · obtain ⟨other, hother, hline⟩ := ih h
        exact ⟨other, List.mem_cons_of_mem _ hother, hline⟩

section Generated

variable {source : List Char} (hsource : ¬ ['\r', '\n'] <:+: source)

include hsource

theorem Binding.Quotes.parameter_unreturned {binding : Binding} {parameter : Parameter}
    (h : binding.Quotes source) (hset : binding.SetBy parameter) :
    Text.Unreturned parameter.text.toList := by
  have htype : Text.Unreturned parameter.type.text.toList := by
    cases hwritten : binding.type? with
    | some written =>
      rw [hset.written written hwritten]
      exact (h.type written hwritten).unreturned hsource
    | none =>
      obtain ⟨value, -, hshows⟩ := hset.shown hwritten
      exact .of_notMem hshows.return_notMem
  have hdefault : Text.Unreturned (assigned parameter.default?).toList := by
    rw [hset.default?]
    cases hvalue : binding.initializer? with
    | none => exact .nil
    | some value =>
      rw [Option.map_some, assigned, String.toList_append]
      exact (Text.Unreturned.of_notMem (by decide)).append
        ((h.initializer value hvalue).unreturned hsource)
  rw [Parameter.text, String.toList_append, String.toList_append, String.toList_append, hset.name]
  exact (((Text.Unreturned.of_notMem h.name).append (.of_notMem (by decide))).append htype).append
    hdefault

theorem Member.Quotes.keyCase_unreturned {stored : StoredMember} {naming : Naming}
    (h : stored.member.Quotes source) (hbinding : stored.binding ∈ stored.member.bindings) :
    Text.Unreturned (stored.keyCase naming).text.toList := by
  have hname : '\r' ∉ stored.name.toList := (h.bindings _ hbinding).name
  have hcase : ∀ {key : StringLiteral}, Text.Unreturned key.source.toList →
      Text.Unreturned (KeyCase.text ⟨stored.name, some key⟩).toList := by
    intro key hkey
    rw [KeyCase.text, String.toList_append, String.toList_append, Option.map_some, assigned,
      String.toList_append]
    exact ((Text.Unreturned.of_notMem (by decide)).append (.of_notMem hname)).append
      ((Text.Unreturned.of_notMem (by decide)).append hkey)
  unfold StoredMember.keyCase
  split
  · next key hkey => exact hcase ((h.key key hkey).unreturned hsource)
  · dsimp only
    split
    · rw [KeyCase.text, String.toList_append, String.toList_append]
      exact ((Text.Unreturned.of_notMem (by decide)).append (.of_notMem hname)).append .nil
    · exact hcase (.of_notMem (StringLiteral.notMem_quoted
        (Naming.return_notMem_apply (return_notMem_unquotedName hname)) (by decide)))

theorem Initializer.lines_unreturned {indent : String} {members : List Member}
    {parameters : List Parameter} (hindent : Text.Unreturned indent.toList)
    (hset : SetInOrder members parameters) (h : ∀ member ∈ members, member.Quotes source) :
    ∀ line ∈ (Initializer.storing parameters).lines indent, Text.Unreturned line.toList := by
  have hparameter : ∀ parameter ∈ parameters,
      Text.Unreturned (indent ++ parameter.text).toList ∧ '\r' ∉ parameter.name.toList := by
    intro parameter hmem
    obtain ⟨member, hmember, binding, hbinding, hby⟩ := hset.exists_setBy parameter hmem
    have hquotes := (h member hmember).bindings binding hbinding
    rw [String.toList_append, hby.name]
    exact ⟨hindent.append (hquotes.parameter_unreturned hsource hby), hquotes.name⟩
  intro line hline
  rw [Initializer.lines, List.mem_append, List.mem_append, List.mem_singleton] at hline
  rcases hline with (hhead | hbody) | rfl
  · unfold Initializer.headLines at hhead
    split at hhead
    · rw [List.mem_singleton.1 hhead]
      exact .of_notMem (by decide)
    · rw [List.cons_append, List.mem_cons, List.mem_append, List.mem_singleton] at hhead
      rcases hhead with rfl | hmem | rfl
      · exact .of_notMem (by decide)
      · obtain ⟨parameter, hparam, rfl | rfl⟩ := mem_parameterLines hmem
        · exact (hparameter parameter hparam).1
        · rw [String.toList_append]
          exact (hparameter parameter hparam).1.append (.of_notMem (by decide))
      · exact .of_notMem (by decide)
  · obtain ⟨assignment, hassignment, rfl⟩ := List.mem_map.1 hbody
    obtain ⟨parameter, hmem, rfl⟩ := List.mem_map.1 hassignment
    have hname := (hparameter parameter hmem).2
    rw [Assignment.text, String.toList_append, String.toList_append, String.toList_append,
      String.toList_append]
    have hleft : Text.Unreturned ("self.".toList ++ parameter.name.toList) :=
      .append (.of_notMem (by decide)) (.of_notMem hname)
    exact hindent.append ((hleft.append (.of_notMem (by decide))).append (.of_notMem hname))
  · exact .of_notMem (by decide)

theorem KeyEnum.lines_unreturned {indent : String} {declaration : Declaration} (naming : Naming)
    (hindent : Text.Unreturned indent.toList)
    (h : ∀ member ∈ declaration.members, member.Quotes source) :
    ∀ line ∈ (declaration.codingKeys naming).lines indent, Text.Unreturned line.toList := by
  have hhead : (declaration.codingKeys naming).headLine = (KeyEnum.codingKeys []).headLine := rfl
  intro line hline
  rw [KeyEnum.lines, List.cons_append, List.mem_cons, List.mem_append, List.mem_singleton] at hline
  rcases hline with rfl | hcase | rfl
  · rw [hhead]
    exact .of_notMem (by decide)
  · obtain ⟨keyCase, hkeyCase, rfl⟩ := List.mem_map.1 hcase
    obtain ⟨stored, hstored, rfl⟩ := List.mem_map.1 hkeyCase
    obtain ⟨member, hmember, hstored⟩ := List.mem_filterMap.1 hstored
    obtain ⟨rfl, hstores⟩ := Member.stored?_eq_some_iff.1 hstored
    rw [String.toList_append]
    refine hindent.append ((h _ hmember).keyCase_unreturned hsource ?_)
    rw [hstores.single]
    exact List.mem_singleton_self _
  · exact .of_notMem (by decide)

theorem Declaration.generated_unreturned (layout : Layout) {declaration : Declaration}
    (h : ∀ member ∈ declaration.members, member.Quotes source) :
    ∀ generated ∈ declaration.generated, Text.Unreturned (generated.text layout).toList := by
  have hindent : Text.Unreturned layout.indent.toList := by
    refine .of_notMem ?_
    rw [Layout.indent, String.toList_ofList]
    exact fun hmem => absurd (List.eq_of_mem_replicate hmem) (by decide)
  intro generated hmem
  rw [Generated.text, String.toList_intercalate]
  refine .intercalate (.of_notMem (by decide)) ?_
  rw [List.forall_mem_map]
  obtain ⟨parameters, hset, rfl⟩ | ⟨naming, rfl⟩ := mem_generated hmem
  · exact Initializer.lines_unreturned hsource hindent hset h
  · exact KeyEnum.lines_unreturned hsource naming hindent h

/-- Generated declarations at a margin have no returned line, nor does a line feed behind
    them return one. -/
theorem generatedText_unreturned (layout : Layout) {declaration : Declaration}
    {margin : List Char} (hmargin : '\n' ∉ margin)
    (h : ∀ member ∈ declaration.members, member.Quotes source) :
    Text.Unreturned (generatedText layout margin declaration.generated) := by
  have hdeep : '\n' ∉ margin ++ layout.indent.toList := by
    rw [List.mem_append, not_or, Layout.indent, String.toList_ofList]
    exact ⟨hmargin, fun hmem => absurd (List.eq_of_mem_replicate hmem) (by decide)⟩
  have hnewline : Text.Unreturned ['\n'] := .of_notMem (by decide)
  refine ((hnewline.append (.intercalate (.of_notMem (by decide)) ?_)).append hnewline)
  rw [List.forall_mem_map]
  intro generated hmem
  rw [Generated.indented_eq_moved]
  exact .moved hdeep (Declaration.generated_unreturned hsource layout h generated hmem)

end Generated

/-! ### Insertions -/

theorem Text.newline_notMem_lastLine (text : List Char) : '\n' ∉ lastLine text := by
  rw [lastLine, List.mem_reverse]
  intro hmem
  have hother := List.all_eq_true.1 List.all_takeWhile _ hmem
  cases hother

theorem Text.eq_lastLine_or (text : List Char) :
    text = lastLine text ∨ ∃ kept, text = kept ++ ['\n'] ++ lastLine text := by
  have hparts : text = (text.reverse.dropWhile (· != '\n')).reverse ++ lastLine text := by
    rw [lastLine, ← List.reverse_append, List.takeWhile_append_dropWhile, List.reverse_reverse]
  have hhead := List.head?_dropWhile_not (· != '\n') text.reverse
  generalize text.reverse.dropWhile (· != '\n') = front at hparts hhead
  cases front with
  | nil => exact .inl hparts
  | cons c front =>
    have hc : c = '\n' := by simpa using hhead
    refine .inr ⟨front.reverse, ?_⟩
    rw [← hc, ← List.reverse_cons]
    exact hparts

theorem Text.isBlank_getLast?_trimEnd {text : List Char} {c : Char}
    (h : (trimEnd text).getLast? = some c) : isBlank c = false := by
  rw [trimEnd, List.getLast?_reverse] at h
  have hhead := List.head?_dropWhile_not isBlank text.reverse
  rw [h] at hhead
  exact hhead

/-- Where generated text goes, and how it ends its lines. -/
theorem insertion_eq (layout : Layout) {source : List Char} {declaration : Declaration}
    (h : declaration.Located source) (generated : List Generated) :
    (∃ kept margin after, source = kept ++ ['\n'] ++ (margin ++ '\x7d' :: after) ∧ '\n' ∉ margin ∧
      insertion layout source declaration generated =
        ⟨⟨Text.width (kept ++ ['\n']), Text.width (kept ++ ['\n']), 0, 0⟩,
          String.ofList (Text.withLineEnding (lineEnding source)
            (blockText layout margin generated))⟩) ∨
    ∃ kept c blanks after, source = kept ++ [c] ++ blanks ++ '\x7d' :: after ∧
      Text.isBlank c = false ∧
      insertion layout source declaration generated =
        ⟨⟨Text.width (kept ++ [c]), Text.width (kept ++ [c] ++ blanks), 0, 0⟩,
          String.ofList (Text.withLineEnding (lineEnding source)
            (inlineText layout (marginAt source declaration.span.start) generated))⟩ := by
  obtain ⟨inside, after, hsource, hstop, hopen, hinner⟩ := h.inside
  have hclose : declaration.body.stop - 1 = Text.width inside := by omega
  have htake : Text.takeBytes (Text.width inside) source = inside := by
    rw [hsource, Text.takeBytes_width_append]
  unfold insertion
  simp only [hclose, htake]
  split
  · next hblanks =>
    left
    rcases Text.eq_lastLine_or inside with hline | ⟨kept, hkept⟩
    · -- the opening brace stands in front of the last line
      rw [← hline] at hblanks
      have hstart : source = [] ++ inside ++ '\x7d' :: after := hsource
      have hlt := solid_lt_of_blanks hstart hblanks hopen hinner
      cases hlt
    · have hwidth : Text.width inside - Text.width (Text.lastLine inside) =
          Text.width (kept ++ ['\n']) := by
        conv_lhs => rw [hkept, Text.width_append]
        rw [← hkept]
        omega
      refine ⟨kept, Text.lastLine inside, after, ?_, Text.newline_notMem_lastLine inside, ?_⟩
      · rw [← List.append_assoc, ← hkept, hsource]
      · rw [hwidth]
  · right
    obtain ⟨blanks, hparts, hblanks⟩ := Text.trimEnd_append_blanks inside
    have hsolid : declaration.body.start < Text.width (Text.trimEnd inside) := by
      rw [hparts] at hsource hinner
      exact solid_lt_of_blanks hsource hblanks hopen hinner
    obtain ⟨kept, c, hlast⟩ : ∃ kept c, Text.trimEnd inside = kept ++ [c] := by
      cases hnil : Text.trimEnd inside using List.reverseRecOn with
      | nil =>
        rw [hnil, Text.width_nil] at hsolid
        omega
      | append_singleton kept c => exact ⟨kept, c, rfl⟩
    have hmax : max (Text.width (Text.trimEnd inside)) (declaration.body.start + 1) =
        Text.width (kept ++ [c]) := by
      rw [← hlast]
      omega
    rw [hlast] at hparts
    refine ⟨kept, c, blanks, after, by rw [← hparts]; exact hsource, ?_, ?_⟩
    · exact Text.isBlank_getLast?_trimEnd (by rw [hlast, List.getLast?_concat])
    · rw [hmax, ← hparts]

theorem return_notMem_marginAt (source : List Char) (offset : Nat) :
    '\r' ∉ marginAt source offset ∧ '\n' ∉ marginAt source offset := by
  unfold marginAt lineMargin
  constructor
  all_goals
    intro hmem
    have hblank := List.all_eq_true.1 List.all_takeWhile _ hmem
    revert hblank
    decide

/-- An insertion spares line endings, and the text that it puts in ends its lines as the
    source does. -/
theorem insertion_spares (layout : Layout) {source : List Char} {declaration : Declaration}
    (h : declaration.Located source) (hgenerated : declaration.generated ≠ []) :
    (insertion layout source declaration declaration.generated).Spares source ∧
      ∃ margin tail, '\n' ∉ margin ∧ '\r' ∉ tail ∧
        (insertion layout source declaration declaration.generated).replacement.toList =
          Text.withLineEnding (lineEnding source)
            (generatedText layout margin declaration.generated ++ tail) := by
  rcases insertion_eq layout h declaration.generated with
    ⟨kept, margin, after, hsource, hmargin, hedit⟩ | ⟨kept, c, blanks, after, hsource, hc, hedit⟩
  · rw [hedit]
    refine ⟨⟨fun _ => ?_, ?_⟩, margin, [], hmargin, by simp, ?_⟩
    · rw [hsource, Text.takeBytes_width_append, List.getLast?_concat]
      decide
    · rw [hsource, Text.dropBytes_width_append]
      cases margin with
      | nil => simp
      | cons d margin =>
        rw [List.mem_cons, not_or] at hmargin
        simpa using Ne.symm hmargin.1
    · rw [String.toList_ofList, blockText_eq _ _ hgenerated, List.append_nil]
  · obtain ⟨hreturn, hnewline⟩ := return_notMem_marginAt source declaration.span.start
    rw [hedit]
    refine ⟨⟨fun _ => ?_, ?_⟩, marginAt source declaration.span.start,
      marginAt source declaration.span.start, hnewline, hreturn, ?_⟩
    · rw [hsource, List.append_assoc _ blanks, Text.takeBytes_width_append, List.getLast?_concat]
      rintro ⟨⟩
      cases hc
    · rw [hsource, Text.dropBytes_width_append]
      simp
    · rw [String.toList_ofList, inlineText_eq]

theorem Removes.spares {source : List Char} {span : Span} {edit : Edit}
    (h : Removes source span edit) : edit.Spares source := by
  obtain ⟨before, attr, blanks, after, rfl, hstart, hstop, -, hafter, -, hend, hnone⟩ := h
  refine ⟨fun hne => absurd hnone hne, ?_⟩
  have hwidth : Text.width (before ++ '@' :: attr ++ blanks) = edit.span.stop := by
    rw [Text.width_append, Text.width_append]
    omega
  rw [Text.dropBytes_of_width hwidth]
  intro hhead
  cases hafter _ hhead

/-! ### Whole sources -/

/-- An edit puts in what is generated for one of some declarations, and ends its lines as
    the source does. -/
def Edit.Generates (layout : Layout) (source : List Char) (declarations : List Declaration)
    (edit : Edit) : Prop :=
  ∃ declaration ∈ declarations, ∃ margin tail, '\n' ∉ margin ∧ '\r' ∉ tail ∧
    edit.replacement.toList = Text.withLineEnding (lineEnding source)
      (generatedText layout margin declaration.generated ++ tail)

/-- The edits that answer a source spare its line endings. -/
theorem Outline.edits_spare {source : List Char} {outline : Outline} (layout : Layout)
    (h : Outline.ofSource source = .ok outline) :
    ∃ chain, Edit.InRow source chain ∧ Edit.Clear chain ∧
      Edit.applyAll source (outline.edits layout source) = Edit.splice source 0 chain ∧
      ∀ edit ∈ chain, edit.Spares source ∧
        (edit.replacement = "" ∨ edit.Generates layout source outline.allDeclarations) := by
  obtain ⟨tokens, taken, items, after, -, hread, -, hdeclarations⟩ := Outline.ofSource_read h
  obtain ⟨chain, hchain, hperm, -, hclear⟩ := hread.spaced layout
  have hdeep : outline.allDeclarations = Declaration.nestedIn items := by
    rw [Outline.allDeclarations, hdeclarations, Declaration.nestedIn_eq]
  have hlocated := hread.located.2.2.2
  rw [← hdeep] at hperm hlocated
  have hapart := hchain.apart.1
  refine ⟨chain, hapart.inRow, hclear, Edit.applyAll_eq_splice hperm hapart, ?_⟩
  intro edit hedit
  rcases List.mem_append.1 (hperm.mem_iff.1 hedit) with hremoval | hinsertion
  · obtain ⟨span, hspan, rfl⟩ := List.mem_map.1 hremoval
    exact ⟨(removal_removes (hread.noted_inOrder.2 span hspan)).spares, .inl rfl⟩
  · obtain ⟨declaration, hmem, hsome⟩ := List.mem_filterMap.1 hinsertion
    by_cases hgenerated : declaration.generated = []
    · rw [Declaration.insertion?_of_nil hgenerated] at hsome
      cases hsome
    · rw [Declaration.insertion?_of_ne_nil hgenerated] at hsome
      cases hsome
      obtain ⟨hspares, htext⟩ := insertion_spares layout (hlocated declaration hmem) hgenerated
      exact ⟨hspares, .inr ⟨declaration, hmem, htext⟩⟩

/-- **Expanding a source keeps its line endings.**  Where every line feed of the source is
    returned, every line feed of the result is; and where none is, none is. -/
theorem expand_keeps_line_endings {layout : Layout} {source : String} {expansion : Expansion}
    (h : expand layout source = .ok expansion) :
    (['\r', '\n'] <:+: source.toList → Text.Returning source.toList →
      Text.Returning expansion.source.toList) ∧
    (¬ ['\r', '\n'] <:+: source.toList → ¬ ['\r', '\n'] <:+: expansion.source.toList) := by
  obtain ⟨outline, houtline, hsource, -⟩ := expand_eq_ok h
  obtain ⟨chain, hrow, hclear, hsplice, hedits⟩ := outline.edits_spare layout houtline
  have hspares : ∀ edit ∈ chain, edit.Spares source.toList := fun edit hedit =>
    (hedits edit hedit).1
  have hzero : Text.isBoundary 0 source.toList = true := by rw [Text.isBoundary]
  rw [hsource, hsplice]
  constructor
  · intro hpair hreturning
    refine Edit.splice_returning hrow hreturning hspares ?_ hzero (fun _ _ => Nat.zero_le _) ?_
    · intro edit hedit
      rcases (hedits edit hedit).2 with hnone | ⟨_, -, _, _, -, -, htext⟩
      · rw [hnone]
        simp [Text.Returning]
      · rcases lineEnding_endsLines source.toList with ⟨-, hending⟩ | ⟨hno, -⟩
        · rw [htext, hending]
          exact Text.returning_withLineEnding _
        · exact absurd hpair hno
    · have hall := Text.takeBytes_append_dropBytes 0 source.toList
      rw [Text.takeBytes_zero, List.nil_append] at hall
      rw [hall]
      exact hreturning.head?_ne
  · intro hno
    refine Edit.splice_unreturned hrow hclear hno hspares ?_ hzero fun _ _ => Nat.zero_le _
    intro edit hedit
    rcases (hedits edit hedit).2 with
      hnone | ⟨declaration, hmem, margin, tail, hmargin, htail, htext⟩
    · rw [hnone]
      simp
    · rcases lineEnding_endsLines source.toList with ⟨hpair, -⟩ | ⟨-, hending⟩
      · exact absurd hpair hno
      · have hquotes := Outline.members_quote houtline declaration hmem
        rw [htext, hending, Text.withLineEnding_newline]
        exact ((generatedText_unreturned hno layout hmargin hquotes).append (.of_notMem htail)).1

def returnedStruct : String := "@PublicInit struct S \x7b\r\n    let a: Int\r\n\x7d"

def returnedStructExpanded : String :=
  "struct S \x7b\r\n    let a: Int\r\n\r\n    public init(\r\n        a: Int\r\n    ) \x7b\r\n" ++
  "        self.a = a\r\n    \x7d\r\n\x7d"

def strayReturn : String := "@PublicInit\rstruct S \x7b\n    let a: Int \r \n\r\x7d"

def strayReturnExpanded : String :=
  "struct S \x7b\n    let a: Int \r \n\n\r    public init(\n\r        a: Int\n\r    ) \x7b\n" ++
  "\r        self.a = a\n\r    \x7d\n\r\x7d"

theorem expand_keeps_line_endings_struct :
    (expand .standard returnedStruct = .ok ⟨returnedStructExpanded, []⟩ ∧
      Text.Returning returnedStructExpanded.toList) ∧
    expand .standard strayReturn = .ok ⟨strayReturnExpanded, []⟩ ∧
      ¬ ['\r', '\n'] <:+: strayReturnExpanded.toList := by
  have hreturned : expand .standard returnedStruct = .ok ⟨returnedStructExpanded, []⟩ := by
    decide +kernel
  have hstray : expand .standard strayReturn = .ok ⟨strayReturnExpanded, []⟩ := by
    decide +kernel
  have hlines : returnedStruct.toList = Text.withLineEnding ['\r', '\n']
      "@PublicInit struct S \x7b\n    let a: Int\n\x7d".toList := by decide +kernel
  refine ⟨⟨hreturned, (expand_keeps_line_endings hreturned).1 (by decide +kernel) ?_⟩, hstray,
    (expand_keeps_line_endings hstray).2 (by decide +kernel)⟩
  rw [hlines]
  exact Text.returning_withLineEnding _

end Memberwise
