/-
  Memberwise/Proofs/Checked/Expanding.lean
  ========================================
  **Answering the requests of a source, with every partial operation checked.**

  Behind the reader, what can be undefined is the lookup of the one binding of a member, the
  slices of the source around an attribute and around a closing brace, the widths that are
  subtracted to measure blanks, the indentation of what is generated, and the replacement of a
  range of a text that earlier edits have changed already.

  The first three are defined because every span of an outline lies in the source.  The last
  is defined for any edits at all: an edit is applied only if it ends in front of all those
  applied before it, and up to there the text is still that of the source.
-/
import Memberwise.Proofs.Answering
import Memberwise.Proofs.Checked.Reading

namespace Memberwise.Checked

/-! ### Answers of one declaration -/

def stored? (member : Member) : Option (Option StoredMember) := do
  if member.isStatic || member.bindings.length != 1 then
    return none
  else
    let binding ← member.bindings[0]?
    return if binding.accessors = .computed then none else some ⟨member, binding⟩

def stored (declaration : Declaration) : Option (List StoredMember) := do
  return (← declaration.members.mapM stored?).filterMap id

def memberwiseInit (declaration : Declaration) (attachment : Span) :
    Option (Except Diagnostic Initializer) := do
  if declaration.kind.takesInitializer then
    let eligible := (← stored declaration).filter (!·.isInitializedConstant)
    return (eligible.mapM StoredMember.parameter).map .storing
  else
    return .error (.notApplicable Request.publicInitName attachment)

def codingKeys (declaration : Declaration) (naming : Naming) : Option KeyEnum := do
  return .codingKeys ((← stored declaration).map (·.keyCase naming))

def answer (declaration : Declaration) (attachment : Attachment) :
    Option (Except Diagnostic (List Generated)) := do
  match attachment.request with
  | .publicInit =>
    return (← memberwiseInit declaration attachment.span).map fun init => [.initializer init]
  | .codingKeys naming => return .ok [.keyEnum (← codingKeys declaration naming)]
  | .codingKey _ => return .ok []

/-! ### Edits -/

def removal (source : List Char) (span : Span) : Option Edit := do
  let rest ← sliceFrom source span.stop
  let blanks ← sub (Text.width rest) (Text.width (rest.dropWhile Text.isBlank))
  return ⟨span.upTo (span.stop + blanks), ""⟩

def lineStart (source : List Char) (offset : Nat) : Option Nat := do
  let before ← sliceUpTo source offset
  sub (Text.width before) (Text.width (Text.lastLine before))

def lineMargin (line : List Char) : Option (List Char) := do
  let blanks ← sub (Text.width line)
    (Text.width (line.dropWhile fun c => c == ' ' || c == '\t'))
  sliceUpTo line blanks

def marginAt (source : List Char) (offset : Nat) : Option (List Char) := do
  lineMargin (← sliceFrom source (← lineStart source offset))

/-- A layout, if its indentation can be made. -/
def indentable (layout : Layout) : Option Layout := if layout.fits then some layout else none

/-- The edit that inserts generated declarations in front of the closing brace of
    a declaration. -/
def insertion (layout : Layout) (source : List Char) (declaration : Declaration)
    (generated : List Generated) : Option Edit := do
  let layout ← indentable layout
  let close ← sub declaration.body.stop 1
  let start ← lineStart source close
  let margin ← slice source start close
  let ended := fun text => String.ofList (Text.withLineEnding (lineEnding source) text)
  if margin.all Text.isBlank then
    return ⟨⟨start, start, 0, 0⟩, ended (blockText layout margin generated)⟩
  else
    let margin ← marginAt source declaration.span.start
    let before ← sliceUpTo source close
    let start := max (Text.width (Text.trimEnd before)) (declaration.body.start + 1)
    return ⟨⟨start, close, 0, 0⟩, ended (inlineText layout margin generated)⟩

/-- The insertion into a declaration, if something is generated for it, and the reports on its
    rejected requests. -/
def settled (layout : Layout) (source : List Char) (declaration : Declaration) :
    Option (Option Edit × List Diagnostic) := do
  let answers ← declaration.attachments.mapM (answer declaration)
  let rejections := answers.filterMap fun
    | .ok _ => none
    | .error diagnostic => some diagnostic
  let generated := answers.flatMap fun
    | .ok generated => generated
    | .error _ => []
  match generated with
  | [] => return (none, rejections)
  | generated => return (← insertion layout source declaration generated, rejections)

/-! ### Applying edits -/

/-- A text with one range replaced, which has to be one of the text as it is now. -/
def replaceRange (text : List Char) (edit : Edit) : Option (List Char) := do
  let _ ← slice text edit.span.start edit.span.stop
  return (← sliceUpTo text edit.span.start) ++ edit.replacement.toList ++
    (← sliceFrom text edit.span.stop)

/-- A text with those edits applied that fit into the source in front of `limit`. -/
def applyBelow (source : List Char) (limit : Nat) (text : List Char) :
    List Edit → Option (List Char)
  | [] => some text
  | edit :: rest => do
    if edit.fits source limit then
      applyBelow source edit.span.start (← replaceRange text edit) rest
    else applyBelow source limit text rest

def applyAll (source : List Char) (edits : List Edit) : Option (List Char) :=
  applyBelow source (Text.width source) source
    (Edit.withoutRepeats (inOrder Edit.before edits))

def expand (layout : Layout) (source : String) : Option (Except ReadError Expansion) := do
  match ← outline source.toList with
  | .error cause => return .error cause
  | .ok outline =>
    let removals ← outline.requests.mapM (removal source.toList)
    let settled ← outline.allDeclarations.mapM (settled layout source.toList)
    let expanded ← applyAll source.toList (removals ++ settled.filterMap Prod.fst)
    let diagnostics := inOrder (fun a b => a.anchor.start ≤ b.anchor.start)
      (settled.flatMap Prod.snd)
    return .ok ⟨String.ofList expanded, diagnostics⟩

def applyFixIts (source : String) (diagnostics : List Diagnostic) : Option String := do
  let edits := diagnostics.filterMap fun diagnostic => diagnostic.fixIt?.map (·.edit)
  return String.ofList (← applyAll source.toList edits)

/-! ### Agreement of the answers -/

theorem mapM_eq_map {α β : Type} {f : α → Option β} {g : α → β} {list : List α}
    (h : ∀ a ∈ list, f a = some (g a)) : list.mapM f = some (list.map g) := by
  induction list with
  | nil => rfl
  | cons a rest ih =>
    rw [List.forall_mem_cons] at h
    rw [List.mapM_cons, h.1, ih h.2]
    rfl

theorem stored?_eq (member : Member) : stored? member = some member.stored? := by
  unfold stored? Member.stored? Member.storedBinding?
  cases member.isStatic with
  | true => rfl
  | false =>
    rcases member.bindings with _ | ⟨binding, _ | ⟨second, rest⟩⟩
    · rfl
    · by_cases hcomputed : binding.accessors = .computed
      · simp [hcomputed]
      · simp [hcomputed]
    · rfl

theorem stored_eq (declaration : Declaration) : stored declaration = some declaration.stored := by
  rw [stored, mapM_eq_map fun member _ => stored?_eq member]
  simp only [Option.pure_def, Option.bind_eq_bind, Option.bind_some, List.filterMap_map]
  rfl

theorem answer_eq (declaration : Declaration) (attachment : Attachment) :
    answer declaration attachment = some (declaration.answer attachment) := by
  unfold answer Declaration.answer
  cases attachment.request with
  | publicInit =>
    unfold memberwiseInit Declaration.memberwiseInit Declaration.eligible
    rw [stored_eq]
    cases declaration.kind.takesInitializer <;> rfl
  | codingKeys naming =>
    unfold codingKeys Declaration.codingKeys
    rw [stored_eq]
    rfl
  | codingKey key => rfl

/-! ### Agreement of the edits -/

section Edits

variable {source : List Char} {span : Span} {declaration : Declaration}

theorem removal_eq (h : span.Lies source) :
    removal source span = some (Memberwise.removal source span) := by
  obtain ⟨before, rest, rfl, hwidth⟩ := Text.exists_append_of_isBoundary h.boundary.2
  have hsplit := congrArg Text.width (Text.leadingBlanks_append_dropWhile rest)
  rw [Text.width_append] at hsplit
  have hblanks : Text.width rest - Text.width (rest.dropWhile Text.isBlank) =
      Text.width (Text.leadingBlanks rest) := by omega
  unfold removal Memberwise.removal
  rw [sliceFrom_append hwidth.symm, Text.dropBytes_of_width hwidth]
  simp only [Option.bind_eq_bind, Option.bind_some, sub_of_le (hsplit ▸ Nat.le_add_left _ _),
    hblanks]
  rfl

theorem lineStart_eq {front line back : List Char} {offset : Nat}
    (hline : Text.lastLine (front ++ line) = line) (hoffset : offset = Text.width (front ++ line)) :
    lineStart (front ++ line ++ back) offset = some (Text.width front) := by
  have hwidth := Text.width_append front line
  have hle : Text.width line ≤ Text.width (front ++ line) := by omega
  unfold lineStart
  rw [sliceUpTo_append hoffset]
  simp only [Option.bind_eq_bind, Option.bind_some, hline, sub_of_le hle]
  exact congrArg some (by omega)

theorem lineMargin_eq (line : List Char) :
    lineMargin line = some (Memberwise.lineMargin line) := by
  have hsplit : Memberwise.lineMargin line ++ line.dropWhile (fun c => c == ' ' || c == '\t') =
      line := List.takeWhile_append_dropWhile
  have hwidth := congrArg Text.width hsplit
  rw [Text.width_append] at hwidth
  have hslice := sliceUpTo_append (b := line.dropWhile fun c => c == ' ' || c == '\t')
    (rfl : Text.width (Memberwise.lineMargin line) = _)
  rw [hsplit] at hslice
  unfold lineMargin
  rw [sub_of_le (hwidth ▸ Nat.le_add_left _ _), Option.bind_eq_bind, Option.bind_some, ← hslice]
  exact congrArg (sliceUpTo line) (by omega)

theorem marginAt_eq {offset : Nat} (h : Text.isBoundary offset source = true) :
    marginAt source offset = some (Memberwise.marginAt source offset) := by
  obtain ⟨before, back, rfl, hwidth⟩ := Text.exists_append_of_isBoundary h
  obtain ⟨front, hfront⟩ := Text.exists_append_lastLine before
  generalize hline : Text.lastLine before = line at hfront
  subst hfront
  have hslice : sliceFrom (front ++ line ++ back) (Text.width front) = some (line ++ back) := by
    rw [List.append_assoc]
    exact sliceFrom_append rfl
  simp only [marginAt, lineStart_eq hline hwidth.symm, hslice, Option.bind_eq_bind,
    Option.bind_some, lineMargin_eq, Memberwise.marginAt, Text.takeBytes_of_width hwidth,
    Text.dropBytes_of_width hwidth, hline]

theorem insertion_eq {layout : Layout} (hfits : layout.fits = true) (generated : List Generated)
    (h : declaration.Located source) :
    insertion layout source declaration generated =
      some (Memberwise.insertion layout source declaration generated) := by
  obtain ⟨before, after, hsource, hstop, -, -⟩ := h.inside
  obtain ⟨front, hfront⟩ := Text.exists_append_lastLine before
  generalize hline : Text.lastLine before = line at hfront
  have hclose : declaration.body.stop - 1 = Text.width before := by omega
  have hstart : lineStart source (Text.width before) = some (Text.width front) := by
    rw [hsource, hfront]
    exact lineStart_eq (hfront ▸ hline) rfl
  have hslice : slice source (Text.width front) (Text.width before) = some line := by
    rw [hsource, hfront]
    exact slice_append rfl rfl
  have hbefore : sliceUpTo source (Text.width before) = some before := by
    rw [hsource]
    exact sliceUpTo_append rfl
  have hwidth : Text.width before - Text.width line = Text.width front := by
    rw [hfront, Text.width_append, Nat.add_sub_cancel]
  have htake : Text.takeBytes (Text.width before) source = before := by
    rw [hsource, Text.takeBytes_width_append]
  have hlayout : indentable layout = some layout := if_pos hfits
  unfold insertion Memberwise.insertion
  simp only [hlayout, sub_of_le (hstop ▸ Nat.le_add_left 1 _), hclose, hstart, hslice,
    hbefore, htake, hline, hwidth, marginAt_eq h.lies.boundary.1, Option.bind_eq_bind,
    Option.pure_def, Option.bind_some]
  split <;> rfl

/-- A declaration is indented only if something is generated for it. -/
theorem settled_eq_match (layout : Layout) (source : List Char) (declaration : Declaration) :
    settled layout source declaration =
      match declaration.generated with
      | [] => some (none, declaration.rejections)
      | generated => (insertion layout source declaration generated).map fun edit =>
        (some edit, declaration.rejections) := by
  unfold settled
  rw [mapM_eq_map fun attachment _ => answer_eq declaration attachment]
  simp only [Option.bind_eq_bind, Option.bind_some, List.filterMap_map, List.flatMap_map]
  change (match declaration.generated with
    | [] => some (none, declaration.rejections)
    | generated => _) = _
  cases declaration.generated with
  | nil => rfl
  | cons first rest =>
    simp only [Option.map_eq_bind]
    rfl

theorem settled_eq {layout : Layout} (hfits : layout.fits = true ∨ declaration.generated = [])
    (h : declaration.Located source) :
    settled layout source declaration =
      some (declaration.insertion? layout source, declaration.rejections) := by
  rw [settled_eq_match]
  unfold Declaration.insertion?
  cases hgenerated : declaration.generated with
  | nil => rfl
  | cons first rest =>
    simp only [insertion_eq (hfits.resolve_right (by simp [hgenerated])) _ h]
    rfl

/-- In an outline that was read, the declarations are located and the requests can be removed. -/
theorem answerable_of_ofSource {outline : Outline} (h : Outline.ofSource source = .ok outline) :
    (∀ declaration ∈ outline.allDeclarations, declaration.Located source) ∧
      outline.requests.mapM (removal source) =
        some (outline.requests.map (Memberwise.removal source)) := by
  obtain ⟨tokens, taken, items, after, -, hread, -, hdeclarations⟩ := Outline.ofSource_read h
  constructor
  · rw [Outline.allDeclarations, hdeclarations, ← Declaration.nestedIn_eq]
    exact hread.located.2.2.2
  · exact mapM_eq_map fun span hspan => removal_eq (hread.noted_inOrder.2 span hspan).lies

end Edits

/-! ### Agreement of the texts -/

/-- Replacing a range in front of which nothing has changed. -/
theorem replaceRange_eq {text a gone b : List Char} {edit : Edit} (htext : text = a ++ gone ++ b)
    (hstart : edit.span.start = Text.width a) (hstop : edit.span.stop = Text.width (a ++ gone)) :
    replaceRange text edit = some (a ++ edit.replacement.toList ++ b) ∧
      edit.replaceIn text = a ++ edit.replacement.toList ++ b := by
  have hbefore : sliceUpTo text edit.span.start = some a := by
    rw [htext, List.append_assoc]
    exact sliceUpTo_append hstart
  have htake : Text.takeBytes edit.span.start text = a := by
    rw [htext, List.append_assoc]
    exact Text.takeBytes_of_width hstart.symm
  subst htext
  constructor
  · simp only [replaceRange, slice_append hstart hstop, hbefore, sliceFrom_append hstop,
      Option.bind_eq_bind, Option.bind_some]
    rfl
  · rw [Edit.replaceIn, htake, Text.dropBytes_of_width hstop.symm]

/-- Edits are applied to a text that is still that of the source up to the limit, and each
    moves the limit to where it starts itself. -/
theorem applyBelow_eq {source front back : List Char} (tail : List Char) (edits : List Edit)
    (hsource : source = front ++ back) :
    applyBelow source (Text.width front) (front ++ tail) edits =
      some ((Edit.acceptedBelow source (Text.width front) edits).foldl
        (fun text edit => edit.replaceIn text) (front ++ tail)) := by
  induction edits generalizing front back tail with
  | nil => rfl
  | cons edit rest ih =>
    rw [applyBelow, Edit.acceptedBelow]
    split
    · next hfits =>
      obtain ⟨hle, hlimit, hstart, hstop⟩ := Edit.fits_iff.1 hfits
      obtain ⟨a, b, hab, ha⟩ := Text.exists_append_of_isBoundary hstart
      obtain ⟨c, d, hcd, hc⟩ := Text.exists_append_of_isBoundary hstop
      obtain ⟨gone, rfl, rfl⟩ := Text.exists_append_of_width_le (hab.symm.trans hcd) (by omega)
      obtain ⟨kept, rfl, rfl⟩ := Text.exists_append_of_width_le (hcd.symm.trans hsource) (by omega)
      obtain ⟨hrange, hreplace⟩ :=
        replaceRange_eq (List.append_assoc (a ++ gone) kept tail) ha.symm hc.symm
      rw [hrange, List.foldl_cons, hreplace, ← ha, List.append_assoc a]
      exact ih _ hab
    · exact ih tail hsource

theorem applyAll_eq (source : List Char) (edits : List Edit) :
    applyAll source edits = some (Edit.applyAll source edits) := by
  have happly := applyBelow_eq [] (Edit.withoutRepeats (inOrder Edit.before edits))
    (List.append_nil source).symm
  rwa [List.append_nil] at happly

theorem generated_eq_nil {source : String} {outline : Outline}
    (houtline : Outline.ofSource source.toList = .ok outline) (h : generates source = false) :
    ∀ declaration ∈ outline.allDeclarations, declaration.generated = [] := by
  unfold generates at h
  rw [houtline] at h
  simpa [Outline.generates] using h

/-- An expansion is defined if its indentation fits, or if there is nothing to indent. -/
theorem expand_eq {layout : Layout} {source : String}
    (hfits : layout.fits = true ∨ generates source = false)
    (hcountable : Countable source.toList) :
    expand layout source = some (Memberwise.expand layout source) := by
  unfold expand Memberwise.expand
  rw [outline_eq hcountable]
  cases houtline : Outline.ofSource source.toList with
  | error cause => rfl
  | ok outline =>
    obtain ⟨hlocated, hremovals⟩ := answerable_of_ofSource houtline
    have hsettled := mapM_eq_map fun declaration hdeclaration =>
      settled_eq (hfits.imp_right fun h => generated_eq_nil houtline h declaration hdeclaration)
        (hlocated declaration hdeclaration)
    simp only [Option.bind_eq_bind, Option.bind_some, hremovals, hsettled, applyAll_eq,
      List.filterMap_map, List.flatMap_map]
    rfl

theorem applyFixIts_eq (source : String) (diagnostics : List Diagnostic) :
    applyFixIts source diagnostics = some (Memberwise.applyFixIts source diagnostics) := by
  simp only [applyFixIts, applyAll_eq, Option.bind_eq_bind, Option.bind_some]
  rfl

end Memberwise.Checked
