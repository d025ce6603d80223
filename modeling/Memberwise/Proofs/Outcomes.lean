/-
  Memberwise/Proofs/Outcomes.lean
  ===============================
  **What a command leads to, whatever it finds around it.**

  A command fails for one of four reasons (`Fails`): its input holds no text, the text
  cannot be read, or its file cannot be opened or does not take the whole text.  A command
  that fails prints nothing.  It changes no file, except that a file which does not take
  the whole text is left with a first part of it (`CutShort`).  Any other command tells by
  its exit code whether a request was rejected (`Rejected`); it changes no file but the one
  it is given, and what that file has taken is what would have been printed, short of the
  last line feed.

  All this is said in one structure (`Proper`), of every command that does not break off.
  A command breaks off if an indentation is longer than a text, or if standard output or
  standard error does not take what is printed there (`BreaksOff`).
-/
import Memberwise.Command

namespace Memberwise

/-! ### What a command is about -/

def Surroundings.Holds (around : Surroundings) (input : Input) (source : String) : Prop :=
  match input with
  | .standard => around.standardInput = .ok source.toUTF8
  | .file path => around.contents path = .ok source.toUTF8

/-- The same surroundings, where all that is printed is taken. -/
def Surroundings.unbounded (around : Surroundings) : Surroundings :=
  { around with standardOutput := .endless, standardError := .endless }

namespace Action

def output? : Action → Option String
  | expand output? _ _ => output?
  | check _ => none
  | fix output? => output?

/-- Whether an action passes judgement on the requests of its source. -/
def judges : Action → Bool
  | expand .. | check _ => true
  | fix _ => false

/-- The same action, delivering to standard output. -/
def withoutOutput : Action → Action
  | expand _ layout format => expand none layout format
  | check format => check format
  | fix _ => fix none

end Action

/-- What a path gives once the outcome of a command has been carried out. -/
def Outcome.leaves (outcome : Outcome) (around : Surroundings) (path : String) :
    Except String ByteArray :=
  match outcome.written? with
  | some (written, bytes) =>
    if around.keeps written ∧ around.file path = around.file written then .ok bytes
    else around.contents path
  | none => around.contents path

namespace Command

def withoutOutput (command : Command) : Command :=
  { command with action := command.action.withoutOutput }

/-- What a command would print without a file of its own, short of the last line feed. -/
def Prints (around : Surroundings) (command : Command) (text : String) : Prop :=
  (command.withoutOutput.run around.unbounded).output = (text ++ "\n").toUTF8

/-- The file of a command is opened and does not take the whole text. -/
structure CutShort (around : Surroundings) (command : Command) (path : String) (sink : Sink)
    (text : String) : Prop where
  output : command.action.output? = some path
  opened : around.opened path = .ok sink
  prints : command.Prints around text
  full : (sink.failure? text.toUTF8).isSome

inductive Fails (around : Surroundings) (command : Command) : Prop where
  | unreadable (hinput : ∀ source, ¬ around.Holds command.input source)
  | unparsable {source : String} {error : ReadError} (hinput : around.Holds command.input source)
      (hsource : Outline.ofSource source.toList = .error error)
  | unopened {path cause : String} (houtput : command.action.output? = some path)
      (hpath : around.opened path = .error cause)
  | cut {path : String} {sink : Sink} {text : String}
      (hcut : command.CutShort around path sink text)

/-- A command that judges its source finds something to report. -/
structure Rejected (around : Surroundings) (command : Command) : Prop where
  judges : command.action.judges = true
  reports : ∃ source expansion, around.Holds command.input source ∧
    expand command.action.layout source = .ok expansion ∧ expansion.diagnostics ≠ []

inductive BreaksOff (around : Surroundings) (command : Command) : Prop where
  | indent {source : String} (hinput : around.Holds command.input source)
      (hfits : command.action.layout.fits = false) (hgenerates : generates source = true)
  | errors (hfull : (around.standardError.failure? (command.run around.unbounded).errors).isSome)
  | output (houtput : command.action.output? = none)
      (hfull : (around.standardOutput.failure? (command.run around.unbounded).output).isSome)

structure Proper (around : Surroundings) (command : Command) (outcome : Outcome) : Prop where
  two_iff : outcome.exitCode = 2 ↔ command.Fails around
  one_iff : outcome.exitCode = 1 ↔ ¬ command.Fails around ∧ command.Rejected around
  zero_iff : outcome.exitCode = 0 ↔ ¬ command.Fails around ∧ ¬ command.Rejected around
  silent : command.Fails around → outcome.output = .empty
  /-- A command that fails changes no file, unless its file is cut short. -/
  spared : command.Fails around → (∀ path sink text, ¬ command.CutShort around path sink text) →
    ∀ path, outcome.leaves around path = around.contents path
  cut : ∀ path sink text, command.CutShort around path sink text → around.keeps path = true →
    outcome.leaves around path = .ok (sink.taken text.toUTF8)
  /-- No file changes but that of the command; without one, as for a check, none does. -/
  confined : ∀ other,
    (∀ path, command.action.output? = some path → around.file other ≠ around.file path) →
    outcome.leaves around other = around.contents other
  /-- What the file of a command takes is what would have been printed. -/
  delivered : ¬ command.Fails around → ∀ path, command.action.output? = some path →
    outcome.output = .empty ∧ ∃ text, command.Prints around text ∧
      (around.keeps path = true → outcome.leaves around path = .ok text.toUTF8)

end Command

/-! ### Reading the input -/

theorem fromUTF8?_eq_some_iff {bytes : ByteArray} {text : String} :
    String.fromUTF8? bytes = some text ↔ bytes = text.toUTF8 := by
  unfold String.fromUTF8?
  split
  case isTrue hvalid =>
    constructor
    · intro h
      cases h
      rfl
    · rintro rfl
      rfl
  case isFalse hvalid =>
    constructor
    · intro h
      cases h
    · rintro rfl
      exact absurd text.isValidUTF8 hvalid

theorem Surroundings.read_eq_ok_iff {around : Surroundings} {input : Input} {source : String} :
    around.read input = .ok source ↔ around.Holds input source := by
  cases input with
  | standard =>
    cases hbytes : around.standardInput with
    | error cause => simp [read, Holds, hbytes, bind, Except.bind]
    | ok bytes =>
      rw [Holds, hbytes, Except.ok.injEq, ← fromUTF8?_eq_some_iff]
      cases htext : String.fromUTF8? bytes <;> simp [read, hbytes, htext, bind, Except.bind]
  | file path =>
    cases hcontents : around.contents path with
    | error cause => simp [read, Holds, hcontents, bind, Except.bind]
    | ok bytes =>
      rw [Holds, hcontents, Except.ok.injEq, ← fromUTF8?_eq_some_iff]
      cases hbytes : String.fromUTF8? bytes <;>
        simp [read, hcontents, hbytes, bind, Except.bind]

/-- An input holds no more than one text. -/
theorem Surroundings.Holds.unique {around : Surroundings} {input : Input} {source other : String}
    (h : around.Holds input source) (h' : around.Holds input other) : source = other := by
  rw [← read_eq_ok_iff] at h h'
  exact Except.ok.inj (h.symm.trans h')

/-! ### Printed texts -/

theorem toUTF8_line_ne_empty (text : String) : (text ++ "\n").toUTF8 ≠ .empty := by
  intro h
  have hsize := congrArg ByteArray.size h
  rw [String.toUTF8_eq_toByteArray, String.toByteArray_append, ByteArray.size_append] at hsize
  exact absurd hsize (by simp)

theorem toUTF8_line_inj {text other : String} (h : (text ++ "\n").toUTF8 = (other ++ "\n").toUTF8) :
    text = other := by
  rw [String.toUTF8_eq_toByteArray, String.toUTF8_eq_toByteArray, String.toByteArray_inj] at h
  have hlists := congrArg String.toList h
  rw [String.toList_append, String.toList_append] at hlists
  exact String.toList_injective (List.append_cancel_right hlists)

/-- Reports take no more room than they do with more lines behind them. -/
theorem size_linesText_le (reports more : List String) :
    (linesText reports).toUTF8.size ≤ (linesText (reports ++ more)).toUTF8.size := by
  have hjoin : linesText (reports ++ more) = linesText reports ++ linesText more := by
    rw [linesText, List.map_append, String.join_append]
    rfl
  rw [hjoin, String.toUTF8_eq_toByteArray, String.toUTF8_eq_toByteArray,
    String.toByteArray_append, ByteArray.size_append]
  exact Nat.le_add_right _ _

/-- A place that takes some bytes takes fewer as well. -/
theorem Sink.failure?_of_size_le {sink : Sink} {bytes more : ByteArray}
    (h : sink.failure? more = none) (hle : bytes.size ≤ more.size) :
    sink.failure? bytes = none := by
  cases sink with
  | endless => rfl
  | bounded room cause =>
    rw [failure?] at h ⊢
    split at h
    · next hroom => exact if_pos (Nat.le_trans hle hroom)
    · cases h

/-! ### What is delivered -/

/-- Every diagnostic is an error. -/
theorem Expansion.hasErrors_iff {expansion : Expansion} :
    expansion.hasErrors = true ↔ expansion.diagnostics ≠ [] := by
  have herror : ∀ diagnostic : Diagnostic, diagnostic.isError = true := by
    intro diagnostic
    rw [Diagnostic.isError, beq_iff_eq]
  rw [hasErrors]
  cases expansion.diagnostics with
  | nil => simp
  | cons first rest => simp [herror]

@[simp] theorem Outcome.exitCode_failure (reports causes : List String)
    (written? : Option (String × ByteArray)) : (failure reports causes written?).exitCode = 2 := rfl

namespace Delivery

variable {around : Surroundings} {delivery : Delivery} {text path : String}

theorem exitCode_eq_one_iff : delivery.exitCode = 1 ↔ delivery.rejected = true := by
  rw [exitCode]
  cases delivery.rejected <;> decide

theorem exitCode_eq_zero_iff : delivery.exitCode = 0 ↔ ¬ delivery.rejected = true := by
  rw [exitCode]
  cases delivery.rejected <;> decide

theorem exitCode_ne_two : delivery.exitCode ≠ 2 := by
  rw [exitCode]
  cases delivery.rejected <;> decide

theorem outcome_of_output
    (herrors : around.standardError.failure? (linesText delivery.reports).toUTF8 = none)
    (htext : delivery.text? = some text) (houtput : delivery.output? = none) :
    delivery.outcome around =
      .printing around delivery.exitCode (linesText delivery.reports).toUTF8 text := by
  rw [outcome, herrors, htext, houtput]

theorem outcome_of_file
    (herrors : around.standardError.failure? (linesText delivery.reports).toUTF8 = none)
    (htext : delivery.text? = some text) (houtput : delivery.output? = some path) :
    delivery.outcome around =
      .writing around delivery.exitCode delivery.reports path text := by
  rw [outcome, herrors, htext, houtput]

theorem outcome_of_none
    (herrors : around.standardError.failure? (linesText delivery.reports).toUTF8 = none)
    (htext : delivery.text? = none) :
    delivery.outcome around =
      ⟨delivery.exitCode, .empty, (linesText delivery.reports).toUTF8, none⟩ := by
  rw [outcome, herrors, htext]

/-- What a delivery says on standard error starts with its reports. -/
theorem size_reports_le (around : Surroundings) (delivery : Delivery) :
    (linesText delivery.reports).toUTF8.size ≤
      (delivery.outcome around.unbounded).errors.size := by
  have herrors : around.unbounded.standardError.failure?
      (linesText delivery.reports).toUTF8 = none := rfl
  cases htext : delivery.text? with
  | none =>
    have hrun := outcome_of_none herrors htext
    exact Nat.le_of_eq (congrArg (·.errors.size) hrun).symm
  | some text =>
    cases houtput : delivery.output? with
    | none =>
      have hrun := outcome_of_output herrors htext houtput
      exact Nat.le_of_eq (congrArg (·.errors.size) hrun).symm
    | some path =>
      rw [outcome_of_file herrors htext houtput, Outcome.writing]
      split
      · exact size_linesText_le _ _
      · split
        · exact size_linesText_le _ _
        · exact Nat.le_refl _

end Delivery

namespace Command

variable {around : Surroundings} {command : Command} {source : String}

theorem deliver_of_error {error : ReadError} (h : Outline.ofSource source.toList = .error error) :
    command.deliver source = .error error := by
  have hexpand : expand command.action.layout source = .error error := by
    rw [expand, h]
    rfl
  simp only [deliver, hexpand, bind, Except.bind]

/-- What a command delivers of a source that can be read: it goes where the action
    says, and without a file the same text goes to standard output. -/
structure Delivers (command : Command) (source : String) (expansion : Expansion)
    (delivery : Delivery) : Prop where
  deliver_eq : command.deliver source = .ok delivery
  output?_eq : delivery.output? = command.action.output?
  rejected_iff : delivery.rejected = true ↔
    command.action.judges = true ∧ expansion.diagnostics ≠ []
  text_of_output : ∀ path, command.action.output? = some path →
    ∃ text, delivery.text? = some text
  withoutOutput_eq : command.withoutOutput.deliver source = .ok { delivery with output? := none }

theorem layout_withoutOutput (action : Action) : action.withoutOutput.layout = action.layout := by
  cases action <;> rfl

theorem exists_delivers {expansion : Expansion}
    (h : expand command.action.layout source = .ok expansion) :
    ∃ delivery, command.Delivers source expansion delivery := by
  have h' : expand command.withoutOutput.action.layout source = .ok expansion := by
    rw [withoutOutput, layout_withoutOutput, h]
  obtain ⟨action, input⟩ := command
  -- in each case the delivery is the one that the action makes of the expansion
  rcases action with ⟨output?, layout, _ | _⟩ | ⟨_ | _⟩ | output?
  all_goals
    refine ⟨_, by simp only [deliver, h]; rfl, by rfl, ?rejected, ?text, ?without⟩
    case rejected => simp [Action.judges, Expansion.hasErrors_iff]
    case text => simp [Action.output?]
    case without =>
      simp only [deliver, h']
      rfl

/-! ### Outcomes of failures -/

theorem Fails.proper (h : command.Fails around) (reports causes : List String)
    {written? : Option (String × ByteArray)}
    (hspared : (∀ path sink text, ¬ command.CutShort around path sink text) →
      ∀ path, (Outcome.failure reports causes written?).leaves around path = around.contents path)
    (hcut : ∀ path sink text, command.CutShort around path sink text → around.keeps path = true →
      (Outcome.failure reports causes written?).leaves around path =
        .ok (sink.taken text.toUTF8))
    (hconfined : ∀ other,
      (∀ path, command.action.output? = some path → around.file other ≠ around.file path) →
      (Outcome.failure reports causes written?).leaves around other = around.contents other) :
    command.Proper around (.failure reports causes written?) where
  two_iff := iff_of_true rfl h
  one_iff := iff_of_false (by simp) fun hnot => hnot.1 h
  zero_iff := iff_of_false (by simp) fun hnot => hnot.1 h
  silent := fun _ => rfl
  spared := fun _ => hspared
  cut := hcut
  confined := hconfined
  delivered := fun hnot => absurd h hnot

/-- A failure that writes nothing is proper where no file is cut short. -/
theorem Fails.proper_of_none (h : command.Fails around) (reports causes : List String)
    (hnot : ∀ path sink text, ¬ command.CutShort around path sink text) :
    command.Proper around (.failure reports causes none) :=
  h.proper reports causes (fun _ _ => rfl)
    (fun path sink text hcut _ => absurd hcut (hnot path sink text)) fun _ _ => rfl

/-! ### Runs that deliver nothing -/

/-- A command finds no text, or one that cannot be read. -/
def Misses (around : Surroundings) (command : Command) : Prop :=
  (∀ source, ¬ around.Holds command.input source) ∨
  ∃ source error, around.Holds command.input source ∧
    Outline.ofSource source.toList = .error error

namespace Misses

theorem run_eq (h : command.Misses around) :
    ∃ causes, command.run around = .failure [] causes none := by
  rcases h with hnone | ⟨source, error, hholds, houtline⟩
  · cases hread : around.read command.input with
    | error cause =>
      rw [run, hread]
      exact ⟨_, rfl⟩
    | ok source => exact absurd (Surroundings.read_eq_ok_iff.1 hread) (hnone source)
  · have hgenerates : generates source = false := by
      rw [generates, houtline]
    rw [run, Surroundings.read_eq_ok_iff.2 hholds]
    simp only [hgenerates, Bool.and_false, Bool.false_eq_true, if_false,
      deliver_of_error houtline]
    exact ⟨_, rfl⟩

theorem fails (h : command.Misses around) : command.Fails around := by
  rcases h with hnone | ⟨source, error, hholds, houtline⟩
  · exact .unreadable hnone
  · exact .unparsable hholds houtline

theorem not_prints (h : command.Misses around) (text : String) : ¬ command.Prints around text := by
  have hbare : command.withoutOutput.Misses around.unbounded := h
  obtain ⟨causes, hrun⟩ := hbare.run_eq
  intro hprints
  rw [Prints, hrun] at hprints
  exact toUTF8_line_ne_empty text hprints.symm

theorem proper (h : command.Misses around) : command.Proper around (command.run around) := by
  obtain ⟨causes, hrun⟩ := h.run_eq
  rw [hrun]
  exact h.fails.proper_of_none _ _ fun _ _ text hcut => h.not_prints text hcut.prints

end Misses

/-! ### Runs that deliver something -/

/-- A command that misses nothing has something to deliver. -/
theorem exists_delivers_of_not_misses (h : ¬ command.Misses around) :
    ∃ source expansion delivery, around.Holds command.input source ∧
      expand command.action.layout source = .ok expansion ∧
      command.Delivers source expansion delivery := by
  obtain ⟨hreadable, hparsable⟩ := not_or.1 h
  obtain ⟨source, hholds⟩ : ∃ source, around.Holds command.input source := by
    simpa using hreadable
  cases houtline : Outline.ofSource source.toList with
  | error error => exact absurd ⟨source, error, hholds, houtline⟩ hparsable
  | ok outline =>
    have hexpand : ∃ expansion, expand command.action.layout source = .ok expansion := by
      rw [expand, houtline]
      exact ⟨_, rfl⟩
    obtain ⟨expansion, hexpand⟩ := hexpand
    obtain ⟨delivery, hdelivers⟩ := exists_delivers hexpand
    exact ⟨source, expansion, delivery, hholds, hexpand, hdelivers⟩

theorem run_of_deliver {delivery : Delivery} (hholds : around.Holds command.input source)
    (hfits : command.action.layout.fits = true ∨ generates source = false)
    (hdeliver : command.deliver source = .ok delivery) :
    command.run around = delivery.outcome around := by
  have hindent : (!command.action.layout.fits && generates source) = false := by
    rcases hfits with h | h <;> simp [h]
  rw [run, Surroundings.read_eq_ok_iff.2 hholds]
  simp only [hindent, Bool.false_eq_true, if_false, hdeliver]

/-- A run that comes to deliver something: the text of its input can be read, and what is
    generated for it can be indented. -/
structure Comes (around : Surroundings) (command : Command) (delivery : Delivery) : Prop where
  holds : ∃ source expansion, around.Holds command.input source ∧
    expand command.action.layout source = .ok expansion ∧
    command.Delivers source expansion delivery ∧
    (command.action.layout.fits = true ∨ generates source = false)

namespace Comes

variable {delivery : Delivery} {text path : String}

theorem run_eq (h : command.Comes around delivery) :
    command.run around = delivery.outcome around := by
  obtain ⟨source, expansion, hholds, -, hdelivers, hfits⟩ := h
  exact run_of_deliver hholds hfits hdelivers.deliver_eq

theorem unbounded (h : command.Comes around delivery) :
    command.Comes around.unbounded delivery := ⟨h.holds⟩

theorem output?_eq (h : command.Comes around delivery) :
    delivery.output? = command.action.output? := by
  obtain ⟨source, expansion, -, -, hdelivers, -⟩ := h
  exact hdelivers.output?_eq

theorem text_of_output (h : command.Comes around delivery)
    (houtput : command.action.output? = some path) : ∃ text, delivery.text? = some text := by
  obtain ⟨source, expansion, -, -, hdelivers, -⟩ := h
  exact hdelivers.text_of_output path houtput

theorem prints_iff (h : command.Comes around delivery) :
    command.Prints around text ↔ delivery.text? = some text := by
  obtain ⟨source, expansion, hholds, -, hdelivers, hfits⟩ := h
  have hbare : around.unbounded.Holds command.withoutOutput.input source := hholds
  rw [← layout_withoutOutput] at hfits
  rw [Prints, run_of_deliver hbare hfits hdelivers.withoutOutput_eq]
  cases htext : delivery.text? with
  | none =>
    rw [Delivery.outcome_of_none rfl rfl]
    exact iff_of_false (toUTF8_line_ne_empty text).symm nofun
  | some other =>
    rw [Delivery.outcome_of_output rfl rfl rfl]
    constructor
    · intro hsame
      exact congrArg some (toUTF8_line_inj hsame)
    · intro hsame
      cases hsame
      rfl

theorem rejected_iff (h : command.Comes around delivery) :
    delivery.rejected = true ↔ command.Rejected around := by
  obtain ⟨source, expansion, hholds, hexpand, hdelivers, -⟩ := h
  rw [hdelivers.rejected_iff]
  constructor
  · rintro ⟨hjudges, hreports⟩
    exact ⟨hjudges, source, expansion, hholds, hexpand, hreports⟩
  · rintro ⟨hjudges, source', expansion', hholds', hexpand', hreports⟩
    rw [hholds'.unique hholds, hexpand] at hexpand'
    cases hexpand'
    exact ⟨hjudges, hreports⟩

/-- A run that has something to deliver fails at its file only. -/
theorem exists_output_of_fails (h : command.Comes around delivery) (hfails : command.Fails around) :
    ∃ path, command.action.output? = some path ∧
      ((∃ cause, around.opened path = .error cause) ∨
        ∃ sink text, command.CutShort around path sink text) := by
  obtain ⟨source, expansion, hholds, hexpand, -, -⟩ := h
  cases hfails with
  | unreadable hinput => exact absurd hholds (hinput source)
  | unparsable hinput hsource =>
    rw [hinput.unique hholds] at hsource
    rw [expand, hsource] at hexpand
    cases hexpand
  | unopened houtput hpath => exact ⟨_, houtput, .inl ⟨_, hpath⟩⟩
  | cut hcut => exact ⟨_, hcut.output, .inr ⟨_, _, hcut⟩⟩

/-- The outcome of a run that does not fail is proper if it has the right exit code and
    touches no file but its own. -/
theorem proper_of_not_fails (h : command.Comes around delivery) (hnot : ¬ command.Fails around)
    {outcome : Outcome} (hcode : outcome.exitCode = delivery.exitCode)
    (hconfined : ∀ other,
      (∀ path, command.action.output? = some path → around.file other ≠ around.file path) →
      outcome.leaves around other = around.contents other)
    (hdelivered : ∀ path, command.action.output? = some path →
      outcome.output = .empty ∧ ∃ text, command.Prints around text ∧
        (around.keeps path = true → outcome.leaves around path = .ok text.toUTF8)) :
    command.Proper around outcome := by
  constructor
  case two_iff =>
    rw [hcode]
    exact iff_of_false Delivery.exitCode_ne_two hnot
  case one_iff =>
    rw [hcode, Delivery.exitCode_eq_one_iff, h.rejected_iff]
    simp [hnot]
  case zero_iff =>
    rw [hcode, Delivery.exitCode_eq_zero_iff, h.rejected_iff]
    simp [hnot]
  case silent => exact fun hfails => absurd hfails hnot
  case spared => exact fun hfails => absurd hfails hnot
  case cut => exact fun _ _ _ hcut _ => absurd (.cut hcut) hnot
  case confined => exact hconfined
  case delivered => exact fun _ => hdelivered

/-- Printing on a standard output that takes everything, or nothing at all. -/
theorem proper_of_output (h : command.Comes around delivery)
    (houtput : command.action.output? = none) {outcome : Outcome}
    (hcode : outcome.exitCode = delivery.exitCode) (hwritten : outcome.written? = none) :
    command.Proper around outcome := by
  have hnofile : ∀ path, command.action.output? ≠ some path := by simp [houtput]
  refine h.proper_of_not_fails ?_ hcode ?_ ?_
  · intro hfails
    obtain ⟨path, hpath, -⟩ := h.exists_output_of_fails hfails
    exact hnofile path hpath
  · intro other _
    rw [Outcome.leaves, hwritten]
  · exact fun path hpath => absurd hpath (hnofile path)

/-- Writing to a file that cannot be opened. -/
theorem proper_of_unopened {cause : String} (houtput : command.action.output? = some path)
    (hpath : around.opened path = .error cause) (reports causes : List String) :
    command.Proper around (.failure reports causes none) := by
  refine (Fails.unopened houtput hpath).proper_of_none _ _ ?_
  rintro other sink text ⟨houtput', hopened, -, -⟩
  rw [houtput] at houtput'
  cases houtput'
  rw [hpath] at hopened
  cases hopened

/-- What a file that can be opened is cut short of. -/
theorem cutShort_iff (h : command.Comes around delivery) {sink sink' : Sink}
    {other text' : String} (houtput : command.action.output? = some path)
    (hopened : around.opened path = .ok sink) (htext : delivery.text? = some text) :
    command.CutShort around other sink' text' ↔
      (other = path ∧ sink' = sink ∧ text' = text) ∧ (sink.failure? text.toUTF8).isSome := by
  constructor
  · rintro ⟨houtput', hopened', hprints', hfull⟩
    rw [houtput] at houtput'
    cases houtput'
    rw [hopened] at hopened'
    cases hopened'
    rw [h.prints_iff, htext] at hprints'
    cases hprints'
    exact ⟨⟨rfl, rfl, rfl⟩, hfull⟩
  · rintro ⟨⟨rfl, rfl, rfl⟩, hfull⟩
    exact ⟨houtput, hopened, h.prints_iff.2 htext, hfull⟩

/-- Writing to a file that does not take the whole text. -/
theorem proper_of_cut (h : command.Comes around delivery) {sink : Sink} {cause : String}
    (houtput : command.action.output? = some path) (hopened : around.opened path = .ok sink)
    (htext : delivery.text? = some text) (hfull : sink.failure? text.toUTF8 = some cause)
    (reports causes : List String) :
    command.Proper around (.failure reports causes (some (path, sink.taken text.toUTF8))) := by
  have hcut : command.CutShort around path sink text := by
    rw [h.cutShort_iff houtput hopened htext, hfull]
    exact ⟨⟨rfl, rfl, rfl⟩, rfl⟩
  refine (Fails.cut hcut).proper _ _ ?spared ?cut ?confined
  case spared => exact fun hnot => absurd hcut (hnot path sink text)
  case cut =>
    intro other sink' text' hcut' hkeeps
    obtain ⟨⟨rfl, rfl, rfl⟩, -⟩ := (h.cutShort_iff houtput hopened htext).1 hcut'
    exact if_pos ⟨hkeeps, rfl⟩
  case confined =>
    intro other hother
    exact if_neg fun hsame => hother path houtput hsame.2

/-- Writing to a file that takes the whole text. -/
theorem proper_of_written (h : command.Comes around delivery) {sink : Sink}
    (houtput : command.action.output? = some path) (hopened : around.opened path = .ok sink)
    (htext : delivery.text? = some text) (hroom : sink.failure? text.toUTF8 = none)
    (errors : ByteArray) :
    command.Proper around ⟨delivery.exitCode, .empty, errors, some (path, text.toUTF8)⟩ := by
  refine h.proper_of_not_fails ?_ rfl ?_ ?_
  · intro hfails
    obtain ⟨other, hother, ⟨cause, hcause⟩ | ⟨sink', text', hcut⟩⟩ :=
      h.exists_output_of_fails hfails
    · rw [houtput] at hother
      cases hother
      rw [hopened] at hcause
      cases hcause
    · obtain ⟨-, hfull⟩ := (h.cutShort_iff houtput hopened htext).1 hcut
      rw [hroom] at hfull
      cases hfull
  · intro other hother
    exact if_neg fun hsame => hother path houtput hsame.2
  · intro other hother
    rw [houtput] at hother
    cases hother
    exact ⟨rfl, text, h.prints_iff.2 htext, fun hkeeps => if_pos ⟨hkeeps, rfl⟩⟩

/-- Standard error takes the reports of a run that does not break off. -/
theorem errors_failure? (h : command.Comes around delivery) (hwhole : ¬ command.BreaksOff around) :
    around.standardError.failure? (linesText delivery.reports).toUTF8 = none := by
  refine Sink.failure?_of_size_le ?_ (delivery.size_reports_le around)
  rw [← h.unbounded.run_eq, ← Option.not_isSome_iff_eq_none]
  exact fun hfull => hwhole (.errors hfull)

/-- So does standard output take the text it prints. -/
theorem output_failure? (h : command.Comes around delivery) (hwhole : ¬ command.BreaksOff around)
    (houtput : command.action.output? = none) (htext : delivery.text? = some text) :
    around.standardOutput.failure? (text ++ "\n").toUTF8 = none := by
  have hrun : (command.run around.unbounded).output = (text ++ "\n").toUTF8 := by
    rw [h.unbounded.run_eq, Delivery.outcome_of_output rfl htext (h.output?_eq.trans houtput)]
    rfl
  rw [← hrun, ← Option.not_isSome_iff_eq_none]
  exact fun hfull => hwhole (.output houtput hfull)

theorem proper (h : command.Comes around delivery) (hwhole : ¬ command.BreaksOff around) :
    command.Proper around (command.run around) := by
  have herrors := h.errors_failure? hwhole
  rw [h.run_eq]
  cases houtput : command.action.output? with
  | none =>
    cases htext : delivery.text? with
    | none =>
      rw [Delivery.outcome_of_none herrors htext]
      exact h.proper_of_output houtput rfl rfl
    | some text =>
      rw [Delivery.outcome_of_output herrors htext (h.output?_eq.trans houtput),
        Outcome.printing, h.output_failure? hwhole houtput htext]
      exact h.proper_of_output houtput rfl rfl
  | some path =>
    obtain ⟨text, htext⟩ := h.text_of_output houtput
    rw [Delivery.outcome_of_file herrors htext (h.output?_eq.trans houtput), Outcome.writing]
    cases hopened : around.opened path with
    | error cause => exact proper_of_unopened houtput hopened _ _
    | ok sink =>
      cases hfull : sink.failure? text.toUTF8 with
      | some cause =>
        simp only [hfull]
        exact h.proper_of_cut houtput hopened htext hfull _ _
      | none =>
        simp only [hfull]
        exact h.proper_of_written houtput hopened htext hfull _

end Comes

/-! ### Every command -/

/-- **The outcome of a command that does not break off is proper, in all surroundings.** -/
theorem run_proper (hwhole : ¬ command.BreaksOff around) :
    command.Proper around (command.run around) := by
  by_cases hmisses : command.Misses around
  · exact hmisses.proper
  · obtain ⟨source, expansion, delivery, hholds, hexpand, hdelivers⟩ :=
      exists_delivers_of_not_misses hmisses
    have hfits : command.action.layout.fits = true ∨ generates source = false := by
      cases hfit : command.action.layout.fits with
      | true => exact .inl rfl
      | false =>
        refine .inr (Bool.eq_false_iff.2 fun hgenerates => ?_)
        exact hwhole (.indent hholds hfit hgenerates)
    have hcomes : command.Comes around delivery :=
      ⟨source, expansion, hholds, hexpand, hdelivers, hfits⟩
    exact hcomes.proper hwhole

def expanding (output? : Option String) : Command := ⟨.expand output? .standard .text, .standard⟩

end Command

/-- A source on standard input, where all paths lead to empty files. -/
def Surroundings.given (source : String) (sink : Sink) : Surroundings where
  standardInput := .ok source.toUTF8
  standardOutput := .endless
  standardError := .endless
  contents := fun _ => .ok .empty
  opened := fun _ => .ok sink
  file := id
  keeps := fun _ => true

/-- The same, where all paths lead to a device. -/
def Surroundings.device (source : String) : Surroundings :=
  { given source .endless with keeps := fun _ => false }

/-- The same, where standard output is full. -/
def Surroundings.full (source : String) : Surroundings :=
  { given source .endless with standardOutput := .bounded 0 "No space left on device" }

def sixBytes : Sink := .bounded 6 "No space left on device"

namespace Command

/-- A file with room for six bytes is left with six bytes of what it should hold. -/
theorem run_proper_six_bytes :
    ¬ (expanding (some "S.swift")).BreaksOff (.given "@PublicInit\nstruct S {}" sixBytes) ∧
    (expanding (some "S.swift")).Proper (.given "@PublicInit\nstruct S {}" sixBytes)
      ((expanding (some "S.swift")).run (.given "@PublicInit\nstruct S {}" sixBytes)) ∧
    ((expanding (some "S.swift")).run (.given "@PublicInit\nstruct S {}" sixBytes)).written? =
      some ("S.swift", "struct".toUTF8) := by
  have hwhole :
      ¬ (expanding (some "S.swift")).BreaksOff (.given "@PublicInit\nstruct S {}" sixBytes) := by
    rintro (⟨-, hfits, -⟩ | hfull | ⟨houtput, -⟩)
    · exact absurd hfits (by decide)
    · exact absurd hfull (by decide)
    · exact absurd houtput (by decide)
  exact ⟨hwhole, run_proper hwhole, by decide +kernel⟩

/-- A command that fails can change a file, and one that succeeds can leave nothing on a
    device.  If standard output is full, or an indentation longer than a text, the exit
    code is none of the three. -/
theorem run_in_tight_surroundings :
    (((expanding (some "S.swift")).run (.given "struct S {}" sixBytes)).exitCode = 2 ∧
      ((expanding (some "S.swift")).run (.given "struct S {}" sixBytes)).leaves
        (.given "struct S {}" sixBytes) "S.swift" = .ok "struct".toUTF8) ∧
    (((expanding (some "null")).run (.device "struct S {}")).exitCode = 0 ∧
      ((expanding (some "null")).run (.device "struct S {}")).leaves
        (.device "struct S {}") "null" = .ok .empty ∧
      ((expanding none).run (.device "struct S {}")).output = "struct S {}\n".toUTF8) ∧
    ((expanding none).run (.full "struct S {}")).exitCode = 101 ∧
    (Command.run (.given "@PublicInit\nstruct S {}" .endless)
      ⟨.expand none ⟨0xFFFFFFFFFFFFFFFF⟩ .text, .standard⟩).exitCode = 101 := by
  have hsix : ((expanding (some "S.swift")).run (.given "struct S {}" sixBytes)).written? =
      some ("S.swift", "struct".toUTF8) := by
    decide +kernel
  have hdevice : ((expanding (some "null")).run (.device "struct S {}")).written? =
      some ("null", "struct S {}".toUTF8) := by
    decide +kernel
  refine ⟨⟨by decide +kernel, ?_⟩, ⟨by decide +kernel, ?_, by decide +kernel⟩,
    by decide +kernel, by decide +kernel⟩
  · rw [Outcome.leaves, hsix]
    exact if_pos ⟨rfl, rfl⟩
  · rw [Outcome.leaves, hdevice]
    exact if_neg (by decide)

end Command

end Memberwise
