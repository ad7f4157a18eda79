import Roundoff.Proofs.Record.Conformance
import Roundoff.Proofs.Session.CorrectDigits
import Roundoff.Session.Loop

/-! # Commands never affect evaluation

A line is blank, a command, or an expression to be evaluated (`Entry`).  Taking an expression counts
it if it fails and keeps the options; taking anything else keeps the count.  No report fails as long
as the number of digits is in range, and no command takes it out of range.  So what a session comes
to depends on the expressions before the first command that leaves it, and on nothing else: neither
on the options nor on the lines in between (`evaluates_runLines`).
-/
namespace Roundoff

/-! ## Reports -/

/-- Every outcome of a line has a record. -/
theorem Line.exists_record {s : Settings} {line : String} {outcome : Outcome}
    (h : evaluate s line = .ok outcome) : ∃ record, Record.ofOutcome outcome = .ok record := by
  cases outcome with
  | success result m => exact ⟨_, (Record.agrees_success result m).conforms⟩
  | failure f =>
    obtain ⟨x, rfl, hstop⟩ := evaluate_eq_failure h
    have hplaced : x.Placed s line := by
      rcases hstop with htree | ⟨root, htree, hvalue⟩
      · exact placed_of_tree htree
      · exact placed_of_evaluate htree hvalue
    have hagrees := Record.agrees_failure (f := x.toFailure) x.message_ne (position_nonneg hplaced)
    exact ⟨_, hagrees.conforms⟩

namespace Session

/-- The number of digits can be shown. -/
def Options.InRange (o : Options) : Prop :=
  1 ≤ o.digits ∧ o.digits ≤ 1100

theorem digitsInRange_iff {n : ℤ} : digitsInRange n = true ↔ 1 ≤ n ∧ n ≤ 1100 := by
  rw [digitsInRange, Bool.and_eq_true, decide_eq_true_eq, decide_eq_true_eq]
  rfl

theorem exists_shadowRuns (x : Binary64) (truth : Expansion) (n : ℕ) :
    ∃ runs, shadowRuns x truth n = .ok runs := by
  rw [shadowRuns]
  cases hfinite : x.isFinite with
  | false =>
    have hnone : shadowExpansion x n = .ok none := by
      rw [shadowExpansion, hfinite]
      rfl
    rw [hnone]
    exact ⟨_, rfl⟩
  | true =>
    obtain ⟨y, c, m, -, hexpansion⟩ := shadowExpansion_eq hfinite n
    rw [hexpansion]
    exact ⟨_, rfl⟩

theorem exists_success (result : Evaluation) (m : Metrics) (n : ℕ) (trace : Bool) :
    ∃ printed, success result m n trace = .ok printed := by
  have hbudget : ¬ ((n : ℤ) < 0) := Int.not_lt.2 (Int.natCast_nonneg n)
  obtain ⟨runs, hruns⟩ := exists_shadowRuns result.shadow.value (Expansion.ofRat result.exact n) n
  rw [success, Expansion.ofRatWithin, if_neg hbudget, Int.toNat_natCast, ok_bind, hruns]
  exact ⟨_, rfl⟩

/-- **Every outcome of a line can be reported**, if the number of digits can be shown. -/
theorem exists_report {s : Settings} {line : String} {outcome : Outcome} {o : Options}
    (h : Line.evaluate s line = .ok outcome) (ho : o.InRange) :
    ∃ printed, report o line outcome = .ok printed := by
  unfold report
  split
  · obtain ⟨record, hrecord⟩ := Line.exists_record h
    rw [hrecord]
    exact ⟨_, rfl⟩
  · cases outcome with
    | success result m =>
      obtain ⟨n, hn⟩ := Int.eq_ofNat_of_zero_le (zero_le_one.trans ho.1)
      obtain ⟨printed, hprinted⟩ := exists_success result m n o.trace
      dsimp only
      rw [hn, hprinted]
      exact ⟨_, rfl⟩
    | failure f => exact ⟨_, rfl⟩

/-! ## Lines -/

/-- What a line is to a session. -/
inductive Entry where
  | blank
  | command (c : Command)
  | expression
  deriving DecidableEq

namespace Entry

/-- What a line is, by its text without the blanks around it. -/
def ofLine (line : String) : Entry :=
  match Text.trim line.toList with
  | [] => .blank
  | ':' :: text => .command (Command.parse (String.ofList text))
  | _ => .expression

/-- The line is neither evaluated nor the end of the session. -/
def isIdle : Entry → Bool
  | blank => true
  | command c => decide (c ≠ .quit)
  | expression => false

theorem eq_cases (e : Entry) : e.isIdle = true ∨ e = command .quit ∨ e = expression := by
  cases e with
  | blank => exact Or.inl rfl
  | command c =>
    by_cases hc : c = .quit
    · exact Or.inr (Or.inl (congrArg command hc))
    · exact Or.inl (decide_eq_true hc)
  | expression => exact Or.inr (Or.inr rfl)

end Entry

/-- **The lines that a session evaluates**: the expressions before the first command that leaves
it. -/
def expressions : List String → List String
  | [] => []
  | line :: lines =>
    match Entry.ofLine line with
    | .command .quit => []
    | .expression => line :: expressions lines
    | _ => expressions lines

theorem expressions_idle {line : String} (h : (Entry.ofLine line).isIdle = true)
    (lines : List String) : expressions (line :: lines) = expressions lines := by
  rw [expressions]
  split
  · rename_i hquit
    rw [hquit] at h
    cases h
  · rename_i hexpression
    rw [hexpression] at h
    cases h
  · rfl

theorem expressions_quit {line : String} (h : Entry.ofLine line = .command .quit)
    (lines : List String) : expressions (line :: lines) = [] := by
  rw [expressions, h]

theorem expressions_cons {line : String} (h : Entry.ofLine line = .expression)
    (lines : List String) : expressions (line :: lines) = line :: expressions lines := by
  rw [expressions, h]

/-- The lines that do something: expressions and the commands that leave the session. -/
def busy (lines : List String) : List String :=
  lines.filter fun line => !(Entry.ofLine line).isIdle

/-- Idle lines do not matter. -/
theorem expressions_busy (lines : List String) : expressions (busy lines) = expressions lines := by
  induction lines with
  | nil => rfl
  | cons line lines ih =>
    cases hidle : (Entry.ofLine line).isIdle with
    | true =>
      have hbusy : busy (line :: lines) = busy lines := by simp [busy, hidle]
      rw [hbusy, ih, expressions_idle hidle]
    | false =>
      have hbusy : busy (line :: lines) = line :: busy lines := by simp [busy, hidle]
      rw [hbusy, expressions, expressions, ih]

/-! ## Commands -/

/-- The command is not known, or its argument is not accepted. -/
inductive Command.Rejected : Command → Prop
  | unknown {name : String} : Rejected (.unknown name)
  | switch {switch : Switch} {argument : String} : argument ≠ "on" → argument ≠ "off" →
      Rejected (.set switch argument)
  | unreadable {argument : String} : Numeral.readPiece? argument.toList = none →
      Rejected (.digits argument)
  | outOfRange {argument : String} {n : ℤ} : Numeral.readPiece? argument.toList = some n →
      digitsInRange n = false → Rejected (.digits argument)

variable {s : Settings} {st : State} {line : String} {lines : List String}

theorem handle_blank (h : Entry.ofLine line = .blank) : st.handle s line = ⟨st, [], .ok true⟩ := by
  unfold Entry.ofLine at h
  split at h
  · rename_i hnil
    unfold State.handle
    rw [hnil]
  · cases h
  · cases h

theorem handle_command {c : Command} (h : Entry.ofLine line = .command c) :
    st.handle s line = st.command s c := by
  unfold Entry.ofLine at h
  split at h
  · cases h
  · rename_i text hcolon
    cases h
    unfold State.handle
    rw [hcolon]
    rfl
  · cases h

theorem handle_expression (h : Entry.ofLine line = .expression) :
    st.handle s line = st.evaluate s line := by
  unfold Entry.ofLine at h
  split at h
  · cases h
  · cases h
  · rename_i hnil hcolon
    unfold State.handle
    split
    · exact absurd ‹_› hnil
    · exact absurd ‹_› (hcolon _)
    · rfl

/-- **A rejected command changes nothing** and says so. -/
theorem command_rejected {c : Command} (h : c.Rejected) :
    ∃ complaint, st.command s c = ⟨st, [.message complaint (some .boldRed)], .ok true⟩ := by
  cases h with
  | unknown => exact ⟨_, rfl⟩
  | switch hon hoff =>
    rw [State.command, Options.withSwitch, if_neg hon, if_neg hoff]
    exact ⟨_, rfl⟩
  | unreadable hnone =>
    rw [State.command, Options.withDigits, hnone]
    exact ⟨_, rfl⟩
  | outOfRange hsome hrange =>
    rw [State.command, Options.withDigits, hsome]
    dsimp only
    rw [hrange]
    exact ⟨_, rfl⟩

/-- A switch does not touch the number of digits. -/
theorem digits_withSwitch {o o' : Options} {switch : Switch} {argument : String}
    (h : o.withSwitch switch argument = .ok o') : o'.digits = o.digits := by
  rw [Options.withSwitch] at h
  by_cases hon : argument = "on"
  · rw [if_pos hon] at h
    cases switch <;> cases h <;> rfl
  · rw [if_neg hon] at h
    by_cases hoff : argument = "off"
    · rw [if_pos hoff] at h
      cases switch <;> cases h <;> rfl
    · rw [if_neg hoff] at h
      cases h

/-- The options that a command leads to are in range. -/
theorem inRange_reoption {r : Except String Options} (hst : st.options.InRange)
    (hr : ∀ o, r = .ok o → o.InRange) :
    ∃ o printed, st.reoption r = ⟨{ st with options := o }, printed, .ok true⟩ ∧ o.InRange := by
  cases r with
  | ok o => exact ⟨o, [], rfl, hr o rfl⟩
  | error complaint => exact ⟨st.options, _, rfl, hst⟩

/-- What a command other than the one that leaves the session does: it prints something and changes
at most the options, which stay in range. -/
theorem command_idle {c : Command} (hst : st.options.InRange) (hc : c ≠ .quit) :
    ∃ o printed, st.command s c = ⟨{ st with options := o }, printed, .ok true⟩ ∧ o.InRange := by
  cases c with
  | quit => exact absurd rfl hc
  | help | constants | unknown _ => exact ⟨st.options, _, rfl, hst⟩
  | set switch argument =>
    refine inRange_reoption hst fun o ho => ?_
    rw [Options.InRange, digits_withSwitch ho]
    exact hst
  | digits argument =>
    refine inRange_reoption hst fun o ho => ?_
    unfold Options.withDigits at ho
    split at ho
    · cases ho
    · split at ho
      · cases ho
        exact digitsInRange_iff.1 ‹_›
      · cases ho

/-- What an idle line does: it changes at most the options, which stay in range. -/
theorem handle_idle (hst : st.options.InRange) (h : (Entry.ofLine line).isIdle = true) :
    ∃ o printed, st.handle s line = ⟨{ st with options := o }, printed, .ok true⟩ ∧ o.InRange := by
  cases hentry : Entry.ofLine line with
  | blank => exact ⟨st.options, [], handle_blank hentry, hst⟩
  | command c =>
    rw [hentry] at h
    rw [handle_command hentry]
    exact command_idle hst (of_decide_eq_true h)
  | expression =>
    rw [hentry] at h
    cases h

/-! ## Taking a line -/

/-- The state after an outcome: a failure is counted. -/
def State.count (st : State) (outcome : Outcome) : State :=
  { st with failures := st.failures + if outcome.isSuccess then 0 else 1 }

/-- **How a session takes a line.**  An idle line changes at most the options, which stay in range;
a command to leave changes nothing; and an expression has an outcome, which is counted and reported,
and the options stay what they are. -/
inductive Takes (s : Settings) (st : State) (line : String) : Reply → Prop
  | idle {o : Options} {printed : List Printed} : (Entry.ofLine line).isIdle = true → o.InRange →
      Takes s st line ⟨{ st with options := o }, printed, .ok true⟩
  | quit : Entry.ofLine line = .command .quit → Takes s st line ⟨st, [], .ok false⟩
  | expression {outcome : Outcome} {printed : List Printed} : Entry.ofLine line = .expression →
      Line.evaluate s line = .ok outcome → report st.options line outcome = .ok printed →
      Takes s st line ⟨st.count outcome, printed, .ok true⟩

theorem takes_handle (hst : st.options.InRange)
    (hline : Entry.ofLine line = .expression → ∃ outcome, Line.evaluate s line = .ok outcome) :
    Takes s st line (st.handle s line) := by
  rcases (Entry.ofLine line).eq_cases with hidle | hquit | hexpression
  · obtain ⟨o, printed, hhandle, ho⟩ := handle_idle (s := s) hst hidle
    rw [hhandle]
    exact .idle hidle ho
  · rw [handle_command hquit]
    exact .quit hquit
  · obtain ⟨outcome, houtcome⟩ := hline hexpression
    obtain ⟨printed, hprinted⟩ := exists_report houtcome hst
    have hcount : (if outcome.isSuccess then st else { st with failures := st.failures + 1 }) =
        st.count outcome := by
      rw [State.count]
      split <;> rfl
    have hoptions : (st.count outcome).options = st.options := rfl
    rw [handle_expression hexpression, State.evaluate, houtcome]
    dsimp only
    rw [hcount, hoptions, hprinted]
    exact .expression hexpression houtcome hprinted

/-! ## The options -/

/-- Evaluating a line keeps the options, however it ends. -/
theorem options_evaluate (s : Settings) (st : State) (line : String) :
    (st.evaluate s line).state.options = st.options := by
  rw [State.evaluate]
  cases Line.evaluate s line with
  | error d => rfl
  | ok outcome =>
    have hcount : (if outcome.isSuccess then st else
        { st with failures := st.failures + 1 }).options = st.options := by
      split <;> rfl
    dsimp only
    split
    · exact hcount
    · exact hcount

theorem inRange_handle (hst : st.options.InRange) : (st.handle s line).state.options.InRange := by
  rcases (Entry.ofLine line).eq_cases with hidle | hquit | hexpression
  · obtain ⟨o, printed, hhandle, ho⟩ := handle_idle (s := s) hst hidle
    rw [hhandle]
    exact ho
  · rw [handle_command hquit]
    exact hst
  · rw [handle_expression hexpression, options_evaluate]
    exact hst

/-- **The number of digits stays in range**, whatever lines are taken and however it ends. -/
theorem inRange_runLines (hst : st.options.InRange) :
    (st.runLines s lines).state.options.InRange := by
  induction lines generalizing st with
  | nil => exact hst
  | cons line lines ih =>
    have hreply : (st.handle s line).state.options.InRange := inRange_handle hst
    rw [State.runLines]
    dsimp only
    split
    · exact hreply
    · exact hreply
    · exact ih hreply

/-! ## Taking many lines -/

/-- The outcome that taking a line comes to, if it is evaluated. -/
def outcome? (s : Settings) (line : String) : Option Outcome :=
  if Entry.ofLine line = .expression then (Line.evaluate s line).toOption else none

/-- **The outcomes that a session comes to** while it takes lines, up to where it ends. -/
def State.outcomes (s : Settings) (st : State) : List String → List Outcome
  | [] => []
  | line :: lines =>
    let reply := st.handle s line
    (outcome? s line).toList ++
      match reply.result with
      | .ok true => reply.state.outcomes s lines
      | _ => []

/-- The line has a failure. -/
def fails (s : Settings) (line : String) : Bool :=
  match Line.evaluate s line with
  | .ok outcome => !outcome.isSuccess
  | .error _ => false

/-- What a session comes to is what its expressions come to. -/
structure Evaluates (s : Settings) (st : State) (lines : List String) : Prop where
  error : (st.runLines s lines).error = none
  failures : (st.runLines s lines).state.failures =
    st.failures + ((expressions lines).filter (fails s)).length
  outcomes : (st.outcomes s lines).map Except.ok = (expressions lines).map (Line.evaluate s)

theorem evaluates_idle {o : Options} {printed : List Printed}
    (hhandle : st.handle s line = ⟨{ st with options := o }, printed, .ok true⟩)
    (hidle : (Entry.ofLine line).isIdle = true)
    (h : Evaluates s { st with options := o } lines) : Evaluates s st (line :: lines) := by
  have hnone : outcome? s line = none := by
    rw [outcome?, if_neg]
    intro hexpression
    rw [hexpression] at hidle
    cases hidle
  have hexpressions := expressions_idle hidle lines
  refine ⟨?_, ?_, ?_⟩
  · rw [State.runLines, hhandle]
    exact h.error
  · rw [State.runLines, hhandle, hexpressions]
    exact h.failures
  · rw [State.outcomes, hnone, hhandle, hexpressions]
    exact h.outcomes

theorem evaluates_quit (hhandle : st.handle s line = ⟨st, [], .ok false⟩)
    (hquit : Entry.ofLine line = .command .quit) : Evaluates s st (line :: lines) := by
  have hnone : outcome? s line = none := by
    rw [outcome?, hquit]
    rfl
  refine ⟨?_, ?_, ?_⟩
  · rw [State.runLines, hhandle]
  · rw [State.runLines, hhandle, expressions_quit hquit]
    rfl
  · rw [State.outcomes, hnone, hhandle, expressions_quit hquit]
    rfl

theorem evaluates_expression {outcome : Outcome} {printed : List Printed}
    (hhandle : st.handle s line = ⟨st.count outcome, printed, .ok true⟩)
    (hexpression : Entry.ofLine line = .expression)
    (houtcome : Line.evaluate s line = .ok outcome) (h : Evaluates s (st.count outcome) lines) :
    Evaluates s st (line :: lines) := by
  have hsome : outcome? s line = some outcome := by
    rw [outcome?, if_pos hexpression, houtcome]
    rfl
  have hfails : fails s line = !outcome.isSuccess := by
    rw [fails, houtcome]
  have hexpressions := expressions_cons hexpression lines
  refine ⟨?_, ?_, ?_⟩
  · rw [State.runLines, hhandle]
    exact h.error
  · rw [State.runLines, hhandle, hexpressions]
    dsimp only
    rw [h.failures, State.count, List.filter_cons, hfails]
    cases outcome.isSuccess
    · simp only [Bool.not_false, Bool.false_eq_true, if_false, if_true, List.length_cons]
      omega
    · rfl
  · rw [State.outcomes, hsome, hhandle, hexpressions, List.map_cons, houtcome]
    exact congrArg (Except.ok outcome :: ·) h.outcomes

/-- **A session evaluates its expressions and nothing else.** -/
theorem evaluates_runLines (hst : st.options.InRange)
    (hlines : ∀ line ∈ expressions lines, ∃ outcome, Line.evaluate s line = .ok outcome) :
    Evaluates s st lines := by
  induction lines generalizing st with
  | nil => exact ⟨rfl, rfl, rfl⟩
  | cons line lines ih =>
    have hline : Entry.ofLine line = .expression →
        ∃ outcome, Line.evaluate s line = .ok outcome := by
      intro hexpression
      rw [expressions_cons hexpression] at hlines
      exact hlines line (List.mem_cons_self ..)
    have htakes := takes_handle hst hline
    generalize hhandle : st.handle s line = reply at htakes
    cases htakes with
    | idle hidle ho =>
      rw [expressions_idle hidle] at hlines
      exact evaluates_idle hhandle hidle (ih ho hlines)
    | quit hquit => exact evaluates_quit hhandle hquit
    | expression hexpression houtcome _ =>
      rw [expressions_cons hexpression] at hlines
      exact evaluates_expression hhandle hexpression houtcome
        (ih hst fun l hl => hlines l (List.mem_cons_of_mem line hl))

/-- **Commands never affect evaluation.**  Take a new session whose number of digits is in range,
and lines whose expressions before the first command to leave have outcomes.  The session takes them
without an error and returns how many of these expressions fail, and its outcomes are theirs.
Neither depends on the options, nor on blank lines and commands other than those to leave.  The
number of digits is in range after each line, and a rejected command changes nothing. -/
theorem commands_never_affect_evaluation (s : Settings) (o : Options) (ho : o.InRange)
    (lines : List String)
    (hlines : ∀ line ∈ expressions lines, ∃ outcome, Line.evaluate s line = .ok outcome) :
    (State.runLines s ⟨o, 0⟩ lines).error = none ∧
    (State.runLines s ⟨o, 0⟩ lines).state.failures =
      ((expressions lines).filter (fails s)).length ∧
    (State.outcomes s ⟨o, 0⟩ lines).map Except.ok = (expressions lines).map (Line.evaluate s) ∧
    (∀ (o' : Options) (lines' : List String), o'.InRange → busy lines' = busy lines →
      State.outcomes s ⟨o', 0⟩ lines' = State.outcomes s ⟨o, 0⟩ lines ∧
      (State.runLines s ⟨o', 0⟩ lines').state.failures =
        (State.runLines s ⟨o, 0⟩ lines).state.failures) ∧
    (∀ n, (State.runLines s ⟨o, 0⟩ (lines.take n)).state.options.InRange) ∧
    ∀ (st : State) (line : String) (c : Command), Entry.ofLine line = .command c → c.Rejected →
      (st.handle s line).state = st := by
  have hcourse : Evaluates s ⟨o, 0⟩ lines := evaluates_runLines ho hlines
  refine ⟨hcourse.error, hcourse.failures.trans (Nat.zero_add _), hcourse.outcomes, ?_,
    fun n => inRange_runLines ho, ?_⟩
  · intro o' lines' ho' hbusy
    have hexpressions : expressions lines' = expressions lines := by
      rw [← expressions_busy, hbusy, expressions_busy]
    have hcourse' : Evaluates s ⟨o', 0⟩ lines' :=
      evaluates_runLines ho' (by rw [hexpressions]; exact hlines)
    have hinjective : Function.Injective (Except.ok : Outcome → Except Defect Outcome) :=
      fun _ _ => Except.ok.inj
    refine ⟨List.map_injective_iff.2 hinjective ?_, ?_⟩
    · rw [hcourse'.outcomes, hcourse.outcomes, hexpressions]
    · rw [hcourse'.failures, hcourse.failures, hexpressions]
  · intro st line c hentry hrejected
    obtain ⟨complaint, hcommand⟩ := command_rejected hrejected
    rw [handle_command hentry, hcommand]

/-- One of two expressions fails; a rejected command, an unknown one, a blank line and one that
turns on records do not matter, and neither does what stands behind the end. -/
theorem commands_between_expressions :
    (State.runLines {} ⟨{}, 0⟩ ["1/3", ":digits 0", "1/0", ":quit", "("]).state.failures = 1 ∧
    (State.runLines {} ⟨{ trace := true, digits := 5 }, 0⟩
      [":json on", "1/3", " ", "1/0", ":frobnicate", ":quit", "("]).state.failures = 1 ∧
    (State.handle {} ⟨{}, 0⟩ ":digits 0").state = ⟨{}, 0⟩ := by
  have hexpressions : expressions ["1/3", ":digits 0", "1/0", ":quit", "("] = ["1/3", "1/0"] := by
    decide +kernel
  have hok : ∀ line ∈ ["1/3", "1/0"], (Line.evaluate {} line).isOk = true := by decide +kernel
  have hlines : ∀ line ∈ expressions ["1/3", ":digits 0", "1/0", ":quit", "("],
      ∃ outcome, Line.evaluate {} line = .ok outcome := by
    rw [hexpressions]
    intro line hline
    have hthis := hok line hline
    cases heval : Line.evaluate {} line with
    | ok outcome => exact ⟨outcome, rfl⟩
    | error d =>
      rw [heval] at hthis
      cases hthis
  have hcount : (["1/3", "1/0"].filter (fails {})).length = 1 := by decide +kernel
  have hbusy : busy [":json on", "1/3", " ", "1/0", ":frobnicate", ":quit", "("] =
      busy ["1/3", ":digits 0", "1/0", ":quit", "("] := by
    decide +kernel
  have hentry : Entry.ofLine ":digits 0" = .command (.digits "0") := by decide +kernel
  have hrejected : (Command.digits "0").Rejected :=
    .outOfRange (show Numeral.readPiece? "0".toList = some 0 by decide +kernel) (by decide)
  obtain ⟨-, hfailures, -, hother, -, hsame⟩ :=
    commands_never_affect_evaluation {} {} ⟨by decide, by decide⟩ _ hlines
  rw [hexpressions, hcount] at hfailures
  obtain ⟨-, hagain⟩ := hother { trace := true, digits := 5 } _ ⟨by decide, by decide⟩ hbusy
  exact ⟨hfailures, hagain.trans hfailures, hsame _ _ _ hentry hrejected⟩

end Session

end Roundoff
