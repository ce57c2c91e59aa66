import Lox.Proofs.Run.Compositional
import Lox.Proofs.Session.Outcome

/-! What the level of the log does to a session. A run at some level does what the run does that logs everything, and
leaves out the log entries that the level does not let through: nothing that is written or kept depends on it. -/
namespace Lox

open Run

/-- Whether an event is seen at a level. Only log entries can be left out. -/
def Event.isSeen (level : Severity) : Event → Bool
  | .log entry => level.allows entry.severity
  | _ => true

def Event.entry? : Event → Option LogEntry
  | .log entry => some entry
  | _ => none

def Outcome.log (o : Outcome) : List LogEntry := o.events.filterMap Event.entry?

def Policy.atLevel (policy : Policy) (level : Severity) : Policy := { policy with level }

def Machine.atLevel (m : Machine) (level : Severity) : Machine :=
  { m with events := m.events.filter (Event.isSeen level) }

def Outcome.atLevel (o : Outcome) (level : Severity) : Outcome :=
  { o with events := o.events.filter (Event.isSeen level) }

theorem lines_atLevel (o : Outcome) (level : Severity) : (o.atLevel level).lines = o.lines := by
  unfold Outcome.lines Outcome.atLevel
  rw [List.filter_filter]
  -- a line is seen at every level
  apply List.filter_congr
  intro e _
  cases e <;> rfl

/-- At a level the log has the entries that the level lets through. -/
theorem log_atLevel (o : Outcome) (level : Severity) :
    (o.atLevel level).log = o.log.filter fun entry => level.allows entry.severity := by
  unfold Outcome.log Outcome.atLevel
  induction o.events with
  | nil => rfl
  | cons e events ih =>
    cases e with
    | out line => exact ih
    | err report => exact ih
    | log entry =>
      have hentry : (Event.log entry).isSeen level = level.allows entry.severity := rfl
      by_cases ha : level.allows entry.severity = true
      · rw [List.filter_cons_of_pos (hentry.trans ha)]
        simpa [Event.entry?, ha] using ih
      · rw [List.filter_cons_of_neg (by rwa [hentry])]
        simpa [Event.entry?, ha] using ih

namespace Machine

variable {level : Severity} {policy : Policy} {m : Machine}

/-- An entry is logged at a level if it is seen there among all that could be logged. -/
theorem log_filtered {severity : Severity} {entry : Heap → LogEntry} (he : ∀ h, (entry h).severity = severity) :
    (m.atLevel level).log (policy.atLevel level) severity entry =
      (m.log (policy.atLevel .trace) severity entry).atLevel level := by
  have hall : (policy.atLevel .trace).level.allows severity = true := by
    cases severity <;> rfl
  have hseen : (Event.log (entry m.heap)).isSeen level = level.allows severity := by
    rw [← he m.heap]
    rfl
  unfold log
  rw [if_pos hall]
  change (if level.allows severity = true then _ else _) = _
  by_cases ha : level.allows severity = true
  · rw [if_pos ha]
    simp [emit, atLevel, hseen, ha]
  · rw [if_neg ha]
    simp [emit, atLevel, hseen, ha]

/-- What is no log entry is seen at every level. -/
theorem emit_filtered {e : Event} (he : e.isSeen level = true) :
    (m.atLevel level).emit e = (m.emit e).atLevel level := by
  simp [emit, atLevel, he]

end Machine

namespace Run

variable {α β : Type} {level : Severity} {policy : Policy}

def resultAt (level : Severity) : EStateM.Result Halt Machine α → EStateM.Result Halt Machine α
  | .ok a m => .ok a (m.atLevel level)
  | .error e m => .error e (m.atLevel level)

/-- The second run does what the first one does, from a machine on which less was logged, and logs less itself. -/
def Filters (level : Severity) (r r' : Run α) : Prop := ∀ m : Machine, r' (m.atLevel level) = resultAt level (r m)

theorem filters_bind {r r' : Run α} {k k' : α → Run β} (hr : Filters level r r')
    (hk : ∀ a, Filters level (k a) (k' a)) : Filters level (r >>= k) (r' >>= k') := by
  intro m
  have hfirst := hr m
  cases hrun : r m with
  | ok a n =>
    rw [hrun] at hfirst
    rw [bind_of_ok hrun, bind_of_ok hfirst]
    exact hk a n
  | error e n =>
    rw [hrun] at hfirst
    rw [bind_of_error hrun, bind_of_error hfirst]
    rfl

/-- To log less follows the structure of programs. -/
theorem compositional_filters (policy : Policy) (level : Severity) :
    Compositional (policy.atLevel .trace) (policy.atLevel level) fun r r' _ => Filters level r r' where
  seq := filters_bind
  done _ _ := rfl
  halts _ _ := rfl
  allocs _ _ := rfl
  prints _ _ := rfl
  logs _ _ he _ := congrArg (EStateM.Result.ok ()) (Machine.log_filtered he)
  aside hr _ := hr

/-- The checks of a call do not look at the level, which only decides whether the call is logged. -/
theorem checkCall_filters (policy : Policy) (level : Severity) (depth : Nat) (value : Value) (args : List Value)
    (paren : Pos) :
    Filters level (checkCall (policy.atLevel .trace) depth value args paren)
      (checkCall (policy.atLevel level) depth value args paren) := by
  have hT := compositional_filters policy level
  cases hright : value.takes? args with
  | none =>
    obtain ⟨cause, hcause, hfault⟩ := checkCall_of_none hright
    rw [hfault, hfault]
    exact hT.faults hcause
  | some callee =>
    have hdepth : (policy.atLevel level).allowsDepth (depth + 1) = (policy.atLevel .trace).allowsDepth (depth + 1) := rfl
    rw [checkCall_of_some hright, checkCall_of_some hright, hdepth]
    by_cases hd : (policy.atLevel .trace).allowsDepth (depth + 1) = true
    · rw [if_pos hd, if_pos hd]
      exact filters_bind (hT.logs _ _ fun _ => rfl) fun _ => hT.done callee
    · rw [if_neg hd, if_neg hd]
      intro m
      rfl

/-- An action does the same at every level, and logs what the level lets through. -/
theorem perform_filters (policy : Policy) (level : Severity) (fuel : Nat) (action : Action) (stmts : List Stmt) :
    Filters level (Session.perform (policy.atLevel .trace) fuel action stmts)
      (Session.perform (policy.atLevel level) fuel action stmts) := by
  have hT := compositional_filters policy level
  exact hT.perform (hT.call (checkCall_filters policy level) fuel 0) action stmts

end Run

namespace Session

variable {level : Severity} {policy : Policy} {m : Machine}

theorem logResumed_filtered (program : Program) :
    logResumed (policy.atLevel level) program (m.atLevel level) =
      (logResumed (policy.atLevel .trace) program m).atLevel level := by
  unfold logResumed
  induction program.resumed generalizing m with
  | nil => rfl
  | cons line lines ih =>
    rw [List.foldl_cons, List.foldl_cons, Machine.log_filtered]
    · exact ih
    · intro h
      rfl

theorem refuse_filtered (path : Text) (program : Program) :
    refuse (policy.atLevel level) path program (m.atLevel level) =
      (refuse (policy.atLevel .trace) path program m).atLevel level := by
  have hreports (errors : List SyntaxError) (m : Machine) :
      errors.foldl (fun m e => m.emit (.err e.toText)) (m.atLevel level) =
        (errors.foldl (fun m e => m.emit (.err e.toText)) m).atLevel level := by
    induction errors generalizing m with
    | nil => rfl
    | cons e errors ih =>
      rw [List.foldl_cons, List.foldl_cons, Machine.emit_filtered rfl]
      exact ih _
  unfold refuse
  rw [hreports, Machine.log_filtered]
  intro h
  rfl

theorem outcome_atLevel (verdict : Verdict) (m : Machine) :
    outcome verdict (m.atLevel level) = (outcome verdict m).atLevel level := by
  unfold outcome Outcome.atLevel Machine.atLevel
  rw [List.filter_reverse]

theorem conclude_filtered (result : EStateM.Result Halt Machine Unit) :
    conclude (policy.atLevel level) (resultAt level result) =
      (conclude (policy.atLevel .trace) result).atLevel level := by
  match result with
  | .ok () m | .error .stuck m | .error .exhausted m => exact outcome_atLevel _ m
  | .error (.fault f) m =>
    have hreport : reportFault (policy.atLevel level) f (m.atLevel level) =
        (reportFault (policy.atLevel .trace) f m).atLevel level := by
      unfold reportFault
      rw [Machine.log_filtered, Machine.emit_filtered rfl]
      intro h
      rfl
    change outcome .runtimeError (reportFault (policy.atLevel level) f (m.atLevel level)) = _
    rw [hreport]
    exact outcome_atLevel _ _

/-- A step at some level is the step that logs everything, without the entries that the level does not let through. -/
theorem step_atLevel (policy : Policy) (level : Severity) (fuel : Nat) (h : Heap) (action : Action)
    (path source : Text) :
    step (policy.atLevel level) fuel h action path source =
      (step (policy.atLevel .trace) fuel h action path source).atLevel level := by
  have hstart : logResumed (policy.atLevel level) (Program.ofSource source) ⟨h, []⟩ =
      (logResumed (policy.atLevel .trace) (Program.ofSource source) ⟨h, []⟩).atLevel level :=
    logResumed_filtered (m := ⟨h, []⟩) (Program.ofSource source)
  by_cases hv : (Program.ofSource source).isValid = true
  · rw [step_of_isValid _ fuel action path hv, step_of_isValid _ fuel action path hv, hstart,
      perform_filters policy level fuel action _ _]
    exact conclude_filtered _
  · have hrefused (policy : Policy) : step policy fuel h action path source = outcome .syntaxError
        (refuse policy path (Program.ofSource source) (logResumed policy (Program.ofSource source) ⟨h, []⟩)) :=
      if_neg hv
    rw [hrefused, hrefused, hstart, refuse_filtered]
    exact outcome_atLevel _ _

/-- Logging changes nothing. At any two levels a step ends with the same verdict, writes the same lines and leaves the
same heap; and what it logs at a level is what it logs at the lowest one, as far as the level lets it through, at the
same places among the other events. -/
theorem step_any_level (policy : Policy) (level level' : Severity) (fuel : Nat) (h : Heap) (action : Action)
    (path source : Text) :
    let o := step (policy.atLevel level) fuel h action path source
    let o' := step (policy.atLevel level') fuel h action path source
    let all := step (policy.atLevel .trace) fuel h action path source
    o.verdict = o'.verdict ∧ o.lines = o'.lines ∧ o.heap = o'.heap ∧
      o.log = all.log.filter (fun entry => level.allows entry.severity) ∧
      o.events = all.events.filter (Event.isSeen level) := by
  intro o o' all
  have ho : o = all.atLevel level := step_atLevel policy level fuel h action path source
  have ho' : o' = all.atLevel level' := step_atLevel policy level' fuel h action path source
  rw [ho, ho']
  refine ⟨rfl, ?_, rfl, log_atLevel all level, rfl⟩
  rw [lines_atLevel, lines_atLevel]

end Session
end Lox
