import Lox.Proofs.Run.Alike
import Lox.Proofs.Session.Safety

/-! What a step of a session leaves behind, told from the run that it makes: what it has written for the user, the heap,
and how it has ended. -/
namespace Lox

open Run

def Outcome.lines (o : Outcome) : List Event := o.events.filter Event.isLine

namespace Session

variable {policy : Policy} {f : Fault} {a : EStateM.Result Halt Machine Unit}

def report : Except Halt Unit → List Event
  | .error (.fault f) => [.err f.toText]
  | _ => []

theorem lines_outcome (verdict : Verdict) (m : Machine) : (outcome verdict m).lines = m.lines.reverse := by
  unfold Outcome.lines outcome Machine.lines
  rw [List.filter_reverse]

/-- The report of a fault comes behind all that the run has written. -/
theorem lines_conclude (policy : Policy) (a : EStateM.Result Halt Machine Unit) :
    (conclude policy a).lines = (machine a).lines.reverse ++ report (exit a) := by
  match a with
  | .ok () m | .error .stuck m | .error .exhausted m => rw [conclude, lines_outcome]; exact (List.append_nil _).symm
  | .error (.fault f) m =>
    have hlines : (reportFault policy f m).lines = .err f.toText :: m.lines := by
      unfold reportFault
      exact congrArg _ (lines_log _ _ _ _)
    rw [conclude, lines_outcome, hlines, List.reverse_cons]
    rfl

theorem heap_conclude (policy : Policy) (a : EStateM.Result Halt Machine Unit) :
    (conclude policy a).heap = (machine a).heap := by
  match a with
  | .ok () m | .error .stuck m | .error .exhausted m => rfl
  | .error (.fault f) m => exact heap_reportFault policy f m

theorem verdict_of_fault (hf : exit a = .error (.fault f)) : (conclude policy a).verdict = .runtimeError := by
  match a with
  | .error (.fault f) m => rfl

theorem lines_logResumed (policy : Policy) (program : Program) (m : Machine) :
    (logResumed policy program m).lines = m.lines := by
  unfold logResumed
  induction program.resumed generalizing m with
  | nil => rfl
  | cons line lines ih =>
    rw [List.foldl_cons, ih]
    exact lines_log _ _ _ _

/-- A step that ends well has run to its end. -/
theorem ok_of_verdict (hok : (conclude policy a).verdict = .ok) : ∃ m, a = .ok () m := by
  match a with
  | .ok () m => exact ⟨m, rfl⟩
  | .error (.fault f) m | .error .stuck m | .error .exhausted m => cases hok

end Session
end Lox
