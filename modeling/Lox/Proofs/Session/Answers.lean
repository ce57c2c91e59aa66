import Lox.Proofs.Run.CallLimit
import Lox.Proofs.Session.Outcome

/-! What the steps of a session answer. A source with errors is answered by its errors and changes nothing. Any other
source that is run writes its output, and one report at the end if and only if it is ended by a fault. So the steps
that print trees and those with errors can be taken out of a session, and nobody sees it in the other answers. -/
namespace Lox

open Run

/-- What a run writes for the user is output only; reports are written by the session. -/
theorem lines_of_emits {m n : Machine} (h : Emits m n) : ∃ outs : List Text, n.lines = outs.map .out ++ m.lines := by
  obtain ⟨added, hadded, hquiet⟩ := h
  unfold Machine.lines
  rw [hadded, List.filter_append]
  clear hadded
  induction added with
  | nil => exact ⟨[], rfl⟩
  | cons e added ih =>
    obtain ⟨he, hquiet⟩ := List.forall_mem_cons.mp hquiet
    obtain ⟨outs, houts⟩ := ih hquiet
    cases e with
    | out line => exact ⟨line :: outs, congrArg (Event.out line :: ·) houts⟩
    | err report => cases he
    | log entry => exact ⟨outs, houts⟩

namespace Session

variable {h : Heap} {policy : Policy} {fuel : Nat} {action : Action} {path source : Text}

/-- A program that is refused has all its errors reported in order. -/
theorem lines_refuse (policy : Policy) (path : Text) (program : Program) (m : Machine) :
    (refuse policy path program m).lines = (program.errors.map fun e => Event.err e.toText).reverse ++ m.lines := by
  have hemit (errors : List SyntaxError) (m : Machine) :
      (errors.foldl (fun m e => m.emit (.err e.toText)) m).lines =
        (errors.map fun e => Event.err e.toText).reverse ++ m.lines := by
    induction errors generalizing m with
    | nil => rfl
    | cons e errors ih =>
      rw [List.foldl_cons, ih, List.map_cons, List.reverse_cons, List.append_assoc]
      rfl
  unfold refuse
  rw [lines_log, hemit]

/-- A step of a source with errors. -/
theorem step_of_invalid (hv : ¬ (Program.ofSource source).isValid = true) :
    (step policy fuel h action path source).verdict = .syntaxError ∧
    (step policy fuel h action path source).lines = (Program.ofSource source).errors.map fun e => .err e.toText := by
  have hstep : step policy fuel h action path source = outcome .syntaxError
      (refuse policy path (Program.ofSource source) (logResumed policy (Program.ofSource source) ⟨h, []⟩)) :=
    if_neg hv
  rw [hstep, lines_outcome, lines_refuse, lines_logResumed, List.reverse_append, List.reverse_reverse]
  exact ⟨rfl, rfl⟩

/-- A step answers with a syntax error if and only if the scanner or the parser has found one. -/
theorem verdict_eq_syntaxError_iff : (step policy fuel h action path source).verdict = .syntaxError ↔
    ¬ (Program.ofSource source).isValid = true := by
  constructor
  · intro hverdict hv
    rw [step_of_isValid policy fuel action path hv] at hverdict
    generalize perform policy fuel action _ _ = result at hverdict
    match result with
    | .ok () m | .error (.fault f) m | .error .stuck m | .error .exhausted m => cases hverdict
  · intro hv
    exact (step_of_invalid hv).1

theorem isValid_iff : (Program.ofSource source).isValid = true ↔ (Program.ofSource source).errors = [] := by
  unfold Program.isValid
  exact List.isEmpty_iff

/-- Trees are printed without a look at the heap. -/
theorem heap_tree (order : Order) : (step policy fuel h (.tree order) path source).heap = h := by
  have hprint (stmts : List Stmt) (m : Machine) : (machine (printTrees order stmts m)).heap = m.heap := by
    unfold printTrees
    induction stmts generalizing m with
    | nil => rfl
    | cons s stmts ih => exact ih _
  by_cases hv : (Program.ofSource source).isValid = true
  · rw [step_of_isValid policy fuel _ path hv, heap_conclude]
    exact (hprint _ _).trans (heap_logResumed _ _ _)
  · exact heap_step_of_invalid policy fuel _ path hv

/-- What a valid program has written when its step has ended. -/
theorem lines_of_ended (hr : Reachable h) (hv : (Program.ofSource source).isValid = true)
    (hended : (step policy fuel h action path source).verdict ≠ .exhausted) :
    ∃ outs : List Text,
      (step policy fuel h action path source).verdict = .ok ∧
        (step policy fuel h action path source).lines = outs.map .out ∨
      ∃ report, (step policy fuel h action path source).verdict = .runtimeError ∧
        (step policy fuel h action path source).lines = outs.map .out ++ [.err report] := by
  obtain ⟨hm, hlt⟩ := wellMade_of_reachable hr
  obtain ⟨-, -, hends⟩ := step_leaves policy fuel action path hv False.elim hm hlt
  have hemits := (perform_limits (relaxes_refl policy) fuel action (Program.ofSource source).stmts).emits
    (logResumed policy (Program.ofSource source) ⟨h, []⟩)
  rw [step_of_isValid policy fuel action path hv] at hended hends ⊢
  generalize perform policy fuel action (Program.ofSource source).stmts
    (logResumed policy (Program.ofSource source) ⟨h, []⟩) = result at hemits hended hends ⊢
  obtain ⟨outs, houts⟩ := lines_of_emits hemits
  -- the step starts without any lines
  have hlines : (machine result).lines.reverse = outs.reverse.map .out := by
    rw [houts, lines_logResumed, List.map_reverse]
    exact congrArg List.reverse (List.append_nil _)
  refine ⟨outs.reverse, ?_⟩
  rw [lines_conclude, hlines]
  match result with
  | .ok () m => exact .inl ⟨rfl, List.append_nil _⟩
  | .error (.fault f) m => exact .inr ⟨f.toText, rfl, rfl⟩
  | .error .exhausted m => exact absurd rfl hended
  | .error .stuck m =>
    rcases hends with hstuck | hstuck | ⟨hstuck, -⟩
    all_goals cases hstuck

structure Request where
  action : Action
  path : Text
  source : Text

def answer (policy : Policy) (fuel : Nat) (h : Heap) (r : Request) : Outcome :=
  step policy fuel h r.action r.path r.source

/-- The answers of a session. Each step starts from the heap that the one before has left. -/
def answers (policy : Policy) (fuel : Nat) : Heap → List Request → List Outcome
  | _, [] => []
  | h, r :: rs => answer policy fuel h r :: answers policy fuel (answer policy fuel h r).heap rs

/-- The request asks for trees, or it was answered with a syntax error. -/
def isIdle (answered : Request × Outcome) : Bool :=
  match answered.1.action with
  | .tree _ => true
  | _ => answered.2.verdict = .syntaxError

/-- An idle step leaves the heap as it was. -/
theorem heap_of_isIdle {r : Request} (hi : isIdle (r, answer policy fuel h r) = true) :
    (answer policy fuel h r).heap = h := by
  obtain ⟨action, path, source⟩ := r
  have hrefused (hverdict : (step policy fuel h action path source).verdict = .syntaxError) :
      (step policy fuel h action path source).heap = h :=
    heap_step_of_invalid policy fuel action path (verdict_eq_syntaxError_iff.mp hverdict)
  cases action with
  | tree order => exact heap_tree order
  | run => exact hrefused (of_decide_eq_true hi)
  | eval => exact hrefused (of_decide_eq_true hi)

/-- Without its idle steps a session gives the other answers as before. -/
theorem answers_of_kept (rs : List Request) :
    let kept := (rs.zip (answers policy fuel h rs)).filter fun answered => !isIdle answered
    answers policy fuel h (kept.map Prod.fst) = kept.map Prod.snd := by
  induction rs generalizing h with
  | nil => rfl
  | cons r rs ih =>
    rw [answers, List.zip_cons_cons, List.filter_cons]
    by_cases hi : isIdle (r, answer policy fuel h r) = true
    · rw [hi, heap_of_isIdle hi]
      exact ih
    · have hkeep : (!isIdle (r, answer policy fuel h r)) = true := by simpa using hi
      rw [hkeep]
      exact congrArg (answer policy fuel h r :: ·) ih

/-- Steps and their errors. (1) A step answers with a syntax error if and only if the scanner or the parser has found an
error; then it writes one report for each of them in order and changes nothing. (2) Printing trees changes nothing.
(3) When a valid program has been run, it has ended with a fault if and only if it has written its output and then one
report; otherwise it has ended well and written output only. (4) So the steps that print trees or answer with a syntax
error can be left out, and all other answers stay the same. -/
theorem step_answers (hr : Reachable h) (policy : Policy) (fuel : Nat) (path source : Text) :
    (∀ action,
      ((step policy fuel h action path source).verdict = .syntaxError ↔ (Scan.ofSource source).errors ≠ [] ∨
        (Program.ofTokens (Scan.ofSource source).tokens (Scan.ofSource source).endPos).errors ≠ []) ∧
      ((step policy fuel h action path source).verdict = .syntaxError →
        (step policy fuel h action path source).lines = ((Scan.ofSource source).errors ++
          (Program.ofTokens (Scan.ofSource source).tokens (Scan.ofSource source).endPos).errors).map
            (fun e => .err e.toText) ∧
        (step policy fuel h action path source).heap = h)) ∧
    (∀ order, (step policy fuel h (.tree order) path source).heap = h) ∧
    (∀ action, action = .run ∨ action = .eval → (step policy fuel h action path source).verdict ≠ .syntaxError →
      (step policy fuel h action path source).verdict ≠ .exhausted →
      ((step policy fuel h action path source).verdict = .runtimeError ↔
        ∃ (outs : List Text) (report : Text),
          (step policy fuel h action path source).lines = outs.map .out ++ [.err report]) ∧
      ((step policy fuel h action path source).verdict ≠ .runtimeError →
        (step policy fuel h action path source).verdict = .ok ∧
        ∃ outs : List Text, (step policy fuel h action path source).lines = outs.map .out)) ∧
    ∀ rs : List Request,
      let kept := (rs.zip (answers policy fuel h rs)).filter fun answered => !isIdle answered
      answers policy fuel h (kept.map Prod.fst) = kept.map Prod.snd := by
  refine ⟨fun action => ⟨?_, fun hverdict => ?_⟩, heap_tree, fun action _ hverdict hended => ?_, answers_of_kept⟩
  · rw [verdict_eq_syntaxError_iff, isValid_iff, ← not_and_or, ← List.append_eq_nil_iff]
    rfl
  · have hv := verdict_eq_syntaxError_iff.mp hverdict
    exact ⟨(step_of_invalid hv).2, heap_step_of_invalid policy fuel action path hv⟩
  · have hv : (Program.ofSource source).isValid = true := by
      by_contra hv
      exact hverdict (verdict_eq_syntaxError_iff.mpr hv)
    obtain ⟨outs, ⟨hok, hlines⟩ | ⟨report, hfault, hlines⟩⟩ := lines_of_ended hr hv hended
    · rw [hok, hlines]
      refine ⟨⟨nofun, ?_⟩, fun _ => ⟨rfl, outs, rfl⟩⟩
      -- no report stands among lines of output
      rintro ⟨outs', report, heq⟩
      have hmem : Event.err report ∈ outs.map Event.out := by
        rw [heq]
        simp
      simp at hmem
    · rw [hfault, hlines]
      exact ⟨⟨fun _ => ⟨outs, report, rfl⟩, fun _ => rfl⟩, fun hne => absurd rfl hne⟩

def mixedSession : List Request :=
  -- a fault, a tree, two errors of syntax, and an expression of the prompt
  [⟨.run, "", "print a; nope();"⟩, ⟨.tree .operatorFirst, "", "a = 2;"⟩, ⟨.run, "", "a = 3; print (; @"⟩, ⟨.eval, "", "a;"⟩]

/-- Four requests, of which the tree and the refused program may be left out. -/
theorem step_answers_mixed :
    let policy : Policy := ⟨some 9, .error⟩
    let first := step policy 9 Heap.empty .run "" "var a = 1;"
    let kept := (mixedSession.zip (answers policy 9 first.heap mixedSession)).filter fun answered => !isIdle answered
    Reachable first.heap ∧
    (∃ (outs : List Text) (report : Text),
      (step policy 9 first.heap .run "" "print a; nope();").lines = outs.map .out ++ [.err report]) ∧
    (kept.map fun answered => answered.1.source) = ["print a; nope();", "a;"].map Text.ofString ∧
    answers policy 9 first.heap (kept.map Prod.fst) = kept.map Prod.snd := by
  intro policy first kept
  have hr : Reachable first.heap := .step policy 9 .run "" "var a = 1;" .start
  have hverdict : (step policy 9 first.heap .run "" "print a; nope();").verdict = .runtimeError := by decide +kernel
  have hkept : (kept.map fun answered => answered.1.source) = ["print a; nope();", "a;"].map Text.ofString := by
    decide +kernel
  obtain ⟨-, -, hrun, hanswers⟩ := step_answers hr policy 9 "" "print a; nope();"
  obtain ⟨hfault, -⟩ := hrun .run (.inl rfl) (by rw [hverdict]; nofun) (by rw [hverdict]; nofun)
  exact ⟨hr, hfault.mp hverdict, hkept, hanswers mixedSession⟩

end Session
end Lox
