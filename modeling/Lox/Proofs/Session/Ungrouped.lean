import Lox.Proofs.Run.Ungrouped
import Lox.Proofs.Session.Safety

/-! Parentheses are transparent: a program and the same program without its parentheses have the same effect. -/
namespace Lox

open Run

/-- The program with each group replaced by what it holds. -/
def Program.ungroup (program : Program) : Program := { program with stmts := Stmt.ungroupAll program.stmts }

/-- A program without parentheses has none to take out. -/
theorem ungroup_ungroup_program (program : Program) : program.ungroup.ungroup = program.ungroup := by
  unfold Program.ungroup
  rw [ungroup_ungroup_stmts]

def Outcome.ungroup (o : Outcome) : Outcome := { o with heap := o.heap.ungroup }

namespace Session

/-- A step of a session with a program that has been parsed. -/
def stepProgram (policy : Policy) (fuel : Nat) (heap : Heap) (action : Action) (path : Text) (program : Program) :
    Outcome :=
  let m := logResumed policy program ⟨heap, []⟩
  if program.isValid then conclude policy (perform policy fuel action program.stmts m)
  else outcome .syntaxError (refuse policy path program m)

variable (policy : Policy) (fuel : Nat)

theorem step_eq_stepProgram (heap : Heap) (action : Action) (path source : Text) :
    step policy fuel heap action path source = stepProgram policy fuel heap action path (Program.ofSource source) := rfl

/-! ### What a step does before and after its run -/

theorem log_ungroup (m : Machine) (severity : Severity) (entry : LogEntry) :
    m.ungroup.log policy severity (fun _ => entry) = (m.log policy severity fun _ => entry).ungroup := by
  unfold Machine.log
  split
  · rfl
  · rfl

theorem logResumed_ungroup (program : Program) (m : Machine) :
    logResumed policy program m.ungroup = (logResumed policy program m).ungroup := by
  unfold logResumed
  induction program.resumed generalizing m with
  | nil => rfl
  | cons line lines ih => rw [List.foldl_cons, List.foldl_cons, log_ungroup, ih]

theorem refuse_ungroup (path : Text) (program : Program) (m : Machine) :
    refuse policy path program m.ungroup = (refuse policy path program m).ungroup := by
  have hreports (errors : List SyntaxError) (m : Machine) :
      errors.foldl (fun m e => m.emit (.err e.toText)) m.ungroup =
        (errors.foldl (fun m e => m.emit (.err e.toText)) m).ungroup := by
    induction errors generalizing m with
    | nil => rfl
    | cons e errors ih => exact ih (m.emit (.err e.toText))
  unfold refuse
  rw [hreports, log_ungroup]

/-- The end of a run without parentheses is concluded in the same way. -/
theorem conclude_image (a : EStateM.Result Halt Machine Unit) :
    conclude policy (image id a) = (conclude policy a).ungroup := by
  cases a with
  | ok _ m => rfl
  | error e m =>
    cases e with
    | fault f =>
      change outcome .runtimeError (reportFault policy f m.ungroup) = _
      unfold reportFault
      rw [log_ungroup]
      rfl
    | stuck | exhausted => rfl

/-! ### The run of a step -/

theorem runStmts_mirrors (stmts : List Stmt) :
    Mirrors id (runStmts policy fuel stmts) (runStmts policy fuel (Stmt.ungroupAll stmts)) := by
  apply mirrors_bind (execAll_mirrors (call_mirrors policy fuel 0) Heap.globalFrame stmts)
  intro flow
  cases flow with
  | next => exact mirrors_pure ()
  | broke | returned => exact mirrors_stuck

/-- Only an expression that stands alone is shown. -/
theorem evalStmts_of_length {stmts : List Stmt} (h : stmts.length ≠ 1) :
    evalStmts policy fuel stmts = runStmts policy fuel stmts := by
  unfold evalStmts
  split
  · exact absurd rfl h
  · rfl

/-- An expression in parentheses that stands alone is shown as without them. -/
theorem evalStmts_mirrors (stmts : List Stmt) :
    Mirrors id (evalStmts policy fuel stmts) (evalStmts policy fuel (Stmt.ungroupAll stmts)) := by
  cases stmts with
  | nil => exact runStmts_mirrors policy fuel []
  | cons s ss =>
    cases ss with
    | cons t ss =>
      rw [Stmt.ungroupAll, Stmt.ungroupAll, evalStmts_of_length policy fuel (by simp),
        evalStmts_of_length policy fuel (by simp)]
      exact runStmts_mirrors policy fuel (s :: t :: ss)
    | nil =>
      cases s with
      | expr e =>
        -- the value of an expression that stands alone is shown
        apply mirrors_bind (eval_mirrors (call_mirrors policy fuel 0) Heap.globalFrame e)
        intro v
        rw [toText_ungroup]
        exact mirrors_print v.toText
      | print | var | block | ifThen | whileLoop | function | returnValue | breakLoop | classDecl =>
        exact runStmts_mirrors policy fuel [_]

variable {action : Action}

/-- Parentheses make no difference to an action, unless it prints trees. -/
theorem perform_mirrors (ha : ∀ order, action ≠ .tree order) (stmts : List Stmt) :
    Mirrors id (perform policy fuel action stmts) (perform policy fuel action (Stmt.ungroupAll stmts)) := by
  cases action with
  | run => exact runStmts_mirrors policy fuel stmts
  | eval => exact evalStmts_mirrors policy fuel stmts
  | tree order => exact absurd rfl (ha order)

/-- Parentheses make no difference to a step. -/
theorem stepProgram_ungroup (ha : ∀ order, action ≠ .tree order) (heap : Heap) (path : Text) (program : Program) :
    stepProgram policy fuel heap.ungroup action path program.ungroup =
      (stepProgram policy fuel heap action path program).ungroup := by
  have hstart : logResumed policy program.ungroup ⟨heap.ungroup, []⟩ = (logResumed policy program ⟨heap, []⟩).ungroup :=
    logResumed_ungroup policy program ⟨heap, []⟩
  unfold stepProgram
  rw [hstart]
  change (if program.isValid then _ else _) = _
  dsimp only
  split
  · rw [← conclude_image]
    exact congrArg _ (perform_mirrors policy fuel ha program.stmts _)
  · change outcome .syntaxError (refuse policy path program _) = _
    rw [refuse_ungroup]
    rfl

variable {heap heap' : Heap}

/-- A source has the same effect with and without its parentheses, from heaps that differ only in the parentheses of the
functions that they hold: the same verdict, the same events, and among them the report of a fault with its message and
line. The heaps at the end again differ only in the parentheses of functions. -/
theorem step_ungrouped (ha : ∀ order, action ≠ .tree order) (hheap : heap'.ungroup = heap.ungroup)
    (path source : Text) :
    let o := step policy fuel heap action path source
    let o' := stepProgram policy fuel heap' action path (Program.ofSource source).ungroup
    o'.verdict = o.verdict ∧ o'.events = o.events ∧ o'.heap.ungroup = o.heap.ungroup ∧
      o'.heap.globals.ungroup = o.heap.globals.ungroup := by
  intro o o'
  have hsame : o'.ungroup = o.ungroup := by
    calc o'.ungroup = stepProgram policy fuel heap'.ungroup action path (Program.ofSource source).ungroup.ungroup :=
          (stepProgram_ungroup policy fuel ha heap' path _).symm
      _ = stepProgram policy fuel heap.ungroup action path (Program.ofSource source).ungroup := by
          rw [ungroup_ungroup_program, hheap]
      _ = (stepProgram policy fuel heap action path (Program.ofSource source)).ungroup :=
          stepProgram_ungroup policy fuel ha heap path _
      _ = o.ungroup := by rw [← step_eq_stepProgram]
  -- taking parentheses out of the heap leaves the verdict and the events as they are
  obtain ⟨hverdict, hevents, hfinal⟩ := Outcome.mk.inj hsame
  refine ⟨hverdict, hevents, hfinal, ?_⟩
  unfold Heap.globals
  rw [← vars_ungroup, hfinal, vars_ungroup]

def parenthesized : Text := "fun f(x) \x7b return ((x) + (\"b\")); \x7d print (f)(\"a\");\n-(f);"

/-- The trees of the program differ, and the steps do not. -/
theorem step_ungrouped_parenthesized :
    (Program.ofSource parenthesized).stmts.map (Stmt.render .operatorFirst) ≠
      (Program.ofSource parenthesized).ungroup.stmts.map (Stmt.render .operatorFirst) ∧
    (step ⟨none, .warning⟩ 9 .empty .run [] parenthesized).events =
      [.out "ab", .err "Operand must be a number.\n[line 2]"] ∧
    let o := step ⟨none, .warning⟩ 9 .empty .run [] parenthesized
    let o' := stepProgram ⟨none, .warning⟩ 9 .empty .run [] (Program.ofSource parenthesized).ungroup
    o'.verdict = o.verdict ∧ o'.events = o.events ∧ o'.heap.ungroup = o.heap.ungroup ∧
      o'.heap.globals.ungroup = o.heap.globals.ungroup := by
  have hrun (order : Order) : Action.run ≠ .tree order := nofun
  have hheap : Heap.empty.ungroup = Heap.empty.ungroup := rfl
  refine ⟨by decide +kernel, by decide +kernel, ?_⟩
  exact step_ungrouped ⟨none, .warning⟩ 9 hrun hheap [] parenthesized

end Session
end Lox
