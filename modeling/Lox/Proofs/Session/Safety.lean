import Lox.Proofs.Run.CallSafe
import Lox.Proofs.Run.Fuel

/-! What valid programs can do in a session. From any heap that earlier steps have left behind, a step ends well or with
a fault that is reported, if it ends; and a well scoped program that is the first to run never asks for a name that is
not bound. -/
namespace Lox.Session

open Run
open Lox.Parser (Context)

variable {strict : Prop} {h : Heap} {stmts : List Stmt}

/-- Statements at the top level neither break nor return, so nothing is stuck. -/
theorem runStmts_safe (policy : Policy) (fuel : Nat) (hp : Stmt.PlacedAll {} stmts)
    (hs : strict → Stmt.ScopedAll [] stmts) (hh : h.Hosts strict Heap.globalFrame {} []) :
    Safe strict (runStmts policy fuel stmts) h fun _ _ => True := by
  have hall := execAll_safe (call_safe policy fuel 0) policy fuel stmts hp hs hh
  refine safe_bind hall fun flow h' _ _ hflow => ?_
  -- at the top level there is no loop to leave and no function to return from
  cases flow with
  | next => exact safe_pure trivial
  | broke => cases hflow
  | returned v => cases hflow.1

/-- The value of an expression that stands alone is printed, and then nothing else is run. -/
theorem evalStmts_safe (policy : Policy) (fuel : Nat) (hp : Stmt.PlacedAll {} stmts)
    (hs : strict → Stmt.ScopedAll [] stmts) (hh : h.Hosts strict Heap.globalFrame {} []) :
    Safe strict (evalStmts policy fuel stmts) h fun _ _ => True := by
  unfold evalStmts
  split
  · next e =>
    refine safe_bind (eval_safe (call_safe policy fuel 0) e hp.1 (fun st => (hs st).1) hh) fun v h' _ _ _ => ?_
    exact safe_print trivial
  · exact runStmts_safe policy fuel hp hs hh

theorem printTrees_safe (order : Order) : Safe strict (printTrees order stmts) h fun _ _ => True := by
  unfold printTrees
  induction stmts generalizing h with
  | nil => exact safe_pure trivial
  | cons s stmts ih =>
    change Safe strict (print (s.render order) >>= fun _ => stmts.forM _) h _
    refine safe_bind (safe_print (Q := fun _ _ => True) trivial) fun _ h' _ _ _ => ?_
    exact ih

/-- Every action is safe on a heap that is well made. -/
theorem perform_safe (policy : Policy) (fuel : Nat) (action : Action) (hp : Stmt.PlacedAll {} stmts)
    (hs : strict → Stmt.ScopedAll [] stmts) (hh : h.Hosts strict Heap.globalFrame {} []) :
    Safe strict (perform policy fuel action stmts) h fun _ _ => True := by
  cases action with
  | run => exact runStmts_safe policy fuel hp hs hh
  | eval => exact evalStmts_safe policy fuel hp hs hh
  | tree order => exact printTrees_safe order

theorem heap_logResumed (policy : Policy) (program : Program) (m : Machine) :
    (logResumed policy program m).heap = m.heap := by
  unfold logResumed
  induction program.resumed generalizing m with
  | nil => rfl
  | cons line lines ih =>
    rw [List.foldl_cons, ih]
    exact heap_log _ _ _ _

theorem heap_refuse (policy : Policy) (path : Text) (program : Program) (m : Machine) :
    (refuse policy path program m).heap = m.heap := by
  have hemit (errors : List SyntaxError) (m : Machine) :
      (errors.foldl (fun m e => m.emit (.err e.toText)) m).heap = m.heap := by
    induction errors generalizing m with
    | nil => rfl
    | cons e errors ih =>
      rw [List.foldl_cons, ih]
      rfl
  unfold refuse
  rw [heap_log, hemit]

theorem heap_reportFault (policy : Policy) (f : Fault) (m : Machine) :
    (reportFault policy f m).heap = m.heap := by
  unfold reportFault
  exact heap_log _ _ _ _

def Outcome.Expected (strict : Prop) (o : Outcome) : Prop :=
  o.verdict = .ok ∨ o.verdict = .exhausted ∨ o.verdict = .runtimeError ∧
    ∃ f : Fault, (strict → ∀ x, f.cause ≠ .undefinedVariable x) ∧ o.events.getLast? = some (.err f.toText)

def conclude (policy : Policy) : EStateM.Result Halt Machine Unit → Outcome
  | .ok () m => outcome .ok m
  | .error (.fault f) m => outcome .runtimeError (reportFault policy f m)
  | .error .stuck m => outcome .stuck m
  | .error .exhausted m => outcome .exhausted m

section step

variable {source : Text} (policy : Policy) (fuel : Nat) (action : Action) (path : Text)

theorem step_of_isValid (hv : (Program.ofSource source).isValid = true) :
    step policy fuel h action path source = conclude policy (perform policy fuel action
      (Program.ofSource source).stmts (logResumed policy (Program.ofSource source) ⟨h, []⟩)) :=
  if_pos hv

/-- A program with errors leaves the heap as it is. -/
theorem heap_step_of_invalid (hv : ¬ (Program.ofSource source).isValid = true) :
    (step policy fuel h action path source).heap = h := by
  have hstep : step policy fuel h action path source = outcome .syntaxError
      (refuse policy path (Program.ofSource source) (logResumed policy (Program.ofSource source) ⟨h, []⟩)) :=
    if_neg hv
  rw [hstep]
  exact (heap_refuse _ _ _ _).trans (heap_logResumed _ _ _)

/-- What a step of a valid program leaves behind. -/
theorem step_leaves (hv : (Program.ofSource source).isValid = true)
    (hs : strict → (Program.ofSource source).WellScoped) (hm : h.WellMade strict)
    (hlt : Heap.globalFrame < h.frames.size) :
    h.Extends (step policy fuel h action path source).heap ∧
      (step policy fuel h action path source).heap.WellMade strict ∧
      Outcome.Expected strict (step policy fuel h action path source) := by
  have hsafe := perform_safe policy fuel action (placed_of_isValid hv) (fun st => (hs st).stmts) (hosts_global hlt) hm
  rw [step_of_isValid policy fuel action path hv]
  have hheap := heap_logResumed policy (Program.ofSource source) ⟨h, []⟩
  -- what was logged before the run is kept in the events, and the run is safe after any events
  generalize logResumed policy (Program.ofSource source) ⟨h, []⟩ = m at hheap ⊢
  obtain ⟨h', events⟩ := m
  obtain rfl : h' = h := hheap
  have hleaves := hsafe events
  generalize perform policy fuel action (Program.ofSource source).stmts ⟨h', events⟩ = result at hleaves ⊢
  cases result with
  | ok u m =>
    obtain ⟨he, hm', -⟩ := hleaves
    exact ⟨he, hm', .inl rfl⟩
  | error halt m =>
    obtain ⟨he, hm', hf⟩ := hleaves
    cases halt with
    | stuck => cases hf
    | exhausted => exact ⟨he, hm', .inr (.inl rfl)⟩
    | fault f =>
      have hm₁ : (conclude policy (.error (.fault f) m)).heap = m.heap := heap_reportFault policy f m
      have hlast : (conclude policy (.error (.fault f) m)).events.getLast? = some (.err f.toText) := by
        unfold conclude outcome
        rw [List.getLast?_reverse]
        rfl
      refine ⟨?_, ?_, .inr (.inr ⟨rfl, f, hf, hlast⟩)⟩
      · rw [hm₁]
        exact he
      · rw [hm₁]
        exact hm'

/-- A step that has ended is not changed by more fuel. -/
theorem step_of_more_fuel (hv : (Program.ofSource source).isValid = true)
    (hended : (step policy fuel h action path source).verdict ≠ .exhausted) {more : Nat} (hmore : fuel ≤ more) :
    step policy more h action path source = step policy fuel h action path source := by
  rw [step_of_isValid policy fuel action path hv] at hended ⊢
  rw [step_of_isValid policy more action path hv]
  rcases perform_within hmore action (logResumed policy (Program.ofSource source) ⟨h, []⟩) with ⟨m, hm⟩ | hm
  · rw [hm] at hended
    exact absurd rfl hended
  · rw [hm]

end step

/-- The heaps that a session can come to: each step may be taken under any policy, and may be cut off. -/
inductive Reachable : Heap → Prop where
  | start : Reachable Heap.empty
  | step {h : Heap} (policy : Policy) (fuel : Nat) (action : Action) (path source : Text) (hr : Reachable h) :
    Reachable (step policy fuel h action path source).heap

/-- What holds of every heap that a session can come to. -/
theorem wellMade_of_reachable (hr : Reachable h) : h.WellMade False ∧ Heap.globalFrame < h.frames.size := by
  induction hr with
  | start => exact ⟨empty_wellMade, Nat.zero_lt_one⟩
  | @step h policy fuel action path source _ ih =>
    obtain ⟨hm, hlt⟩ := ih
    by_cases hv : (Program.ofSource source).isValid = true
    · obtain ⟨he, hm', -⟩ := step_leaves policy fuel action path hv False.elim hm hlt
      exact ⟨hm', Nat.lt_of_lt_of_le hlt he.size⟩
    -- a program with errors is not run
    · rw [heap_step_of_invalid policy fuel action path hv]
      exact ⟨hm, hlt⟩

/-- A valid program that is run in a session has not ended yet, or it has ended for good: well, or with a fault that is
reported last. It never gets stuck: no break and no return leaves the function that it stands in, parameters get
their arguments, and initializers find their instance. -/
theorem step_never_stuck (hr : Reachable h) {source : Text} (hv : (Program.ofSource source).isValid = true)
    (policy : Policy) (fuel : Nat) (action : Action) (path : Text) :
    (step policy fuel h action path source).verdict = .exhausted ∨
    ((step policy fuel h action path source).verdict = .ok ∨
      (step policy fuel h action path source).verdict = .runtimeError ∧
        ∃ f : Fault, (step policy fuel h action path source).events.getLast? = some (.err f.toText)) ∧
    ∀ more, fuel ≤ more → step policy more h action path source = step policy fuel h action path source := by
  obtain ⟨hm, hlt⟩ := wellMade_of_reachable hr
  -- earlier programs need not have been well scoped, so the run is not strict
  obtain ⟨-, -, hends⟩ := step_leaves policy fuel action path hv False.elim hm hlt
  have hmore (hended : (step policy fuel h action path source).verdict ≠ .exhausted) (more : Nat)
      (hle : fuel ≤ more) := step_of_more_fuel policy fuel action path hv hended hle
  rcases hends with hok | hexhausted | ⟨hfault, f, -, hlast⟩
  · exact .inr ⟨.inl hok, hmore (by rw [hok]; nofun)⟩
  · exact .inl hexhausted
  · exact .inr ⟨.inr ⟨hfault, f, hlast⟩, hmore (by rw [hfault]; nofun)⟩

/-- A program that calls what an earlier step has declared, once as it is meant and once with too few arguments. It ends
with a fault, whatever time it has. -/
theorem step_never_stuck_second :
    let declared := (step ⟨none, .error⟩ 9 Heap.empty .run "" "fun f(x) \x7b return x; \x7d").heap
    let source : Text := "print f(true); f();"
    Reachable declared ∧ (Program.ofSource source).isValid = true ∧
    (step ⟨none, .error⟩ 9 declared .run "" source).verdict = .runtimeError ∧
    (∃ f : Fault, (step ⟨none, .error⟩ 9 declared .run "" source).events.getLast? = some (.err f.toText)) ∧
    ∀ more, 9 ≤ more → step ⟨none, .error⟩ more declared .run "" source = step ⟨none, .error⟩ 9 declared .run "" source := by
  intro declared source
  have hr : Reachable declared := .step ⟨none, .error⟩ 9 .run "" "fun f(x) \x7b return x; \x7d" .start
  have hv : (Program.ofSource source).isValid = true := by decide +kernel
  have hverdict : (step ⟨none, .error⟩ 9 declared .run "" source).verdict = .runtimeError := by decide +kernel
  refine ⟨hr, hv, hverdict, ?_⟩
  rcases step_never_stuck hr hv ⟨none, .error⟩ 9 .run "" with h | ⟨h | ⟨-, hlast⟩, hmore⟩
  · rw [hverdict] at h
    cases h
  · rw [hverdict] at h
    cases h
  · exact ⟨hlast, hmore⟩

/-- A well scoped program that is run on an empty heap never asks for a name that is not bound, however many calls
may be open and however long it runs. -/
theorem perform_never_undefined {source : Text} (hv : (Program.ofSource source).isValid = true)
    (hs : (Program.ofSource source).WellScoped) (policy : Policy) (fuel : Nat) (action : Action)
    (events : List Event) (x token : Text) (pos : Pos) (m : Machine) :
    perform policy fuel action (Program.ofSource source).stmts ⟨Heap.empty, events⟩ ≠
      .error (.fault ⟨.undefinedVariable x, token, pos⟩) m := by
  intro hrun
  have hglobal : Heap.empty.Hosts True Heap.globalFrame {} [] := hosts_global Nat.zero_lt_one
  have hsafe := perform_safe policy fuel action (placed_of_isValid hv) (fun _ => hs.stmts) hglobal empty_wellMade events
  -- the run is strict, and a strict run does not end with this fault
  rw [hrun] at hsafe
  exact hsafe.2.2 trivial x rfl

def scopedSource : Text :=
  "var k = 1; fun f(n) \x7b if (n > 0) return f(n - 1) + k; return k; \x7d class A \x7b init(x) \x7b this.x = x; \x7d get() \x7b return this.x + f(2); \x7d \x7d print A(3).get();"

/-- A recursive function and a class with an initializer, under a limit. -/
theorem perform_never_undefined_class :
    (Program.ofSource scopedSource).isValid = true ∧ (Program.ofSource scopedSource).WellScoped ∧
    ∀ (x token : Text) (pos : Pos) (m : Machine),
      perform ⟨some 1024, .error⟩ 99 .run (Program.ofSource scopedSource).stmts ⟨Heap.empty, []⟩ ≠
      .error (.fault ⟨.undefinedVariable x, token, pos⟩) m := by
  have hv : (Program.ofSource scopedSource).isValid = true := by decide +kernel
  have hs : (Program.ofSource scopedSource).WellScoped := by decide +kernel
  exact ⟨hv, hs, perform_never_undefined hv hs ⟨some 1024, .error⟩ 99 .run []⟩

end Lox.Session
