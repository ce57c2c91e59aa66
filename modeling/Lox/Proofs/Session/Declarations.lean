import Lox.Proofs.Run.Names
import Lox.Proofs.Session.Outcome
import Lox.Proofs.Static.Inside

/-! Who may declare what. Expressions leave the names of all frames as they are. A statement binds at most the one name
that it declares itself, in the frame that it is run in, and it does so only if it ends without a fault. So a step of
a session adds to the global names those of the declarations that it has completed. -/
namespace Lox

variable {α : Type} {i : FrameId} {x y : Text} {m : Machine}

namespace Heap

variable {h : Heap} {v : Value}

theorem mem_names_define (hi : i < h.frames.size) : y ∈ (h.define i x v).names i ↔ y ∈ h.names i ∨ y = x := by
  have hnames : (h.define i x v).names i = if x ∈ h.names i then h.names i else h.names i ++ [x] := by
    unfold names
    rw [vars_define_self hi]
    exact Bindings.names_insert
  rw [hnames]
  by_cases hx : x ∈ h.names i
  · rw [if_pos hx]
    constructor
    · exact Or.inl
    · rintro (hy | rfl)
      · exact hy
      · exact hx
  · rw [if_neg hx, List.mem_append, List.mem_singleton]

theorem names_define_of_ne {j : FrameId} (hij : i ≠ j) : (h.define i x v).names j = h.names j := by
  unfold names
  rw [vars_define_of_ne hij]

end Heap

namespace Run

/-- From this machine the run binds the names `xs` in the frame `i` if it ends without leaving anything, and none at all
otherwise. No other frame that is there gets or loses a name. -/
structure Declares (i : FrameId) (xs : List Text) (r : Run Flow) (m : Machine) : Prop where
  own : ∀ x, x ∈ (machine (r m)).heap.names i ↔ x ∈ m.heap.names i ∨ exit (r m) = .ok .next ∧ x ∈ xs
  others : ∀ j < m.heap.frames.size, j ≠ i → (machine (r m)).heap.names j = m.heap.names j

/-- A run that leaves all names as they are declares nothing. -/
theorem declares_nothing {r : Run Flow} (hr : Keeps (fun _ => False) r) (hi : i < m.heap.frames.size) :
    Declares i [] r m := by
  have hm := hr m
  refine ⟨fun x => ?_, fun j hj _ => hm.names j hj id⟩
  rw [hm.names i hi id]
  simp

/-- A value is computed, and a name bound to what it gives. -/
theorem declares_define {r : Run α} (hr : Keeps (fun _ => False) r) (value : α → Value) (hi : i < m.heap.frames.size) :
    Declares i [x] (do
      let a ← r
      modifyHeap (·.define i x (value a))
      return .next) m := by
  have hm := hr m
  cases hfirst : r m with
  | ok a n =>
    rw [hfirst] at hm
    have hin : i < n.heap.frames.size := Nat.lt_of_lt_of_le hi hm.size
    have hold (j : FrameId) (hj : j < m.heap.frames.size) : n.heap.names j = m.heap.names j := hm.names j hj id
    refine ⟨fun y => ?_, fun j hj hne => ?_⟩
    · rw [bind_of_ok hfirst]
      change y ∈ (n.heap.define i x (value a)).names i ↔ _
      rw [Heap.mem_names_define hin, hold i hi, List.mem_singleton]
      exact or_congr_right (and_iff_right rfl).symm
    · rw [bind_of_ok hfirst]
      change (n.heap.define i x (value a)).names j = _
      rw [Heap.names_define_of_ne hne.symm, hold j hj]
  -- the name is bound last, so a fault in the value comes before it
  | error e n =>
    rw [hfirst] at hm
    have hold (j : FrameId) (hj : j < m.heap.frames.size) : n.heap.names j = m.heap.names j := hm.names j hj id
    refine ⟨fun y => ?_, fun j hj _ => ?_⟩
    · rw [bind_of_error hfirst]
      simp only [machine, exit, hold i hi, reduceCtorEq, false_and, or_false]
    · rw [bind_of_error hfirst]
      exact hold j hj

end Run

open Run

variable {policy : Policy} {call : Caller} {fuel : Nat}

/-- A statement that is no declaration declares nothing. -/
theorem declared_of_plain {s : Stmt} (hs : s.Plain) : s.declared = [] := by
  cases s with
  | var | function | classDecl => cases hs
  | expr | print | block | ifThen | whileLoop | returnValue | breakLoop => rfl

/-- What a statement declares is what it binds. -/
theorem exec_declares (hc : call.Keeps) {s : Stmt} (hs : s.Direct) (hi : i < m.heap.frames.size) :
    Declares i s.declared (s.exec policy call fuel i) m := by
  rcases hs with hdecl | hplain
  · cases s with
    | var x e => exact declares_define (evalOption_keeps hc e) id hi
    | function d => exact declares_define keeps_nextSerial (fun n => .function ⟨n, d, i, false⟩) hi
    | classDecl x ds => exact declares_define keeps_nextSerial (fun n => .classValue ⟨n, x.text, i, ds⟩) hi
    | expr | print | block | ifThen | whileLoop | returnValue | breakLoop => exact absurd rfl hdecl
  · rw [declared_of_plain hplain]
    exact declares_nothing (exec_keeps hc s (.inr hplain)) hi

/-- The statements that end without a fault, a break or a return, up to the first that does not. -/
def Stmt.completed (policy : Policy) (call : Caller) (fuel : Nat) (i : FrameId) : List Stmt → Machine → List Stmt
  | [], _ => []
  | s :: ss, m =>
    match s.exec policy call fuel i m with
    | .ok .next m' => s :: completed policy call fuel i ss m'
    | _ => []

/-- The statements that have been completed come before the others. -/
theorem completed_prefix (ss : List Stmt) (m : Machine) : Stmt.completed policy call fuel i ss m <+: ss := by
  induction ss generalizing m with
  | nil => exact List.prefix_refl _
  | cons s ss ih =>
    unfold Stmt.completed
    split
    · exact (List.prefix_cons_inj s).mpr (ih _)
    · exact List.nil_prefix

/-- All statements are completed if and only if the whole sequence is. -/
theorem completed_eq_iff (ss : List Stmt) (m : Machine) :
    Stmt.completed policy call fuel i ss m = ss ↔ exit (Stmt.execAll policy call fuel i ss m) = .ok .next := by
  induction ss generalizing m with
  | nil => exact ⟨fun _ => rfl, fun _ => rfl⟩
  | cons s ss ih =>
    rw [execAll_cons, andThen, Stmt.completed]
    cases hs : s.exec policy call fuel i m with
    | ok flow n =>
      rw [bind_of_ok hs]
      cases flow with
      | next => exact (List.cons_inj_right s).trans (ih n)
      | broke | returned => exact ⟨nofun, nofun⟩
    | error e n =>
      rw [bind_of_error hs]
      exact ⟨nofun, nofun⟩

/-- A sequence of statements binds what its completed statements declare. -/
theorem execAll_names (hc : call.Keeps) (ss : List Stmt) (hss : ∀ s ∈ ss, s.Direct) (hi : i < m.heap.frames.size) :
    x ∈ (machine (Stmt.execAll policy call fuel i ss m)).heap.names i ↔
      x ∈ m.heap.names i ∨ ∃ s ∈ Stmt.completed policy call fuel i ss m, x ∈ s.declared := by
  induction ss generalizing m with
  | nil =>
    change x ∈ m.heap.names i ↔ _
    simp [Stmt.completed]
  | cons s ss ih =>
    obtain ⟨hs, hss⟩ := List.forall_mem_cons.mp hss
    have hdeclares : Declares i s.declared (s.exec policy call fuel i) m := exec_declares hc hs hi
    have hkeeps : Keeps (· = i) (s.exec policy call fuel i) := exec_keeps hc s (.inl rfl)
    have hown := hdeclares.own x
    have hsize := (hkeeps m).size
    rw [execAll_cons, andThen, Stmt.completed]
    cases hfirst : s.exec policy call fuel i m with
    | ok flow n =>
      rw [hfirst] at hown hsize
      rw [bind_of_ok hfirst]
      cases flow with
      | next =>
        have hi' : i < n.heap.frames.size := Nat.lt_of_lt_of_le hi hsize
        have hnext : x ∈ n.heap.names i ↔ x ∈ m.heap.names i ∨ x ∈ s.declared :=
          hown.trans (or_congr_right (and_iff_right rfl))
        dsimp only
        rw [ih hss hi', hnext, or_assoc]
        simp
      -- whatever leaves the sequence has declared nothing itself
      | broke | returned =>
        refine hown.trans (or_congr_right ?_)
        simp [exit]
    | error e n =>
      rw [hfirst] at hown
      rw [bind_of_error hfirst]
      refine hown.trans (or_congr_right ?_)
      simp [exit]

namespace Session

variable {h : Heap} {action : Action}

/-- A program that is run leaves the heap that its statements leave, and ends well if they do. -/
theorem perform_execAll (policy : Policy) (fuel : Nat) (stmts : List Stmt) (ha : action = .run ∨ action = .eval)
    (m : Machine) :
    (machine (perform policy fuel action stmts m)).heap =
      (machine (Stmt.execAll policy (Run.call policy fuel 0) fuel Heap.globalFrame stmts m)).heap ∧
    ((∃ n, perform policy fuel action stmts m = .ok () n) ↔
      exit (Stmt.execAll policy (Run.call policy fuel 0) fuel Heap.globalFrame stmts m) = .ok .next) := by
  have hrun : (machine (runStmts policy fuel stmts m)).heap =
      (machine (Stmt.execAll policy (Run.call policy fuel 0) fuel Heap.globalFrame stmts m)).heap ∧
    ((∃ n, runStmts policy fuel stmts m = .ok () n) ↔
      exit (Stmt.execAll policy (Run.call policy fuel 0) fuel Heap.globalFrame stmts m) = .ok .next) := by
    unfold runStmts
    cases hall : Stmt.execAll policy (Run.call policy fuel 0) fuel Heap.globalFrame stmts m with
    | ok flow n =>
      rw [bind_of_ok hall]
      cases flow with
      | next => exact ⟨rfl, fun _ => rfl, fun _ => ⟨n, rfl⟩⟩
      | broke | returned => exact ⟨rfl, nofun, nofun⟩
    | error e n =>
      rw [bind_of_error hall]
      exact ⟨rfl, nofun, nofun⟩
  rcases ha with rfl | rfl
  · exact hrun
  · change (machine (evalStmts policy fuel stmts m)).heap = _ ∧ ((∃ n, evalStmts policy fuel stmts m = .ok () n) ↔ _)
    unfold evalStmts
    split
    -- an expression that stands alone is evaluated and its value shown
    · next e =>
      have hone : Stmt.execAll policy (Run.call policy fuel 0) fuel Heap.globalFrame [.expr e] =
          e.eval (Run.call policy fuel 0) Heap.globalFrame >>= fun _ => pure Flow.next := andThen_next _
      rw [hone]
      cases he : e.eval (Run.call policy fuel 0) Heap.globalFrame m with
      | ok v n =>
        rw [bind_of_ok he, bind_of_ok he]
        exact ⟨rfl, fun _ => rfl, fun _ => ⟨_, rfl⟩⟩
      | error e n =>
        rw [bind_of_error he, bind_of_error he]
        exact ⟨rfl, nofun, nofun⟩
    · exact hrun

/-- The statements at the top level that a step has completed. -/
def completed (policy : Policy) (fuel : Nat) (h : Heap) (source : Text) : List Stmt :=
  Stmt.completed policy (Run.call policy fuel 0) fuel Heap.globalFrame (Program.ofSource source).stmts
    (logResumed policy (Program.ofSource source) ⟨h, []⟩)

/-- In a session, expressions add no name to any frame and take none away, wherever they are evaluated; each statement
of a valid program adds at most the one name that it declares, to the frame that it is run in. The global names after
a step are those before it and those that the completed declarations of the program have declared; they are the first
ones of the program, and all of them if and only if the step ends well. -/
theorem step_declares (hr : Reachable h) {source : Text} (hv : (Program.ofSource source).isValid = true)
    (policy : Policy) (fuel : Nat) :
    (∀ (depth turns : Nat) (m : Machine) (i : FrameId), i < m.heap.frames.size →
      (∀ (e : Expr), ∀ j < m.heap.frames.size,
        (machine (e.eval (Run.call policy fuel depth) i m)).heap.names j = m.heap.names j) ∧
      ∀ s ∈ (Program.ofSource source).stmts, ∀ t, Stmt.Inside t s →
        Run.Declares i t.declared (t.exec policy (Run.call policy fuel depth) turns i) m) ∧
    ∀ (action : Action) (path : Text), action = .run ∨ action = .eval →
      (∀ x, x ∈ (step policy fuel h action path source).heap.names Heap.globalFrame ↔
        x ∈ h.names Heap.globalFrame ∨ ∃ s ∈ completed policy fuel h source, x ∈ s.declared) ∧
      completed policy fuel h source <+: (Program.ofSource source).stmts ∧
      ((step policy fuel h action path source).verdict = .ok ↔
        completed policy fuel h source = (Program.ofSource source).stmts) := by
  constructor
  · intro depth turns m i hi
    have hc := Run.call_keeps policy fuel depth
    refine ⟨fun e j hj => ?_, fun s hs t ht => ?_⟩
    · exact (eval_keeps (P := fun _ => False) hc e m).names j hj id
    · exact exec_declares hc (tidy_of_isValid hv hs t ht) hi
  · intro action path ha
    obtain ⟨-, hglobal⟩ := wellMade_of_reachable hr
    have hheap := heap_logResumed policy (Program.ofSource source) ⟨h, []⟩
    have hstep := step_of_isValid (h := h) policy fuel action path hv
    unfold completed
    generalize logResumed policy (Program.ofSource source) ⟨h, []⟩ = m at hheap hstep ⊢
    obtain ⟨hsame, hok⟩ := perform_execAll policy fuel (Program.ofSource source).stmts ha m
    refine ⟨fun x => ?_, completed_prefix _ _, ?_⟩
    · have hdirect (s : Stmt) (hs : s ∈ (Program.ofSource source).stmts) : s.Direct :=
        Stmt.direct_of_tidy (tidy_of_isValid hv hs)
      have hi : Heap.globalFrame < m.heap.frames.size := by
        rw [hheap]
        exact hglobal
      have hc := Run.call_keeps policy fuel 0
      rw [hstep, heap_conclude, hsame, execAll_names hc _ hdirect hi, hheap]
    · have hverdict : (conclude policy (perform policy fuel action (Program.ofSource source).stmts m)).verdict = .ok ↔
          ∃ n, perform policy fuel action (Program.ofSource source).stmts m = .ok () n := by
        constructor
        · exact ok_of_verdict
        · rintro ⟨n, hn⟩
          rw [hn]
          rfl
      rw [hstep, hverdict, hok, completed_eq_iff]

def faultySource : Text :=
  "fun f(x) \x7b var y = x; return y; \x7d var b = f(a); class K \x7b \x7d var c = nope; var d = 3;"

/-- What is declared before the fault stays, and what stands behind it is not reached. -/
theorem step_declares_faulty :
    let first := step ⟨some 9, .error⟩ 9 Heap.empty .run "" "var a = 1;"
    let second := step ⟨some 9, .error⟩ 9 first.heap .run "" faultySource
    Reachable first.heap ∧ (Program.ofSource faultySource).isValid = true ∧ second.verdict = .runtimeError ∧
    ∀ x, x ∈ second.heap.names Heap.globalFrame ↔ x ∈ ["a", "f", "b", "K"].map Text.ofString := by
  intro first second
  have hr : Reachable first.heap := .step ⟨some 9, .error⟩ 9 .run "" "var a = 1;" .start
  have hv : (Program.ofSource faultySource).isValid = true := by decide +kernel
  have hverdict : second.verdict = .runtimeError := by decide +kernel
  have hbefore : first.heap.names Heap.globalFrame = ["a"].map Text.ofString := by decide +kernel
  have hadded : (completed ⟨some 9, .error⟩ 9 first.heap faultySource).flatMap Stmt.declared =
      ["f", "b", "K"].map Text.ofString := by decide +kernel
  obtain ⟨hnames, -, -⟩ := (step_declares hr hv ⟨some 9, .error⟩ 9).2 .run "" (.inl rfl)
  refine ⟨hr, hv, hverdict, fun x => ?_⟩
  rw [hnames x, ← List.mem_flatMap, hbefore, hadded, ← List.mem_append]
  rfl

end Session
end Lox
