import Lox.Proofs.Run.Lawful
import Lox.Proofs.Session.Outcome

/-! The heap in all of a session. A session is a sequence of moves, in which each step goes on where the one before it has
stopped, and so at each point between two moves, whether inside a run or between two, the heap is well formed. -/
namespace Lox

/-- The class that a value is, or of which it is an instance. -/
def Value.class? : Value → Option Class
  | classValue c | object c _ => some c
  | _ => none

theorem movesAll_singleton {policy : Policy} {call : Caller} {mover : Mover} {fuel : Nat} {i : FrameId} (s : Stmt) :
    Stmt.movesAll policy call mover fuel i [s] = s.moves policy call mover fuel i := by
  funext m
  cases hs : s.exec policy call fuel i m with
  | ok flow n =>
    apply (Moves.seq_of_ok hs).trans
    cases flow with
    | next | broke | returned => exact List.append_nil _
  | error e n => exact Moves.seq_of_error hs

namespace Session

open Heap (Move Lawful)
open Run

variable {past : List Move} {h : Heap}

/-- What an action does to statements. -/
theorem perform_makes (policy : Policy) (fuel : Nat) (action : Action) (stmts : List Stmt)
    (hi : Heap.globalFrame < (Heap.after past).frames.size) :
    Makes past (perform policy fuel action stmts) (performMoves policy fuel action stmts) fun _ _ => True := by
  have hc := call_makes policy fuel 0
  have hrun : Makes past (runStmts policy fuel stmts) (performMoves policy fuel .run stmts) fun _ _ => True := by
    refine makes_first (execAll_makes hc stmts hi) fun flow past' _ _ => ?_
    cases flow with
    | next => exact makes_pure trivial
    | broke | returned => exact makes_throw
  cases action with
  | run => exact hrun
  | eval =>
    change Makes past (evalStmts policy fuel stmts) _ _
    unfold evalStmts
    split
    · next e =>
      -- an expression that stands alone makes the same moves as its statement
      have hsame : performMoves policy fuel .eval [.expr e] =
          e.moves (call policy fuel 0) (callMoves policy fuel 0) Heap.globalFrame := movesAll_singleton (.expr e)
      rw [hsame]
      exact makes_first (eval_makes hc e) fun v _ _ _ => makes_print trivial
    · exact hrun
  | tree order =>
    change Makes past (printTrees order stmts) .none _
    unfold printTrees
    clear hrun
    induction stmts generalizing past with
    | nil => exact makes_pure trivial
    | cons s stmts ih =>
      apply makes_first (makes_print (Q := fun _ past' => Heap.globalFrame < (Heap.after past').frames.size) hi)
      exact fun _ _ _ hi' => ih hi'

/-- The heaps that a session can come to between its steps, with all moves that have led there. Each step may be taken
under any policy, and may be cut off. -/
inductive Traced : List Move → Heap → Prop where
  | start : Traced [] Heap.empty
  | step {past : List Move} {h : Heap} (policy : Policy) (fuel : Nat) (action : Action) (path source : Text)
    (ht : Traced past h) :
    Traced (past ++ moves policy fuel h action source) (step policy fuel h action path source).heap

/-- A step goes on with lawful moves to the heap that it leaves behind. -/
theorem step_lawful (hl : Lawful past) (policy : Policy) (fuel : Nat) (action : Action) (path source : Text) :
    (step policy fuel (Heap.after past) action path source).heap =
      Heap.after (past ++ moves policy fuel (Heap.after past) action source) ∧
    Lawful (past ++ moves policy fuel (Heap.after past) action source) := by
  by_cases hv : (Program.ofSource source).isValid = true
  · have hmoves : moves policy fuel (Heap.after past) action source =
        performMoves policy fuel action (Program.ofSource source).stmts
          (logResumed policy (Program.ofSource source) ⟨Heap.after past, []⟩) := if_pos hv
    have hmakes := perform_makes policy fuel action (Program.ofSource source).stmts (Heap.linked_of_lawful hl).pos hl
    rw [hmoves, step_of_isValid policy fuel action path hv, heap_conclude]
    -- what was logged before the run is kept in the events, and the moves are lawful after any events
    have hheap := heap_logResumed policy (Program.ofSource source) ⟨Heap.after past, []⟩
    generalize logResumed policy (Program.ofSource source) ⟨Heap.after past, []⟩ = m at hheap ⊢
    obtain ⟨h, events⟩ := m
    obtain rfl : h = Heap.after past := hheap
    have harrives := hmakes events
    exact ⟨harrives.heap, harrives.lawful⟩
  -- a program with errors is not run
  · have hmoves : moves policy fuel (Heap.after past) action source = [] := if_neg hv
    rw [hmoves, heap_step_of_invalid policy fuel action path hv, List.append_nil]
    exact ⟨rfl, hl⟩

/-- The heap of a session is made by its moves, all of which are lawful. -/
theorem lawful_of_traced (ht : Traced past h) : h = Heap.after past ∧ Lawful past := by
  induction ht with
  | start => exact ⟨rfl, .nil⟩
  | step policy fuel action path source _ ih =>
    obtain ⟨rfl, hl⟩ := ih
    exact step_lawful hl policy fuel action path source

/-- A class whose value has been made was declared in its own frame, and in no other. -/
theorem declared_of_made (hl : Lawful past) {v : Value} (hv : v.Made past) {c : Class} (hc : v.class? = some c) :
    .declare c.scope c ∈ past ∧ ∀ i, .declare i c ∈ past → i = c.scope := by
  refine ⟨?_, fun i hi => (Heap.declared_of_lawful hl hi).1.symm⟩
  cases v with
  | classValue =>
    cases hc
    exact hv
  | object =>
    cases hc
    exact hv.1
  | nil | bool | number | string | function => cases hc

/-- The frame that was made for a method is linked to the frame of its class. -/
theorem link?_of_method {earlier rest : List Move} {c : Class} {self : Value} :
    (Heap.after (earlier ++ .method c self :: rest)).link? (Heap.after earlier).frames.size = some c.scope := by
  have hsplit : earlier ++ Move.method c self :: rest = earlier ++ [.method c self] ++ rest := by simp
  have hnew : (Heap.after (earlier ++ [.method c self])).link? (Heap.after earlier).frames.size = some c.scope := by
    rw [Heap.after_snoc]
    exact Heap.link?_pushFrame_self
  have hlt : (Heap.after earlier).frames.size < (Heap.after (earlier ++ [.method c self])).frames.size := by
    rw [Heap.after_snoc]
    exact Heap.size_lt_pushFrame
  rw [hsplit, (Heap.after_keeps _ rest).links _ hlt]
  exact hnew

/-- The heap of a session at every point, between its steps and inside them: after any of the moves that it has made.
(1) The heap between two steps is where the moves lead. (2) At every point the heap is well formed. (3) From then on no
link of a frame changes. (4) Looking for a name, assigning to it and counting the frames around a frame go along the
links, so they come to an end with them. (5) A class that the heap holds, itself or by an instance, was declared before,
in the frame that it knows as its own and in no other. (6) A method that has been bound runs in a frame whose link leads
to the frame in which its class was declared. -/
theorem wellFormed_of_traced (ht : Traced past h) :
    h = Heap.after past ∧ ∀ before later, past = before ++ later →
      let g := Heap.after before
      g.WellFormed ∧
      (∀ i < g.frames.size, h.link? i = g.link? i) ∧
      (∀ i < g.frames.size, g.depth i + 1 = (g.chain i).length ∧ ∀ x v,
        g.get? i x = (g.chain i).findSome? (fun j => (g.vars j).get? x) ∧
        g.assign? i x v = ((g.chain i).find? fun j => ((g.vars j).get? x).isSome).map fun j => g.define j x v) ∧
      (∀ v c, v.class? = some c → (∃ i x, (g.vars i).get? x = some v) ∨ (∃ id x, (g.fields id).get? x = some v) →
        .declare c.scope c ∈ before ∧ ∀ i, .declare i c ∈ before → i = c.scope) ∧
      ∀ earlier c self rest, before = earlier ++ .method c self :: rest →
        .declare c.scope c ∈ earlier ∧ g.link? (Heap.after earlier).frames.size = some c.scope := by
  obtain ⟨rfl, hall⟩ := lawful_of_traced ht
  refine ⟨rfl, ?_⟩
  rintro before later rfl g
  have hl := Heap.lawful_of_append hall
  have hlinked := Heap.linked_of_lawful hl
  have hholds := Heap.holds_of_lawful hl
  refine ⟨Heap.wellFormed_of_lawful hl, (Heap.after_keeps before later).links, fun i hi => ?_, ?_, ?_⟩
  · refine ⟨(Heap.length_chain hlinked hi).symm, fun x v => ⟨?_, ?_⟩⟩
    · exact Heap.get?_eq_findSome? g i x
    · exact Heap.assign?_eq_find? g i x v
  · rintro v c hc (⟨i, x, hv⟩ | ⟨id, x, hv⟩)
    · exact declared_of_made hl (hholds.vars i x v hv) hc
    · exact declared_of_made hl (hholds.fields id x v hv) hc
  · rintro earlier c self rest rfl
    exact ⟨(Heap.allowed_of_lawful hl).1, link?_of_method⟩

def classSource : Text :=
  "fun f() \x7b class A \x7b init() \x7b this.x = f; \x7d m() \x7b return this; \x7d \x7d return A; \x7d var g = f()().m;"

def bindsInner : Move → Bool
  | .method c _ => c.scope ≠ Heap.globalFrame
  | _ => false

/-- A class is declared in the body of a function, and a method of it is bound and called in a later step. -/
theorem wellFormed_of_traced_class :
    let policy : Policy := ⟨none, .error⟩
    let first := step policy 9 Heap.empty .run "" classSource
    let second := step policy 9 first.heap .run "" "print g().x;"
    let past := moves policy 9 Heap.empty .run classSource ++ moves policy 9 first.heap .run "print g().x;"
    Traced past second.heap ∧ second.events = [.out "<fn f>"] ∧ second.heap.WellFormed ∧
    ∃ before c self later, past = before ++ .method c self :: later ∧ c.scope ≠ Heap.globalFrame ∧
      .declare c.scope c ∈ before ∧ second.heap.link? (Heap.after before).frames.size = some c.scope := by
  intro policy first second past
  have hfirst : Traced (moves policy 9 Heap.empty .run classSource) first.heap := by
    simpa only [List.nil_append] using Traced.step policy 9 .run "" classSource .start
  have hpast : Traced past second.heap := by
    simpa only using Traced.step policy 9 .run "" "print g().x;" hfirst
  have hevents : second.events = [.out "<fn f>"] := by decide +kernel
  have hinner : past.any bindsInner = true := by decide +kernel
  obtain ⟨hheap, hpoints⟩ := wellFormed_of_traced hpast
  obtain ⟨hformed, -, -, -, hmethods⟩ := hpoints past [] (List.append_nil past).symm
  rw [← hheap] at hformed hmethods
  refine ⟨hpast, hevents, hformed, ?_⟩
  obtain ⟨m, hmem, hm⟩ := List.any_eq_true.mp hinner
  obtain ⟨before, later, hsplit⟩ := List.append_of_mem hmem
  unfold bindsInner at hm
  split at hm
  · next c self =>
    obtain ⟨hdeclared, hlink⟩ := hmethods before c self later hsplit
    exact ⟨before, c, self, later, hsplit, of_decide_eq_true hm, hdeclared, hlink⟩
  · cases hm

end Session
end Lox
