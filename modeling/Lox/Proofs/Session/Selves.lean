import Lox.Proofs.Run.CallHonest
import Lox.Proofs.Session.Outcome

/-! Who `this` is, in all of a session. The moments that a session comes to between its steps are sound, and all that is
noted on the way there is as it should be. -/
namespace Lox.Session

open Moment Run
open Note (Bound Belongs)

variable {w : Moment}

/-- The moments that a session can come to between its steps, with all that has been noted of the steps. Each step may
be taken under any policy, and may be cut off. -/
inductive Chronicled : Moment → Prop where
  | start : Chronicled ⟨[], Heap.empty⟩
  | step {w : Moment} (policy : Policy) (fuel : Nat) (action : Action) (path source : Text) (hw : Chronicled w) :
    Chronicled ⟨w.past ++ notes policy fuel w.heap action source, (step policy fuel w.heap action path source).heap⟩

/-- At the start there is nothing that could be unsound. -/
theorem empty_sound : Moment.Sound ⟨[], Heap.empty⟩ := by
  have hnone {f : Closure} {self : Value} : ¬ Bound [] f self := by
    rintro ⟨h, hf⟩
    cases hf
  refine ⟨fun i x v hv => ?_, fun id x v hv => ?_, ?_, ?_, ?_⟩
  · cases i with
    | zero => cases hv
    | succ i => cases hv
  · cases hv
  · exact fun f self hf => absurd hf hnone
  · exact fun f self hf => absurd hf hnone
  · exact fun f self hf => absurd hf hnone

/-- A step leads from a sound moment to a sound one, and all its notes are as they should be. -/
theorem step_reached (hw : w.Sound) (hh : w.Hosts none Heap.globalFrame []) (policy : Policy) (fuel : Nat)
    (action : Action) (path source : Text) :
    w.Later ⟨w.past ++ notes policy fuel w.heap action source, (step policy fuel w.heap action path source).heap⟩ ∧
    Moment.Sound
      ⟨w.past ++ notes policy fuel w.heap action source, (step policy fuel w.heap action path source).heap⟩ ∧
    ∀ before n after, notes policy fuel w.heap action source = before ++ n :: after → n.Fine (w.past ++ before) := by
  by_cases hv : (Program.ofSource source).isValid = true
  · have htop : Stmt.selvesAll (Program.ofSource source).stmts = [] :=
      selvesAll_of_placed _ (c := {}) nofun (placed_of_isValid hv)
    have hhonest := perform_honest policy fuel action _ (names_of_isValid hv) htop hh hw
    rw [notes_of_isValid policy fuel w.heap action hv, step_of_isValid policy fuel action path hv, heap_conclude]
    -- what was logged before the run is kept in the events, and the run is honest after any events
    have hheap := heap_logResumed policy (Program.ofSource source) ⟨w.heap, []⟩
    generalize logResumed policy (Program.ofSource source) ⟨w.heap, []⟩ = m at hheap ⊢
    obtain ⟨h, events⟩ := m
    obtain rfl : h = w.heap := hheap
    have hreached := hhonest events
    exact ⟨hreached.later, hreached.sound, hreached.fine⟩
  -- a program with errors is not run
  · rw [notes_of_invalid policy fuel w.heap action hv, heap_step_of_invalid policy fuel action path hv, List.append_nil]
    exact ⟨later_refl w, hw, fun before n after heq => by simp at heq⟩

/-- Between two steps of a session all is sound, and all notes are as they should be. -/
theorem sound_of_chronicled (hw : Chronicled w) : w.Sound ∧ w.Hosts none Heap.globalFrame [] ∧
    ∀ before n after, w.past = before ++ n :: after → n.Fine before := by
  induction hw with
  | start =>
    refine ⟨empty_sound, ⟨Nat.zero_lt_one, rfl, nofun⟩, fun before n after heq => ?_⟩
    simp at heq
  | @step w policy fuel action path source _ ih =>
    obtain ⟨hsound, hhosts, hfine⟩ := ih
    obtain ⟨hlater, hsound', hnew⟩ := step_reached hsound hhosts policy fuel action path source
    refine ⟨hsound', hosts_later hlater hhosts, fun before n after heq => ?_⟩
    rcases Note.place_of_append heq with ⟨rest, hplace, -⟩ | ⟨first, rfl, hplace⟩
    · exact hfine before n rest hplace
    · exact hnew first n after hplace

/-- Who is bound is an instance, and what is bound to it is a method of its class. -/
theorem object_of_bound (hw : Chronicled w) {before after : List Note} (hpast : w.past = before ++ after) {f : Closure}
    {self : Value} (hf : Bound before f self) : ∃ c id, self = .object c id ∧ f.decl ∈ c.methods := by
  obtain ⟨h, hmem⟩ := hf
  obtain ⟨first, rest, rfl⟩ := List.append_of_mem hmem
  rw [List.append_assoc] at hpast
  exact ((sound_of_chronicled hw).2.2 first _ _ hpast).tells

/-- A function that belongs to a method belongs to one that was bound. -/
theorem bound_of_belongs {past : List Note} {f g : Closure} {self : Value} (hf : Belongs past f g self) :
    Bound past g self := by
  induction hf with
  | method hg => exact hg
  | nested _ _ ih => exact ih

/-- `this` and initializers, in all that a session has done. (1) Each time that `this` is evaluated, it is an instance:
the one that the method was bound to whose body encloses the place most closely. The running function is this method, or
it was made in the body of a function that belongs to the method. (2) The frame of a bound method holds its instance and
nothing else, at each moment that is noted from then on and (3) at the end. (4) A call of an initializer that was bound
to an instance and (5) a call of a class, which binds its initializer to the new instance, yield that instance however
the body has ended. -/
theorem self_of_chronicled (hw : Chronicled w) :
    (∀ before asker pos scope h after, w.past = before ++ .asked asker pos scope h :: after →
      ∃ b g c id, asker = some b ∧ Belongs before b.function g (.object c id) ∧ g.decl ∈ c.methods ∧
        pos ∈ g.decl.selves ∧ ∀ call events,
          (Expr.this pos).eval call scope ⟨h, events⟩ = .ok (.object c id) ⟨h, events⟩) ∧
    (∀ before n after, w.past = before ++ n :: after → ∀ f self, Bound (before ++ [n]) f self →
      n.heap.vars f.scope = [(thisName, self)]) ∧
    (∀ f self, Bound w.past f self → w.heap.vars f.scope = [(thisName, self)]) ∧
    (∀ before f start value h after, w.past = before ++ .closed (.function f) start value h :: after →
      f.decl.name.text = initName → ∀ self, Bound before f self → value = self) ∧
    ∀ before c start value h after, w.past = before ++ .closed (.classValue c) start value h :: after →
      value = .object c start.instances.size ∧
        ∀ d, c.method? initName = some d → ∃ f, f.decl = d ∧ Bound before f value := by
  obtain ⟨hsound, -, hfine⟩ := sound_of_chronicled hw
  refine ⟨?_, ?_, hsound.bound, ?_, ?_⟩
  · intro before asker pos scope h after hpast
    obtain ⟨b, g, self, hasker, hg, hpos, heval⟩ := (hfine before _ after hpast).tells
    obtain ⟨c, id, rfl, hdecl⟩ := object_of_bound hw hpast (bound_of_belongs hg)
    exact ⟨b, g, c, id, hasker, hg, hdecl, hpos, heval⟩
  · intro before n after hpast
    exact (hfine before n after hpast).frames
  · intro before f start value h after hpast
    exact (hfine before _ after hpast).tells
  · intro before c start value h after hpast
    exact (hfine before _ after hpast).tells

/-- A method makes a function that returns a field of `this`; the method is stored, and its initializer returns from
inside a loop. -/
def keeperSource : Text :=
  "class K \x7b init(x) \x7b this.x = x; while (true) \x7b return; \x7d \x7d get() \x7b fun f() \x7b return this.x; \x7d return f; \x7d \x7d var g = K(\"a\").get;"

def laterSource : Text := "print g()(); print K(\"b\").init(\"c\").x;"

def asksIn (x : Text) : Note → Bool
  | .asked (some b) _ _ _ => b.function.decl.name.text = x
  | _ => false

def closesCallOf (x : Text) : Note → Bool
  | .closed (.function f) _ _ _ => f.decl.name.text = x
  | _ => false

/-- A method that was stored in one step is called in the next one, and finds the instance that it was bound to. -/
theorem self_of_chronicled_stored :
    let policy : Policy := ⟨none, .error⟩
    let first := step policy 9 Heap.empty .run "" keeperSource
    let second := step policy 9 first.heap .run "" laterSource
    let past := notes policy 9 Heap.empty .run keeperSource ++ notes policy 9 first.heap .run laterSource
    Chronicled ⟨past, second.heap⟩ ∧ second.events = [.out "a", .out "c"] ∧
    (∃ before b pos scope h after, past = before ++ .asked (some b) pos scope h :: after ∧
      b.function.decl.name.text = ("f" : Text) ∧
      ∃ g c id, Belongs before b.function g (.object c id) ∧ g.decl ∈ c.methods ∧ pos ∈ g.decl.selves ∧
        ∀ call events, (Expr.this pos).eval call scope ⟨h, events⟩ = .ok (.object c id) ⟨h, events⟩) ∧
    ∃ before f start value h after, past = before ++ .closed (.function f) start value h :: after ∧
      f.decl.name.text = initName ∧ ∀ self, Bound before f self → value = self := by
  intro policy first second past
  have hfirst : Chronicled ⟨notes policy 9 Heap.empty .run keeperSource, first.heap⟩ := by
    simpa only [List.nil_append] using Chronicled.step policy 9 .run "" keeperSource .start
  have hw : Chronicled ⟨past, second.heap⟩ := by
    simpa only using Chronicled.step policy 9 .run "" laterSource hfirst
  -- what the two texts print and note is computed; which instance is meant follows from the theorem
  have hevents : second.events = [.out "a", .out "c"] := by decide +kernel
  have hasked : past.any (asksIn "f") = true := by decide +kernel
  have hclosed : past.any (closesCallOf initName) = true := by decide +kernel
  obtain ⟨hself, -, -, hinit, -⟩ := self_of_chronicled hw
  refine ⟨hw, hevents, ?_, ?_⟩
  · obtain ⟨n, hmem, hn⟩ := List.any_eq_true.mp hasked
    obtain ⟨before, after, hpast⟩ := List.append_of_mem hmem
    unfold asksIn at hn
    split at hn
    · next b pos scope h =>
      obtain ⟨_, g, c, id, ⟨⟩, hg⟩ := hself before (some b) pos scope h after hpast
      exact ⟨before, b, pos, scope, h, after, hpast, of_decide_eq_true hn, g, c, id, hg⟩
    · cases hn
  · obtain ⟨n, hmem, hn⟩ := List.any_eq_true.mp hclosed
    obtain ⟨before, after, hpast⟩ := List.append_of_mem hmem
    unfold closesCallOf at hn
    split at hn
    · next f start value h =>
      have hname := of_decide_eq_true hn
      exact ⟨before, f, start, value, h, after, hpast, hname, hinit before f start value h after hpast hname⟩
    · cases hn

end Lox.Session
