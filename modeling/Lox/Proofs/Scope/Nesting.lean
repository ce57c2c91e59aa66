import Lox.Proofs.Scope.Ledger

/-! What is left of steps inside a frame when the frame is closed again. The frames around it declare what they declared
before, and their variables have changed only where the steps have assigned to them. With what a ledger says after each
step this is the law of scopes. -/
namespace Lox.Scope

/-- Each frame that the steps open they close again, and they close no other. -/
inductive Balanced : List Step → Prop where
  | nil : Balanced []
  | quiet {step : Step} {steps : List Step} (hpush : step ≠ .push) (hpop : step ≠ .pop) (hs : Balanced steps) :
    Balanced (step :: steps)
  | nested {inner steps : List Step} (hi : Balanced inner) (hs : Balanced steps) :
    Balanced (.push :: (inner ++ .pop :: steps))

namespace Ledger

/-- The value that a step assigns to a name, if the frame is the innermost open one that declares the name. -/
def assigned? (l : Ledger) (f : FrameId) (x : Text) : Step → Option Value
  | .assign y v => if y = x ∧ l.owner? x = some f then some v else none
  | _ => none

def lastAssigned? (f : FrameId) (x : Text) : Ledger → List Step → Option Value
  | _, [] => none
  | l, step :: steps => (lastAssigned? f x (l.record step) steps).or (l.assigned? f x step)

variable {l : Ledger} {f g : FrameId} {x : Text} {v : Value} {step : Step} {steps : List Step}

/-- A step assigns to the name in the innermost open frame that declares it. -/
theorem assigned?_eq_some_iff : l.assigned? f x step = some v ↔ step = .assign x v ∧ l.owner? x = some f := by
  cases step with
  | assign y w =>
    rw [assigned?, Option.ite_none_right_eq_some, Step.assign.injEq, Option.some.injEq]
    exact and_right_comm
  | push | pop | define | get => simp [assigned?]

theorem after_append (l : Ledger) (steps later : List Step) : l.after (steps ++ later) = (l.after steps).after later :=
  List.foldl_append

/-- The last assignment is among the later steps if there is one among them. -/
theorem lastAssigned?_append (l : Ledger) (steps later : List Step) : lastAssigned? f x l (steps ++ later) =
    (lastAssigned? f x (l.after steps) later).or (lastAssigned? f x l steps) := by
  induction steps generalizing l with
  | nil => simp [lastAssigned?, after]
  | cons step steps ih =>
    rw [List.cons_append, lastAssigned?, lastAssigned?, ih, Option.or_assoc]
    rfl

/-- What steps have made of the frames that were there, the innermost one apart: the same frames are open, no name is
declared in them, and their variables are as the last assignments have left them. -/
structure Spares (l l' : Ledger) (steps : List Step) : Prop where
  innermost : l'.innermost = l.innermost
  around : l'.around = l.around
  opened : l.opened ≤ l'.opened
  declares : ∀ g < l.opened, g ≠ l.innermost → ∀ x, l'.Declares g x ↔ l.Declares g x
  latest : ∀ g < l.opened, g ≠ l.innermost → ∀ x,
    l'.latest? g x = (lastAssigned? g x l steps).or (l.latest? g x)

/-- A step that opens and closes nothing leaves the outer frames alone, but for what it assigns. -/
theorem record_spares (hpush : step ≠ .push) (hpop : step ≠ .pop) : l.Spares (l.record step) [step] := by
  cases step with
  | push => exact absurd rfl hpush
  | pop => exact absurd rfl hpop
  | get x => exact ⟨rfl, rfl, Nat.le_refl _, fun _ _ _ _ => Iff.rfl, fun _ _ _ _ => rfl⟩
  -- a definition is in the innermost frame, the one that is not spared
  | define x v =>
    refine ⟨rfl, rfl, Nat.le_refl _, fun g _ hg y => ?_, fun g _ hg y => ?_⟩
    · change (g, y) ∈ (l.innermost, x) :: l.declared ↔ (g, y) ∈ l.declared
      rw [List.mem_cons, Prod.mk.injEq]
      simp [hg]
    · change (l.write l.innermost x v).latest? g y = l.latest? g y
      rw [latest?_write, if_neg fun hc => hg hc.1]
  | assign x v =>
    unfold record
    dsimp only
    cases howner : l.owner? x with
    | none =>
      refine ⟨rfl, rfl, Nat.le_refl _, fun _ _ _ _ => Iff.rfl, fun g _ _ y => ?_⟩
      have hnone : l.assigned? g y (.assign x v) = none := by
        rw [Option.eq_none_iff_forall_ne_some]
        intro w hw
        obtain ⟨⟨⟩, hc⟩ := assigned?_eq_some_iff.mp hw
        rw [howner] at hc
        cases hc
      simp [lastAssigned?, hnone]
    | some f =>
      refine ⟨rfl, rfl, Nat.le_refl _, fun _ _ _ _ => Iff.rfl, fun g _ _ y => ?_⟩
      dsimp only
      rw [latest?_write, lastAssigned?, lastAssigned?, Option.none_or]
      -- the owner's entry is the one that was assigned, every other one is as it was
      by_cases hc : g = f ∧ y = x
      · obtain ⟨rfl, rfl⟩ := hc
        have hnow : l.assigned? g y (.assign y v) = some v := assigned?_eq_some_iff.mpr ⟨rfl, howner⟩
        rw [if_pos ⟨rfl, rfl⟩, hnow]
        rfl
      · have hnone : l.assigned? g y (.assign x v) = none := by
          rw [Option.eq_none_iff_forall_ne_some]
          intro w hw
          obtain ⟨⟨⟩, hg⟩ := assigned?_eq_some_iff.mp hw
          rw [howner] at hg
          cases hg
          exact hc ⟨rfl, rfl⟩
        rw [if_neg hc, hnone]
        rfl

/-- Steps one after the other: the assignments of both count. -/
theorem spares_append {l' l'' : Ledger} {later : List Step} (h : l.Spares l' steps) (h' : l'.Spares l'' later)
    (hl' : l' = l.after steps) : l.Spares l'' (steps ++ later) where
  innermost := h'.innermost.trans h.innermost
  around := h'.around.trans h.around
  opened := Nat.le_trans h.opened h'.opened
  declares g hg hne x :=
    (h'.declares g (Nat.lt_of_lt_of_le hg h.opened) (by rwa [h.innermost]) x).trans (h.declares g hg hne x)
  latest g hg hne x := by
    rw [h'.latest g (Nat.lt_of_lt_of_le hg h.opened) (by rwa [h.innermost]) x, h.latest g hg hne x,
      lastAssigned?_append, Option.or_assoc, hl']

/-- A frame is opened, and closed again after steps that spare the frames around it. No frame that was there has been the
innermost one in between. -/
theorem closed_spares {inner : List Step} (h : (l.record .push).Spares ((l.record .push).after inner) inner) :
    let l' := l.after (.push :: (inner ++ [.pop]))
    l'.innermost = l.innermost ∧ l'.around = l.around ∧ l.opened ≤ l'.opened ∧
      ∀ g < l.opened, ∀ x, (l'.Declares g x ↔ l.Declares g x) ∧
        l'.latest? g x = (lastAssigned? g x l (.push :: (inner ++ [.pop]))).or (l.latest? g x) := by
  intro l'
  have hl' : l' = ((l.record .push).after inner).record .pop := by
    change (l.record .push).after (inner ++ [.pop]) = _
    rw [after_append]
    rfl
  have haround : ((l.record .push).after inner).around = l.innermost :: l.around := h.around
  have hpop : l' = { (l.record .push).after inner with innermost := l.innermost, around := l.around } := by
    rw [hl']
    generalize (l.record .push).after inner = m at haround ⊢
    simp [record, haround]
  rw [hpop]
  refine ⟨rfl, rfl, Nat.le_trans (Nat.le_succ _) h.opened, fun g hg x => ?_⟩
  -- the new frame has a number that no frame had before
  have hlt : g < (l.record .push).opened := Nat.lt_succ_of_lt hg
  have hne : g ≠ (l.record .push).innermost := Nat.ne_of_lt hg
  refine ⟨h.declares g hlt hne x, ?_⟩
  have hlast : lastAssigned? g x l (.push :: (inner ++ [.pop])) = lastAssigned? g x (l.record .push) inner := by
    rw [lastAssigned?, lastAssigned?_append]
    simp [lastAssigned?, assigned?]
  rw [hlast]
  exact h.latest g hlt hne x

/-- Balanced steps leave the outer frames as they were, but for the last assignments, by induction on their structure.
-/
theorem spares_of_balanced (hs : Balanced steps) (l : Ledger) : l.Spares (l.after steps) steps := by
  induction hs generalizing l with
  | nil => exact ⟨rfl, rfl, Nat.le_refl _, fun _ _ _ _ => Iff.rfl, fun _ _ _ _ => rfl⟩
  | @quiet step steps hpush hpop _ ih => exact spares_append (record_spares hpush hpop) (ih _) rfl
  | @nested inner steps _ _ ihi ih =>
    have hsplit : Step.push :: (inner ++ .pop :: steps) = (.push :: (inner ++ [.pop])) ++ steps := by simp
    obtain ⟨hinnermost, haround, hopened, hframes⟩ := closed_spares (ihi (l.record .push))
    rw [hsplit, after_append]
    refine spares_append ⟨hinnermost, haround, hopened, ?_, ?_⟩ (ih _) rfl
    · exact fun g hg _ x => (hframes g hg x).1
    · exact fun g hg _ x => (hframes g hg x).2

end Ledger

/-- The law of scopes, after any steps from the global frame alone. (1) The frames around the innermost one are those that
are still open. (2) A name has the value that was last written to it in the innermost open frame that declares it; (3) it
has none if and only if no open frame declares it. (4) A name can be assigned to if and only if it has a value. (5) What
fails changes nothing. (6) An assignment changes the binding that would have been read, and no other. (7) When a frame is
opened and, after balanced steps, closed again, the scope is back in the frame where it was; all frames that there were
declare the names that they declared, and a name in them has the value that was last assigned to it in between, while that
frame was the innermost open one to declare it, or else its old value. -/
theorem agrees_with_ledger (before : List Step) :
    let s := start.after before
    let l := Ledger.start.after before
    s.heap.chain s.frame = l.live ∧
    (∀ x v, s.get? x = some v ↔ ∃ f inner outer newer older,
      l.live = inner ++ f :: outer ∧ l.Declares f x ∧ (∀ g ∈ inner, ¬ l.Declares g x) ∧
      l.entries = newer ++ ⟨f, x, v⟩ :: older ∧ ∀ e ∈ newer, ¬ (e.frame = f ∧ e.name = x)) ∧
    (∀ x, s.get? x = none ↔ ∀ f ∈ l.live, ¬ l.Declares f x) ∧
    (∀ x v, s.assign? x v = none ↔ s.get? x = none) ∧
    (∀ x v, s.get? x = none → s.perform (.get x) = s ∧ s.perform (.assign x v) = s) ∧
    (∀ x v s', s.assign? x v = some s' → s.perform (.assign x v) = s' ∧ s'.frame = s.frame ∧
      s'.heap.frames.size = s.heap.frames.size ∧ (∀ g, s'.heap.enclosing? g = s.heap.enclosing? g) ∧
      ∃ f old, s.heap.resolve? x s.frame = some (f, old) ∧ s.get? x = some old ∧
        ∀ g y, (s'.heap.vars g).get? y = if g = f ∧ y = x then some v else (s.heap.vars g).get? y) ∧
    ∀ steps, Balanced steps → (s.after (.push :: (steps ++ [.pop]))).frame = s.frame ∧
      ∀ g < s.heap.frames.size, ∀ x,
        (x ∈ (s.after (.push :: (steps ++ [.pop]))).heap.names g ↔ x ∈ s.heap.names g) ∧
        ((s.after (.push :: (steps ++ [.pop]))).heap.vars g).get? x =
          (Ledger.lastAssigned? g x l (.push :: (steps ++ [.pop]))).or ((s.heap.vars g).get? x) := by
  intro s l
  have h : s.Follows l := start_follows.after before
  refine ⟨h.chain, fun x v => ?_, fun x => ?_, fun x v => ?_, fun x v hx => ⟨rfl, ?_⟩, fun x v s' hs' => ?_, ?_⟩
  -- a read gives what was last written where the name is found first, going outwards
  · rw [h.get?_eq_some_iff]
    constructor
    · rintro ⟨f, howner, hlatest⟩
      obtain ⟨inner, outer, hlive, hf, hinner⟩ := Ledger.owner?_eq_some_iff.mp howner
      obtain ⟨newer, older, hentries, hnewer⟩ := Ledger.latest?_eq_some_iff.mp hlatest
      exact ⟨f, inner, outer, newer, older, hlive, hf, hinner, hentries, hnewer⟩
    · rintro ⟨f, inner, outer, newer, older, hlive, hf, hinner, hentries, hnewer⟩
      exact ⟨f, Ledger.owner?_eq_some_iff.mpr ⟨inner, outer, hlive, hf, hinner⟩,
        Ledger.latest?_eq_some_iff.mpr ⟨newer, older, hentries, hnewer⟩⟩
  · rw [h.get?_eq_none_iff, Ledger.owner?_eq_none_iff]
  · rw [h.get?_eq_none_iff, h.assign?_eq, Option.map_eq_none_iff]
  · rw [h.get?_eq_none_iff] at hx
    simp [perform, h.assign?_eq, hx]
  -- an assignment that succeeds writes in the one frame that owns the name
  · have hassign := hs'
    rw [h.assign?_eq, Option.map_eq_some_iff] at hassign
    obtain ⟨f, howner, rfl⟩ := hassign
    obtain ⟨old, hold⟩ := h.latest?_of_owner? howner
    have hget : s.get? x = some old := h.get?_eq_some_iff.mpr ⟨f, howner, hold⟩
    have hresolve : s.heap.resolve? x s.frame = some (f, old) := by simp [h.resolve?, howner, hold]
    have hlt : f < s.heap.frames.size := by
      rw [h.size]
      obtain ⟨inner, outer, hlive, -⟩ := Ledger.owner?_eq_some_iff.mp howner
      exact h.live_lt (by simp [hlive])
    refine ⟨by simp [perform, hs'], rfl, Heap.frames_define, fun g => Heap.enclosing?_define, f, old, hresolve, hget, ?_⟩
    exact Heap.get?_define hlt v
  -- behind a block only the assignments made in it are left of it
  · intro steps hsteps
    have hclosed := h.after (.push :: (steps ++ [.pop]))
    have hspares := Ledger.closed_spares (Ledger.spares_of_balanced hsteps (l.record .push))
    obtain ⟨hinnermost, -, -, hframes⟩ := hspares
    refine ⟨hclosed.frame.trans (hinnermost.trans h.frame.symm), fun g hg x => ?_⟩
    obtain ⟨hdeclares, hlatest⟩ := hframes g (by rwa [← h.size]) x
    have hnames {s : Scope} {l : Ledger} (h : s.Follows l) : x ∈ s.heap.names g ↔ l.Declares g x := by
      rw [h.declared, ← h.values]
      exact Bindings.isSome_get?_iff.symm
    refine ⟨?_, ?_⟩
    · rw [hnames hclosed, hnames h, hdeclares]
    · rw [hclosed.values, hlatest, h.values]

/-- A name is bound in the global frame and again in a frame inside it; then steps inside two more frames assign to it,
bind it there, and assign to it again. -/
theorem agrees_with_ledger_shadowed :
    let a : Text := [97]
    let s := start.after [.define a (.bool true), .push, .define a .nil]
    let steps : List Step := [.push, .assign a (.bool false), .pop, .define a .nil, .assign a (.bool true), .get a]
    Balanced steps ∧ s.get? a = some .nil ∧ s.heap.frames.size = 2 ∧
    ((s.after (.push :: (steps ++ [.pop]))).heap.vars 1).get? a = some (.bool false) ∧
    ((s.after (.push :: (steps ++ [.pop]))).heap.vars 0).get? a = some (.bool true) := by
  intro a s steps
  have hinner : Balanced [.assign a (.bool false)] := .quiet (by simp) (by simp) .nil
  have hsteps : Balanced steps :=
    .nested hinner (.quiet (by simp) (by simp) (.quiet (by simp) (by simp) (.quiet (by simp) (by simp) .nil)))
  obtain ⟨-, hget, -, -, -, -, hclosed⟩ := agrees_with_ledger [.define a (.bool true), .push, .define a .nil]
  obtain ⟨-, hframes⟩ := hclosed steps hsteps
  refine ⟨hsteps, (hget a .nil).mpr ⟨1, [], [0], [], _, rfl, List.mem_cons_self, by simp, rfl, by simp⟩, rfl, ?_, ?_⟩
  · exact (hframes 1 (by decide) a).2
  · exact (hframes 0 (by decide) a).2

end Lox.Scope
