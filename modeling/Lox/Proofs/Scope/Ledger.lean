import Lox.Proofs.Heap.Chain
import Lox.Proofs.Heap.Names
import Lox.Scope

/-! The law of scopes. A scope is used in steps: frames are opened and closed, and names are bound, changed and read. A
ledger says what must come of the steps without looking at a heap: which frames are open, which names each frame declares,
and what has been written where. After any steps a scope is as its ledger says. -/
namespace Lox

namespace Heap

variable {h : Heap} {i : FrameId} {x : Text}

/-- Binding a name in a frame that there is changes that binding and nothing else. -/
theorem get?_define (hi : i < h.frames.size) (v : Value) (j : FrameId) (y : Text) :
    ((h.define i x v).vars j).get? y = if j = i ∧ y = x then some v else (h.vars j).get? y := by
  by_cases hij : j = i
  · subst hij
    rw [vars_define_self hi]
    by_cases hy : y = x
    · rw [if_pos ⟨rfl, hy⟩, hy, Bindings.get?_insert_self]
    · rw [if_neg fun hc => hy hc.2, Bindings.get?_insert_of_ne _ _ hy]
  · rw [if_neg fun hc => hij hc.1, vars_define_of_ne fun hc => hij hc.symm]

end Heap

namespace Scope

/-! ### Steps and ledgers -/

inductive Step where
  | push
  | pop
  | define (name : Text) (value : Value)
  | assign (name : Text) (value : Value)
  | get (name : Text)

def perform (s : Scope) : Step → Scope
  | .push => s.push
  | .pop => s.pop
  | .define x v => s.define x v
  | .assign x v => (s.assign? x v).getD s
  | .get _ => s

def after (s : Scope) (steps : List Step) : Scope := steps.foldl perform s

structure Entry where
  frame : FrameId
  name : Text
  value : Value

/-- What has come of steps. Frames are numbered in the order in which they are opened. -/
structure Ledger where
  innermost : FrameId
  /-- The open frames around the innermost one, from the inside. -/
  around : List FrameId
  /-- The number of frames that have ever been opened. -/
  opened : Nat
  /-- Which names have been defined while a frame was the innermost one. -/
  declared : List (FrameId × Text)
  /-- All that has been written, the latest first. -/
  entries : List Entry

namespace Ledger

def start : Ledger := ⟨Heap.globalFrame, [], 1, [], []⟩

/-- The open frames, from the inside. -/
def live (l : Ledger) : List FrameId := l.innermost :: l.around

def Declares (l : Ledger) (f : FrameId) (x : Text) : Prop := (f, x) ∈ l.declared

instance (l : Ledger) (f : FrameId) (x : Text) : Decidable (l.Declares f x) :=
  inferInstanceAs (Decidable (_ ∈ l.declared))

/-- The innermost open frame that declares a name. -/
def owner? (l : Ledger) (x : Text) : Option FrameId := l.live.find? fun f => l.Declares f x

def latest? (l : Ledger) (f : FrameId) (x : Text) : Option Value :=
  (l.entries.find? fun e => e.frame = f ∧ e.name = x).map (·.value)

def write (l : Ledger) (f : FrameId) (x : Text) (v : Value) : Ledger := { l with entries := ⟨f, x, v⟩ :: l.entries }

/-- A definition declares its name in the innermost frame; an assignment writes where the name is declared, if anywhere.
The global frame is never closed. -/
def record (l : Ledger) : Step → Ledger
  | .push => { l with innermost := l.opened, around := l.live, opened := l.opened + 1 }
  | .pop =>
    match l.around with
    | [] => l
    | f :: fs => { l with innermost := f, around := fs }
  | .define x v => { l.write l.innermost x v with declared := (l.innermost, x) :: l.declared }
  | .assign x v =>
    match l.owner? x with
    | some f => l.write f x v
    | none => l
  | .get _ => l

def after (l : Ledger) (steps : List Step) : Ledger := steps.foldl record l

variable {l : Ledger} {f g : FrameId} {x y : Text} {v : Value}

/-- What was written last is what counts, and nothing else changes. -/
theorem latest?_write : (l.write f x v).latest? g y = if g = f ∧ y = x then some v else l.latest? g y := by
  unfold latest? write
  rw [List.find?_cons]
  by_cases hc : f = g ∧ x = y
  · have hc' : g = f ∧ y = x := ⟨hc.1.symm, hc.2.symm⟩
    simp [hc']
  · have hc' : ¬ (g = f ∧ y = x) := fun h => hc ⟨h.1.symm, h.2.symm⟩
    simp [hc, hc']

/-- The latest value is that of the first entry for the name in the frame. -/
theorem latest?_eq_some_iff : l.latest? f x = some v ↔
    ∃ newer older, l.entries = newer ++ ⟨f, x, v⟩ :: older ∧ ∀ e ∈ newer, ¬ (e.frame = f ∧ e.name = x) := by
  unfold latest?
  rw [Option.map_eq_some_iff]
  constructor
  · rintro ⟨⟨f', x', v'⟩, hfind, rfl⟩
    obtain ⟨hp, newer, older, heq, hnewer⟩ := List.find?_eq_some_iff_append.mp hfind
    obtain ⟨rfl, rfl⟩ : f' = f ∧ x' = x := by simpa using hp
    refine ⟨newer, older, heq, fun e he hc => ?_⟩
    have hne := hnewer e he
    simp [hc] at hne
  · rintro ⟨newer, older, heq, hnewer⟩
    refine ⟨⟨f, x, v⟩, List.find?_eq_some_iff_append.mpr ⟨by simp, newer, older, heq, fun e he => ?_⟩, rfl⟩
    rw [decide_eq_false (hnewer e he)]
    rfl

/-- A name has no owner if no open frame declares it. -/
theorem owner?_eq_none_iff : l.owner? x = none ↔ ∀ f ∈ l.live, ¬ l.Declares f x := by
  unfold owner?
  rw [List.find?_eq_none]
  simp

/-- The owner of a name is the innermost open frame that declares it. -/
theorem owner?_eq_some_iff : l.owner? x = some f ↔
    ∃ inner outer, l.live = inner ++ f :: outer ∧ l.Declares f x ∧ ∀ g ∈ inner, ¬ l.Declares g x := by
  unfold owner?
  rw [List.find?_eq_some_iff_append]
  constructor
  · rintro ⟨hf, inner, outer, heq, hinner⟩
    exact ⟨inner, outer, heq, of_decide_eq_true hf, fun g hg => by simpa using hinner g hg⟩
  · rintro ⟨inner, outer, heq, hf, hinner⟩
    exact ⟨decide_eq_true hf, inner, outer, heq, fun g hg => by simpa using hinner g hg⟩

end Ledger

/-! ### A scope and its ledger -/

structure Follows (s : Scope) (l : Ledger) : Prop where
  size : s.heap.frames.size = l.opened
  chain : s.heap.chain s.frame = l.live
  lt : s.frame < l.opened
  values : ∀ f x, (s.heap.vars f).get? x = l.latest? f x
  declared : ∀ f x, l.Declares f x ↔ (l.latest? f x).isSome = true

theorem start_follows : start.Follows .start where
  size := rfl
  chain := Heap.chain_of_none rfl
  lt := Nat.zero_lt_one
  values f x := by
    cases f with
    | zero => rfl
    | succ f => rfl
  declared f x := by simp [Ledger.Declares, Ledger.start, Ledger.latest?]

variable {s : Scope} {l : Ledger} {x : Text} {v : Value} {f : FrameId}

theorem Follows.frame (h : s.Follows l) : s.frame = l.innermost := by
  have hchain := h.chain
  rw [Heap.chain] at hchain
  exact (List.cons.inj hchain).1

theorem Follows.live_lt (h : s.Follows l) (hf : f ∈ l.live) : f < l.opened := by
  rw [← h.chain] at hf
  exact Nat.lt_of_le_of_lt (Heap.le_of_mem_chain hf) h.lt

/-- A name is found in the innermost open frame that declares it, with what was written there last. -/
theorem Follows.resolve? (h : s.Follows l) (x : Text) :
    s.heap.resolve? x s.frame = (l.owner? x).bind fun f => (l.latest? f x).map (f, ·) := by
  rw [Heap.resolve?_eq_findSome?, h.chain, Ledger.owner?]
  simp only [h.values]
  generalize l.live = fs
  induction fs with
  | nil => rfl
  | cons f fs ih =>
    rw [List.findSome?_cons, List.find?_cons]
    have hf := h.declared f x
    cases hv : l.latest? f x with
    | some w =>
      have hd : l.Declares f x := hf.mpr (by rw [hv]; rfl)
      simp [hd, hv]
    | none =>
      have hd : ¬ l.Declares f x := by
        intro hd
        rw [hf, hv] at hd
        cases hd
      simpa [hd] using ih

/-- A name has the value that was written last where it is declared. -/
theorem Follows.get?_eq_some_iff (h : s.Follows l) :
    s.get? x = some v ↔ ∃ f, l.owner? x = some f ∧ l.latest? f x = some v := by
  unfold Scope.get? Heap.get?
  rw [h.resolve? x]
  cases l.owner? x with
  | none => simp
  | some f => simp

theorem Follows.latest?_of_owner? (h : s.Follows l) (hf : l.owner? x = some f) : ∃ v, l.latest? f x = some v := by
  obtain ⟨_, _, _, hd, _⟩ := Ledger.owner?_eq_some_iff.mp hf
  exact Option.isSome_iff_exists.mp ((h.declared f x).mp hd)

/-- A name has no value if no open frame declares it. -/
theorem Follows.get?_eq_none_iff (h : s.Follows l) : s.get? x = none ↔ l.owner? x = none := by
  constructor
  · intro hget
    cases hf : l.owner? x with
    | none => rfl
    | some f =>
      obtain ⟨v, hv⟩ := h.latest?_of_owner? hf
      have hsome : s.get? x = some v := h.get?_eq_some_iff.mpr ⟨f, hf, hv⟩
      rw [hget] at hsome
      cases hsome
  · intro hf
    unfold Scope.get? Heap.get?
    rw [h.resolve? x, hf]
    rfl

/-- An assignment binds the name anew where it is declared. -/
theorem Follows.assign?_eq (h : s.Follows l) (x : Text) (v : Value) :
    s.assign? x v = (l.owner? x).map fun f => { s with heap := s.heap.define f x v } := by
  unfold Scope.assign? Heap.assign?
  rw [h.resolve? x]
  cases hf : l.owner? x with
  | none => rfl
  | some f =>
    obtain ⟨w, hw⟩ := h.latest?_of_owner? hf
    simp [hw]

/-! ### One step and many -/

/-- A write to a frame that has been opened, whether or not it declares the name. -/
theorem Follows.write (h : s.Follows l) (hf : f < l.opened) (x : Text) (v : Value) (declared : List (FrameId × Text))
    (hd : ∀ g y, (g, y) ∈ declared ↔ (g = f ∧ y = x) ∨ l.Declares g y) :
    Follows { s with heap := s.heap.define f x v } { l.write f x v with declared := declared } where
  size := Heap.frames_define.trans h.size
  chain := (Heap.chain_congr fun _ _ => Heap.enclosing?_define).trans h.chain
  lt := h.lt
  values g y := by
    have hsize : f < s.heap.frames.size := by rw [h.size]; exact hf
    rw [Heap.get?_define hsize, h.values]
    exact Ledger.latest?_write.symm
  declared g y := by
    change (g, y) ∈ declared ↔ ((l.write f x v).latest? g y).isSome = true
    rw [hd, Ledger.latest?_write]
    by_cases hc : g = f ∧ y = x
    · simp [hc]
    · rw [if_neg hc, ← h.declared]
      simp [hc]

/-- A frame that is opened gets the next number. -/
theorem Follows.push (h : s.Follows l) : (s.perform .push).Follows (l.record .push) where
  size := by
    change (s.heap.pushFrame s.frame []).2.frames.size = l.opened + 1
    rw [Heap.frames_pushFrame, h.size]
  chain := by
    change (s.heap.pushFrame s.frame []).2.chain s.heap.frames.size = l.opened :: l.live
    have hlt : s.frame < s.heap.frames.size := by rw [h.size]; exact h.lt
    rw [Heap.chain_of_enclosing? (Heap.enclosing?_pushFrame_self hlt), ← h.size, ← h.chain]
    have hold : (s.heap.pushFrame s.frame []).2.chain s.frame = s.heap.chain s.frame := by
      apply Heap.chain_congr
      intro j hj
      exact Heap.enclosing?_pushFrame_of_ne (Nat.ne_of_lt (Nat.lt_of_le_of_lt hj hlt))
    rw [hold]
  lt := by
    change s.heap.frames.size < l.opened + 1
    rw [h.size]
    exact Nat.lt_succ_self _
  values f x := by
    change ((s.heap.pushFrame s.frame []).2.vars f).get? x = l.latest? f x
    rw [← h.values]
    by_cases hf : f = s.heap.frames.size
    · rw [hf, Heap.vars_pushFrame_self, Heap.vars_size]
    · rw [Heap.vars_pushFrame_of_ne hf]
  declared := h.declared

/-- When a frame is closed the ledger forgets nothing; the frame is not open any more. -/
theorem Follows.pop (h : s.Follows l) : (s.perform .pop).Follows (l.record .pop) := by
  have hframe := h.frame
  have hchain := h.chain
  unfold Ledger.live at hchain
  cases he : s.heap.enclosing? s.frame with
  | none =>
    -- the global frame stays open
    have hstay : s.perform .pop = s := by simp [perform, Scope.pop, he]
    rw [Heap.chain_of_none he] at hchain
    have haround : l.around = [] := (List.cons.inj hchain).2.symm
    have hsame : l.record .pop = l := by simp [Ledger.record, haround]
    rw [hstay, hsame]
    exact h
  | some j =>
    have hout : s.perform .pop = { s with frame := j } := by simp [perform, Scope.pop, he]
    rw [Heap.chain_of_enclosing? he] at hchain
    have haround : s.heap.chain j = l.around := (List.cons.inj hchain).2
    obtain ⟨fs, hfs⟩ : ∃ fs, s.heap.chain j = j :: fs := ⟨_, by rw [Heap.chain]⟩
    rw [hfs] at haround
    have hrecord : l.record .pop = { l with innermost := j, around := fs } := by simp [Ledger.record, ← haround]
    rw [hout, hrecord]
    refine ⟨h.size, hfs, ?_, h.values, h.declared⟩
    exact Nat.lt_trans (Heap.lt_of_enclosing? he) h.lt

/-- A scope goes on as its ledger does. -/
theorem Follows.perform (h : s.Follows l) (step : Step) : (s.perform step).Follows (l.record step) := by
  cases step with
  | push => exact h.push
  | pop => exact h.pop
  | define x v =>
    have hwrite := h.write (h.live_lt List.mem_cons_self) x v ((l.innermost, x) :: l.declared)
      fun g y => by rw [List.mem_cons, Prod.mk.injEq]; rfl
    rw [← h.frame] at hwrite
    have hrecord : l.record (.define x v) = { l.write s.frame x v with declared := (s.frame, x) :: l.declared } := by
      rw [h.frame]
      rfl
    rw [hrecord]
    exact hwrite
  | assign x v =>
    unfold Scope.perform Ledger.record
    dsimp only
    rw [h.assign?_eq x v]
    cases hf : l.owner? x with
    | none => exact h
    | some f =>
      obtain ⟨inner, outer, hlive, hd, -⟩ := Ledger.owner?_eq_some_iff.mp hf
      have hmem : f ∈ l.live := by simp [hlive]
      refine h.write (h.live_lt hmem) x v l.declared fun g y => ?_
      constructor
      · exact Or.inr
      · rintro (⟨rfl, rfl⟩ | hg)
        · exact hd
        · exact hg
  | get x => exact h

/-- A scope that is as the ledger says stays so, step by step. -/
theorem Follows.after (h : s.Follows l) (steps : List Step) : (s.after steps).Follows (l.after steps) := by
  induction steps generalizing s l with
  | nil => exact h
  | cons step steps ih => exact ih (h.perform step)

end Scope
end Lox
