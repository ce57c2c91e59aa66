import Lox.Proofs.Heap.Reach
import Lox.Proofs.Run.ExecAlike

/-! Runs are local. What is run in a frame neither changes nor looks at any cell that cannot be reached from that frame,
so that functions and instances that share nothing do not interfere. -/
namespace Lox

variable {α : Type} {i : FrameId}

namespace Run

/-- The run does not depend on what cannot be reached from the frame `i`, and does not change it, however it ends. -/
structure Local (i : FrameId) (r : Run α) : Prop where
  unchanged : ∀ (m : Machine) (c : Cell), m.heap.Has c → ¬ m.heap.Reaches i c → m.heap.SameAt (machine (r m)).heap c
  /-- No cell that was there comes into reach. -/
  confined : ∀ (m : Machine) (c : Cell), m.heap.Has c → (machine (r m)).heap.Reaches i c → m.heap.Reaches i c
  /-- From a machine with other contents out of reach the run writes the same, ends in the same way, and leaves the
  same contents in all that was in reach or is new. -/
  oblivious : ∀ m m' : Machine, m.heap.SameSize m'.heap → (∀ c, m.heap.Reaches i c → m.heap.SameAt m'.heap c) →
    exit (r m') = exit (r m) ∧
    (∃ new, (machine (r m)).lines = new ++ m.lines ∧ (machine (r m')).lines = new ++ m'.lines) ∧
    (machine (r m)).heap.SameSize (machine (r m')).heap ∧
    ∀ c, (m.heap.Has c → m.heap.Reaches i c) → (machine (r m)).heap.SameAt (machine (r m')).heap c

/-- Runs that are alike on what stands for itself end with the same fault. -/
theorem eq_of_halt_alike {h : Heap} {e e' : Halt} (he : e.Alike (h.reach i) e') : e' = e := by
  cases e with
  | fault f =>
    obtain ⟨f', rfl, hf⟩ := he
    obtain ⟨cause, token, pos⟩ := f
    obtain ⟨cause', token', pos'⟩ := f'
    obtain ⟨hcause, htoken, hpos⟩ := hf
    cases hcause
    cases htoken
    cases hpos
    rfl
  | stuck => exact he
  | exhausted => exact he

theorem eq_of_flow_alike {h : Heap} {a a' : Flow} (ha : a.Alike (h.reach i) a') : a' = a := by
  cases a with
  | next => exact ha
  | broke => exact ha
  | returned v =>
    obtain ⟨v', rfl, hv⟩ := ha
    rw [(Heap.live_of_value_alike hv).1]

variable {κ : Correspondence} {Q : α → α → Prop} {m m' : Machine}

/-- A run that does the same as itself, from all heaps in which the same is reachable from `i`. -/
theorem local_of_alike {r : Run α} {Q : Heap → α → α → Prop} (hr : ∀ h : Heap, Alike (h.reach i) (Q h) r r)
    (hq : ∀ h a a', Q h a a' → a' = a) : Local i r := by
  -- one run beside itself tells what it leaves alone
  have hself (m : Machine) : Ends (m.heap.reach i) (Q m.heap) m m (r m) (r m) ∧
      m.heap.SameOutside (m.heap.reach i) (machine (r m)).heap := by
    apply hr m.heap m m
    exact Heap.alike_of_sameAt ⟨rfl, rfl, rfl⟩ fun c _ => Heap.sameAt_refl m.heap c
  refine ⟨fun m c hhas hc => ?_, fun m c hhas hc => ?_, fun m m' hs hsame => ?_⟩
  · exact Heap.sameAt_of_sameOutside (hself m).2 hhas hc
  · exact Heap.live_of_reaches (together_of_ends (hself m).1).heap hc hhas
  · have hends := (hr m.heap m m' (Heap.alike_of_sameAt hs hsame)).1
    have ht := together_of_ends hends
    have hexit : exit (r m') = exit (r m) := by
      match r m, r m', hends with
      | .ok a n, .ok a' n', .ok _ ha => rw [hq m.heap a a' ha]; rfl
      | .error e n, .error e' n', .error _ he => rw [eq_of_halt_alike he]; rfl
    exact ⟨hexit, ht.lines, Heap.sameSize_of_alike ht.heap, fun c hc => Heap.sameAt_of_alike ht.heap hc⟩

/-- What is run in a frame is local to it. -/
theorem scope_local (policy : Policy) (fuel depth turns : Nat) (i : FrameId) :
    (∀ e : Expr, Local i (e.eval (call policy fuel depth) i)) ∧
    ∀ s : Stmt, Local i (s.exec policy (call policy fuel depth) turns i) := by
  have hi (h : Heap) : (h.reach i).own i i := ⟨rfl, fun _ => .scope⟩
  have hcall (h : Heap) : Caller.Alike (h.reach i) (call policy fuel depth) (call policy fuel depth) :=
    call_alike rfl fuel depth
  have hplace (h : Heap) (p : Pos) : (h.reach i).place p p := rfl
  constructor
  · intro e
    apply local_of_alike (Q := fun h => Value.Alike (h.reach i))
    · intro h
      exact eval_alike (hcall h) (.inl (hi h)) e (expr_alike_refl (hplace h) e)
    · intro h v v' hv
      exact (Heap.live_of_value_alike hv).1
  · intro s
    apply local_of_alike (Q := fun h => Flow.Alike (h.reach i))
    · intro h
      exact exec_alike (hcall h) s (stmt_alike_refl (hplace h) s) (.inl (hi h)) (.inl (hi h))
    · intro h a a' ha
      exact eq_of_flow_alike ha

end Run
end Lox
