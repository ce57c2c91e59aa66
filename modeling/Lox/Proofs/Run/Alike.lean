import Lox.Proofs.Heap.Correspondence
import Lox.Proofs.Run.Logic

/-! Two runs side by side. They start from heaps that hold the same and do the same: they write the same lines, end in
the same way, and leave heaps that hold the same. The log may differ, since it tells of frames and places. -/
namespace Lox

variable {κ : Correspondence} {α α' β β' : Type}

section value

variable {v v' w w' : Value}

theorem truthy_alike (hv : v.Alike κ v') : v'.truthy = v.truthy := by
  cases v with
  | nil | bool | number | string =>
    cases hv
    rfl
  | function | classValue | object =>
    obtain ⟨_, rfl, -⟩ := hv
    rfl

/-- Values that are alike are printed alike. -/
theorem toText_alike (hv : v.Alike κ v') : v'.toText = v.toText := by
  cases v with
  | nil | bool | number | string =>
    cases hv
    rfl
  | function f =>
    obtain ⟨f', rfl, hf⟩ := hv
    obtain ⟨hname, -⟩ := Stmt.alikeDecl_iff.mp hf.decl
    simp only [Value.toText, hname.1]
  | classValue c =>
    obtain ⟨c', rfl, hc⟩ := hv
    exact hc.name
  | object c id =>
    obtain ⟨c', rfl, -, hc⟩ := hv
    simp only [Value.toText, hc.name]

/-- Equality does not tell heaps that hold the same apart, since functions and classes are compared by their numbers. -/
theorem equal_alike (hv : v.Alike κ v') (hw : w.Alike κ w') : v'.equal w' = v.equal w := by
  cases v with
  | nil | bool | number | string =>
    cases hv
    cases w with
    | nil | bool | number | string =>
      cases hw
      rfl
    | function | classValue | object =>
      obtain ⟨_, rfl, -⟩ := hw
      rfl
  | function f =>
    obtain ⟨f', rfl, hf⟩ := hv
    cases w with
    | nil | bool | number | string =>
      cases hw
      rfl
    -- closures are compared by serial number, and those are the same on both sides
    | function g =>
      obtain ⟨g', rfl, hg⟩ := hw
      simp only [Value.equal, hf.serial, hg.serial]
    | classValue | object =>
      obtain ⟨_, rfl, -⟩ := hw
      rfl
  | classValue c =>
    obtain ⟨c', rfl, hc⟩ := hv
    cases w with
    | nil | bool | number | string =>
      cases hw
      rfl
    | classValue d =>
      obtain ⟨d', rfl, hd⟩ := hw
      simp only [Value.equal, hc.serial, hd.serial]
    | function | object =>
      obtain ⟨_, rfl, -⟩ := hw
      rfl
  | object c id =>
    obtain ⟨c', rfl, -⟩ := hv
    cases w with
    | nil | bool | number | string =>
      cases hw
      rfl
    | function | classValue | object =>
      obtain ⟨_, rfl, -⟩ := hw
      rfl

theorem isDecidedBy_alike (op : LogicalOp) (hv : v.Alike κ v') : op.isDecidedBy v' = op.isDecidedBy v := by
  cases op <;> simp only [LogicalOp.isDecidedBy, truthy_alike hv]

end value

section callable

variable {c c' : Class} {x : Text}

/-- The last method of a name in the one class is that in the other. -/
theorem method?_alike (hc : c.Alike κ c') (x : Text) :
    Option.Rel (Stmt.AlikeDecl κ.place) (c.method? x) (c'.method? x) := by
  have hfind (ds ds' : List FunctionDecl) (hd : List.Forall₂ (Stmt.AlikeDecl κ.place) ds ds') :
      Option.Rel (Stmt.AlikeDecl κ.place) (ds.find? (·.name.text = x)) (ds'.find? (·.name.text = x)) := by
    induction hd with
    | nil => exact .none
    | @cons d d' ds ds' hd _ ih =>
      have hname : d'.name.text = d.name.text := (Stmt.alikeDecl_iff.mp hd).1.1
      rw [List.find?_cons, List.find?_cons, hname]
      cases decide (d.name.text = x) with
      | true => exact .some hd
      | false => exact ih
  unfold Class.method?
  exact hfind _ _ (List.forall₂_reverse_iff.mpr hc.methods)

theorem arity_alike (hc : c.Alike κ c') : c'.arity = c.arity := by
  unfold Class.arity
  match c.method? initName, c'.method? initName, method?_alike hc initName with
  | _, _, .some hd => exact (Stmt.alikeDecl_iff.mp hd).2.1.length_eq.symm
  | _, _, .none => rfl

def Callable.Alike (κ : Correspondence) : Callable → Callable → Prop
  | .function f, c' => ∃ f', c' = .function f' ∧ f.Alike κ f'
  | .classValue c, c' => ∃ k, c' = .classValue k ∧ c.Alike κ k

/-- What can be called can be called in the other heap. -/
theorem callable?_alike {v v' : Value} (hv : v.Alike κ v') :
    Option.Rel (Callable.Alike κ) v.callable? v'.callable? := by
  cases v with
  | nil | bool | number | string =>
    cases hv
    exact .none
  | function f =>
    obtain ⟨f', rfl, hf⟩ := hv
    exact .some ⟨f', rfl, hf⟩
  | classValue c =>
    obtain ⟨c', rfl, hc⟩ := hv
    exact .some ⟨c', rfl, hc⟩
  | object c id =>
    obtain ⟨c', rfl, -⟩ := hv
    exact .none

theorem callable_arity_alike {a a' : Callable} (ha : a.Alike κ a') : a'.arity = a.arity := by
  cases a with
  | function f =>
    obtain ⟨f', rfl, hf⟩ := ha
    exact (Stmt.alikeDecl_iff.mp hf.decl).2.1.length_eq.symm
  | classValue c =>
    obtain ⟨c', rfl, hc⟩ := ha
    exact arity_alike hc

end callable

def Event.isLine : Event → Bool
  | .log _ => false
  | _ => true

def Machine.lines (m : Machine) : List Event := m.events.filter Event.isLine

structure Fault.Alike (κ : Correspondence) (f f' : Fault) : Prop where
  cause : f'.cause = f.cause
  token : f'.token = f.token
  pos : κ.place f.pos f'.pos

def Halt.Alike (κ : Correspondence) : Halt → Halt → Prop
  | .fault f, e' => ∃ f', e' = .fault f' ∧ f.Alike κ f'
  | .stuck, e' => e' = .stuck
  | .exhausted, e' => e' = .exhausted

def Flow.Alike (κ : Correspondence) : Flow → Flow → Prop
  | .next, flow' => flow' = .next
  | .broke, flow' => flow' = .broke
  | .returned v, flow' => ∃ v', flow' = .returned v' ∧ v.Alike κ v'

namespace Run

/-- From `m` and `m'` two runs have come to `n` and `n'`, and they have written the same on their ways. -/
structure Together (κ : Correspondence) (m m' n n' : Machine) : Prop where
  heap : n.heap.Alike κ n'.heap
  lines : ∃ new, n.lines = new ++ m.lines ∧ n'.lines = new ++ m'.lines

/-- Two runs end in the same way; what they return is related by `Q`. -/
inductive Ends (κ : Correspondence) (Q : α → α' → Prop) (m m' : Machine) :
    EStateM.Result Halt Machine α → EStateM.Result Halt Machine α' → Prop
  | ok {a : α} {a' : α'} {n n' : Machine} (ht : Together κ m m' n n') (hq : Q a a') :
    Ends κ Q m m' (.ok a n) (.ok a' n')
  | error {e e' : Halt} {n n' : Machine} (ht : Together κ m m' n n') (he : e.Alike κ e') :
    Ends κ Q m m' (.error e n) (.error e' n')

/-- From heaps that hold the same the two runs do the same, and they touch nothing outside the correspondence. -/
def Alike (κ : Correspondence) (Q : α → α' → Prop) (r : Run α) (r' : Run α') : Prop :=
  ∀ m m' : Machine, m.heap.Alike κ m'.heap →
    Ends κ Q m m' (r m) (r' m') ∧ m.heap.SameOutside κ (machine (r m)).heap

variable {κ' : Correspondence} {m m' n n' o o' : Machine} {Q : α → α' → Prop} {R : β → β' → Prop}

theorem together_refl (hm : m.heap.Alike κ m'.heap) : Together κ m m' m m' := ⟨hm, [], rfl, rfl⟩

/-- What corresponds on the second part of the way may differ from what did on the first. -/
theorem together_trans (h : Together κ m m' n n') (h' : Together κ' n n' o o') : Together κ' m m' o o' := by
  obtain ⟨new, hn, hn'⟩ := h.lines
  obtain ⟨newer, ho, ho'⟩ := h'.lines
  refine ⟨h'.heap, newer ++ new, ?_, ?_⟩
  · rw [ho, hn, List.append_assoc]
  · rw [ho', hn', List.append_assoc]

theorem ends_trans {a : EStateM.Result Halt Machine α} {a' : EStateM.Result Halt Machine α'}
    (h : Together κ m m' n n') (ha : Ends κ' Q n n' a a') : Ends κ' Q m m' a a' := by
  cases ha with
  | ok ht hq => exact .ok (together_trans h ht) hq
  | error ht he => exact .error (together_trans h ht) he

/-- Two runs that end in the same way leave machines that have come there together. -/
theorem together_of_ends {a : EStateM.Result Halt Machine α} {a' : EStateM.Result Halt Machine α'}
    (ha : Ends κ Q m m' a a') : Together κ m m' (machine a) (machine a') := by
  cases ha with
  | ok ht _ => exact ht
  | error ht _ => exact ht

/-- Two runs in a row on either side. -/
theorem alike_bind {r : Run α} {r' : Run α'} {k : α → Run β} {k' : α' → Run β'} (hr : Alike κ Q r r')
    (hk : ∀ a a', Q a a' → Alike κ R (k a) (k' a')) : Alike κ R (r >>= k) (r' >>= k') := by
  intro m m' hm
  rw [bind_eq_match, bind_eq_match]
  match r m, r' m', hr m m' hm with
  | _, _, ⟨.ok ht hq, ho⟩ =>
    obtain ⟨hends, ho'⟩ := hk _ _ hq _ _ ht.heap
    exact ⟨ends_trans ht hends, Heap.sameOutside_trans ho ho'⟩
  | _, _, ⟨.error ht he, ho⟩ => exact ⟨.error ht he, ho⟩

theorem alike_pure {a : α} {a' : α'} (hq : Q a a') : Alike κ Q (pure a) (pure a') :=
  fun _ _ hm => ⟨.ok (together_refl hm) hq, Heap.sameOutside_refl _⟩

theorem alike_map {f : α → β} {f' : α' → β'} {r : Run α} {r' : Run α'} (hr : Alike κ Q r r')
    (hq : ∀ a a', Q a a' → R (f a) (f' a')) : Alike κ R (f <$> r) (f' <$> r') := by
  rw [map_eq_pure_bind, map_eq_pure_bind]
  exact alike_bind hr fun a a' ha => alike_pure (hq a a' ha)

/-- Statements in a row. -/
theorem alike_andThen {r r' k k' : Run Flow} (hr : Alike κ (Flow.Alike κ) r r') (hk : Alike κ (Flow.Alike κ) k k') :
    Alike κ (Flow.Alike κ) (andThen r k) (andThen r' k') := by
  refine alike_bind hr fun flow flow' hflow => ?_
  cases flow with
  | next =>
    cases hflow
    exact hk
  | broke =>
    cases hflow
    exact alike_pure rfl
  | returned v =>
    obtain ⟨v', rfl, hv⟩ := hflow
    exact alike_pure ⟨v', rfl, hv⟩

/-- A fault is blamed on the token that stands for the other's. -/
theorem alike_fault {cause cause' : Fault.Cause} {token : Text} {pos pos' : Pos} (hc : cause' = cause)
    (hp : κ.place pos pos') : Alike κ Q (fault cause token pos) (fault cause' token pos') :=
  fun _ _ hm => ⟨.error (together_refl hm) ⟨_, rfl, hc, rfl, hp⟩, Heap.sameOutside_refl _⟩

theorem alike_stuck : Alike κ Q stuck stuck :=
  fun _ _ hm => ⟨.error (together_refl hm) rfl, Heap.sameOutside_refl _⟩

theorem alike_exhausted : Alike κ Q exhausted exhausted :=
  fun _ _ hm => ⟨.error (together_refl hm) rfl, Heap.sameOutside_refl _⟩

/-- Reading the heaps; that they hold the same may be used from here on. -/
theorem alike_heap {k : Heap → Run β} {k' : Heap → Run β'}
    (hk : ∀ h h', h.Alike κ h' → Alike κ R (k h) (k' h')) : Alike κ R (heap >>= k) (heap >>= k') :=
  fun m m' hm => hk m.heap m'.heap hm m m' hm

theorem alike_modifyHeap {f f' : Heap → Heap} (hf : ∀ h h', h.Alike κ h' → (f h).Alike κ (f' h'))
    (ho : ∀ h : Heap, h.SameOutside κ (f h)) : Alike κ (fun _ _ => True) (modifyHeap f) (modifyHeap f') :=
  fun m _ hm => ⟨.ok ⟨hf _ _ hm, [], rfl, rfl⟩ trivial, ho m.heap⟩

theorem alike_alloc {f : Heap → α × Heap} {f' : Heap → α' × Heap}
    (hf : ∀ h h', h.Alike κ h' → Q (f h).1 (f' h').1 ∧ (f h).2.Alike κ (f' h').2 ∧ h.SameOutside κ (f h).2) :
    Alike κ Q (alloc f) (alloc f') := by
  intro m m' hm
  obtain ⟨hq, hh, ho⟩ := hf _ _ hm
  exact ⟨.ok ⟨hh, [], rfl, rfl⟩ hq, ho⟩

theorem alike_print (line : Text) : Alike κ (fun _ _ => True) (print line) (print line) :=
  fun _ _ hm => ⟨.ok ⟨hm, [.out line], rfl, rfl⟩ trivial, Heap.sameOutside_refl _⟩

/-- The log is not written for the user. -/
theorem lines_log (m : Machine) (policy : Policy) (severity : Severity) (entry : Heap → LogEntry) :
    (m.log policy severity entry).lines = m.lines := by
  unfold Machine.log
  split <;> rfl

/-- Log entries may differ, since they are no lines. -/
theorem alike_log (policy policy' : Policy) (severity : Severity) (entry entry' : Heap → LogEntry) :
    Alike κ (fun _ _ => True) (log policy severity entry) (log policy' severity entry') := by
  intro m m' hm
  refine ⟨.ok ⟨?_, [], lines_log _ _ _ _, lines_log _ _ _ _⟩ trivial, ?_⟩
  · rw [heap_log, heap_log]
    exact hm
  · have hm' : (machine (log policy severity entry m)).heap = m.heap := heap_log m policy severity entry
    rw [hm']
    exact Heap.sameOutside_refl _

/-- An entry that only the first run writes. -/
theorem alike_log_bind {policy : Policy} {severity : Severity} {entry : Heap → LogEntry} {k : Unit → Run α}
    {r' : Run α'} (hk : Alike κ Q (k ()) r') : Alike κ Q (log policy severity entry >>= k) r' := by
  intro m m' hm
  have hheap : (m.log policy severity entry).heap = m.heap := heap_log m policy severity entry
  have hlines : (m.log policy severity entry).lines = m.lines := lines_log m policy severity entry
  obtain ⟨hends, ho⟩ := hk (m.log policy severity entry) m' (by rw [hheap]; exact hm)
  have ht : Together κ m m' (m.log policy severity entry) m' := ⟨by rw [hheap]; exact hm, [], hlines, rfl⟩
  rw [hheap] at ho
  exact ⟨ends_trans ht hends, ho⟩

end Run
end Lox
