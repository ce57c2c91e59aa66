import Lox.Proofs.Run.Invariant
import Lox.Run.Eval

/-! Rules for runs. A run is safe from a heap if it keeps the invariant however it ends, and does not get stuck; what it
returns has a given property. A call is taken apart into the checks that let it in and the run of what is called. -/
namespace Lox

variable {α β : Type} {strict : Prop}

def Halt.Expected (strict : Prop) : Halt → Prop
  | .fault f => strict → ∀ x, f.cause ≠ .undefinedVariable x
  | .stuck => False
  | .exhausted => True

def Value.Basic : Value → Prop
  | nil | bool _ | number _ | string _ => True
  | function _ | classValue _ | object _ _ => False

theorem literal_basic (l : Literal) : (Value.ofLiteral l).Basic := by
  cases l <;> trivial

namespace Run

def exit : EStateM.Result Halt Machine α → Except Halt α
  | .ok a _ => .ok a
  | .error e _ => .error e

def machine : EStateM.Result Halt Machine α → Machine
  | .ok _ m => m
  | .error _ m => m

def Leaves (strict : Prop) (h : Heap) (Q : α → Heap → Prop) : EStateM.Result Halt Machine α → Prop
  | .ok a m => h.Extends m.heap ∧ m.heap.WellMade strict ∧ Q a m.heap
  | .error e m => h.Extends m.heap ∧ m.heap.WellMade strict ∧ e.Expected strict

/-- From a well made heap `h`, the run keeps the heap well made, does not get stuck, and returns what `Q` relates
to the heap at the end. -/
def Safe (strict : Prop) (r : Run α) (h : Heap) (Q : α → Heap → Prop) : Prop :=
  h.WellMade strict → ∀ events, Leaves strict h Q (r ⟨h, events⟩)

variable {h : Heap} {Q : α → Heap → Prop}

theorem bind_eq_match (r : Run α) (k : α → Run β) (m : Machine) :
    (r >>= k) m = match r m with
      | .ok a m' => k a m'
      | .error e m' => .error e m' := by
  change EStateM.bind r k m = _
  unfold EStateM.bind
  cases r m <;> rfl

theorem bind_of_ok {r : Run α} {k : α → Run β} {m n : Machine} {a : α} (hr : r m = .ok a n) : (r >>= k) m = k a n := by
  rw [bind_eq_match, hr]

theorem bind_of_error {r : Run α} {k : α → Run β} {m n : Machine} {e : Halt} (hr : r m = .error e n) :
    (r >>= k) m = .error e n := by
  rw [bind_eq_match, hr]

theorem leaves_extends {h' : Heap} {R : EStateM.Result Halt Machine α} (e : h.Extends h')
    (hr : Leaves strict h' Q R) : Leaves strict h Q R := by
  match R, hr with
  | .ok a m, ⟨he, hm, hq⟩ => exact ⟨Heap.extends_trans e he, hm, hq⟩
  | .error x m, ⟨he, hm, hx⟩ => exact ⟨Heap.extends_trans e he, hm, hx⟩

/-- However a run ends, the heap has grown and is well made. -/
theorem machine_of_leaves {R : EStateM.Result Halt Machine α} (hr : Leaves strict h Q R) :
    h.Extends (machine R).heap ∧ (machine R).heap.WellMade strict := by
  match R, hr with
  | .ok a m, ⟨he, hm, _⟩ => exact ⟨he, hm⟩
  | .error x m, ⟨he, hm, _⟩ => exact ⟨he, hm⟩

theorem safe_mono {Q' : α → Heap → Prop} {r : Run α} (hr : Safe strict r h Q)
    (hq : ∀ a h', h.Extends h' → Q a h' → Q' a h') : Safe strict r h Q' := by
  intro hm events
  have hl := hr hm events
  match r ⟨h, events⟩, hl with
  | .ok a m, ⟨he, hm', hqa⟩ => exact ⟨he, hm', hq a m.heap he hqa⟩
  | .error x m, hl => exact hl

/-- Two runs in a row. The second starts from a later heap, of which the first one tells. -/
theorem safe_bind {P : α → Heap → Prop} {Q : β → Heap → Prop} {r : Run α} {k : α → Run β}
    (hr : Safe strict r h P)
    (hk : ∀ a h', h.Extends h' → h'.WellMade strict → P a h' → Safe strict (k a) h' Q) :
    Safe strict (r >>= k) h Q := by
  intro hm events
  have hl := hr hm events
  rw [bind_eq_match]
  match r ⟨h, events⟩, hl with
  -- the second run is measured from its own start, and the heap has only grown until then
  | .ok a ⟨h', events'⟩, ⟨he, hm', hp⟩ => exact leaves_extends he (hk a h' he hm' hp hm' events')
  | .error x m, hl => exact hl

theorem safe_pure {a : α} (hq : Q a h) : Safe strict (pure a : Run α) h Q :=
  fun hm _ => ⟨Heap.extends_refl h, hm, hq⟩

theorem safe_map {P : α → Heap → Prop} {Q : β → Heap → Prop} {f : α → β} {r : Run α} (hr : Safe strict r h P)
    (hq : ∀ a h', P a h' → Q (f a) h') : Safe strict (f <$> r) h Q := by
  rw [map_eq_pure_bind]
  exact safe_bind hr fun a h' _ _ hp => safe_pure (hq a h' hp)

/-- A fault is safe, unless it is about a name and the run is strict. -/
theorem safe_fault {cause : Fault.Cause} {token : Text} {pos : Pos}
    (hc : strict → ∀ x, cause ≠ .undefinedVariable x) : Safe strict (fault cause token pos : Run α) h Q :=
  fun hm _ => ⟨Heap.extends_refl h, hm, hc⟩

theorem safe_exhausted : Safe strict (exhausted : Run α) h Q :=
  fun hm _ => ⟨Heap.extends_refl h, hm, trivial⟩

/-- Reading the heap; that it is well made may be used from here on. -/
theorem safe_heap {Q : β → Heap → Prop} {k : Heap → Run β} (hk : h.WellMade strict → Safe strict (k h) h Q) :
    Safe strict (heap >>= k) h Q :=
  fun hm events => hk hm hm events

/-- A change that keeps names and keeps the heap well made is safe. -/
theorem safe_modifyHeap {f : Heap → Heap} {Q : Unit → Heap → Prop} (he : h.Extends (f h))
    (hf : h.WellMade strict → (f h).WellMade strict) (hq : Q () (f h)) : Safe strict (modifyHeap f) h Q :=
  fun hm _ => ⟨he, hf hm, hq⟩

theorem safe_modifyHeap_bind {f : Heap → Heap} {k : Unit → Run α} (he : h.Extends (f h))
    (hf : h.WellMade strict → (f h).WellMade strict) (hk : Safe strict (k ()) (f h) Q) :
    Safe strict (modifyHeap f >>= k) h Q :=
  fun hm events => leaves_extends he (hk (hf hm) events)

theorem safe_alloc_bind {f : Heap → β × Heap} {k : β → Run α} (he : h.Extends (f h).2)
    (hf : h.WellMade strict → (f h).2.WellMade strict) (hk : Safe strict (k (f h).1) (f h).2 Q) :
    Safe strict (alloc f >>= k) h Q :=
  fun hm events => leaves_extends he (hk (hf hm) events)

theorem safe_print {line : Text} {Q : Unit → Heap → Prop} (hq : Q () h) : Safe strict (print line) h Q :=
  fun hm _ => ⟨Heap.extends_refl h, hm, hq⟩

theorem heap_log (m : Machine) (policy : Policy) (severity : Severity) (entry : Heap → LogEntry) :
    (m.log policy severity entry).heap = m.heap := by
  unfold Machine.log
  split <;> rfl

theorem safe_log {policy : Policy} {severity : Severity} {entry : Heap → LogEntry} {Q : Unit → Heap → Prop}
    (hq : Q () h) : Safe strict (log policy severity entry) h Q := by
  intro hm events
  have hh : ((⟨h, events⟩ : Machine).log policy severity entry).heap = h := heap_log _ _ _ _
  dsimp only [log, Leaves]
  rw [hh]
  exact ⟨Heap.extends_refl h, hm, hq⟩

section reading

variable {m : Machine} {i j : FrameId} {x : Name} {v w : Value} {c : Class} {id : InstanceId} {d : FunctionDecl}

theorem heap_apply (m : Machine) : (heap : Run Heap) m = .ok m.heap m := rfl

theorem lookup_of_some {y : Text} {pos : Pos} (hget : m.heap.get? i y = some v) : lookup i y pos m = .ok v m := by
  unfold lookup
  rw [bind_of_ok (heap_apply m), hget]
  rfl

/-- An assignment changes a name in the frame where it is found. -/
theorem assign_of_some (hres : m.heap.resolve? x.text i = some (j, w)) :
    assign i x v m = .ok () { m with heap := m.heap.define j x.text v } := by
  unfold assign
  rw [bind_of_ok (heap_apply m), hres]
  rfl

/-- An assignment to a name that is not bound is a fault. -/
theorem assign_of_none (hres : m.heap.resolve? x.text i = none) :
    assign i x v m = .error (.fault ⟨.undefinedVariable x.text, x.text, x.pos⟩) m := by
  unfold assign
  rw [bind_of_ok (heap_apply m), hres]
  rfl

/-- A field comes before a method of its name. -/
theorem getProperty_of_field (hv : (m.heap.fields id).get? x.text = some v) :
    getProperty (.object c id) x m = .ok v m := by
  unfold getProperty
  dsimp only
  rw [bind_of_ok (heap_apply m), hv]
  rfl

/-- A property that is no field is a method, bound to the instance. -/
theorem getProperty_of_method (hv : (m.heap.fields id).get? x.text = none) (hd : c.method? x.text = some d) :
    getProperty (.object c id) x m = (.function <$> bind d c (.object c id)) m := by
  unfold getProperty
  dsimp only
  rw [bind_of_ok (heap_apply m), hv]
  dsimp only
  rw [hd]

theorem getProperty_of_none (hv : (m.heap.fields id).get? x.text = none) (hd : c.method? x.text = none) :
    getProperty (.object c id) x m = .error (.fault ⟨.undefinedProperty x.text, x.text, x.pos⟩) m := by
  unfold getProperty
  dsimp only
  rw [bind_of_ok (heap_apply m), hv]
  dsimp only
  rw [hd]
  rfl

end reading

section operators

variable {l r u v : Value} {cause : Fault.Cause}

/-- The result of an operator before its operand refers to nothing. -/
theorem unary_basic {op : UnaryOp} (hu : op.apply v = .ok u) : u.Basic := by
  unfold UnaryOp.apply at hu
  split at hu
  · cases hu
    trivial
  · cases hu
    trivial
  · cases hu

/-- What an operator gives for two values that it is made for is a number, a string or a truth value. -/
theorem binary_basic {op : BinaryOp} (hu : op.apply l r = .ok u) : u.Basic := by
  have hnumbers {g : Number → Number → Value} (hg : op.onNumbers? = some g) (x y : Number) : (g x y).Basic := by
    cases op <;> cases hg <;> trivial
  have hstrings {g : Text → Text → Value} (hg : op.onStrings? = some g) (s t : Text) : (g s t).Basic := by
    cases op <;> cases hg <;> trivial
  unfold BinaryOp.apply at hu
  split at hu
  · cases hu
    trivial
  · cases hu
    trivial
  · dsimp only at hu
    split at hu
    · next hvalue =>
      cases hu
      split at hvalue
      · obtain ⟨g, hg, rfl⟩ := Option.map_eq_some_iff.mp hvalue
        exact hnumbers hg _ _
      · obtain ⟨g, hg, rfl⟩ := Option.map_eq_some_iff.mp hvalue
        exact hstrings hg _ _
      · cases hvalue
    · cases hu

/-- An operator between operands has one fault only. -/
theorem cause_of_binary {op : BinaryOp} (hu : op.apply l r = .error cause) : cause = op.operandsCause := by
  unfold BinaryOp.apply at hu
  split at hu
  · cases hu
  · cases hu
  · dsimp only at hu
    split at hu
    · cases hu
    · cases hu
      rfl

end operators

/-- Each parameter is bound to an argument, and nothing else is bound. -/
theorem bindParams_cases {params : List Name} {args : List Value} {vars vars' : Bindings Value}
    (hb : bindParams params args vars = some vars') {x : Text} {v : Value} (hv : vars'.get? x = some v) :
    (∃ p ∈ params, p.text = x) ∧ v ∈ args ∨ vars.get? x = some v := by
  induction params generalizing args vars with
  | nil =>
    cases hb
    exact .inr hv
  | cons p params ih =>
    cases args with
    | nil => cases hb
    | cons u args =>
      rcases ih hb with ⟨⟨q, hq, hx⟩, hmem⟩ | hget
      · exact .inl ⟨⟨q, List.mem_cons_of_mem _ hq, hx⟩, List.mem_cons_of_mem _ hmem⟩
      · by_cases hx : x = p.text
        · rw [hx, Bindings.get?_insert_self] at hget
          cases hget
          exact .inl ⟨⟨p, List.mem_cons_self, hx.symm⟩, List.mem_cons_self⟩
        · rw [Bindings.get?_insert_of_ne _ _ hx] at hget
          exact .inr hget

def checkCall (policy : Policy) (depth : Nat) (value : Value) (args : List Value) (paren : Pos) : Run Callable :=
  match value.callable? with
  | none => fault .notCallable Punct.rightParen.spelling paren
  | some callee =>
    if args.length ≠ callee.arity then
      fault (.wrongArity callee.arity args.length) Punct.rightParen.spelling paren
    else if !policy.allowsDepth (depth + 1) then
      fault .stackOverflow Punct.rightParen.spelling paren
    else do
      logCall policy callee (depth + 1) paren
      return callee

def invoke (body : FrameId → List Stmt → Run Flow) (policy : Policy) (args : List Value) : Callable → Run Value
  | .function f => enter body policy f args
  | .classValue k => construct body policy k args

/-- A call is checked first, and then carried out with less fuel. -/
theorem call_eq (policy : Policy) (fuel depth : Nat) (value : Value) (args : List Value) (paren : Pos) :
    call policy fuel depth value args paren = checkCall policy depth value args paren >>= fun callee =>
      match fuel with
      | 0 => exhausted
      | fuel + 1 => invoke (Stmt.execAll policy (call policy fuel (depth + 1)) fuel) policy args callee := by
  unfold call checkCall
  cases value.callable? with
  | none => rfl
  | some callee =>
    dsimp only
    by_cases hl : args.length ≠ callee.arity
    · rw [if_pos hl, if_pos hl]
      rfl
    · rw [if_neg hl, if_neg hl]
      by_cases hd : (!policy.allowsDepth (depth + 1)) = true
      · rw [if_pos hd, if_pos hd]
        rfl
      · rw [if_neg hd, if_neg hd, bind_assoc]
        -- the call is logged before its fuel is looked at
        cases fuel with
        | zero => rfl
        | succ fuel => cases callee <;> rfl

def andThen (r k : Run Flow) : Run Flow := do
  match ← r with
  | .next => k
  | flow => return flow

/-- There is nothing to do after the last statement. -/
theorem andThen_next (r : Run Flow) : andThen r (pure .next) = r := by
  have hflow : (fun flow : Flow => match flow with
      | .next => (pure .next : Run Flow)
      | flow => pure flow) = pure := by
    funext flow
    cases flow <;> rfl
  unfold andThen
  rw [hflow]
  exact bind_pure r

end Run

section sequence

open Run

variable {policy : Policy} {call : Caller} {fuel : Nat} {i : FrameId}

theorem execAll_cons (s : Stmt) (ss : List Stmt) : Stmt.execAll policy call fuel i (s :: ss) =
    andThen (s.exec policy call fuel i) (Stmt.execAll policy call fuel i ss) := rfl

/-- Statements that follow each other may be run in two parts. -/
theorem execAll_append (ss ts : List Stmt) : Stmt.execAll policy call fuel i (ss ++ ts) =
    andThen (Stmt.execAll policy call fuel i ss) (Stmt.execAll policy call fuel i ts) := by
  induction ss with
  | nil => rfl
  | cons s ss ih =>
    funext m
    rw [List.cons_append, execAll_cons, execAll_cons, ih]
    unfold andThen
    rw [bind_assoc, bind_eq_match, bind_eq_match]
    match s.exec policy call fuel i m with
    | .ok .next n => rfl
    | .ok .broke n => rfl
    | .ok (.returned v) n => rfl
    | .error e n => rfl

theorem execAll_pair (s t : Stmt) : Stmt.execAll policy call fuel i [s, t] =
    andThen (s.exec policy call fuel i) (t.exec policy call fuel i) := by
  have hlast : Stmt.execAll policy call fuel i [t] = t.exec policy call fuel i :=
    andThen_next (t.exec policy call fuel i)
  rw [execAll_cons, hlast]

end sequence
end Lox
