import Lox.Proofs.Run.Notes

/-! Properties that follow the structure of programs. They are relations of two runs, and of what is noted of the first.
If such a relation passes from two runs to the one after the other and holds of each thing that a machine does, it
holds of every program of which the calls have it. -/
namespace Lox

namespace Run

/-- A relation that follows the structure of programs, where the first run is made under the one policy and the second
under the other. Notes may be added freely if they open and close no call. -/
structure Compositional (policy policy' : Policy) (T : {α : Type} → Run α → Run α → Trace → Prop) : Prop where
  seq {α β : Type} {r r' : Run α} {k k' : α → Run β} {t : Trace} {u : α → Trace} :
    T r r' t → (∀ a, T (k a) (k' a) (u a)) → T (r >>= k) (r' >>= k') (.seq r t u)
  done {α : Type} (a : α) : T (pure a) (pure a) .none
  halts {α : Type} {e : Halt} : (∀ f, e = .fault f → f.cause ≠ .stackOverflow) →
    T (throw e : Run α) (throw e) .none
  allocs {α : Type} (f : Heap → α × Heap) : T (alloc f) (alloc f) .none
  prints (line : Text) : T (print line) (print line) .none
  logs (severity : Severity) (entry : Heap → LogEntry) : (∀ h, (entry h).severity = severity) →
    T (log policy severity entry) (log policy' severity entry) .none
  aside {α : Type} {r r' : Run α} {t : Trace} :
    T r r' .none → (∀ m, ∀ n ∈ t m, n.change = 0) → T r r' t

namespace Compositional

variable {policy policy' : Policy} {T : {α : Type} → Run α → Run α → Trace → Prop} {α β : Type} {i : FrameId}

section machine

variable (hT : Compositional policy policy' @T)
include hT

/-- What follows adds no notes. -/
theorem first {r r' : Run α} {k k' : α → Run β} {t : Trace} (hr : T r r' t) (hk : ∀ a, T (k a) (k' a) .none) :
    T (r >>= k) (r' >>= k') t := by
  have hseq := hT.seq hr hk
  rw [Trace.seq_none] at hseq
  exact hseq

/-- Both runs end with the same fault, which is no stack overflow. -/
theorem faults {cause : Fault.Cause} {token : Text} {pos : Pos} (hc : cause ≠ .stackOverflow) :
    T (fault cause token pos : Run α) (fault cause token pos) .none := by
  apply hT.halts
  rintro f ⟨⟩
  exact hc

theorem gets_stuck : T (stuck : Run α) stuck .none := hT.halts nofun

theorem exhausts : T (exhausted : Run α) exhausted .none := hT.halts nofun

theorem reads : T heap heap .none := hT.allocs fun h => (h, h)

theorem modifies (f : Heap → Heap) : T (modifyHeap f) (modifyHeap f) .none := hT.allocs fun h => ((), f h)

/-- A note of what a run has done. -/
theorem behind {r r' : Run α} {s : Run β} {note : β → Heap → Note} (hr : T r r' .none)
    (hn : ∀ b h, (note b h).change = 0) : T r r' (.behind s note) := by
  apply hT.aside hr
  intro m x hx
  obtain ⟨b, n, -, rfl⟩ := Trace.mem_behind hx
  exact hn b n.heap

theorem lookup (x : Text) (pos : Pos) : T (Run.lookup i x pos) (Run.lookup i x pos) .none := by
  apply hT.first hT.reads
  intro h
  cases h.get? i x with
  | some v => exact hT.done v
  | none => exact hT.faults nofun

theorem assign (x : Name) (v : Value) : T (Run.assign i x v) (Run.assign i x v) .none := by
  apply hT.first hT.reads
  intro h
  cases h.resolve? x.text i with
  | some found => exact hT.modifies _
  | none => exact hT.faults nofun

theorem binds (d : FunctionDecl) (c : Class) (v : Value) : T (Run.bind d c v) (Run.bind d c v) (bindNotes d c v) := by
  refine hT.behind ?_ fun _ _ => rfl
  exact hT.first (hT.allocs _) fun _ => hT.first (hT.allocs _) fun _ => hT.done _

/-- A property is a field, or a method that is bound and noted, or a fault. -/
theorem property (o : Value) (x : Name) : T (getProperty o x) (getProperty o x) (propertyNotes o x) := by
  have hnotes (m : Machine) (n : Note) (hn : n ∈ propertyNotes o x m) : n.change = 0 := by
    unfold propertyNotes at hn
    split at hn
    · split at hn
      · obtain ⟨f, n, -, rfl⟩ := Trace.mem_behind hn
        rfl
      · cases hn
    · cases hn
  refine hT.aside ?_ hnotes
  cases o with
  | object c id =>
    apply hT.first hT.reads
    intro h
    cases (h.fields id).get? x.text with
    | some v => exact hT.done v
    | none =>
      cases c.method? x.text with
      | none => exact hT.faults nofun
      | some d =>
        dsimp only
        rw [map_eq_pure_bind]
        refine hT.first ?_ fun f => hT.done _
        exact hT.first (hT.allocs _) fun _ => hT.first (hT.allocs _) fun _ => hT.done _
  | nil | bool | number | string | function | classValue => exact hT.faults nofun

theorem unary (op : UnaryOp) (token : Text) (pos : Pos) (v : Value) :
    T (result token pos (op.apply v)) (result token pos (op.apply v)) .none := by
  unfold UnaryOp.apply
  split
  · exact hT.done _
  · exact hT.done _
  · exact hT.faults nofun

theorem binary (op : BinaryOp) (token : Text) (pos : Pos) (v w : Value) :
    T (result token pos (op.apply v w)) (result token pos (op.apply v w)) .none := by
  have hcause : op.operandsCause ≠ .stackOverflow := by cases op <;> nofun
  unfold BinaryOp.apply
  split
  · exact hT.done _
  · exact hT.done _
  · dsimp only
    split
    · exact hT.done _
    · exact hT.faults hcause

end machine

section program

variable {call call' : Caller} {tracer : Tracer} {a : Option Activation}

def Calls (T : {α : Type} → Run α → Run α → Trace → Prop) (call call' : Caller) (tracer : Tracer) : Prop :=
  ∀ v vs p, T (call v vs p) (call' v vs p) (tracer v vs p)

mutual

/-- Evaluating an expression follows its structure. -/
theorem eval (hT : Compositional policy policy' @T) (hc : Calls @T call call' tracer) :
    (e : Expr) → T (e.eval call i) (e.eval call' i) (e.notes call tracer a i)
  | .literal _ => hT.done _
  | .group e => eval hT hc e
  | .unary op pos e => hT.first (eval hT hc e) fun v => hT.unary op _ pos v
  | .binary op pos l r => hT.seq (eval hT hc l) fun v => hT.first (eval hT hc r) fun w => hT.binary op _ pos v w
  | .logical op l r => by
    refine hT.seq (eval hT hc l) fun v => ?_
    by_cases hv : op.isDecidedBy v = true
    · rw [if_pos hv, if_pos hv, if_pos hv]
      exact hT.done v
    · rw [if_neg hv, if_neg hv, if_neg hv]
      exact eval hT hc r
  | .variable x => hT.lookup x.text x.pos
  | .assign x e => by
    refine hT.seq (eval hT hc e) fun v => ?_
    refine hT.behind ?_ fun _ _ => rfl
    exact hT.first (hT.assign x v) fun _ => hT.done v
  | .call f es paren => hT.seq (eval hT hc f) fun v => hT.seq (evalAll hT hc es) fun vs => hc v vs paren
  | .get o x => hT.seq (eval hT hc o) fun v => hT.property v x
  | .set o x e => by
    refine hT.seq (eval hT hc o) fun v => ?_
    cases v with
    | object c id => exact hT.first (eval hT hc e) fun w => hT.first (hT.modifies _) fun _ => hT.done w
    | nil | bool | number | string | function | classValue => exact hT.faults nofun
  | .this pos => by
    refine hT.aside (hT.lookup thisName pos) fun m n hn => ?_
    obtain rfl : n = .asked a pos i m.heap := List.mem_singleton.mp hn
    rfl

theorem evalAll (hT : Compositional policy policy' @T) (hc : Calls @T call call' tracer) :
    (es : List Expr) → T (Expr.evalAll call i es) (Expr.evalAll call' i es) (Expr.notesAll call tracer a i es)
  | [] => hT.done []
  | e :: es => hT.seq (eval hT hc e) fun _ => hT.first (evalAll hT hc es) fun _ => hT.done _

end

theorem evalOption (hT : Compositional policy policy' @T) (hc : Calls @T call call' tracer) (e : Option Expr) :
    T (Expr.evalOption call i e) (Expr.evalOption call' i e) (Expr.notesOption call tracer a i e) := by
  cases e with
  | none => exact hT.done _
  | some e => exact hT.eval hc e

theorem iterate (hT : Compositional policy policy' @T) {test test' : Run Value} {body body' : Run Flow}
    {tests bodies : Trace} (ht : T test test' tests) (hb : T body body' bodies) (fuel : Nat) :
    T (Run.iterate test body fuel) (Run.iterate test' body' fuel) (iterateNotes test body tests bodies fuel) := by
  induction fuel with
  | zero => exact hT.exhausts
  | succ fuel ih =>
    refine hT.seq ht fun v => ?_
    by_cases hv : v.truthy = true
    · rw [if_pos hv, if_pos hv, if_pos hv]
      refine hT.seq hb fun flow => ?_
      cases flow with
      | next => exact ih
      | broke => exact hT.done _
      | returned w => exact hT.done _
    · rw [if_neg hv, if_neg hv, if_neg hv]
      exact hT.done _

/-- A declaration binds its name last. -/
theorem define (hT : Compositional policy policy' @T) {x : Text} {v : Value} {note : Unit → Heap → Note}
    (hn : ∀ u h, (note u h).change = 0) :
    T (modifyHeap (·.define i x v) >>= fun _ => pure Flow.next) (modifyHeap (·.define i x v) >>= fun _ => pure Flow.next)
      (.behind (modifyHeap (·.define i x v)) note) :=
  hT.behind (hT.first (hT.modifies _) fun _ => hT.done _) hn

variable {fuel : Nat}

mutual

/-- Running a statement follows its structure. -/
theorem exec (hT : Compositional policy policy' @T) (hc : Calls @T call call' tracer) : (s : Stmt) → ∀ {i : FrameId},
    T (s.exec policy call fuel i) (s.exec policy' call' fuel i) (s.notes policy call tracer fuel a i)
  | .expr e, _ => hT.first (hT.eval hc e) fun _ => hT.done _
  | .print e, _ => hT.first (hT.eval hc e) fun v => hT.first (hT.prints v.toText) fun _ => hT.done _
  | .var _ e, _ => hT.seq (hT.evalOption hc e) fun _ => hT.define fun _ _ => rfl
  | .block ss, _ => hT.seq (hT.allocs _) fun _ => hT.seq (hT.logs _ _ fun _ => rfl) fun _ => execAll hT hc ss
  | .ifThen test yes no, _ => by
    refine hT.seq (hT.eval hc test) fun v => ?_
    by_cases hv : v.truthy = true
    · rw [if_pos hv, if_pos hv, if_pos hv]
      exact exec hT hc yes
    · rw [if_neg hv, if_neg hv, if_neg hv]
      exact execOption hT hc no
  | .whileLoop test body, _ => hT.iterate (hT.eval hc test) (exec hT hc body) fuel
  | .function _, _ => hT.seq (hT.allocs _) fun _ => hT.define fun _ _ => rfl
  | .returnValue _ e, _ => hT.first (hT.evalOption hc e) fun _ => hT.done _
  | .breakLoop _, _ => hT.done _
  | .classDecl _ _, _ => hT.seq (hT.allocs _) fun _ => hT.define fun _ _ => rfl

theorem execAll (hT : Compositional policy policy' @T) (hc : Calls @T call call' tracer) :
    (ss : List Stmt) → ∀ {i : FrameId},
    T (Stmt.execAll policy call fuel i ss) (Stmt.execAll policy' call' fuel i ss)
      (Stmt.notesAll policy call tracer fuel a i ss)
  | [], _ => hT.done _
  | s :: ss, _ => by
    refine hT.seq (exec hT hc s) fun flow => ?_
    cases flow with
    | next => exact execAll hT hc ss
    | broke => exact hT.done _
    | returned v => exact hT.done _

theorem execOption (hT : Compositional policy policy' @T) (hc : Calls @T call call' tracer) :
    (s : Option Stmt) → ∀ {i : FrameId},
    T (Stmt.execOption policy call fuel i s) (Stmt.execOption policy' call' fuel i s)
      (Stmt.notesOption policy call tracer fuel a i s)
  | none, _ => hT.done _
  | some s, _ => exec hT hc s

end

end program

section call

variable {body body' : FrameId → List Stmt → Run Flow} {u : Activation → List Stmt → Trace}
  (hT : Compositional policy policy' @T)
  (hb : ∀ (a : Activation) ss, T (body a.frame ss) (body' a.frame ss) (u a ss))
include hT hb

theorem enter (f : Closure) (args : List Value) :
    T (Run.enter body policy f args) (Run.enter body' policy' f args) (enterNotes u policy f args) := by
  unfold Run.enter enterNotes
  cases bindParams f.decl.params args [] with
  | none => exact hT.gets_stuck
  | some vars =>
    refine hT.seq (hT.allocs _) fun i => hT.seq (hT.logs _ _ fun _ => rfl) fun _ => ?_
    refine hT.first (hb ⟨f, i⟩ f.decl.body) fun flow => ?_
    extract_lets finish
    have hfinish (v : Value) : T (finish v) (finish v) .none := by
      unfold finish
      by_cases hi : f.isInit = true
      · rw [if_pos hi]
        refine hT.first hT.reads fun h => ?_
        cases (h.vars f.scope).get? thisName with
        | none => exact hT.gets_stuck
        | some self => exact hT.done self
      · rw [if_neg hi]
        exact hT.done v
    cases flow with
    | next => exact hfinish .nil
    | broke => exact hT.gets_stuck
    | returned v => exact hfinish v

theorem construct (c : Class) (args : List Value) :
    T (Run.construct body policy c args) (Run.construct body' policy' c args) (constructNotes u policy c args) := by
  unfold Run.construct constructNotes
  refine hT.seq (hT.allocs _) fun id => ?_
  dsimp only
  cases c.method? initName with
  | none => exact hT.done _
  | some d => exact hT.seq (hT.binds d c _) fun f => hT.first (hT.enter hb f args) fun _ => hT.done _

theorem invoke (args : List Value) (callee : Callable) :
    T (Run.invoke body policy args callee) (Run.invoke body' policy' args callee)
      (invokeNotes u policy args callee) := by
  cases callee with
  | function f => exact hT.enter hb f args
  | classValue c => exact hT.construct hb c args

end call

/-- A relation that looks at no notes holds of all calls if it holds of the checks before them. -/
theorem call {R : {α : Type} → Run α → Run α → Prop} (hT : Compositional policy policy' fun r r' _ => R r r')
    (hcheck : ∀ depth value args paren,
      R (checkCall policy depth value args paren) (checkCall policy' depth value args paren))
    (fuel depth : Nat) (value : Value) (args : List Value) (paren : Pos) :
    R (Run.call policy fuel depth value args paren) (Run.call policy' fuel depth value args paren) := by
  -- by induction on the fuel: the calls inside have less of it
  induction fuel generalizing depth value args paren with
  | zero =>
    rw [call_eq, call_eq]
    exact hT.first (t := .none) (hcheck depth value args paren) fun _ => hT.exhausts
  | succ fuel ih =>
    rw [call_eq, call_eq]
    refine hT.first (t := .none) (hcheck depth value args paren) fun callee => ?_
    have hcalls : Calls (fun r r' _ => R r r') (Run.call policy fuel (depth + 1))
        (Run.call policy' fuel (depth + 1)) (callNotes policy fuel (depth + 1)) := ih (depth + 1)
    exact hT.invoke (u := fun _ _ => .none) (fun a ss => hT.execAll (a := some a) hcalls ss) args callee

/-- What an action does, if the relation holds of all calls from the top level. -/
theorem perform (hT : Compositional policy policy' @T) {fuel : Nat}
    (hc : Calls @T (Run.call policy fuel 0) (Run.call policy' fuel 0) (callNotes policy fuel 0)) (action : Action)
    (stmts : List Stmt) :
    T (Session.perform policy fuel action stmts) (Session.perform policy' fuel action stmts)
      (Session.performNotes policy fuel action stmts) := by
  have hrun : T (Session.runStmts policy fuel stmts) (Session.runStmts policy' fuel stmts)
      (Session.performNotes policy fuel .run stmts) := by
    refine hT.first (hT.execAll hc stmts) fun flow => ?_
    cases flow with
    | next => exact hT.done ()
    | broke => exact hT.gets_stuck
    | returned v => exact hT.gets_stuck
  cases action with
  | run => exact hrun
  | eval =>
    change T (Session.evalStmts policy fuel stmts) (Session.evalStmts policy' fuel stmts) _
    unfold Session.evalStmts
    split
    · next e =>
      rw [Session.performNotes_expr]
      exact hT.first (hT.eval hc e) fun v => hT.prints v.toText
    · exact hrun
  | tree order =>
    change T (Session.printTrees order stmts) (Session.printTrees order stmts) .none
    unfold Session.printTrees
    clear hrun
    induction stmts with
    | nil => exact hT.done ()
    | cons s stmts ih => exact hT.first (hT.prints (s.render order)) fun _ => ih

end Compositional
end Run
end Lox
