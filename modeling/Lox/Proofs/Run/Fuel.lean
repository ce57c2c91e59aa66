import Lox.Proofs.Run.Logic
import Lox.Session

/-! Fuel only decides whether a run ends in time. With more of it a run that has ended ends in the same way, with the
same events and the same heap. -/
namespace Lox

variable {α β : Type}

namespace Run

/-- The second run does what the first one does, unless the first one exhausts its fuel. -/
def Within (r r' : Run α) : Prop := ∀ m, (∃ m', r m = .error .exhausted m') ∨ r' m = r m

theorem within_refl (r : Run α) : Within r r := fun _ => .inr rfl

theorem within_exhausted (r : Run α) : Within exhausted r := fun m => .inl ⟨m, rfl⟩

/-- Two runs in a row. If the first one does not exhaust its fuel, the second starts from the same machine. -/
theorem within_bind {r r' : Run α} {k k' : α → Run β} (hr : Within r r') (hk : ∀ a, Within (k a) (k' a)) :
    Within (r >>= k) (r' >>= k') := by
  intro m
  rw [bind_eq_match, bind_eq_match]
  rcases hr m with ⟨m', hm⟩ | hm
  · rw [hm]
    exact .inl ⟨m', rfl⟩
  · rw [hm]
    match r m with
    | .ok a m' => exact hk a m'
    | .error e m' => exact .inr rfl

/-- A loop that may go on for longer. -/
theorem iterate_within {test test' : Run Value} {body body' : Run Flow} {n n' : Nat} (hn : n ≤ n')
    (ht : Within test test') (hb : Within body body') : Within (iterate test body n) (iterate test' body' n') := by
  induction n generalizing n' with
  | zero => exact within_exhausted _
  | succ n ih =>
    -- the longer loop takes its first turn as well
    obtain ⟨n', rfl⟩ : ∃ j, n' = j + 1 := ⟨n' - 1, by omega⟩
    refine within_bind ht fun v => ?_
    by_cases hv : v.truthy = true
    · rw [if_pos hv, if_pos hv]
      refine within_bind hb fun flow => ?_
      cases flow with
      | next => exact ih (Nat.le_of_succ_le_succ hn)
      | broke => exact within_refl _
      | returned w => exact within_refl _
    · rw [if_neg hv, if_neg hv]
      exact within_refl _

end Run

open Run

def Caller.Within (call call' : Caller) : Prop := ∀ f args paren, Run.Within (call f args paren) (call' f args paren)

variable {call call' : Caller} {i : FrameId}

mutual

/-- More fuel makes no difference to an expression that was evaluated, by induction on the expression. -/
theorem eval_within (hc : call.Within call') : (e : Expr) → Within (e.eval call i) (e.eval call' i)
  | .literal _ => within_refl _
  | .group e => eval_within hc e
  | .unary _ _ e => within_bind (eval_within hc e) fun _ => within_refl _
  | .binary _ _ l r =>
    within_bind (eval_within hc l) fun _ => within_bind (eval_within hc r) fun _ => within_refl _
  | .logical op l r => by
    refine within_bind (eval_within hc l) fun v => ?_
    by_cases hd : op.isDecidedBy v = true
    · rw [if_pos hd, if_pos hd]
      exact within_refl _
    · rw [if_neg hd, if_neg hd]
      exact eval_within hc r
  | .variable _ => within_refl _
  | .assign _ e => within_bind (eval_within hc e) fun _ => within_refl _
  | .call f es paren =>
    within_bind (eval_within hc f) fun v => within_bind (evalAll_within hc es) fun vs => hc v vs paren
  | .get o _ => within_bind (eval_within hc o) fun _ => within_refl _
  | .set o x e => by
    refine within_bind (eval_within hc o) fun v => ?_
    cases v with
    | object k id => exact within_bind (eval_within hc e) fun _ => within_refl _
    | nil | bool | number | string | function | classValue => exact within_refl _
  | .this _ => within_refl _

theorem evalAll_within (hc : call.Within call') :
    (es : List Expr) → Within (Expr.evalAll call i es) (Expr.evalAll call' i es)
  | [] => within_refl _
  | e :: es => within_bind (eval_within hc e) fun _ => within_bind (evalAll_within hc es) fun _ => within_refl _

end

theorem evalOption_within (hc : call.Within call') (e : Option Expr) :
    Within (Expr.evalOption call i e) (Expr.evalOption call' i e) := by
  cases e with
  | none => exact within_refl _
  | some e => exact eval_within hc e

variable {policy : Policy} {n n' : Nat}

mutual

/-- More fuel makes no difference to a statement that has ended, by induction on the statement. -/
theorem exec_within (hc : call.Within call') (hn : n ≤ n') : (s : Stmt) → ∀ {i : FrameId},
    Within (s.exec policy call n i) (s.exec policy call' n' i)
  | .expr e, _ => within_bind (eval_within hc e) fun _ => within_refl _
  | .print e, _ => within_bind (eval_within hc e) fun _ => within_refl _
  | .var _ e, _ => within_bind (evalOption_within hc e) fun _ => within_refl _
  | .block ss, _ =>
    within_bind (within_refl _) fun _ => within_bind (within_refl _) fun _ => execAll_within hc hn ss
  | .ifThen test yes no, i => by
    refine within_bind (eval_within hc test) fun v => ?_
    by_cases hv : v.truthy = true
    · rw [if_pos hv, if_pos hv]
      exact exec_within hc hn yes
    · rw [if_neg hv, if_neg hv]
      exact execOption_within hc hn no
  | .whileLoop test body, _ => iterate_within hn (eval_within hc test) (exec_within hc hn body)
  | .function _, _ => within_refl _
  | .returnValue _ e, _ => within_bind (evalOption_within hc e) fun _ => within_refl _
  | .breakLoop _, _ => within_refl _
  | .classDecl _ _, _ => within_refl _

theorem execAll_within (hc : call.Within call') (hn : n ≤ n') : (ss : List Stmt) → ∀ {i : FrameId},
    Within (Stmt.execAll policy call n i ss) (Stmt.execAll policy call' n' i ss)
  | [], _ => within_refl _
  | s :: ss, _ => by
    refine within_bind (exec_within hc hn s) fun flow => ?_
    cases flow with
    | next => exact execAll_within hc hn ss
    | broke => exact within_refl _
    | returned v => exact within_refl _

theorem execOption_within (hc : call.Within call') (hn : n ≤ n') : (s : Option Stmt) → ∀ {i : FrameId},
    Within (Stmt.execOption policy call n i s) (Stmt.execOption policy call' n' i s)
  | none, _ => within_refl _
  | some s, _ => exec_within hc hn s

end

namespace Run

variable {body body' : FrameId → List Stmt → Run Flow}

/-- More fuel for its body makes no difference to a function that has come back. -/
theorem enter_within (hb : ∀ i ss, Within (body i ss) (body' i ss)) (f : Closure) (args : List Value) :
    Within (enter body policy f args) (enter body' policy f args) := by
  unfold enter
  cases bindParams f.decl.params args [] with
  | none => exact within_refl _
  | some vars =>
    refine within_bind (within_refl _) fun i => within_bind (within_refl _) fun _ => ?_
    refine within_bind (hb i f.decl.body) fun flow => ?_
    cases flow with
    | next | broke | returned => exact within_refl _

theorem construct_within (hb : ∀ i ss, Within (body i ss) (body' i ss)) (k : Class) (args : List Value) :
    Within (construct body policy k args) (construct body' policy k args) := by
  unfold construct
  refine within_bind (within_refl _) fun id => ?_
  cases k.method? initName with
  | none => exact within_refl _
  | some d => exact within_bind (within_refl _) fun f => within_bind (enter_within hb f args) fun _ => within_refl _

/-- With more fuel a call that ends does so in the same way. -/
theorem call_within (hn : n ≤ n') (depth : Nat) :
    Caller.Within (Run.call policy n depth) (Run.call policy n' depth) := by
  induction n generalizing n' depth with
  | zero =>
    intro value args paren
    rw [call_eq, call_eq]
    exact within_bind (within_refl _) fun callee => within_exhausted _
  | succ n ih =>
    obtain ⟨n', rfl⟩ : ∃ j, n' = j + 1 := ⟨n' - 1, by omega⟩
    -- both the calls inside the body and the loops in it get more
    have hle : n ≤ n' := Nat.le_of_succ_le_succ hn
    intro value args paren
    rw [call_eq, call_eq]
    refine within_bind (within_refl _) fun callee => ?_
    cases callee with
    | function f => exact enter_within (fun i ss => execAll_within (ih hle (depth + 1)) hle ss) f args
    | classValue k => exact construct_within (fun i ss => execAll_within (ih hle (depth + 1)) hle ss) k args

end Run

namespace Session

variable {stmts : List Stmt}

theorem runStmts_within (hn : n ≤ n') : Within (runStmts policy n stmts) (runStmts policy n' stmts) :=
  within_bind (execAll_within (call_within hn 0) hn stmts) fun _ => within_refl _

theorem evalStmts_within (hn : n ≤ n') : Within (evalStmts policy n stmts) (evalStmts policy n' stmts) := by
  unfold evalStmts
  split
  · exact within_bind (eval_within (call_within hn 0) _) fun _ => within_refl _
  · exact runStmts_within hn

/-- With more fuel an action that ends does so in the same way. -/
theorem perform_within (hn : n ≤ n') (action : Action) :
    Within (perform policy n action stmts) (perform policy n' action stmts) := by
  cases action with
  | run => exact runStmts_within hn
  | eval => exact evalStmts_within hn
  | tree order => exact within_refl _

end Session

end Lox
