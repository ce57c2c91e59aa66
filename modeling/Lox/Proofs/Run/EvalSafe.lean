import Lox.Proofs.Run.Logic

/-! Expressions are safe to evaluate in a frame that hosts them, if calls are safe. -/
namespace Lox

open Lox.Parser (Context)

variable {strict : Prop} {h : Heap} {i : FrameId} {c : Context} {Γ : List Text}

def Caller.Safe (strict : Prop) (call : Caller) : Prop :=
  ∀ f args paren h, f.WellMade strict h → (∀ a ∈ args, a.WellMade strict h) →
    Run.Safe strict (call f args paren) h fun v h' => v.WellMade strict h'

namespace Run

/-- A name that a strict run looks up is bound. -/
theorem lookup_safe {x : Text} {pos : Pos} (hr : strict → h.Resolves i x) :
    Safe strict (lookup i x pos) h fun v h' => v.WellMade strict h' := by
  refine safe_heap fun hm => ?_
  cases hres : h.resolve? x i with
  | some found =>
    obtain ⟨j, v⟩ := found
    have hget : h.get? i x = some v := by rw [Heap.get?, hres]; rfl
    rw [hget]
    exact safe_pure (hm.vars j x v (Heap.vars_of_resolve? hres))
  | none =>
    have hget : h.get? i x = none := by rw [Heap.get?, hres]; rfl
    rw [hget]
    refine safe_fault fun hs => ?_
    have hsome := hr hs
    rw [Heap.Resolves, hres] at hsome
    cases hsome

/-- In a strict run the name that is assigned to is bound. -/
theorem assign_safe {x : Name} {v : Value} (hr : strict → h.Resolves i x.text) (hv : v.WellMade strict h) :
    Safe strict (assign i x v) h fun _ _ => True := by
  refine safe_heap fun hm => ?_
  cases hres : h.resolve? x.text i with
  | some found =>
    obtain ⟨j, w⟩ := found
    refine safe_modifyHeap Heap.extends_define (fun hm => ?_) trivial
    exact wellMade_define hm (value_extends hv Heap.extends_define)
  | none =>
    refine safe_fault fun hs => ?_
    have hsome := hr hs
    rw [Heap.Resolves, hres] at hsome
    cases hsome

/-- A method that is bound to an instance knows it, and is a function that can be called. -/
theorem bind_safe {d : FunctionDecl} {k : Class} {self : Value} (hk : k.WellMade strict h) (hd : d ∈ k.methods)
    (hself : self.WellMade strict h) : Safe strict (bind d k self) h fun f h' => f.WellMade strict h' ∧ f.decl = d := by
  obtain ⟨c, Γ, hh, hp, hs⟩ := hk
  -- the frame in between, whose one variable is `this`, is what makes the body one of a class
  have hframe : (h.pushFrame k.scope [(thisName, self)]).2.Hosts strict h.frames.size c.enterClass ([] ++ Γ) :=
    hosts_pushFrame hh (fun _ => .inr rfl) fun x hx => nomatch hx
  have hbound : (((h.pushFrame k.scope [(thisName, self)]).2.vars h.frames.size).get? thisName).isSome = true := by
    rw [Heap.vars_pushFrame_self]
    rfl
  have hvars (x : Text) (v : Value) (hv : Bindings.get? [(thisName, self)] x = some v) : v.WellMade strict h := by
    rcases Bindings.get?_insert_cases (b := []) hv with rfl | hnil
    · exact hself
    · cases hnil
  refine safe_alloc_bind Heap.extends_pushFrame (fun hm => wellMade_pushFrame hm hvars) ?_
  refine safe_alloc_bind (Heap.extends_of_frames_eq rfl) wellMade_nextSerial (safe_pure ⟨?_, rfl⟩)
  have e : (h.pushFrame k.scope [(thisName, self)]).2.Extends
      (h.pushFrame k.scope [(thisName, self)]).2.nextSerial.2 := Heap.extends_of_frames_eq rfl
  refine ⟨c.enterClass, [] ++ Γ, hosts_extends hframe e, Stmt.placedBody_of_mem hp hd, fun hst => ?_, fun _ => ?_⟩
  · exact Stmt.scopedBody_of_mem (hs hst) hd
  · exact e.bound _ _ hbound

theorem method?_mem {k : Class} {x : Text} {d : FunctionDecl} (hd : k.method? x = some d) : d ∈ k.methods := by
  unfold Class.method? at hd
  exact List.mem_reverse.mp (List.mem_of_find?_eq_some hd)

/-- A property is well made, whether it is a field or a method that is bound. -/
theorem getProperty_safe {o : Value} {x : Name} (ho : o.WellMade strict h) :
    Safe strict (getProperty o x) h fun v h' => v.WellMade strict h' := by
  cases o with
  | object k id =>
    refine safe_heap fun hm => ?_
    cases hf : (h.fields id).get? x.text with
    | some v => exact safe_pure (hm.fields id x.text v hf)
    | none =>
      cases hd : k.method? x.text with
      | some d => exact safe_map (bind_safe ho (method?_mem hd) ho) fun f h' hf => hf.1
      | none => exact safe_fault fun _ _ => nofun
  | nil | bool | number | string | function | classValue => exact safe_fault fun _ _ => nofun

theorem basic_wellMade {v : Value} (hv : v.Basic) : v.WellMade strict h := by
  cases v with
  | nil | bool | number | string => trivial
  | function | classValue | object => cases hv

theorem unary_safe {op : UnaryOp} {v : Value} {token : Text} {pos : Pos} :
    Safe strict (result token pos (op.apply v)) h fun v h' => v.WellMade strict h' := by
  cases hu : op.apply v with
  | ok u => exact safe_pure (basic_wellMade (unary_basic hu))
  | error cause =>
    refine safe_fault fun _ x hx => ?_
    cases op with
    | not => cases hu
    | negate =>
      unfold UnaryOp.apply at hu
      split at hu <;> cases hu
      cases hx

/-- Operands are never to blame for a name. -/
theorem operandsCause_ne (op : BinaryOp) (x : Text) : op.operandsCause ≠ .undefinedVariable x := by
  intro hcause
  cases op <;> cases hcause

theorem binary_safe {op : BinaryOp} {l r : Value} {token : Text} {pos : Pos} :
    Safe strict (result token pos (op.apply l r)) h fun v h' => v.WellMade strict h' := by
  cases hu : op.apply l r with
  | ok u => exact safe_pure (basic_wellMade (binary_basic hu))
  | error cause =>
    rw [cause_of_binary hu]
    exact safe_fault fun _ => operandsCause_ne op

end Run

open Run

mutual

/-- Evaluating an expression is safe in every frame that hosts it, by induction on the expression. -/
theorem eval_safe {call : Caller} (hcall : call.Safe strict) :
    (e : Expr) → e.Names (fun _ => True) (c.inClass = true) → (strict → e.Names (· ∈ Γ) True) →
    ∀ {h : Heap}, h.Hosts strict i c Γ → Safe strict (e.eval call i) h fun v h' => v.WellMade strict h'
  | .literal l, _, _, h, _ => safe_pure (basic_wellMade (literal_basic l))
  | .group e, hp, hn, h, hh => eval_safe hcall e hp hn hh
  | .unary op pos e, hp, hn, h, hh => by
    refine safe_bind (eval_safe hcall e hp hn hh) fun v h' _ _ _ => ?_
    exact unary_safe
  | .binary op pos l r, hp, hn, h, hh => by
    refine safe_bind (eval_safe hcall l hp.1 (fun s => (hn s).1) hh) fun v h' he _ _ => ?_
    refine safe_bind (eval_safe hcall r hp.2 (fun s => (hn s).2) (hosts_extends hh he)) fun w h'' _ _ _ => ?_
    exact binary_safe
  | .logical op l r, hp, hn, h, hh => by
    refine safe_bind (eval_safe hcall l hp.1 (fun s => (hn s).1) hh) fun v h' he _ hv => ?_
    by_cases hd : op.isDecidedBy v = true
    · rw [if_pos hd]
      exact safe_pure hv
    · rw [if_neg hd]
      exact eval_safe hcall r hp.2 (fun s => (hn s).2) (hosts_extends hh he)
  | .variable x, _, hn, h, hh => lookup_safe fun s => hh.names s x.text (hn s)
  | .assign x e, hp, hn, h, hh => by
    refine safe_bind (eval_safe hcall e hp.2 (fun s => (hn s).2) hh) fun v h' he _ hv => ?_
    -- the target is looked up after the value has been computed
    have hr (s : strict) : h'.Resolves i x.text := Heap.resolves_extends he (hh.names s x.text (hn s).1)
    refine safe_bind (assign_safe hr hv) fun _ h'' he' _ _ => ?_
    exact safe_pure (value_extends hv he')
  | .call f es paren, hp, hn, h, hh => by
    refine safe_bind (eval_safe hcall f hp.1 (fun s => (hn s).1) hh) fun v h' he _ hv => ?_
    refine safe_bind (evalAll_safe hcall es hp.2 (fun s => (hn s).2) (hosts_extends hh he)) fun vs h'' he' _ hvs => ?_
    -- what is called was evaluated before the arguments, from whose heap the call starts
    exact hcall v vs paren h'' (value_extends hv he') hvs
  | .get o x, hp, hn, h, hh => by
    refine safe_bind (eval_safe hcall o hp hn hh) fun v h' _ _ hv => ?_
    exact getProperty_safe hv
  | .set o x e, hp, hn, h, hh => by
    refine safe_bind (eval_safe hcall o hp.1 (fun s => (hn s).1) hh) fun v h' he _ hv => ?_
    cases v with
    | object k id =>
      refine safe_bind (eval_safe hcall e hp.2 (fun s => (hn s).2) (hosts_extends hh he)) fun w h'' _ _ hw => ?_
      have e' : h''.Extends (h''.setField id x.text w) := Heap.extends_of_frames_eq rfl
      exact safe_modifyHeap_bind e' (fun hm => wellMade_setField hm hw) (safe_pure (value_extends hw e'))
    | nil | bool | number | string | function | classValue => exact safe_fault fun _ _ => nofun
  | .this pos, hp, _, h, hh => lookup_safe fun s => hh.self s hp

theorem evalAll_safe {call : Caller} (hcall : call.Safe strict) :
    (es : List Expr) → Expr.NamesAll (fun _ => True) (c.inClass = true) es →
    (strict → Expr.NamesAll (· ∈ Γ) True es) → ∀ {h : Heap}, h.Hosts strict i c Γ →
    Safe strict (Expr.evalAll call i es) h fun vs h' => ∀ v ∈ vs, v.WellMade strict h'
  | [], _, _, h, _ => safe_pure fun v hv => nomatch hv
  | e :: es, hp, hn, h, hh => by
    refine safe_bind (eval_safe hcall e hp.1 (fun s => (hn s).1) hh) fun v h' he _ hv => ?_
    refine safe_bind (evalAll_safe hcall es hp.2 (fun s => (hn s).2) (hosts_extends hh he)) fun vs h'' he' _ hvs => ?_
    refine safe_pure fun w hw => ?_
    rcases List.mem_cons.mp hw with rfl | hw
    · exact value_extends hv he'
    · exact hvs w hw

end

theorem evalOption_safe {call : Caller} (hcall : call.Safe strict) {e : Option Expr}
    (hp : Expr.NamesOption (fun _ => True) (c.inClass = true) e) (hn : strict → Expr.NamesOption (· ∈ Γ) True e)
    (hh : h.Hosts strict i c Γ) : Safe strict (Expr.evalOption call i e) h fun v h' => v.WellMade strict h' := by
  cases e with
  | none => exact safe_pure trivial
  | some e => exact eval_safe hcall e hp hn hh

end Lox
