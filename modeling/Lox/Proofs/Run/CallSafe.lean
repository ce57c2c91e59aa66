import Lox.Proofs.Run.ExecSafe

/-! Calls are safe, by induction on the fuel that bounds the calls inside a call. A body runs in the context of its
function, in which no loop is open, so that no break can reach the call; and the parameters get as many arguments as
there are, since the call has compared their numbers. -/
namespace Lox

open Lox.Parser (Context)

variable {strict : Prop} {h : Heap}

namespace Run

/-- With as many arguments as parameters, each parameter is bound, and to nothing but arguments. -/
theorem bindParams_eq_some (ps : List Name) (args : List Value) (vars : Bindings Value)
    (hl : args.length = ps.length) : ∃ vars', bindParams ps args vars = some vars' ∧
      (∀ x v, vars'.get? x = some v → v ∈ args ∨ vars.get? x = some v) ∧
      ∀ x, x ∈ ps.map Name.text ∨ (vars.get? x).isSome = true → (vars'.get? x).isSome = true := by
  induction ps generalizing args vars with
  | nil =>
    refine ⟨vars, rfl, fun x v hv => .inr hv, fun x hx => ?_⟩
    rcases hx with hx | hx
    · cases hx
    · exact hx
  | cons p ps ih =>
    cases args with
    | nil => cases hl
    | cons a args =>
      obtain ⟨vars', hb, hv', hx'⟩ := ih args (vars.insert p.text a) (Nat.succ.inj hl)
      refine ⟨vars', hb, fun x v hv => ?_, fun x hx => hx' x ?_⟩
      · rcases hv' x v hv with hmem | hget
        · exact .inl (List.mem_cons_of_mem _ hmem)
        · rcases Bindings.get?_insert_cases hget with rfl | hget
          · exact .inl List.mem_cons_self
          · exact .inr hget
      · rcases hx with hx | hx
        · rw [List.map_cons] at hx
          rcases List.mem_cons.mp hx with hxp | hx
          · exact .inr (Bindings.isSome_get?_insert (.inl hxp))
          · exact .inl hx
        · exact .inr (Bindings.isSome_get?_insert (.inr hx))

def BodySafe (strict : Prop) (body : FrameId → List Stmt → Run Flow) : Prop :=
  ∀ ss c Γ h i, Stmt.PlacedAll c ss → (strict → Stmt.ScopedAll Γ ss) → h.Hosts strict i c Γ →
    Safe strict (body i ss) h fun flow h' => flow.Expected strict c [] i h'

/-- The body of a function finds its parameters, and what it returns is well made; an initializer finds its instance. -/
theorem enter_safe {body : FrameId → List Stmt → Run Flow} (hbody : BodySafe strict body) {policy : Policy}
    {f : Closure} {args : List Value} (hf : f.WellMade strict h) (ha : ∀ a ∈ args, a.WellMade strict h)
    (hl : args.length = f.decl.params.length) :
    Safe strict (enter body policy f args) h fun v h' => v.WellMade strict h' := by
  obtain ⟨c, Γ, hh, hp, hs, hinit⟩ := hf
  obtain ⟨vars, hb, hvars, hbound⟩ := bindParams_eq_some f.decl.params args [] hl
  have hvalues (x : Text) (v : Value) (hv : vars.get? x = some v) : v.WellMade strict h := by
    rcases hvars x v hv with hmem | hnil
    · exact ha v hmem
    · cases hnil
  have hframe : (h.pushFrame f.scope vars).2.Hosts strict h.frames.size c.enterFunction
      (f.decl.params.map Name.text ++ Γ) := hosts_pushFrame hh .inl fun x hx => hbound x (.inl hx)
  unfold enter
  rw [hb]
  refine safe_alloc_bind Heap.extends_pushFrame (fun hm => wellMade_pushFrame hm hvalues) ?_
  refine safe_bind (logBlock_safe (Q := fun _ _ => True) trivial) fun _ h₁ e₁ _ _ => ?_
  have hrun := hbody f.decl.body c.enterFunction _ h₁ h.frames.size (Stmt.placedBody_iff.mp hp)
    (fun hst => Stmt.scopedBody_iff.mp (hs hst)) (hosts_extends hframe e₁)
  refine safe_bind hrun fun flow h₂ e₂ _ hflow => ?_
  extract_lets finish
  -- an initializer finds its instance in the frame that it was bound in, whatever has been run since
  have hfinish (v : Value) (hv : v.WellMade strict h₂) :
      Safe strict (finish v) h₂ fun v h' => v.WellMade strict h' := by
    unfold finish
    by_cases hi : f.isInit = true
    · rw [if_pos hi]
      refine safe_heap fun hm => ?_
      have e : h.Extends h₂ := Heap.extends_trans (Heap.extends_trans Heap.extends_pushFrame e₁) e₂
      have hself := e.bound f.scope thisName (hinit hi)
      cases hget : (h₂.vars f.scope).get? thisName with
      | some self => exact safe_pure (hm.vars _ _ _ hget)
      | none =>
        rw [hget] at hself
        cases hself
    · rw [if_neg hi]
      exact safe_pure hv
  cases flow with
  | next => exact hfinish .nil trivial
  | returned v => exact hfinish v hflow.2
  -- in the body of a function no loop is open at first
  | broke => cases hflow

/-- A new instance is well made before its initializer runs. -/
theorem construct_safe {body : FrameId → List Stmt → Run Flow} (hbody : BodySafe strict body) {policy : Policy}
    {k : Class} {args : List Value} (hk : k.WellMade strict h) (ha : ∀ a ∈ args, a.WellMade strict h)
    (hl : args.length = k.arity) : Safe strict (construct body policy k args) h fun v h' => v.WellMade strict h' := by
  have e : h.Extends h.pushInstance.2 := Heap.extends_of_frames_eq rfl
  have hself := class_extends hk e
  unfold construct
  refine safe_alloc_bind e wellMade_pushInstance ?_
  cases hd : k.method? initName with
  | none => exact safe_pure hself
  | some d =>
    refine safe_bind (bind_safe hself (method?_mem hd) hself) fun f h₁ e₁ _ hf => ?_
    obtain ⟨hf, rfl⟩ := hf
    -- a class takes as many arguments as its initializer
    have harity : args.length = f.decl.params.length := by
      rw [hl, Class.arity, hd]
      rfl
    have hargs (a : Value) (hmem : a ∈ args) : a.WellMade strict h₁ :=
      value_extends (ha a hmem) (Heap.extends_trans e e₁)
    refine safe_bind (enter_safe hbody hf hargs harity) fun _ h₂ e₂ _ _ => ?_
    exact safe_pure (class_extends hself (Heap.extends_trans e₁ e₂))

theorem toValue_of_callable? {value : Value} {callee : Callable} (hc : value.callable? = some callee) :
    callee.toValue = value := by
  cases value with
  | function f | classValue k =>
    cases hc
    rfl
  | nil | bool | number | string | object => cases hc

/-- What a call lets in can be called, and it is given as many arguments as it takes. -/
theorem checkCall_safe {policy : Policy} {depth : Nat} {value : Value} {args : List Value} {paren : Pos}
    (hv : value.WellMade strict h) : Safe strict (checkCall policy depth value args paren) h fun callee h' =>
      callee.toValue.WellMade strict h' ∧ args.length = callee.arity := by
  unfold checkCall
  cases hc : value.callable? with
  | none => exact safe_fault fun _ _ => nofun
  | some callee =>
    have hvalue := toValue_of_callable? hc
    dsimp only
    by_cases hl : args.length ≠ callee.arity
    · rw [if_pos hl]
      exact safe_fault fun _ _ => nofun
    · rw [if_neg hl]
      by_cases hd : (!policy.allowsDepth (depth + 1)) = true
      · rw [if_pos hd]
        exact safe_fault fun _ _ => nofun
      · rw [if_neg hd]
        refine safe_bind (safe_log (Q := fun _ _ => True) trivial) fun _ h' he _ _ => safe_pure ⟨?_, ?_⟩
        · rw [hvalue]
          exact value_extends hv he
        · exact Decidable.not_not.mp hl

/-- Calls are safe at every fuel and every depth, by induction on the fuel. -/
theorem call_safe (policy : Policy) (fuel depth : Nat) : Caller.Safe strict (call policy fuel depth) := by
  induction fuel generalizing depth with
  -- the checks come first, so a call without fuel may still end with a fault
  | zero =>
    intro value args paren h hv ha
    rw [call_eq]
    exact safe_bind (checkCall_safe hv) fun callee h' _ _ _ => safe_exhausted
  | succ fuel ih =>
    intro value args paren h hv ha
    rw [call_eq]
    refine safe_bind (checkCall_safe hv) fun callee h' he _ hcallee => ?_
    obtain ⟨hvalue, harity⟩ := hcallee
    have hargs (a : Value) (hmem : a ∈ args) : a.WellMade strict h' := value_extends (ha a hmem) he
    have hbody : BodySafe strict (Stmt.execAll policy (call policy fuel (depth + 1)) fuel) := by
      intro ss c Γ h'' i hp hs hh
      exact execAll_safe (ih (depth + 1)) policy fuel ss hp hs hh
    cases callee with
    | function f => exact enter_safe hbody hvalue hargs harity
    | classValue k => exact construct_safe hbody hvalue hargs harity

end Run
end Lox
