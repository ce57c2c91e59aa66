import Lox.Proofs.Run.Alike

/-! An expression has the same value at either of two places, in frames that hold the same, if calls do the same. -/
namespace Lox

variable {κ : Correspondence} {i i' : FrameId} {v v' w w' : Value} {x x' : Name}

def Caller.Alike (κ : Correspondence) (call call' : Caller) : Prop :=
  ∀ v v' vs vs' p p', v.Alike κ v' → List.Forall₂ (Value.Alike κ) vs vs' → κ.place p p' →
    Run.Alike κ (Value.Alike κ) (call v vs p) (call' v' vs' p')

namespace Run

/-- A name that is found in one heap is found in the other, with a value that is alike. -/
theorem lookup_alike (hi : κ.frame i i') (x : Text) {p p' : Pos} (hp : κ.place p p') :
    Alike κ (Value.Alike κ) (lookup i x p) (lookup i' x p') := by
  refine alike_heap fun h h' hh => ?_
  match h.get? i x, h'.get? i' x, Heap.get?_alike hh hi x with
  | _, _, .some hv => exact alike_pure hv
  | _, _, .none => exact alike_fault rfl hp

/-- An assignment changes the frames that correspond. -/
theorem assign_alike (hi : κ.frame i i') (hx : x.Alike κ.place x') (hv : v.Alike κ v') :
    Alike κ (fun _ _ => True) (assign i x v) (assign i' x' v') := by
  obtain ⟨text, pos⟩ := x
  obtain ⟨text', pos'⟩ := x'
  obtain ⟨rfl, hp⟩ : text' = text ∧ κ.place pos pos' := hx
  refine alike_heap fun h h' hh => ?_
  dsimp only
  have hrel := Heap.resolve?_alike hh hi text'
  generalize h.resolve? text' i = found at hrel ⊢
  generalize h'.resolve? text' i' = found' at hrel ⊢
  cases hrel with
  | some hfound =>
    have hj : κ.own _ _ := hfound.1
    apply alike_modifyHeap
    · intro h h' hh
      exact Heap.define_alike hh hj text' hv
    · intro h
      exact Heap.define_sameOutside hj
  | none => exact alike_fault rfl hp

theorem alike_pushFrame {vars vars' : Bindings Value} (hi : κ.frame i i') (hvars : vars.Alike κ vars') :
    Alike κ κ.own (alloc (·.pushFrame i vars)) (alloc (·.pushFrame i' vars')) := by
  apply alike_alloc
  intro h h' hh
  exact ⟨Heap.own_size hh, Heap.pushFrame_alike hh hi hvars, Heap.pushFrame_sameOutside hh⟩

theorem alike_nextSerial : Alike κ (fun a a' => a' = a) (alloc Heap.nextSerial) (alloc Heap.nextSerial) := by
  apply alike_alloc
  intro h h' hh
  exact ⟨hh.serial, Heap.nextSerial_alike hh, ⟨fun _ _ => rfl, fun _ _ => rfl, fun _ _ => rfl⟩⟩

theorem bind_alike {d d' : FunctionDecl} {c c' : Class} (hd : Stmt.AlikeDecl κ.place d d') (hc : c.Alike κ c')
    (hv : v.Alike κ v') : Alike κ (Closure.Alike κ) (bind d c v) (bind d' c' v') := by
  have hvars : Bindings.Alike κ [(thisName, v)] [(thisName, v')] := Bindings.insert_alike Bindings.nil_alike thisName hv
  refine alike_bind (alike_pushFrame (.inl hc.scope) hvars) fun j j' hj => ?_
  refine alike_bind alike_nextSerial fun n n' hn => alike_pure ⟨hn, hd, hj, ?_⟩
  have hname : d'.name.text = d.name.text := (Stmt.alikeDecl_iff.mp hd).1.1
  simp only [hname]

/-- A property is a field in both heaps, or a method in both. -/
theorem getProperty_alike (hv : v.Alike κ v') (hx : x.Alike κ.place x') :
    Alike κ (Value.Alike κ) (getProperty v x) (getProperty v' x') := by
  obtain ⟨text, pos⟩ := x
  obtain ⟨text', pos'⟩ := x'
  obtain ⟨rfl, hp⟩ : text' = text ∧ κ.place pos pos' := hx
  cases v with
  | nil | bool | number | string =>
    cases hv
    exact alike_fault rfl hp
  | function | classValue =>
    obtain ⟨_, rfl, -⟩ := hv
    exact alike_fault rfl hp
  | object c id =>
    have hself := hv
    obtain ⟨c', rfl, hid, hc⟩ := hv
    refine alike_heap fun h h' hh => ?_
    dsimp only
    -- a field comes before a method of the same name
    match (h.fields id).get? text', (h'.fields id).get? text', (hh.fields id hid).values text' with
    | _, _, .some hw => exact alike_pure hw
    | _, _, .none =>
      dsimp only
      match c.method? text', c'.method? text', method?_alike hc text' with
      | _, _, .some hd =>
        exact alike_map (bind_alike hd hc hself) fun f f' hf => ⟨f', rfl, hf⟩
      | _, _, .none => exact alike_fault rfl hp

theorem unary_alike (op : UnaryOp) (hv : v.Alike κ v') {token : Text} {p p' : Pos} (hp : κ.place p p') :
    Alike κ (Value.Alike κ) (result token p (op.apply v)) (result token p' (op.apply v')) := by
  cases op with
  | not =>
    have ht := truthy_alike hv
    refine alike_pure ?_
    change Value.bool (!v'.truthy) = Value.bool (!v.truthy)
    rw [ht]
  | negate =>
    cases v with
    | number x =>
      cases hv
      exact alike_pure rfl
    | nil | bool | string =>
      cases hv
      exact alike_fault rfl hp
    | function | classValue | object =>
      obtain ⟨_, rfl, -⟩ := hv
      exact alike_fault rfl hp

/-- Two numbers or two strings are the same on both sides, and of other values only equality can be asked. -/
theorem apply_alike (op : BinaryOp) (hv : v.Alike κ v') (hw : w.Alike κ w') : op.apply v' w' = op.apply v w := by
  have heq := equal_alike hv hw
  cases v with
  | nil | bool | number | string =>
    cases hv
    cases w with
    | nil | bool | number | string =>
      cases hw
      rfl
    | function | classValue | object =>
      obtain ⟨_, rfl, -⟩ := hw
      simp only [BinaryOp.apply, heq]
  | function | classValue | object =>
    obtain ⟨_, rfl, -⟩ := hv
    simp only [BinaryOp.apply, heq]

/-- A basic value refers to no frame. -/
theorem basic_alike (hv : v.Basic) : v.Alike κ v := by
  cases v with
  | nil | bool | number | string => rfl
  | function | classValue | object => cases hv

theorem binary_alike (op : BinaryOp) (hv : v.Alike κ v') (hw : w.Alike κ w') {token : Text} {p p' : Pos}
    (hp : κ.place p p') :
    Alike κ (Value.Alike κ) (result token p (op.apply v w)) (result token p' (op.apply v' w')) := by
  rw [apply_alike op hv hw]
  cases ha : op.apply v w with
  | ok a => exact alike_pure (basic_alike (binary_basic ha))
  | error cause => exact alike_fault rfl hp

end Run

open Run

mutual

/-- Evaluating an expression does the same in both heaps, by induction on the expression. -/
theorem eval_alike {call call' : Caller} (hc : call.Alike κ call') (hi : κ.frame i i') :
    (e : Expr) → ∀ {e' : Expr}, e.Alike κ.place e' → Run.Alike κ (Value.Alike κ) (e.eval call i) (e'.eval call' i')
  | .literal l, _, rfl => alike_pure (basic_alike (literal_basic l))
  | .group e, _, ⟨e', rfl, he⟩ => by
    have hinner : Run.Alike κ (Value.Alike κ) (e.eval call i) (e'.eval call' i') := eval_alike hc hi e he
    exact hinner
  | .unary op p e, _, ⟨_, _, rfl, hp, he⟩ =>
    alike_bind (eval_alike hc hi e he) fun _ _ hv => unary_alike op hv hp
  | .binary op p l r, _, ⟨_, _, _, rfl, hp, hl, hr⟩ =>
    alike_bind (eval_alike hc hi l hl) fun _ _ hv =>
      alike_bind (eval_alike hc hi r hr) fun _ _ hw => binary_alike op hv hw hp
  | .logical op l r, _, ⟨_, _, rfl, hl, hr⟩ => by
    refine alike_bind (eval_alike hc hi l hl) fun v v' hv => ?_
    rw [isDecidedBy_alike op hv]
    by_cases hd : op.isDecidedBy v = true
    · rw [if_pos hd, if_pos hd]
      exact alike_pure hv
    · rw [if_neg hd, if_neg hd]
      exact eval_alike hc hi r hr
  | .variable ⟨text, pos⟩, _, ⟨⟨text', pos'⟩, rfl, hx⟩ => by
    obtain ⟨rfl, hp⟩ : text' = text ∧ κ.place pos pos' := hx
    exact lookup_alike hi text' hp
  | .assign x e, _, ⟨_, _, rfl, hx, he⟩ => by
    refine alike_bind (eval_alike hc hi e he) fun v v' hv => ?_
    exact alike_bind (assign_alike hi hx hv) fun _ _ _ => alike_pure hv
  | .call f es p, _, ⟨_, _, _, rfl, hp, hf, hes⟩ =>
    alike_bind (eval_alike hc hi f hf) fun v v' hv =>
      alike_bind (evalAll_alike hc hi es hes) fun vs vs' hvs => hc v v' vs vs' _ _ hv hvs hp
  | .get o x, _, ⟨_, _, rfl, hx, ho⟩ =>
    alike_bind (eval_alike hc hi o ho) fun _ _ hv => getProperty_alike hv hx
  | .set o x e, _, ⟨_, x', e', rfl, hx, ho, he⟩ => by
    refine alike_bind (eval_alike hc hi o ho) fun v v' hv => ?_
    obtain ⟨text, pos⟩ := x
    obtain ⟨text', pos'⟩ := x'
    obtain ⟨rfl, hp⟩ : text' = text ∧ κ.place pos pos' := hx
    -- only an object has fields to set; its value is evaluated after that has been found out
    cases v with
    | nil | bool | number | string =>
      cases hv
      exact alike_fault rfl hp
    | function | classValue =>
      obtain ⟨_, rfl, -⟩ := hv
      exact alike_fault rfl hp
    | object c id =>
      obtain ⟨c', rfl, hid, -⟩ := hv
      refine alike_bind (eval_alike hc hi e he) fun w w' hw => ?_
      refine alike_bind (alike_modifyHeap ?_ ?_) fun _ _ _ => alike_pure hw
      · intro h h' hh
        exact Heap.setField_alike hh id text' hw
      · intro h
        exact Heap.setField_sameOutside hid
  | .this p, _, ⟨_, rfl, hp⟩ => lookup_alike hi thisName hp

theorem evalAll_alike {call call' : Caller} (hc : call.Alike κ call') (hi : κ.frame i i') :
    (es : List Expr) → ∀ {es' : List Expr}, Expr.AlikeAll κ.place es es' →
    Run.Alike κ (List.Forall₂ (Value.Alike κ)) (Expr.evalAll call i es) (Expr.evalAll call' i' es')
  | [], _, rfl => alike_pure .nil
  | e :: es, _, ⟨_, _, rfl, he, hes⟩ =>
    alike_bind (eval_alike hc hi e he) fun _ _ hv =>
      alike_bind (evalAll_alike hc hi es hes) fun _ _ hvs => alike_pure (.cons hv hvs)

end

theorem evalOption_alike {call call' : Caller} (hc : call.Alike κ call') (hi : κ.frame i i') {e e' : Option Expr}
    (he : Expr.AlikeOption κ.place e e') :
    Run.Alike κ (Value.Alike κ) (Expr.evalOption call i e) (Expr.evalOption call' i' e') := by
  cases e with
  | none =>
    cases he
    exact alike_pure rfl
  | some e =>
    obtain ⟨e', rfl, he⟩ := he
    exact eval_alike hc hi e he

end Lox
