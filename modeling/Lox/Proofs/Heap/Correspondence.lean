import Lox.Proofs.Heap.Names
import Lox.Proofs.Syntax.Alike

/-! Two heaps that hold the same. The frames of the one heap stand for frames of the other; the first heap may have
extra frames, which are empty, so that looking through them makes no difference. What no frame or instance of the
correspondence refers to may be anything. -/
namespace Lox

inductive Cell where
  | frame (i : FrameId)
  | object (id : InstanceId)

inductive Value.RefersTo : Value → Cell → Prop
  | function (f : Closure) : RefersTo (.function f) (.frame f.scope)
  | classValue (c : Class) : RefersTo (.classValue c) (.frame c.scope)
  | classOf (c : Class) (id : InstanceId) : RefersTo (.object c id) (.frame c.scope)
  | object (c : Class) (id : InstanceId) : RefersTo (.object c id) (.object id)

/-- Which frames, instances and places of one run stand for which of another run. -/
structure Correspondence where
  /-- Frames with the same variables. -/
  own : FrameId → FrameId → Prop
  /-- A frame that only the first run has, which stands for a frame around it. -/
  extra : FrameId → FrameId → Prop
  /-- The instances that both runs may use; an instance has the same place in both heaps. -/
  object : InstanceId → Prop
  place : Pos → Pos → Prop
  own_iff : ∀ {i i' j j' : FrameId}, own i i' → own j j' → (i = j ↔ i' = j')
  not_own : ∀ {i i' j' : FrameId}, extra i i' → ¬ own i j'

variable {κ : Correspondence}

/-- In these two frames the same code does the same. -/
def Correspondence.frame (κ : Correspondence) (i i' : FrameId) : Prop := κ.own i i' ∨ κ.extra i i'

def Correspondence.along (place : Pos → Pos → Prop) : Correspondence where
  own j j' := j' = j
  extra _ _ := False
  object _ := True
  place := place
  own_iff := by
    rintro j _ k _ rfl rfl
    rfl
  not_own := False.elim

def Correspondence.same : Correspondence := .along fun p q => q = p

structure Closure.Alike (κ : Correspondence) (f f' : Closure) : Prop where
  serial : f'.serial = f.serial
  decl : Stmt.AlikeDecl κ.place f.decl f'.decl
  scope : κ.own f.scope f'.scope
  isInit : f'.isInit = f.isInit

structure Class.Alike (κ : Correspondence) (c c' : Class) : Prop where
  serial : c'.serial = c.serial
  name : c'.name = c.name
  scope : κ.own c.scope c'.scope
  methods : List.Forall₂ (Stmt.AlikeDecl κ.place) c.methods c'.methods

/-- The second value is what the first one is in the other heap. -/
def Value.Alike (κ : Correspondence) : Value → Value → Prop
  | .nil, w => w = .nil
  | .bool b, w => w = .bool b
  | .number x, w => w = .number x
  | .string s, w => w = .string s
  | .function f, w => ∃ f', w = .function f' ∧ f.Alike κ f'
  | .classValue c, w => ∃ c', w = .classValue c' ∧ c.Alike κ c'
  | .object c id, w => ∃ c', w = .object c' id ∧ κ.object id ∧ c.Alike κ c'

def Correspondence.Fixes (κ : Correspondence) : Cell → Prop
  | .frame i => κ.own i i
  | .object id => κ.object id

/-- A value that refers only to what stands for itself does so, too. -/
theorem value_alike_self {v : Value} (hp : ∀ p, κ.place p p) (hv : ∀ c, v.RefersTo c → κ.Fixes c) : v.Alike κ v := by
  have hclass (k : Class) (hk : κ.own k.scope k.scope) : k.Alike κ k :=
    ⟨rfl, rfl, hk, List.forall₂_same.mpr fun d _ => decl_alike_refl hp d⟩
  cases v with
  | nil | bool | number | string => rfl
  | function f => exact ⟨f, rfl, rfl, decl_alike_refl hp f.decl, hv _ (.function f), rfl⟩
  | classValue k => exact ⟨k, rfl, hclass k (hv _ (.classValue k))⟩
  | object k id => exact ⟨k, rfl, hv _ (.object k id), hclass k (hv _ (.classOf k id))⟩

/-- If what corresponds goes on to correspond, as far as a value refers to it, the value stays alike. -/
theorem value_alike_mono {κ' : Correspondence} {v v' : Value} (hp : ∀ p q, κ.place p q → κ'.place p q)
    (hid : ∀ id, κ.object id → κ'.object id) (hi : ∀ i i', v.RefersTo (.frame i) → κ.own i i' → κ'.own i i')
    (hv : v.Alike κ v') : v.Alike κ' v' := by
  have hclass (k k' : Class) (hk : k.Alike κ k') (hs : κ'.own k.scope k'.scope) : k.Alike κ' k' :=
    ⟨hk.serial, hk.name, hs, hk.methods.imp fun d d' => decl_alike_mono hp d⟩
  cases v with
  | nil | bool | number | string => exact hv
  | function f =>
    obtain ⟨f', rfl, hf⟩ := hv
    exact ⟨f', rfl, hf.serial, decl_alike_mono hp f.decl hf.decl, hi _ _ (.function f) hf.scope, hf.isInit⟩
  | classValue k =>
    obtain ⟨k', rfl, hk⟩ := hv
    exact ⟨k', rfl, hclass k k' hk (hi _ _ (.classValue k) hk.scope)⟩
  | object k id =>
    obtain ⟨k', rfl, hobject, hk⟩ := hv
    exact ⟨k', rfl, hid id hobject, hclass k k' hk (hi _ _ (.classOf k id) hk.scope)⟩

namespace Bindings

structure Alike (κ : Correspondence) (b b' : Bindings Value) : Prop where
  names : b'.names = b.names
  values : ∀ x, Option.Rel (Value.Alike κ) (b.get? x) (b'.get? x)

variable {b b' : Bindings Value} {v v' : Value}

theorem nil_alike : Alike κ [] [] := ⟨rfl, fun _ => .none⟩

/-- Bindings stay alike if each of their values does. -/
theorem alike_of_values {κ' : Correspondence} (hb : b.Alike κ b')
    (hv : ∀ x v v', b.get? x = some v → v.Alike κ v' → v.Alike κ' v') : b.Alike κ' b' := by
  refine ⟨hb.names, fun x => ?_⟩
  match hx : b.get? x, b'.get? x, hb.values x with
  | _, _, .none => exact .none
  | some v, some v', .some halike => exact .some (hv x v v' hx halike)

theorem insert_alike (h : b.Alike κ b') (x : Text) (hv : v.Alike κ v') :
    (b.insert x v).Alike κ (b'.insert x v') := by
  refine ⟨?_, fun y => ?_⟩
  · rw [names_insert, names_insert, h.names]
  · by_cases hy : y = x
    · rw [hy, get?_insert_self, get?_insert_self]
      exact .some hv
    · rw [get?_insert_of_ne _ _ hy, get?_insert_of_ne _ _ hy]
      exact h.values y

end Bindings

namespace Heap

variable {h h' h'' : Heap} {i i' j : Nat} {id : InstanceId} {x : Text} {v v' : Value}
  {vars vars' : Bindings Value}

theorem enclosing?_pushFrame_size :
    (h.pushFrame i vars).2.enclosing? h.frames.size = if i < h.frames.size then some i else none := by
  unfold pushFrame enclosing?
  rw [Array.getElem?_push_size]
  by_cases hi : i < h.frames.size
  · simp [hi]
  · simp [hi, Option.filter]

/-- A new instance has no fields, and neither has an instance that there is not. -/
theorem fields_pushInstance : h.pushInstance.2.fields id = h.fields id := by
  unfold pushInstance fields
  rw [Array.getElem?_push]
  by_cases hid : id = h.instances.size
  · rw [if_pos hid, hid, Array.getElem?_eq_none (Nat.le_refl _)]
    rfl
  · rw [if_neg hid]

theorem fields_setField_of_ne {id' : InstanceId} (hid : id ≠ id') : (h.setField id x v).fields id' = h.fields id' := by
  unfold setField fields
  rw [Array.getElem?_modify, if_neg hid]

theorem fields_setField_self (hid : id < h.instances.size) :
    (h.setField id x v).fields id = (h.fields id).insert x v := by
  unfold setField fields
  rw [Array.getElem?_modify, if_pos rfl, Array.getElem?_eq_getElem hid]
  rfl

theorem fields_setField_outside (hid : ¬ id < h.instances.size) : (h.setField id x v).fields id = h.fields id := by
  unfold setField fields
  rw [Array.getElem?_modify, if_pos rfl, Array.getElem?_eq_none (Nat.le_of_not_lt hid)]
  rfl

/-- The two heaps hold the same. The frames and instances that are made next will correspond, one by one. -/
structure Alike (κ : Correspondence) (h h' : Heap) : Prop where
  serial : h'.serial = h.serial
  instances : h'.instances.size = h.instances.size
  next : ∀ k, κ.own (h.frames.size + k) (h'.frames.size + k)
  fresh : ∀ i i' : Nat, κ.frame i i' → h.frames.size ≤ i ∨ h'.frames.size ≤ i' →
    ∃ k, i = h.frames.size + k ∧ i' = h'.frames.size + k
  newObject : ∀ id, h.instances.size ≤ id → κ.object id
  vars : ∀ i i', κ.own i i' → (h.vars i).Alike κ (h'.vars i')
  enclosing : ∀ i i', κ.own i i' → Option.Rel κ.frame (h.enclosing? i) (h'.enclosing? i')
  extra : ∀ i i', κ.extra i i' → h.vars i = [] ∧ ∃ j, h.enclosing? i = some j ∧ κ.frame j i'
  fields : ∀ id, κ.object id → (h.fields id).Alike κ (h'.fields id)

/-- A heap holds the same as itself, whatever places may differ. -/
theorem along_alike {place : Pos → Pos → Prop} (hp : ∀ p, place p p) (h : Heap) : h.Alike (.along place) h := by
  have hvalue (v : Value) : v.Alike (.along place) v := by
    apply value_alike_self hp
    intro c _
    cases c with
    | frame j => rfl
    | object id => trivial
  have hbindings (b : Bindings Value) : b.Alike (.along place) b := by
    refine ⟨rfl, fun x => ?_⟩
    cases b.get? x with
    | none => exact .none
    | some v => exact .some (hvalue v)
  refine ⟨rfl, rfl, fun _ => rfl, ?_, fun _ _ => trivial, ?_, ?_, fun _ _ => False.elim, fun id _ => hbindings _⟩
  · rintro (j : Nat) (k : Nat) (hjk | hextra) hnew
    · have hjk : k = j := hjk
      exact ⟨j - h.frames.size, by omega, by omega⟩
    · cases hextra
  · intro j k hjk
    obtain rfl : k = j := hjk
    exact hbindings _
  · intro j k hjk
    obtain rfl : k = j := hjk
    cases h.enclosing? k with
    | none => exact .none
    | some l => exact .some (.inl rfl)

theorem same_alike (h : Heap) : h.Alike .same h := by
  have hplace (p : Pos) : Correspondence.same.place p p := rfl
  exact along_alike hplace h

/-- More places may be related. -/
theorem along_alike_mono {place place' : Pos → Pos → Prop} (hp : ∀ p q, place p q → place' p q)
    (hh : h.Alike (.along place) h') : h.Alike (.along place') h' := by
  have hvalue (v v' : Value) (hv : v.Alike (.along place) v') : v.Alike (.along place') v' := by
    apply value_alike_mono _ _ _ hv
    · exact hp
    · exact fun _ hid => hid
    · exact fun _ _ _ hown => hown
  have hbindings (b b' : Bindings Value) (hb : b.Alike (.along place) b') : b.Alike (.along place') b' :=
    Bindings.alike_of_values hb fun _ v v' _ => hvalue v v'
  -- nothing but the values depends on the places
  exact ⟨hh.serial, hh.instances, hh.next, hh.fresh, hh.newObject, fun i i' hi => hbindings _ _ (hh.vars i i' hi),
    hh.enclosing, hh.extra, fun id hid => hbindings _ _ (hh.fields id hid)⟩

/-- What the correspondence says nothing of is as it was. -/
structure SameOutside (κ : Correspondence) (h h' : Heap) : Prop where
  vars : ∀ i, (∀ i', ¬ κ.own i i') → h'.vars i = h.vars i
  enclosing : ∀ i, (∀ i', ¬ κ.own i i') → h'.enclosing? i = h.enclosing? i
  fields : ∀ id, ¬ κ.object id → h'.fields id = h.fields id

theorem sameOutside_refl (h : Heap) : h.SameOutside κ h := ⟨fun _ _ => rfl, fun _ _ => rfl, fun _ _ => rfl⟩

theorem sameOutside_trans (e : h.SameOutside κ h') (e' : h'.SameOutside κ h'') : h.SameOutside κ h'' where
  vars i hi := (e'.vars i hi).trans (e.vars i hi)
  enclosing i hi := (e'.enclosing i hi).trans (e.enclosing i hi)
  fields id hid := (e'.fields id hid).trans (e.fields id hid)

theorem own_size (hh : h.Alike κ h') : κ.own h.frames.size h'.frames.size := hh.next 0

/-- A frame is there in the one heap if the frame that it stands for is there in the other. -/
theorem lt_iff_of_frame (hh : h.Alike κ h') (hi : κ.frame i i') : i < h.frames.size ↔ i' < h'.frames.size := by
  by_cases hold : h.frames.size ≤ i ∨ h'.frames.size ≤ i'
  · obtain ⟨k, rfl, rfl⟩ := hh.fresh i i' hi hold
    omega
  · omega

/-- A name is found in frames that hold the same, with values that are alike, or it is found from neither frame. -/
theorem resolve?_alike (hh : h.Alike κ h') (hi : κ.frame i i') (x : Text) :
    Option.Rel (fun a a' => κ.own a.1 a'.1 ∧ a.2.Alike κ a'.2) (h.resolve? x i) (h'.resolve? x i') := by
  induction i using Nat.strongRecOn generalizing i' with
  | _ i ih =>
    rcases hi with hown | hextra
    · have hget := (hh.vars i i' hown).values x
      match hv : (h.vars i).get? x, hv' : (h'.vars i').get? x, hget with
      | _, _, .some hvalue =>
        rw [resolve?_of_vars hv, resolve?_of_vars hv']
        exact .some ⟨hown, hvalue⟩
      -- neither frame has the name, so both go on in the frames around them
      | _, _, .none =>
        have henc := hh.enclosing i i' hown
        match he : h.enclosing? i, he' : h'.enclosing? i', henc with
        | _, _, .some hj =>
          rw [resolve?_of_enclosing? hv he, resolve?_of_enclosing? hv' he']
          exact ih _ (lt_of_enclosing? he) hj
        | _, _, .none =>
          rw [resolve?_of_none hv he, resolve?_of_none hv' he']
          exact .none
    -- an extra frame has no names, and the frame around it stands for the same frame
    · obtain ⟨hvars, j, he, hj⟩ := hh.extra i i' hextra
      have hv : (h.vars i).get? x = none := by rw [hvars]; rfl
      rw [resolve?_of_enclosing? hv he]
      exact ih j (lt_of_enclosing? he) hj

/-- A name that is looked up from frames that correspond has values that are alike. -/
theorem get?_alike (hh : h.Alike κ h') (hi : κ.frame i i') (x : Text) :
    Option.Rel (Value.Alike κ) (h.get? i x) (h'.get? i' x) := by
  unfold get?
  match h.resolve? x i, h'.resolve? x i', resolve?_alike hh hi x with
  | _, _, .some hfound => exact .some hfound.2
  | _, _, .none => exact .none

/-- Values that are alike may be bound in frames that correspond. -/
theorem define_alike (hh : h.Alike κ h') (hi : κ.own i i') (x : Text) (hv : v.Alike κ v') :
    (h.define i x v).Alike κ (h'.define i' x v') := by
  have hlt := lt_iff_of_frame hh (.inl hi)
  refine ⟨hh.serial, hh.instances, ?_, ?_, hh.newObject, ?_, ?_, ?_, hh.fields⟩
  · rw [frames_define, frames_define]
    exact hh.next
  · rw [frames_define, frames_define]
    exact hh.fresh
  · intro j j' hj
    by_cases hij : i = j
    · have hij' : i' = j' := (κ.own_iff hi hj).mp hij
      subst hij hij'
      by_cases hsize : i < h.frames.size
      · rw [vars_define_self hsize, vars_define_self (hlt.mp hsize)]
        exact Bindings.insert_alike (hh.vars i i' hj) x hv
      · rw [vars_define_outside hsize, vars_define_outside fun hsize' => hsize (hlt.mpr hsize')]
        exact hh.vars i i' hj
    · have hij' : i' ≠ j' := fun hij' => hij ((κ.own_iff hi hj).mpr hij')
      rw [vars_define_of_ne hij, vars_define_of_ne hij']
      exact hh.vars j j' hj
  · intro j j' hj
    rw [enclosing?_define, enclosing?_define]
    exact hh.enclosing j j' hj
  · intro j j' hj
    have hij : i ≠ j := by
      rintro rfl
      exact κ.not_own hj hi
    rw [vars_define_of_ne hij, enclosing?_define]
    exact hh.extra j j' hj

/-- A name that is bound in a frame of the correspondence changes nothing outside of it. -/
theorem define_sameOutside (hi : κ.own i i') : h.SameOutside κ (h.define i x v) where
  vars j hj := by
    apply vars_define_of_ne
    rintro rfl
    exact hj i' hi
  enclosing j _ := enclosing?_define
  fields _ _ := rfl

/-- The two frames that are made next correspond, so heaps that hold the same go on doing so. -/
theorem pushFrame_alike (hh : h.Alike κ h') (hi : κ.frame i i') (hvars : vars.Alike κ vars') :
    (h.pushFrame i vars).2.Alike κ (h'.pushFrame i' vars').2 := by
  have hown := own_size hh
  refine ⟨hh.serial, hh.instances, ?_, ?_, hh.newObject, ?_, ?_, ?_, hh.fields⟩
  · intro k
    rw [frames_pushFrame, frames_pushFrame, Nat.add_assoc, Nat.add_assoc]
    exact hh.next (1 + k)
  · intro j j' hj hnew
    rw [frames_pushFrame, frames_pushFrame] at hnew ⊢
    obtain ⟨k, hk, hk'⟩ := hh.fresh j j' hj (by omega)
    exact ⟨k - 1, by omega, by omega⟩
  · intro j j' hj
    -- the two new frames correspond to each other, and to no older one
    have hnew := κ.own_iff hj hown
    by_cases hsize : j = h.frames.size
    · rw [hsize, hnew.mp hsize, vars_pushFrame_self, vars_pushFrame_self]
      exact hvars
    · rw [vars_pushFrame_of_ne hsize, vars_pushFrame_of_ne fun hsize' => hsize (hnew.mpr hsize')]
      exact hh.vars j j' hj
  · intro j j' hj
    have hnew := κ.own_iff hj hown
    by_cases hsize : j = h.frames.size
    · have hlt := lt_iff_of_frame hh hi
      rw [hsize, hnew.mp hsize, enclosing?_pushFrame_size, enclosing?_pushFrame_size]
      by_cases hthere : i < h.frames.size
      · rw [if_pos hthere, if_pos (hlt.mp hthere)]
        exact .some hi
      · rw [if_neg hthere, if_neg fun hthere' => hthere (hlt.mpr hthere')]
        exact .none
    · rw [enclosing?_pushFrame_of_ne hsize, enclosing?_pushFrame_of_ne fun hsize' => hsize (hnew.mpr hsize')]
      exact hh.enclosing j j' hj
  · intro j j' hj
    have hsize : j ≠ h.frames.size := by
      rintro rfl
      exact κ.not_own hj hown
    rw [vars_pushFrame_of_ne hsize, enclosing?_pushFrame_of_ne hsize]
    exact hh.extra j j' hj

theorem pushFrame_sameOutside (hh : h.Alike κ h') : h.SameOutside κ (h.pushFrame i vars).2 := by
  have hne (j : FrameId) (hj : ∀ j', ¬ κ.own j j') : j ≠ h.frames.size := by
    rintro rfl
    exact hj _ (own_size hh)
  exact ⟨fun j hj => vars_pushFrame_of_ne (hne j hj), fun j hj => enclosing?_pushFrame_of_ne (hne j hj), fun _ _ => rfl⟩

theorem pushInstance_alike (hh : h.Alike κ h') : h.pushInstance.2.Alike κ h'.pushInstance.2 := by
  have hsize (k : Heap) : k.pushInstance.2.instances.size = k.instances.size + 1 := Array.size_push _
  refine ⟨hh.serial, ?_, hh.next, hh.fresh, ?_, hh.vars, hh.enclosing, hh.extra, ?_⟩
  · rw [hsize, hsize, hh.instances]
  · intro id hid
    rw [hsize] at hid
    exact hh.newObject id (by omega)
  · intro id hid
    rw [fields_pushInstance, fields_pushInstance]
    exact hh.fields id hid

theorem pushInstance_sameOutside : h.SameOutside κ h.pushInstance.2 :=
  ⟨fun _ _ => rfl, fun _ _ => rfl, fun _ _ => fields_pushInstance⟩

theorem setField_alike (hh : h.Alike κ h') (id : InstanceId) (x : Text) (hv : v.Alike κ v') :
    (h.setField id x v).Alike κ (h'.setField id x v') := by
  have hsize (k : Heap) (w : Value) : (k.setField id x w).instances.size = k.instances.size := Array.size_modify
  refine ⟨hh.serial, ?_, hh.next, hh.fresh, ?_, hh.vars, hh.enclosing, hh.extra, ?_⟩
  · rw [hsize, hsize, hh.instances]
  · intro id' hnew
    rw [hsize] at hnew
    exact hh.newObject id' hnew
  · intro id' hid'
    by_cases hne : id = id'
    · subst hne
      by_cases hlt : id < h.instances.size
      · rw [fields_setField_self hlt, fields_setField_self (hh.instances ▸ hlt)]
        exact Bindings.insert_alike (hh.fields id hid') x hv
      · rw [fields_setField_outside hlt, fields_setField_outside (hh.instances ▸ hlt)]
        exact hh.fields id hid'
    · rw [fields_setField_of_ne hne, fields_setField_of_ne hne]
      exact hh.fields id' hid'

theorem setField_sameOutside (hid : κ.object id) : h.SameOutside κ (h.setField id x v) where
  vars _ _ := rfl
  enclosing _ _ := rfl
  fields id' hid' := by
    apply fields_setField_of_ne
    rintro rfl
    exact hid' hid

/-- Heaps that hold the same give out the same serial number. -/
theorem nextSerial_alike (hh : h.Alike κ h') : h.nextSerial.2.Alike κ h'.nextSerial.2 where
  serial := congrArg (· + 1) hh.serial
  instances := hh.instances
  next := hh.next
  fresh := hh.fresh
  newObject := hh.newObject
  vars := hh.vars
  enclosing := hh.enclosing
  extra := hh.extra
  fields := hh.fields

end Heap
end Lox
