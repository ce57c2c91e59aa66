import Lox.Proofs.Heap.Correspondence

/-! What can be reached in a heap from a frame. A heap is a graph of cells: from a frame one gets to the frame around it
and to what its variables refer to, and from an instance to what its fields refer to. -/
namespace Lox

namespace Heap

inductive Reaches (h : Heap) (i : FrameId) : Cell → Prop
  | scope : Reaches h i (.frame i)
  | enclosing {j k : FrameId} (hj : Reaches h i (.frame j)) (hk : h.enclosing? j = some k) : Reaches h i (.frame k)
  | var {j : FrameId} {x : Text} {v : Value} {c : Cell} (hj : Reaches h i (.frame j)) (hv : (h.vars j).get? x = some v)
    (hc : v.RefersTo c) : Reaches h i c
  | field {id : InstanceId} {x : Text} {v : Value} {c : Cell} (hid : Reaches h i (.object id))
    (hv : (h.fields id).get? x = some v) (hc : v.RefersTo c) : Reaches h i c

def Has (h : Heap) : Cell → Prop
  | .frame i => i < h.frames.size
  | .object id => id < h.instances.size

def SameAt (h h' : Heap) : Cell → Prop
  | .frame i => (h.vars i).Same (h'.vars i) ∧ h'.enclosing? i = h.enclosing? i
  | .object id => (h.fields id).Same (h'.fields id)

theorem sameAt_refl (h : Heap) (c : Cell) : h.SameAt h c := by
  cases c with
  | frame i => exact ⟨Bindings.same_refl _, rfl⟩
  | object id => exact Bindings.same_refl _

structure SameSize (h h' : Heap) : Prop where
  frames : h'.frames.size = h.frames.size
  instances : h'.instances.size = h.instances.size
  serial : h'.serial = h.serial

variable {h h' g g' : Heap} {i : FrameId} {c : Cell} {v v' : Value} {b b' : Bindings Value}

def Live (h : Heap) (i : FrameId) (c : Cell) : Prop := h.Has c → h.Reaches i c

/-- All that is reachable from `i`, or made later, stands for itself. -/
def reach (h : Heap) (i : FrameId) : Correspondence where
  own j j' := j' = j ∧ h.Live i (.frame j)
  extra _ _ := False
  object id := h.Live i (.object id)
  place p q := q = p
  own_iff := by
    rintro j _ k _ ⟨rfl, -⟩ ⟨rfl, -⟩
    rfl
  not_own := False.elim

/-- Values that are alike refer to what is reachable or new, and are the same. -/
theorem live_of_value_alike (hv : v.Alike (h.reach i) v') : v' = v ∧ ∀ c, v.RefersTo c → h.Live i c := by
  have hdecl (d d' : FunctionDecl) (hd : Stmt.AlikeDecl (h.reach i).place d d') : d' = d :=
    eq_of_decl_alike (fun _ _ => id) hd
  -- the correspondence is the identity on what is reached, so the parts of a value are equal one by one
  have hclass (k k' : Class) (hk : k.Alike (h.reach i) k') : k' = k := by
    obtain ⟨serial, name, scope, methods⟩ := k
    obtain ⟨serial', name', scope', methods'⟩ := k'
    obtain ⟨hserial, hname, ⟨hscope, -⟩, hmethods⟩ := hk
    have hm : methods' = methods :=
      eq_of_decls_alike (fun _ _ => id) (Stmt.alikeDecls_iff.mpr hmethods)
    cases hserial
    cases hname
    cases hscope
    cases hm
    rfl
  cases v with
  | nil | bool | number | string =>
    cases hv
    exact ⟨rfl, fun c hc => nomatch hc⟩
  | function f =>
    obtain ⟨⟨serial', decl', scope', isInit'⟩, rfl, hserial, hd, ⟨hscope, hlive⟩, hinit⟩ := hv
    have hd := hdecl f.decl _ hd
    obtain ⟨serial, decl, scope, isInit⟩ := f
    cases hserial
    cases hscope
    cases hinit
    cases hd
    refine ⟨rfl, fun c hc => ?_⟩
    cases hc
    exact hlive
  | classValue k =>
    obtain ⟨k', rfl, hk⟩ := hv
    refine ⟨congrArg _ (hclass k k' hk), fun c hc => ?_⟩
    cases hc
    exact hk.scope.2
  | object k id =>
    obtain ⟨k', rfl, hid, hk⟩ := hv
    rw [hclass k k' hk]
    refine ⟨rfl, fun c hc => ?_⟩
    cases hc with
    | classOf => exact hk.scope.2
    | object => exact hid

/-- The same bindings are alike if they refer only to what is reachable or new. -/
theorem bindings_alike_of_live (hs : b.Same b')
    (hb : ∀ x v, b.get? x = some v → ∀ c, v.RefersTo c → h.Live i c) : b.Alike (h.reach i) b' := by
  refine ⟨hs.names, fun x => ?_⟩
  rw [hs.values x]
  cases hv : b.get? x with
  | none => exact .none
  | some v =>
    have hlive (c : Cell) (hc : v.RefersTo c) : (h.reach i).Fixes c := by
      cases c with
      | frame j => exact ⟨rfl, hb x v hv _ hc⟩
      | object id => exact hb x v hv _ hc
    exact .some (value_alike_self (fun p => rfl) hlive)

/-- Bindings that are alike on what can be reached are the same, and refer to nothing else. -/
theorem live_of_bindings_alike (hb : b.Alike (h.reach i) b') :
    b.Same b' ∧ ∀ x v, b.get? x = some v → ∀ c, v.RefersTo c → h.Live i c := by
  refine ⟨⟨hb.names, fun x => ?_⟩, fun x v hv => ?_⟩
  · match b.get? x, b'.get? x, hb.values x with
    | _, _, .none => rfl
    | _, _, .some hv => rw [(live_of_value_alike hv).1]
  · have hrel := hb.values x
    rw [hv] at hrel
    match b'.get? x, hrel with
    | some w, .some hw => exact (live_of_value_alike hw).2

/-- Two heaps in which the same is reachable from `i` hold the same as far as that goes. -/
theorem alike_of_sameAt (hs : h.SameSize h') (hc : ∀ c, h.Reaches i c → h.SameAt h' c) : h.Alike (h.reach i) h' := by
  refine ⟨hs.serial, hs.instances, ?_, ?_, ?_, ?_, ?_, fun _ _ => False.elim, ?_⟩
  · intro k
    exact ⟨by rw [hs.frames], fun hlt => absurd hlt (Nat.not_lt.mpr (Nat.le_add_right _ _))⟩
  · rintro j j' (⟨rfl, -⟩ | hextra) hnew
    · rw [hs.frames] at hnew ⊢
      exact ⟨j' - h.frames.size, by omega, by omega⟩
    · cases hextra
  · intro id hid hlt
    exact absurd hlt (Nat.not_lt.mpr hid)
  -- a frame that is reached has the same bindings; one not made yet has none on either side
  · rintro _ j ⟨rfl, hj⟩
    by_cases hlt : j < h.frames.size
    · have hj := hj hlt
      exact bindings_alike_of_live (hc _ hj).1 fun x v hv c hvc _ => .var hj hv hvc
    · have hle := Nat.le_of_not_lt hlt
      rw [vars_of_le hle, vars_of_le (hs.frames ▸ hle)]
      exact Bindings.nil_alike
  · rintro _ j ⟨rfl, hj⟩
    by_cases hlt : j < h.frames.size
    · have hj := hj hlt
      rw [(hc _ hj).2]
      cases he : h.enclosing? j with
      | none => exact .none
      | some k => exact .some (.inl ⟨rfl, fun _ => .enclosing hj he⟩)
    · have hle := Nat.le_of_not_lt hlt
      rw [enclosing?_of_le hle, enclosing?_of_le (hs.frames ▸ hle)]
      exact .none
  · intro id hid
    by_cases hlt : id < h.instances.size
    · have hid := hid hlt
      exact bindings_alike_of_live (hc _ hid) fun x v hv c hvc _ => .field hid hv hvc
    · have hle := Nat.le_of_not_lt hlt
      unfold fields
      rw [Array.getElem?_eq_none hle, Array.getElem?_eq_none (hs.instances ▸ hle)]
      exact Bindings.nil_alike

/-- Heaps that hold the same have the same contents in all cells that were reachable or are new. -/
theorem sameAt_of_alike (hg : g.Alike (h.reach i) g') (hc : h.Live i c) : g.SameAt g' c := by
  cases c with
  | frame j =>
    refine ⟨(live_of_bindings_alike (hg.vars j j ⟨rfl, hc⟩)).1, ?_⟩
    match g.enclosing? j, g'.enclosing? j, hg.enclosing j j ⟨rfl, hc⟩ with
    | _, _, .none => rfl
    | some k, some k', .some (.inl hk) => rw [hk.1]
  | object id => exact (live_of_bindings_alike (hg.fields id hc)).1

theorem sameSize_of_alike (hg : g.Alike (h.reach i) g') : g.SameSize g' :=
  ⟨(own_size hg).1, hg.instances, hg.serial⟩

/-- What can be reached at the end could be reached before, or is new. -/
theorem live_of_reaches (hg : g.Alike (h.reach i) g') (hc : g.Reaches i c) : h.Live i c := by
  induction hc with
  | scope => exact fun _ => .scope
  | @enclosing j k _ hk ih =>
    have hrel := hg.enclosing j j ⟨rfl, ih⟩
    rw [hk] at hrel
    match g'.enclosing? j, hrel with
    | some k', .some (.inl hown) => exact hown.2
  | @var j x v c _ hv hvc ih => exact (live_of_bindings_alike (hg.vars j j ⟨rfl, ih⟩)).2 x v hv c hvc
  | @field id x v c _ hv hvc ih => exact (live_of_bindings_alike (hg.fields id ih)).2 x v hv c hvc

/-- What neither could be reached nor is new is left as it was. -/
theorem sameAt_of_sameOutside (hg : h.SameOutside (h.reach i) g) (hhas : h.Has c) (hc : ¬ h.Reaches i c) :
    h.SameAt g c := by
  have hlive : ¬ h.Live i c := fun hlive => hc (hlive hhas)
  cases c with
  | frame j =>
    have hvars : g.vars j = h.vars j := hg.vars j fun _ hown => hlive hown.2
    refine ⟨?_, hg.enclosing j fun _ hown => hlive hown.2⟩
    rw [hvars]
    exact Bindings.same_refl _
  | object id =>
    have hfields : g.fields id = h.fields id := hg.fields id hlive
    change (h.fields id).Same (g.fields id)
    rw [hfields]
    exact Bindings.same_refl _

end Heap
end Lox
