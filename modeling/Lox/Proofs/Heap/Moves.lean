import Lox.Proofs.Heap.Chain
import Lox.Proofs.Heap.Reach
import Mathlib.Data.List.Induction

/-! Moves: all that a run can do to a heap. A move is lawful if it names frames that there are, and stores only what has
been made before. Lawful moves lead from the empty heap to well formed heaps: the links between frames lead to the
global frame, whatever is referred to is there, and a class belongs to the frame in which it was declared. -/
namespace Lox

namespace Heap

/-- The frame around a given one, as it is stored. -/
def link? (h : Heap) (i : FrameId) : Option FrameId := h.frames[i]?.bind Frame.enclosing

/-- The frames that one comes to from a frame along the stored links, if there are at most so many. -/
def trail (h : Heap) : Nat → FrameId → Option (List FrameId)
  | 0, _ => none
  | n + 1, i =>
    match h.link? i with
    | none => some [i]
    | some j => (h.trail n j).map (i :: ·)

/-- A heap in which all links lead to the global frame, and in which all that is referred to is there. -/
structure WellFormed (h : Heap) : Prop where
  /-- The global frame, and no other, has no frame around it. -/
  root : ∀ i < h.frames.size, h.link? i = none ↔ i = globalFrame
  /-- Following the links comes to an end. -/
  trail : ∀ i < h.frames.size, h.trail (i + 1) i = some (h.chain i)
  /-- It leads to older and older frames, so to none twice. -/
  older : ∀ i < h.frames.size, (h.chain i).Pairwise (· > ·)
  last : ∀ i < h.frames.size, (h.chain i).getLast? = some globalFrame
  vars : ∀ i x v c, (h.vars i).get? x = some v → v.RefersTo c → h.Has c
  fields : ∀ id x v c, (h.fields id).get? x = some v → v.RefersTo c → h.Has c

inductive Move where
  /-- A name is bound in a frame, or gets another value there. -/
  | bind (i : FrameId) (x : Text) (v : Value)
  /-- A class is declared in a frame. -/
  | declare (i : FrameId) (c : Class)
  /-- A frame is made inside another one, for a block or a call. -/
  | frame (i : FrameId) (vars : Bindings Value)
  /-- A frame is made for a method of a class, in which the method finds its instance. -/
  | method (c : Class) (self : Value)
  /-- An instance is made. -/
  | object
  /-- A field of an instance gets a value. -/
  | field (id : InstanceId) (x : Text) (v : Value)
  /-- A serial number is given away. -/
  | serial

def Move.apply (h : Heap) : Move → Heap
  | bind i x v => h.define i x v
  | declare i c => h.define i c.name (.classValue c)
  | frame i vars => (h.pushFrame i vars).2
  | method c self => (h.pushFrame c.scope [(thisName, self)]).2
  | object => h.pushInstance.2
  | field id x v => h.setField id x v
  | serial => h.nextSerial.2

def after (past : List Move) : Heap := past.foldl Move.apply empty

end Heap

open Heap (Move)

/-- All that a value refers to has been made: its frame, its class and its instance. -/
def Value.Made (past : List Move) : Value → Prop
  | nil | bool _ | number _ | string _ => True
  | function f => f.scope < (Heap.after past).frames.size
  | classValue c => .declare c.scope c ∈ past
  | object c id => .declare c.scope c ∈ past ∧ id < (Heap.after past).instances.size

namespace Heap

def Move.Allowed (past : List Move) : Move → Prop
  | bind i _ v => i < (after past).frames.size ∧ v.Made past
  | declare i c => i < (after past).frames.size ∧ c.scope = i
  | frame i vars => i < (after past).frames.size ∧ ∀ x v, vars.get? x = some v → v.Made past
  | method c self => .declare c.scope c ∈ past ∧ self.Made past
  | object | serial => True
  | field id _ v => id < (after past).instances.size ∧ v.Made past

inductive Lawful : List Move → Prop
  | nil : Lawful []
  | snoc {past : List Move} {m : Move} (hp : Lawful past) (hm : m.Allowed past) : Lawful (past ++ [m])

variable {h : Heap} {past later : List Move} {m : Move} {i j : FrameId} {id : InstanceId} {x : Text} {v : Value}
  {c : Class}

/-! ### One move and many -/

theorem after_snoc (past : List Move) (m : Move) : after (past ++ [m]) = m.apply (after past) := by
  unfold after
  rw [List.foldl_append]
  rfl

theorem instances_setField : (h.setField id x v).instances.size = h.instances.size := Array.size_modify

theorem link?_define : (h.define i x v).link? j = h.link? j := by
  unfold define link?
  rw [Array.getElem?_modify]
  by_cases hij : i = j
  · rw [if_pos hij]
    cases h.frames[j]? with
    | none => rfl
    | some f => rfl
  · rw [if_neg hij]

theorem link?_pushFrame_of_ne {vars : Bindings Value} (hj : j ≠ h.frames.size) :
    (h.pushFrame i vars).2.link? j = h.link? j := by
  unfold pushFrame link?
  rw [Array.getElem?_push, if_neg hj]

theorem link?_pushFrame_self {vars : Bindings Value} : (h.pushFrame i vars).2.link? h.frames.size = some i := by
  unfold pushFrame link?
  rw [Array.getElem?_push_size]
  rfl

/-- A frame that is made has a link and keeps it, and so does each older one. -/
structure Keeps (h h' : Heap) : Prop where
  frames : h.frames.size ≤ h'.frames.size
  instances : h.instances.size ≤ h'.instances.size
  links : ∀ i < h.frames.size, h'.link? i = h.link? i

/-- No move takes a link away or changes it. -/
theorem apply_keeps (h : Heap) (m : Move) : h.Keeps (m.apply h) := by
  have hdefine (i : FrameId) (x : Text) (v : Value) : h.Keeps (h.define i x v) :=
    ⟨Nat.le_of_eq frames_define.symm, Nat.le_refl _, fun _ _ => link?_define⟩
  have hpush (i : FrameId) (vars : Bindings Value) : h.Keeps (h.pushFrame i vars).2 := by
    refine ⟨?_, Nat.le_refl _, fun j hj => link?_pushFrame_of_ne (Nat.ne_of_lt hj)⟩
    rw [frames_pushFrame]
    exact Nat.le_succ _
  cases m with
  | bind i x v => exact hdefine i x v
  | declare i c => exact hdefine i c.name (.classValue c)
  | frame i vars => exact hpush i vars
  | method c self => exact hpush c.scope [(thisName, self)]
  | object =>
    refine ⟨Nat.le_refl _, ?_, fun _ _ => rfl⟩
    change _ ≤ (h.instances.push []).size
    rw [Array.size_push]
    exact Nat.le_succ _
  | field id x v => exact ⟨Nat.le_refl _, Nat.le_of_eq instances_setField.symm, fun _ _ => rfl⟩
  | serial => exact ⟨Nat.le_refl _, Nat.le_refl _, fun _ _ => rfl⟩

/-- Whatever moves come later, frames keep their links. -/
theorem after_keeps (past later : List Move) : (after past).Keeps (after (past ++ later)) := by
  induction later using List.reverseRecOn with
  | nil =>
    rw [List.append_nil]
    exact ⟨Nat.le_refl _, Nat.le_refl _, fun _ _ => rfl⟩
  | append_singleton later m ih =>
    rw [← List.append_assoc, after_snoc]
    have hm := apply_keeps (after (past ++ later)) m
    refine ⟨Nat.le_trans ih.frames hm.frames, Nat.le_trans ih.instances hm.instances, fun i hi => ?_⟩
    rw [hm.links i (Nat.lt_of_lt_of_le hi ih.frames), ih.links i hi]

/-- What has been made stays made. -/
theorem made_append (hv : v.Made past) (later : List Move) : v.Made (past ++ later) := by
  have hk := after_keeps past later
  cases v with
  | nil | bool | number | string => trivial
  | function f => exact Nat.lt_of_lt_of_le hv hk.frames
  | classValue c => exact List.mem_append_left later hv
  | object c id => exact ⟨List.mem_append_left later hv.1, Nat.lt_of_lt_of_le hv.2 hk.instances⟩

/-- What is lawful has been lawful all along. -/
theorem lawful_of_append (hl : Lawful (past ++ later)) : Lawful past := by
  induction later using List.reverseRecOn with
  | nil => rwa [List.append_nil] at hl
  | append_singleton later m ih =>
    rw [← List.append_assoc] at hl
    generalize hall : past ++ later ++ [m] = all at hl
    cases hl with
    | nil => simp at hall
    | snoc hp hm => exact ih ((List.append_inj' hall rfl).1 ▸ hp)

/-- Each of some lawful moves may be made after those before it. -/
theorem allowed_of_lawful (hl : Lawful (past ++ m :: later)) : m.Allowed past := by
  have hsplit : past ++ m :: later = past ++ [m] ++ later := by simp
  rw [hsplit] at hl
  have hlast := lawful_of_append hl
  generalize hall : past ++ [m] = all at hlast
  cases hlast with
  | nil => simp at hall
  | snoc hp hm =>
    obtain ⟨rfl, hcons⟩ := List.append_inj' hall rfl
    obtain ⟨rfl, -⟩ := List.cons.inj hcons
    exact hm

/-! ### Links -/

structure Linked (h : Heap) : Prop where
  pos : 0 < h.frames.size
  global : h.link? globalFrame = none
  inner : ∀ i < h.frames.size, i ≠ globalFrame → ∃ j < i, h.link? i = some j

/-- New frames that are linked to older ones leave the heap linked. -/
theorem linked_apply (hh : h.Linked) (hf : ∀ i < (m.apply h).frames.size, ¬ i < h.frames.size →
    ∃ j < i, (m.apply h).link? i = some j) : (m.apply h).Linked := by
  have hk := apply_keeps h m
  refine ⟨Nat.lt_of_lt_of_le hh.pos hk.frames, (hk.links _ hh.pos).trans hh.global, fun i hi hne => ?_⟩
  by_cases hold : i < h.frames.size
  · rw [hk.links i hold]
    exact hh.inner i hold hne
  · exact hf i hi hold

/-- A class that has been declared was declared in its own frame, which is there. -/
theorem declared_of_lawful (hl : Lawful past) (hc : .declare i c ∈ past) :
    c.scope = i ∧ i < (after past).frames.size := by
  obtain ⟨before, later, rfl⟩ := List.append_of_mem hc
  obtain ⟨hlt, hscope⟩ := allowed_of_lawful hl
  exact ⟨hscope, Nat.lt_of_lt_of_le hlt (after_keeps before _).frames⟩

/-- After lawful moves every frame but the global one is linked to an older one. -/
theorem linked_of_lawful (hl : Lawful past) : (after past).Linked := by
  induction hl with
  | nil =>
    refine ⟨Nat.zero_lt_one, rfl, fun i hi hne => ?_⟩
    exact absurd (Nat.lt_one_iff.mp hi) hne
  | @snoc past m hp hm ih =>
    rw [after_snoc]
    have hpush (j : FrameId) (vars : Bindings Value) (hj : j < (after past).frames.size) (i : FrameId)
        (hi : i < ((after past).pushFrame j vars).2.frames.size) (hold : ¬ i < (after past).frames.size) :
        ∃ k < i, ((after past).pushFrame j vars).2.link? i = some k := by
      rw [frames_pushFrame] at hi
      obtain rfl : i = (after past).frames.size := Nat.le_antisymm (Nat.le_of_lt_succ hi) (Nat.le_of_not_lt hold)
      exact ⟨j, hj, link?_pushFrame_self⟩
    apply linked_apply ih
    intro i hi hold
    -- only two kinds of moves make a frame
    cases m with
    | bind | declare =>
      refine absurd ?_ hold
      rwa [Move.apply, frames_define] at hi
    | object | field | serial => exact absurd hi hold
    | frame j vars => exact hpush j vars hm.1 i hi hold
    | method c self => exact hpush c.scope _ (declared_of_lawful hp hm.1).2 i hi hold

variable (hh : h.Linked)

include hh

/-- Looking outwards follows the links as they are stored. -/
theorem enclosing?_eq_link? (hi : i < h.frames.size) : h.enclosing? i = h.link? i := by
  have hstored : h.enclosing? i = (h.link? i).filter (· < i) := by
    unfold enclosing? link?
    cases h.frames[i]? with
    | none => rfl
    | some f => rfl
  rw [hstored]
  by_cases hg : i = globalFrame
  · rw [hg, hh.global]
    rfl
  · obtain ⟨j, hj, hlink⟩ := hh.inner i hi hg
    rw [hlink, Option.filter_some, if_pos (decide_eq_true hj)]

/-- The chain of a frame is that of the frame it is linked to, with the frame itself in front. -/
theorem chain_cases (hi : i < h.frames.size) : i = globalFrame ∧ h.chain i = [i] ∨
    ∃ j < i, h.link? i = some j ∧ h.chain i = i :: h.chain j := by
  have he := enclosing?_eq_link? hh hi
  by_cases hg : i = globalFrame
  · refine .inl ⟨hg, chain_of_none ?_⟩
    rw [he, hg]
    exact hh.global
  · obtain ⟨j, hj, hlink⟩ := hh.inner i hi hg
    exact .inr ⟨j, hj, hlink, chain_of_enclosing? (he.trans hlink)⟩

/-- A frame is younger than those around it, so following the links takes no more steps than its place tells. -/
theorem trail_eq_chain {n : Nat} (hi : i < h.frames.size) (hn : i < n) : h.trail n i = some (h.chain i) := by
  induction i using Nat.strongRecOn generalizing n with
  | _ i ih =>
    obtain ⟨n, rfl⟩ : ∃ k, n = k + 1 := Nat.exists_eq_add_one.mpr (Nat.zero_lt_of_lt hn)
    unfold Heap.trail
    rcases chain_cases hh hi with ⟨rfl, hchain⟩ | ⟨j, hj, hlink, hchain⟩
    · rw [hh.global, hchain]
    · have hrest := ih j hj (n := n) (Nat.lt_trans hj hi) (Nat.lt_of_lt_of_le hj (Nat.le_of_lt_succ hn))
      rw [hlink, hchain]
      dsimp only
      rw [hrest]
      rfl

/-- Along a chain frames get older. -/
theorem chain_older (hi : i < h.frames.size) : (h.chain i).Pairwise (· > ·) := by
  induction i using Nat.strongRecOn with
  | _ i ih =>
    rcases chain_cases hh hi with ⟨-, hchain⟩ | ⟨j, hj, -, hchain⟩
    · rw [hchain]
      exact List.pairwise_singleton _ _
    · rw [hchain, List.pairwise_cons]
      exact ⟨fun k hk => Nat.lt_of_le_of_lt (le_of_mem_chain hk) hj, ih j hj (Nat.lt_trans hj hi)⟩

/-- Every chain ends in the global frame. -/
theorem chain_last (hi : i < h.frames.size) : (h.chain i).getLast? = some globalFrame := by
  induction i using Nat.strongRecOn with
  | _ i ih =>
    rcases chain_cases hh hi with ⟨hg, hchain⟩ | ⟨j, hj, -, hchain⟩
    · rw [hchain, hg]
      rfl
    · have hlast := ih j hj (Nat.lt_trans hj hi)
      rw [hchain, List.getLast?_cons, hlast]
      rfl

theorem length_chain (hi : i < h.frames.size) : (h.chain i).length = h.depth i + 1 := by
  induction i using Nat.strongRecOn with
  | _ i ih =>
    have he := enclosing?_eq_link? hh hi
    rcases chain_cases hh hi with ⟨rfl, hchain⟩ | ⟨j, hj, hlink, hchain⟩
    · rw [hchain, depth_of_none (he.trans hh.global)]
      rfl
    · rw [hchain, depth_of_enclosing? (he.trans hlink), List.length_cons, ih j hj (Nat.lt_trans hj hi)]

omit hh

/-! ### Values -/

structure Holds (past : List Move) (h : Heap) : Prop where
  vars : ∀ i x v, (h.vars i).get? x = some v → v.Made past
  fields : ∀ id x v, (h.fields id).get? x = some v → v.Made past

/-- After lawful moves the heap holds only what has been made. -/
theorem holds_of_lawful (hl : Lawful past) : Holds past (after past) := by
  induction hl with
  | nil =>
    refine ⟨fun i x v hv => ?_, fun id x v hv => ?_⟩
    · cases i with
      | zero => cases hv
      | succ i => cases hv
    · cases hv
  | @snoc past m hp hm ih =>
    rw [after_snoc]
    -- what was there before has been made, so it is enough to look at what is new
    have hold {v : Value} (hv : v.Made past) : v.Made (past ++ [m]) := made_append hv [m]
    have hvars {j : FrameId} {y : Text} {w : Value} (hw : ((after past).vars j).get? y = some w) :=
      hold (ih.vars j y w hw)
    have hfields {id : InstanceId} {y : Text} {w : Value} (hw : ((after past).fields id).get? y = some w) :=
      hold (ih.fields id y w hw)
    have hdefine {i : FrameId} {x : Text} {v : Value} (hv : v.Made (past ++ [m])) :
        Holds (past ++ [m]) ((after past).define i x v) := by
      refine ⟨fun j y w hw => ?_, fun id y w hw => hfields hw⟩
      rcases get?_define_cases hw with rfl | hw
      · exact hv
      · exact hvars hw
    have hpush {i : FrameId} {vars : Bindings Value} (hv : ∀ x v, vars.get? x = some v → v.Made past) :
        Holds (past ++ [m]) ((after past).pushFrame i vars).2 := by
      refine ⟨fun j y w hw => ?_, fun id y w hw => hfields hw⟩
      rcases get?_pushFrame_cases hw with hw | hw
      · exact hold (hv y w hw)
      · exact hvars hw
    cases m with
    | bind i x v => exact hdefine (hold hm.2)
    | declare i c =>
      obtain ⟨-, rfl⟩ := hm
      exact hdefine (List.mem_append_right past List.mem_cons_self)
    | frame i vars => exact hpush hm.2
    | method c self =>
      apply hpush
      intro x v hv
      rcases Bindings.get?_insert_cases (b := []) hv with rfl | hnil
      · exact hm.2
      · cases hnil
    | object => exact ⟨fun j y w hw => hvars hw, fun id y w hw => hfields (get?_pushInstance hw)⟩
    | field id x v =>
      refine ⟨fun j y w hw => hvars hw, fun id' y w hw => ?_⟩
      rcases get?_setField_cases hw with rfl | hw
      · exact hold hm.2
      · exact hfields hw
    | serial => exact ⟨fun j y w hw => hvars hw, fun id y w hw => hfields hw⟩

/-- What has been made is there. -/
theorem has_of_made (hl : Lawful past) (hv : v.Made past) {cell : Cell} (hc : v.RefersTo cell) :
    (after past).Has cell := by
  cases hc with
  | function f => exact hv
  | classValue c => exact (declared_of_lawful hl hv).2
  | classOf c id => exact (declared_of_lawful hl hv.1).2
  | object c id => exact hv.2

/-- Lawful moves lead to well formed heaps. -/
theorem wellFormed_of_lawful (hl : Lawful past) : (after past).WellFormed := by
  have hh := linked_of_lawful hl
  have hvalues := holds_of_lawful hl
  refine ⟨fun i hi => ?_, fun i hi => trail_eq_chain hh hi (Nat.lt_succ_self i), fun i hi => chain_older hh hi,
    fun i hi => chain_last hh hi, ?_, ?_⟩
  · constructor
    · intro hnone
      by_contra hne
      obtain ⟨j, -, hlink⟩ := hh.inner i hi hne
      rw [hnone] at hlink
      cases hlink
    · rintro rfl
      exact hh.global
  · exact fun i x v c hv => has_of_made hl (hvalues.vars i x v hv)
  · exact fun id x v c hv => has_of_made hl (hvalues.fields id x v hv)

end Heap
end Lox
