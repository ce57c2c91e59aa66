import Lox.Proofs.Heap.Names
import Lox.Proofs.Run.Notes
import Lox.Proofs.Static.Selves

/-! Who `this` is, between any two steps of a run. A moment is what has been noted so far, together with the heap. At
each moment the frame of a bound method holds the instance and nothing else, and every function that is stored
somewhere finds there the instance of the closest method around each `this` in it. -/
namespace Lox

namespace Heap

variable {h h' : Heap} {i j : FrameId} {x y : Text} {v : Value}

/-- A name is looked up in a frame and in older ones. -/
theorem resolve?_congr (hv : ∀ j ≤ i, (h'.vars j).get? x = (h.vars j).get? x)
    (he : ∀ j ≤ i, h'.enclosing? j = h.enclosing? j) : h'.resolve? x i = h.resolve? x i := by
  induction i using Nat.strongRecOn with
  | _ i ih =>
    cases hi : (h.vars i).get? x with
    | some v => rw [resolve?_of_vars hi, resolve?_of_vars ((hv i (Nat.le_refl i)).trans hi)]
    | none =>
      have hi' := (hv i (Nat.le_refl i)).trans hi
      cases hj : h.enclosing? i with
      | none => rw [resolve?_of_none hi hj, resolve?_of_none hi' ((he i (Nat.le_refl i)).trans hj)]
      | some j =>
        have hlt := lt_of_enclosing? hj
        rw [resolve?_of_enclosing? hi hj, resolve?_of_enclosing? hi' ((he i (Nat.le_refl i)).trans hj)]
        apply ih j hlt
        · intro k hk
          exact hv k (Nat.le_trans hk (Nat.le_of_lt hlt))
        · intro k hk
          exact he k (Nat.le_trans hk (Nat.le_of_lt hlt))

theorem get?_define_of_ne (hxy : y ≠ x) : ((h.define i x v).vars j).get? y = (h.vars j).get? y := by
  by_cases hij : i = j
  · subst hij
    by_cases hi : i < h.frames.size
    · rw [vars_define_self hi, Bindings.get?_insert_of_ne _ _ hxy]
    · rw [vars_define_outside hi]
  · rw [vars_define_of_ne hij]

theorem resolve?_define_of_ne (hxy : y ≠ x) : (h.define i x v).resolve? y j = h.resolve? y j :=
  resolve?_congr (fun _ _ => get?_define_of_ne hxy) fun _ _ => enclosing?_define

theorem resolve?_pushFrame_of_lt {vars : Bindings Value} (hj : j < h.frames.size) :
    (h.pushFrame i vars).2.resolve? y j = h.resolve? y j := by
  apply resolve?_congr
  · intro k hk
    rw [vars_pushFrame_of_ne (Nat.ne_of_lt (Nat.lt_of_le_of_lt hk hj))]
  · intro k hk
    exact enclosing?_pushFrame_of_ne (Nat.ne_of_lt (Nat.lt_of_le_of_lt hk hj))

/-- A name that a new frame does not have is looked up in the frame around it. -/
theorem resolve?_pushFrame_self {vars : Bindings Value} (hi : i < h.frames.size) (hy : vars.get? y = none) :
    (h.pushFrame i vars).2.resolve? y h.frames.size = h.resolve? y i := by
  have hnone : ((h.pushFrame i vars).2.vars h.frames.size).get? y = none := by
    rw [vars_pushFrame_self]
    exact hy
  rw [resolve?_of_enclosing? hnone (enclosing?_pushFrame_self hi), resolve?_pushFrame_of_lt hi]

end Heap

namespace Note

def heap : Note → Heap
  | opened _ _ h | closed _ _ _ h | bound _ _ h | made _ _ h | asked _ _ _ h | wrote h => h

/-- The method `f` has been bound to `self`. -/
def Bound (past : List Note) (f : Closure) (self : Value) : Prop := ∃ h, bound f self h ∈ past

/-- The function `f` is the method `g`, which was bound to `self`, or it was made by a declaration in the body of a
function that belongs to `g`. -/
inductive Belongs (past : List Note) : Closure → Closure → Value → Prop where
  | method {g : Closure} {self : Value} (hg : Bound past g self) : Belongs past g g self
  | nested {f g : Closure} {a : Activation} {h : Heap} {self : Value} (hf : made f (some a) h ∈ past)
    (ha : Belongs past a.function g self) : Belongs past f g self

variable {past past' : List Note} {f g : Closure} {self : Value}

theorem bound_mono (hp : past ⊆ past') (hf : Bound past f self) : Bound past' f self := by
  obtain ⟨h, hf⟩ := hf
  exact ⟨h, hp hf⟩

/-- A function that belongs to a method goes on doing so. -/
theorem belongs_mono (hp : past ⊆ past') (hf : Belongs past f g self) : Belongs past' f g self := by
  induction hf with
  | method hg => exact .method (bound_mono hp hg)
  | nested hf _ ih => exact .nested (hp hf) ih

def Mere : Note → Prop
  | opened .. | made .. | wrote _ => True
  | closed .. | bound .. | asked .. => False

/-- Only a binding binds. -/
theorem bound_of_ne {n : Note} (hn : ∀ f self h, n ≠ bound f self h) (hf : Bound (past ++ [n]) f self) :
    Bound past f self := by
  obtain ⟨h, hf⟩ := hf
  rcases List.mem_append.mp hf with hf | hf
  · exact ⟨h, hf⟩
  · exact absurd (List.mem_singleton.mp hf).symm (hn f self h)

theorem ne_of_mere {n : Note} (hn : n.Mere) (f : Closure) (self : Value) (h : Heap) : n ≠ bound f self h := by
  rintro rfl
  cases hn

end Note

open Note (Bound Belongs)

structure Moment where
  past : List Note
  heap : Heap

/-- Code of the function `f` that looks names up from the frame `i` finds the instance for the place `p` of `this`: that
of the method `g` to which `f` belongs, of which `p` is a place, in the frame in which `g` was bound. -/
def Moment.Finds (w : Moment) (f : Closure) (i : FrameId) (p : Pos) : Prop :=
  ∃ g self, Belongs w.past f g self ∧ p ∈ g.decl.selves ∧ w.heap.resolve? thisName i = some (g.scope, self)

structure Closure.Sound (w : Moment) (f : Closure) : Prop where
  lt : f.scope < w.heap.frames.size
  names : Stmt.NamesIn (· ≠ thisName) f.decl
  selves : ∀ p ∈ f.decl.selves, w.Finds f f.scope p

structure Class.Sound (w : Moment) (c : Class) : Prop where
  lt : c.scope < w.heap.frames.size
  names : Stmt.NamesInAll (· ≠ thisName) c.methods

def Value.Sound (w : Moment) : Value → Prop
  | .nil | .bool _ | .number _ | .string _ => True
  | .function f => f.Sound w
  | .classValue c => c.Sound w
  | .object c _ => c.Sound w

namespace Moment

structure Sound (w : Moment) : Prop where
  vars : ∀ i x v, (w.heap.vars i).get? x = some v → v.Sound w
  fields : ∀ id x v, (w.heap.fields id).get? x = some v → v.Sound w
  lt : ∀ f self, Bound w.past f self → f.scope < w.heap.frames.size
  bound : ∀ f self, Bound w.past f self → w.heap.vars f.scope = [(thisName, self)]
  isInit : ∀ f self, Bound w.past f self → f.isInit = decide (f.decl.name.text = initName)

/-- A later moment. Frames find the same `this`, and those that hold none do not get one. -/
structure Later (w w' : Moment) : Prop where
  past : w.past ⊆ w'.past
  size : w.heap.frames.size ≤ w'.heap.frames.size
  self : ∀ i < w.heap.frames.size, w'.heap.resolve? thisName i = w.heap.resolve? thisName i
  bare : ∀ i < w.heap.frames.size, (w.heap.vars i).get? thisName = none → (w'.heap.vars i).get? thisName = none

/-- A frame can host code in the body of an open call, or at the top level, that has the places `ps` of `this`. The
frames of bound methods host no code. -/
structure Hosts (w : Moment) (a : Option Activation) (i : FrameId) (ps : List Pos) : Prop where
  lt : i < w.heap.frames.size
  bare : (w.heap.vars i).get? thisName = none
  finds : ∀ p ∈ ps, ∃ b, a = some b ∧ w.Finds b.function i p

end Moment

open Moment

variable {w w' w'' : Moment} {a : Option Activation} {i : FrameId} {ps : List Pos} {f : Closure} {v : Value}

theorem later_refl (w : Moment) : w.Later w := ⟨fun _ hn => hn, Nat.le_refl _, fun _ _ => rfl, fun _ _ hi => hi⟩

theorem later_trans (l : w.Later w') (l' : w'.Later w'') : w.Later w'' where
  past := fun _ hn => l'.past (l.past hn)
  size := Nat.le_trans l.size l'.size
  self i hi := (l'.self i (Nat.lt_of_lt_of_le hi l.size)).trans (l.self i hi)
  bare i hi hb := l'.bare i (Nat.lt_of_lt_of_le hi l.size) (l.bare i hi hb)

/-- Code that finds its instance finds the same one later. -/
theorem finds_later (l : w.Later w') (hi : i < w.heap.frames.size) {p : Pos} (hf : w.Finds f i p) : w'.Finds f i p := by
  obtain ⟨g, self, hg, hp, hr⟩ := hf
  exact ⟨g, self, Note.belongs_mono l.past hg, hp, (l.self i hi).trans hr⟩

/-- A frame that hosts code goes on doing so. -/
theorem hosts_later (l : w.Later w') (hh : w.Hosts a i ps) : w'.Hosts a i ps := by
  refine ⟨Nat.lt_of_lt_of_le hh.lt l.size, l.bare i hh.lt hh.bare, fun p hp => ?_⟩
  obtain ⟨b, hb, hf⟩ := hh.finds p hp
  exact ⟨b, hb, finds_later l hh.lt hf⟩

theorem hosts_subset {qs : List Pos} (hh : w.Hosts a i ps) (hq : qs ⊆ ps) : w.Hosts a i qs :=
  ⟨hh.lt, hh.bare, fun p hp => hh.finds p (hq hp)⟩

theorem hosts_left {qs : List Pos} (hh : w.Hosts a i (ps ++ qs)) : w.Hosts a i ps :=
  hosts_subset hh (List.subset_append_left _ _)

theorem hosts_right {qs : List Pos} (hh : w.Hosts a i (ps ++ qs)) : w.Hosts a i qs :=
  hosts_subset hh (List.subset_append_right _ _)

theorem closure_later (l : w.Later w') (hf : f.Sound w) : f.Sound w' :=
  ⟨Nat.lt_of_lt_of_le hf.lt l.size, hf.names, fun p hp => finds_later l hf.lt (hf.selves p hp)⟩

theorem class_later {c : Class} (l : w.Later w') (hc : c.Sound w) : c.Sound w' :=
  ⟨Nat.lt_of_lt_of_le hc.lt l.size, hc.names⟩

/-- What is sound stays so. -/
theorem value_later (l : w.Later w') (hv : v.Sound w) : v.Sound w' := by
  cases v with
  | nil | bool | number | string => trivial
  | function f => exact closure_later l hv
  | classValue c => exact class_later l hv
  | object c id => exact class_later l hv

theorem basic_sound (hv : v.Basic) : v.Sound w := by
  cases v with
  | nil | bool | number | string => trivial
  | function | classValue | object => cases hv

/-- A moment with the same frames is later if more has been noted. -/
theorem later_of_frames_eq {past : List Note} {h : Heap} (hp : w.past ⊆ past) (hf : h.frames = w.heap.frames) :
    w.Later ⟨past, h⟩ := by
  have hvars (i : FrameId) : h.vars i = w.heap.vars i := by
    unfold Heap.vars
    rw [hf]
  have henclosing (i : FrameId) : h.enclosing? i = w.heap.enclosing? i := by
    unfold Heap.enclosing?
    rw [hf]
  refine ⟨hp, Nat.le_of_eq (congrArg Array.size hf.symm), fun i _ => ?_, fun i _ hb => ?_⟩
  · apply Heap.resolve?_congr
    · intro j _
      rw [hvars]
    · intro j _
      exact henclosing j
  · change (h.vars i).get? thisName = none
    rw [hvars]
    exact hb

theorem later_note (n : Note) : w.Later ⟨w.past ++ [n], w.heap⟩ :=
  later_of_frames_eq (List.subset_append_left _ _) rfl

/-- A moment is later if a name was bound that is not `this`. -/
theorem later_define {past : List Note} {x : Text} (hp : w.past ⊆ past) (hx : thisName ≠ x) :
    w.Later ⟨past, w.heap.define i x v⟩ where
  past := hp
  size := Nat.le_of_eq Heap.frames_define.symm
  self _ _ := Heap.resolve?_define_of_ne hx
  bare _ _ hb := (Heap.get?_define_of_ne hx).trans hb

theorem later_pushFrame {past : List Note} {vars : Bindings Value} (hp : w.past ⊆ past) :
    w.Later ⟨past, (w.heap.pushFrame i vars).2⟩ where
  past := hp
  size := by
    rw [Heap.frames_pushFrame]
    exact Nat.le_succ _
  self _ hj := Heap.resolve?_pushFrame_of_lt hj
  bare j hj hb := by
    change ((w.heap.pushFrame i vars).2.vars j).get? thisName = none
    rw [Heap.vars_pushFrame_of_ne (Nat.ne_of_lt hj)]
    exact hb

/-- A step after which no more methods are bound, and the frames of those that are have not been touched. -/
theorem sound_later (hw : w.Sound) (l : w.Later w')
    (hvars : ∀ i x v, (w'.heap.vars i).get? x = some v → v.Sound w' ∨ v.Sound w)
    (hfields : ∀ id x v, (w'.heap.fields id).get? x = some v → v.Sound w' ∨ v.Sound w)
    (hold : ∀ f self, Bound w'.past f self → Bound w.past f self ∧ w'.heap.vars f.scope = w.heap.vars f.scope) :
    w'.Sound where
  vars i x v hv := (hvars i x v hv).elim (fun hv => hv) (value_later l)
  fields id x v hv := (hfields id x v hv).elim (fun hv => hv) (value_later l)
  lt f self hf := Nat.lt_of_lt_of_le (hw.lt f self (hold f self hf).1) l.size
  bound f self hf := by
    obtain ⟨hf, hsame⟩ := hold f self hf
    rw [hsame]
    exact hw.bound f self hf
  isInit f self hf := hw.isInit f self (hold f self hf).1

/-- Notes that bind no method. -/
theorem sound_past {past : List Note} (hw : w.Sound) (hp : w.past ⊆ past)
    (hnew : ∀ f self, Bound past f self → Bound w.past f self) : Moment.Sound ⟨past, w.heap⟩ := by
  refine sound_later hw (later_of_frames_eq hp rfl) ?_ ?_ fun f self hf => ⟨hnew f self hf, rfl⟩
  · exact fun i x v hv => .inr (hw.vars i x v hv)
  · exact fun id x v hv => .inr (hw.fields id x v hv)

/-- A frame that holds another name than `this`, or not this one, is not that of a bound method. -/
theorem ne_scope_of_bare (hw : w.Sound) (hi : (w.heap.vars i).get? thisName = none) {self : Value}
    (hf : Bound w.past f self) : i ≠ f.scope := by
  rintro rfl
  rw [hw.bound f self hf] at hi
  cases hi

theorem ne_scope_of_name (hw : w.Sound) {x : Text} (hx : thisName ≠ x) (hi : (w.heap.vars i).get? x = some v)
    {self : Value} (hf : Bound w.past f self) : i ≠ f.scope := by
  rintro rfl
  have hnone : Bindings.get? [(thisName, self)] x = none := Bindings.get?_insert_of_ne [] self hx.symm
  rw [hw.bound f self hf, hnone] at hi
  cases hi

/-- A sound value may be bound to a name in a frame that is not that of a bound method. -/
theorem sound_define {past : List Note} {x : Text} (hw : w.Sound) (hp : w.past ⊆ past)
    (hnew : ∀ f self, Bound past f self → Bound w.past f self) (hx : thisName ≠ x)
    (hi : ∀ f self, Bound w.past f self → i ≠ f.scope) (hv : v.Sound ⟨past, w.heap.define i x v⟩) :
    Moment.Sound ⟨past, w.heap.define i x v⟩ := by
  refine sound_later hw (later_define hp hx) ?_ ?_ fun f self hf => ?_
  · intro j y u hu
    rcases Heap.get?_define_cases hu with rfl | hu
    · exact .inl hv
    · exact .inr (hw.vars j y u hu)
  · exact fun id y u hu => .inr (hw.fields id y u hu)
  · have hf := hnew f self hf
    exact ⟨hf, Heap.vars_define_of_ne (hi f self hf)⟩

theorem sound_pushFrame {vars : Bindings Value} (hw : w.Sound) (hvars : ∀ x v, vars.get? x = some v → v.Sound w) :
    Moment.Sound ⟨w.past, (w.heap.pushFrame i vars).2⟩ := by
  refine sound_later hw (later_pushFrame fun _ hn => hn) ?_ ?_ fun f self hf => ⟨hf, ?_⟩
  · intro j x v hv
    rcases Heap.get?_pushFrame_cases hv with hv | hv
    · exact .inr (hvars x v hv)
    · exact .inr (hw.vars j x v hv)
  · exact fun id x v hv => .inr (hw.fields id x v hv)
  · exact Heap.vars_pushFrame_of_ne (Nat.ne_of_lt (hw.lt f self hf))

theorem sound_nextSerial (hw : w.Sound) : Moment.Sound ⟨w.past, w.heap.nextSerial.2⟩ := by
  refine sound_later hw (later_of_frames_eq (fun _ hn => hn) rfl) ?_ ?_ fun f self hf => ⟨hf, rfl⟩
  · exact fun i x v hv => .inr (hw.vars i x v hv)
  · exact fun id x v hv => .inr (hw.fields id x v hv)

theorem sound_pushInstance (hw : w.Sound) : Moment.Sound ⟨w.past, w.heap.pushInstance.2⟩ := by
  refine sound_later hw (later_of_frames_eq (fun _ hn => hn) rfl) ?_ ?_ fun f self hf => ⟨hf, rfl⟩
  · exact fun i x v hv => .inr (hw.vars i x v hv)
  · exact fun id x v hv => .inr (hw.fields id x v (Heap.get?_pushInstance hv))

theorem sound_setField {id : InstanceId} {x : Text} (hw : w.Sound) (hv : v.Sound w) :
    Moment.Sound ⟨w.past, w.heap.setField id x v⟩ := by
  refine sound_later hw (later_of_frames_eq (fun _ hn => hn) rfl) ?_ ?_ fun f self hf => ⟨hf, rfl⟩
  · exact fun i x v hv => .inr (hw.vars i x v hv)
  · intro id' y u hu
    rcases Heap.get?_setField_cases hu with rfl | hu
    · exact .inr hv
    · exact .inr (hw.fields id' y u hu)

/-- A new frame hosts what finds its instances from the frame around it. -/
theorem hosts_inner {vars : Bindings Value} (hi : i < w.heap.frames.size) (hthis : vars.get? thisName = none)
    (hf : ∀ p ∈ ps, ∃ b, a = some b ∧ w.Finds b.function i p) :
    Moment.Hosts ⟨w.past, (w.heap.pushFrame i vars).2⟩ a w.heap.frames.size ps := by
  refine ⟨?_, ?_, fun p hp => ?_⟩
  · exact Heap.size_lt_pushFrame
  · change ((w.heap.pushFrame i vars).2.vars w.heap.frames.size).get? thisName = none
    rw [Heap.vars_pushFrame_self]
    exact hthis
  · obtain ⟨b, hb, g, self, hg, hpg, hr⟩ := hf p hp
    exact ⟨b, hb, g, self, hg, hpg, (Heap.resolve?_pushFrame_self hi hthis).trans hr⟩

/-- The note of a method whose frame holds the instance and nothing else. -/
theorem sound_bound {self : Value} {h : Heap} (hw : w.Sound) (hlt : f.scope < w.heap.frames.size)
    (hvars : w.heap.vars f.scope = [(thisName, self)]) (hinit : f.isInit = decide (f.decl.name.text = initName)) :
    Moment.Sound ⟨w.past ++ [.bound f self h], w.heap⟩ := by
  have l : w.Later ⟨w.past ++ [.bound f self h], w.heap⟩ := later_note _
  have hcases {g : Closure} {u : Value} (hg : Bound (w.past ++ [.bound f self h]) g u) :
      Bound w.past g u ∨ g = f ∧ u = self := by
    obtain ⟨h', hg⟩ := hg
    rcases List.mem_append.mp hg with hg | hg
    · exact .inl ⟨h', hg⟩
    · cases List.mem_singleton.mp hg
      exact .inr ⟨rfl, rfl⟩
  refine ⟨?_, ?_, fun g u hg => ?_, fun g u hg => ?_, fun g u hg => ?_⟩
  · exact fun i x v hv => value_later l (hw.vars i x v hv)
  · exact fun id x v hv => value_later l (hw.fields id x v hv)
  · rcases hcases hg with hg | ⟨rfl, rfl⟩
    · exact hw.lt g u hg
    · exact hlt
  · rcases hcases hg with hg | ⟨rfl, rfl⟩
    · exact hw.bound g u hg
    · exact hvars
  · rcases hcases hg with hg | ⟨rfl, rfl⟩
    · exact hw.isInit g u hg
    · exact hinit

end Lox
