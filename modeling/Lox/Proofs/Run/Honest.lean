import Lox.Proofs.Run.CallSafe
import Lox.Proofs.Run.Moment

/-! Rules for runs that keep each moment sound, and of which everything that is noted is as it should be: `this` is the
instance of the closest method around it, and initializers yield their instance. -/
namespace Lox

open Moment
open Note (Bound Belongs)

variable {α β : Type} {w : Moment} {a : Option Activation} {i : FrameId} {ps : List Pos} {f : Closure} {v : Value}

def Note.Tells (past : List Note) : Note → Prop
  | .asked asker pos scope h => ∃ b g self, asker = some b ∧ Belongs past b.function g self ∧ pos ∈ g.decl.selves ∧
      ∀ call events, (Expr.this pos).eval call scope ⟨h, events⟩ = .ok self ⟨h, events⟩
  | .bound f self _ => ∃ c id, self = .object c id ∧ f.decl ∈ c.methods
  | .closed (.function f) _ value _ => f.decl.name.text = initName → ∀ self, Bound past f self → value = self
  | .closed (.classValue c) start value _ => value = .object c start.instances.size ∧
      ∀ d, c.method? initName = some d → ∃ f, f.decl = d ∧ Bound past f value
  | .opened .. | .made .. | .wrote _ => True

/-- A note is as it should be: the frames of bound methods are as they were made, and `this` is who it should be. -/
structure Note.Fine (past : List Note) (n : Note) : Prop where
  frames : ∀ f self, Bound (past ++ [n]) f self → n.heap.vars f.scope = [(thisName, self)]
  tells : n.Tells past

namespace Run

structure Reached (w : Moment) (Q : α → Moment → Prop) (R : EStateM.Result Halt Machine α) (notes : List Note) :
    Prop where
  later : w.Later ⟨w.past ++ notes, (machine R).heap⟩
  sound : Moment.Sound ⟨w.past ++ notes, (machine R).heap⟩
  fine : ∀ before n after, notes = before ++ n :: after → n.Fine (w.past ++ before)
  returns : ∀ a n, R = .ok a n → Q a ⟨w.past ++ notes, n.heap⟩

/-- From a sound moment, the run leads to a sound one, all its notes are as they should be, and it returns what `Q`
relates to the moment at the end. -/
def Honest (w : Moment) (r : Run α) (t : Trace) (Q : α → Moment → Prop) : Prop :=
  w.Sound → ∀ events, Reached w Q (r ⟨w.heap, events⟩) (t ⟨w.heap, events⟩)

variable {Q : α → Moment → Prop} {R : EStateM.Result Halt Machine α}

/-- A step of which nothing is noted. -/
theorem reached_nil (hl : w.Later ⟨w.past, (machine R).heap⟩) (hs : Moment.Sound ⟨w.past, (machine R).heap⟩)
    (hq : ∀ a n, R = .ok a n → Q a ⟨w.past, n.heap⟩) : Reached w Q R [] := by
  have hpast : w.past ++ [] = w.past := List.append_nil _
  refine ⟨?_, ?_, fun before n after heq => ?_, fun a n heq => ?_⟩
  · rw [hpast]
    exact hl
  · rw [hpast]
    exact hs
  · simp at heq
  · rw [hpast]
    exact hq a n heq

/-- A step of which one thing is noted when it is done. -/
theorem reached_one {n : Note} (hn : n.heap = (machine R).heap) (hl : w.Later ⟨w.past ++ [n], (machine R).heap⟩)
    (hs : Moment.Sound ⟨w.past ++ [n], (machine R).heap⟩) (ht : n.Tells w.past)
    (hq : ∀ a m, R = .ok a m → Q a ⟨w.past ++ [n], m.heap⟩) : Reached w Q R [n] := by
  refine ⟨hl, hs, fun before x after heq => ?_, hq⟩
  obtain ⟨rfl, rfl, rfl⟩ := Note.place_of_singleton heq
  have hpast : w.past ++ [] = w.past := List.append_nil _
  rw [hpast]
  refine ⟨fun f self hf => ?_, ht⟩
  rw [hn]
  exact hs.bound f self hf

/-- Runs that are alike from this moment on. -/
theorem honest_congr {r r' : Run α} {t t' : Trace} (hr : ∀ events, r ⟨w.heap, events⟩ = r' ⟨w.heap, events⟩)
    (ht : ∀ events, t ⟨w.heap, events⟩ = t' ⟨w.heap, events⟩) (hr' : Honest w r' t' Q) : Honest w r t Q := by
  intro hw events
  rw [hr, ht]
  exact hr' hw events

/-- Two runs in a row. The second starts from a later moment, of which the first one tells. -/
theorem honest_bind {P : α → Moment → Prop} {Q : β → Moment → Prop} {r : Run α} {k : α → Run β} {t : Trace}
    {u : α → Trace} (hr : Honest w r t P)
    (hk : ∀ a w', w.Later w' → P a w' → Honest w' (k a) (u a) Q) : Honest w (r >>= k) (.seq r t u) Q := by
  intro hw events
  have hfirst := hr hw events
  cases hrun : r ⟨w.heap, events⟩ with
  | error e n =>
    rw [bind_of_error hrun, Trace.seq_of_error hrun]
    rw [hrun] at hfirst
    exact ⟨hfirst.later, hfirst.sound, hfirst.fine, nofun⟩
  | ok b n =>
    rw [bind_of_ok hrun, Trace.seq_of_ok hrun]
    rw [hrun] at hfirst
    -- the second run is measured from its own start
    have hsecond := hk b _ hfirst.later (hfirst.returns b n rfl) hfirst.sound n.events
    have hpast := List.append_assoc w.past (t ⟨w.heap, events⟩) (u b n)
    refine ⟨?_, ?_, fun before x after heq => ?_, fun c n' heq => ?_⟩
    · rw [← hpast]
      exact later_trans hfirst.later hsecond.later
    · rw [← hpast]
      exact hsecond.sound
    · rcases Note.place_of_append heq with ⟨rest, hplace, -⟩ | ⟨first, rfl, hplace⟩
      · exact hfirst.fine before x rest hplace
      · rw [← List.append_assoc]
        exact hsecond.fine first x after hplace
    · rw [← hpast]
      exact hsecond.returns c n' heq

/-- What follows adds no notes. -/
theorem honest_first {P : α → Moment → Prop} {Q : β → Moment → Prop} {r : Run α} {k : α → Run β} {t : Trace}
    (hr : Honest w r t P) (hk : ∀ a w', w.Later w' → P a w' → Honest w' (k a) .none Q) : Honest w (r >>= k) t Q := by
  have hseq := honest_bind hr hk
  rw [Trace.seq_none] at hseq
  exact hseq

/-- A note of what a run has returned. -/
theorem honest_last {P : α → Moment → Prop} {r : Run α} {t : Trace} {u : α → Trace} (hr : Honest w r t P)
    (hk : ∀ a w', w.Later w' → P a w' → Honest w' (pure a) (u a) Q) : Honest w r (.seq r t u) Q := by
  have hseq := honest_bind hr hk
  rw [bind_pure] at hseq
  exact hseq

theorem honest_pure {b : α} (hq : Q b w) : Honest w (pure b : Run α) .none Q := by
  intro hw events
  refine reached_nil (later_refl w) hw fun a n heq => ?_
  cases heq
  exact hq

theorem honest_throw {e : Halt} : Honest w (throw e : Run α) .none Q :=
  fun hw _ => reached_nil (later_refl w) hw nofun

/-- Reading the heap; that the moment is sound may be used from here on. -/
theorem honest_heap {k : Heap → Run α} {u : Trace} (hk : w.Sound → Honest w (k w.heap) u Q) :
    Honest w (heap >>= k) u Q :=
  fun hw events => hk hw hw events

theorem honest_alloc {f : Heap → α × Heap} (hl : w.Later ⟨w.past, (f w.heap).2⟩)
    (hs : w.Sound → Moment.Sound ⟨w.past, (f w.heap).2⟩) (hq : Q (f w.heap).1 ⟨w.past, (f w.heap).2⟩) :
    Honest w (alloc f) .none Q := by
  intro hw events
  refine reached_nil hl (hs hw) fun a n heq => ?_
  cases heq
  exact hq

theorem honest_print {line : Text} {Q : Unit → Moment → Prop} (hq : Q () w) : Honest w (print line) .none Q := by
  intro hw events
  refine reached_nil (later_refl w) hw fun a n heq => ?_
  cases heq
  exact hq

/-- The log tells nothing about `this`. -/
theorem honest_log {policy : Policy} {severity : Severity} {entry : Heap → LogEntry} {Q : Unit → Moment → Prop}
    (hq : Q () w) : Honest w (log policy severity entry) .none Q := by
  intro hw events
  have hheap : ((⟨w.heap, events⟩ : Machine).log policy severity entry).heap = w.heap := heap_log _ _ _ _
  refine reached_nil ?_ ?_ fun a n heq => ?_
  · change w.Later ⟨w.past, ((⟨w.heap, events⟩ : Machine).log policy severity entry).heap⟩
    rw [hheap]
    exact later_refl w
  · change Moment.Sound ⟨w.past, ((⟨w.heap, events⟩ : Machine).log policy severity entry).heap⟩
    rw [hheap]
    exact hw
  · cases heq
    rw [hheap]
    exact hq

/-- A note by which no method is bound. -/
theorem honest_note {b : α} (note : Heap → Note) (hn : (note w.heap).heap = w.heap)
    (hb : ∀ f self h, note w.heap ≠ .bound f self h) (ht : w.Sound → (note w.heap).Tells w.past)
    (hq : Q b ⟨w.past ++ [note w.heap], w.heap⟩) : Honest w (pure b : Run α) (fun m => [note m.heap]) Q := by
  intro hw events
  have hl := later_note (w := w) (note w.heap)
  refine reached_one hn hl ?_ (ht hw) fun a n heq => ?_
  · exact sound_past hw hl.past fun f self hf => Note.bound_of_ne hb hf
  · cases heq
    exact hq

/-- A variable gets a value in a frame that is not that of a bound method, and this is noted. -/
theorem honest_define {x : Text} {b : α} {note : Heap → Note} (hx : thisName ≠ x) (hm : ∀ h, (note h).Mere)
    (hn : ∀ h, (note h).heap = h) (hi : ∀ f self, w.Sound → Bound w.past f self → i ≠ f.scope)
    (hv : ∀ w', w.Later w' → note w'.heap ∈ w'.past → v.Sound w')
    (hq : ∀ w', w.Later w' → Q b w') :
    Honest w (modifyHeap (·.define i x v) >>= fun _ => pure b) (.behind (modifyHeap (·.define i x v)) fun _ => note)
      Q := by
  intro hw events
  have hl : w.Later ⟨w.past ++ [note (w.heap.define i x v)], w.heap.define i x v⟩ :=
    later_define (List.subset_append_left _ _) hx
  have hs : Moment.Sound ⟨w.past ++ [note (w.heap.define i x v)], w.heap.define i x v⟩ := by
    have hold (f : Closure) (self : Value) (hf : Bound (w.past ++ [note (w.heap.define i x v)]) f self) :
        Bound w.past f self := Note.bound_of_ne (Note.ne_of_mere (hm _)) hf
    refine sound_define hw (List.subset_append_left _ _) hold hx (fun f self => hi f self hw) (hv _ hl ?_)
    exact List.mem_append_right _ List.mem_cons_self
  have htells : (note (w.heap.define i x v)).Tells w.past := by
    have hmere := hm (w.heap.define i x v)
    generalize note (w.heap.define i x v) = n at hmere ⊢
    cases n with
    | opened | made | wrote => trivial
    | closed | bound | asked => cases hmere
  refine reached_one (hn _) hl hs htells fun a m heq => ?_
  cases heq
  exact hq _ hl

/-- A name has a value that is stored, so it is sound. -/
theorem lookup_honest (x : Text) (pos : Pos) : Honest w (lookup i x pos) .none fun v w' => v.Sound w' := by
  refine honest_heap fun hw => ?_
  cases hres : w.heap.resolve? x i with
  | some found =>
    obtain ⟨j, v⟩ := found
    have hget : w.heap.get? i x = some v := by rw [Heap.get?, hres]; rfl
    rw [hget]
    exact honest_pure (hw.vars j x v (Heap.vars_of_resolve? hres))
  | none =>
    have hget : w.heap.get? i x = none := by rw [Heap.get?, hres]; rfl
    rw [hget]
    exact honest_throw

/-- `this` is found in the frame of the method that encloses it most closely. -/
theorem this_honest {pos : Pos} (hh : w.Hosts a i [pos]) :
    Honest w (lookup i thisName pos) (fun m => [.asked a pos i m.heap]) fun v w' => v.Sound w' := by
  intro hw events
  obtain ⟨b, hb, g, self, hg, hpos, hres⟩ := hh.finds pos List.mem_cons_self
  have hget : w.heap.get? i thisName = some self := by rw [Heap.get?, hres]; rfl
  have heval (events : List Event) : lookup i thisName pos ⟨w.heap, events⟩ = .ok self ⟨w.heap, events⟩ :=
    lookup_of_some hget
  have hl := later_note (w := w) (.asked a pos i w.heap)
  rw [heval events]
  refine reached_one rfl hl ?_ ⟨b, g, self, hb, hg, hpos, fun _ events => heval events⟩ fun v n heq => ?_
  · exact sound_past hw hl.past fun f self hf => Note.bound_of_ne (n := .asked a pos i w.heap) (by simp) hf
  · cases heq
    exact value_later hl (hw.vars _ _ _ (Heap.vars_of_resolve? hres))

/-- An assignment finds a name that is not `this`, so not in the frame of a bound method. -/
theorem assign_honest {x : Name} (hx : thisName ≠ x.text) (hv : v.Sound w) :
    Honest w (assign i x v >>= fun _ => pure v) (.behind (assign i x v) fun _ => .wrote) fun v w' => v.Sound w' := by
  cases hres : w.heap.resolve? x.text i with
  | none =>
    have hfault : Honest w (fault (.undefinedVariable x.text) x.text x.pos : Run Value) .none fun v w' => v.Sound w' :=
      honest_throw
    refine honest_congr (fun events => ?_) (fun events => ?_) hfault
    · exact bind_of_error (assign_of_none hres)
    · exact Trace.seq_of_error (assign_of_none hres)
  | some found =>
    obtain ⟨j, u⟩ := found
    have hdefine : Honest w (modifyHeap (·.define j x.text v) >>= fun _ => pure v)
        (.behind (modifyHeap (·.define j x.text v)) fun _ => .wrote) fun v w' => v.Sound w' := by
      refine honest_define hx (fun _ => trivial) (fun _ => rfl) (fun f self hw hf => ?_)
        (fun w' l _ => value_later l hv) fun w' l => value_later l hv
      exact ne_scope_of_name hw hx (Heap.vars_of_resolve? hres) hf
    refine honest_congr (fun events => ?_) (fun events => ?_) hdefine
    · exact bind_of_ok (assign_of_some hres)
    · exact Trace.seq_of_ok (assign_of_some hres)

/-- A method is bound in a frame of its own, where it finds its instance. -/
theorem bind_honest {d : FunctionDecl} {c : Class} {id : InstanceId} (hc : c.Sound w) (hd : d ∈ c.methods) :
    Honest w (bind d c (.object c id)) (bindNotes d c (.object c id)) fun f w' =>
      f.Sound w' ∧ f.decl = d ∧ Bound w'.past f (.object c id) := by
  intro hw events
  let self : Value := .object c id
  let h := (w.heap.pushFrame c.scope [(thisName, self)]).2.nextSerial.2
  let f : Closure := ⟨w.heap.serial, d, w.heap.frames.size, d.name.text = initName⟩
  have hrun : bind d c self ⟨w.heap, events⟩ = .ok f ⟨h, events⟩ := rfl
  have hnotes : bindNotes d c self ⟨w.heap, events⟩ = [.bound f self h] := by
    rw [bindNotes, Trace.behind, Trace.seq_of_ok hrun]
    rfl
  -- the new frame holds the instance and nothing else
  have hvars (x : Text) (v : Value) (hv : Bindings.get? [(thisName, self)] x = some v) : v.Sound w := by
    rcases Bindings.get?_insert_cases (b := []) hv with rfl | hnil
    · exact hc
    · cases hnil
  have hpushed : Moment.Sound ⟨w.past, h⟩ := sound_nextSerial (sound_pushFrame hw hvars)
  have hlt : f.scope < h.frames.size := Heap.size_lt_pushFrame
  have hframe : h.vars f.scope = [(thisName, self)] := Heap.vars_pushFrame_self
  have hl : w.Later ⟨w.past ++ [.bound f self h], h⟩ := by
    have hpush : w.Later ⟨w.past, (w.heap.pushFrame c.scope [(thisName, self)]).2⟩ := later_pushFrame fun _ hn => hn
    exact later_trans hpush (later_of_frames_eq (List.subset_append_left _ _) rfl)
  have hbound : Bound (w.past ++ [.bound f self h]) f self := ⟨h, List.mem_append_right _ List.mem_cons_self⟩
  rw [hrun, hnotes]
  refine reached_one rfl hl (sound_bound hpushed hlt hframe rfl) ⟨c, id, rfl, hd⟩ fun g n heq => ?_
  cases heq
  refine ⟨⟨hlt, Stmt.namesIn_of_mem hc.names hd, fun p hp => ?_⟩, rfl, hbound⟩
  have hget : (h.vars f.scope).get? thisName = some self := by
    rw [hframe]
    rfl
  exact ⟨f, self, .method hbound, hp, Heap.resolve?_of_vars hget⟩

/-- A property is stored, or it is a method that is bound now. -/
theorem property_honest {o : Value} {x : Name} (ho : o.Sound w) :
    Honest w (getProperty o x) (propertyNotes o x) fun v w' => v.Sound w' := by
  cases o with
  | nil | bool | number | string | function | classValue => exact honest_throw
  | object c id =>
    cases hfield : (w.heap.fields id).get? x.text with
    | some u =>
      have hfound : Honest w (pure u : Run Value) .none fun v w' => v.Sound w' :=
        fun hw => honest_pure (hw.fields id x.text u hfield) hw
      exact honest_congr (fun _ => getProperty_of_field hfield) (fun _ => propertyNotes_of_field hfield) hfound
    | none =>
      cases hd : c.method? x.text with
      | none =>
        have hfault : Honest w (fault (.undefinedProperty x.text) x.text x.pos : Run Value) .none fun v w' =>
            v.Sound w' := honest_throw
        exact honest_congr (fun _ => getProperty_of_none hfield hd) (fun _ => propertyNotes_of_none hfield hd) hfault
      | some d =>
        have hbound : Honest w (Value.function <$> bind d c (.object c id)) (bindNotes d c (.object c id)) fun v w' =>
            v.Sound w' := by
          rw [map_eq_pure_bind]
          exact honest_first (bind_honest ho (method?_mem hd)) fun f w' _ hf => honest_pure hf.1
        exact honest_congr (fun _ => getProperty_of_method hfield hd) (fun _ => propertyNotes_of_method hfield hd)
          hbound

theorem result_honest {token : Text} {pos : Pos} {r : Except Fault.Cause Value} (hr : ∀ v, r = .ok v → v.Sound w) :
    Honest w (result token pos r) .none fun v w' => v.Sound w' := by
  cases r with
  | ok v => exact honest_pure (hr v rfl)
  | error cause => exact honest_throw

end Run
end Lox
