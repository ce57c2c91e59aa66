import Lox.Proofs.Run.Honest

/-! Programs are honest. Over the structure of programs, each frame in which code runs hosts this code; on the fuel that
bounds the calls inside a call, each call is honest, and an initializer yields the instance that it was bound to. -/
namespace Lox

open Moment Run
open Note (Bound)

variable {a : Option Activation} {i : FrameId} {w : Moment}

def Caller.Honest (call : Caller) (tracer : Tracer) : Prop :=
  ∀ v vs p w, v.Sound w → (∀ u ∈ vs, u.Sound w) → Run.Honest w (call v vs p) (tracer v vs p) fun v w' => v.Sound w'

def Flow.Sound (w : Moment) : Flow → Prop
  | .next | .broke => True
  | .returned v => v.Sound w

section program

variable {call : Caller} {tracer : Tracer}

mutual

/-- Evaluating an expression is honest, by induction on the expression. -/
theorem eval_honest (hc : call.Honest tracer) : (e : Expr) → e.Names (· ≠ thisName) True → ∀ {w : Moment},
    w.Hosts a i e.selves → Honest w (e.eval call i) (e.notes call tracer a i) fun v w' => v.Sound w'
  | .literal l, _, w, _ => honest_pure (basic_sound (literal_basic l))
  | .group e, hn, w, hh => eval_honest hc e hn hh
  | .unary op pos e, hn, w, hh =>
    honest_first (eval_honest hc e hn hh) fun v w' _ _ => result_honest fun u hu => basic_sound (unary_basic hu)
  | .binary op pos l r, hn, w, hh => by
    refine honest_bind (eval_honest hc l hn.1 (hosts_left hh)) fun v w' hl _ => ?_
    have hr := hosts_later hl (hosts_right hh)
    exact honest_first (eval_honest hc r hn.2 hr) fun u w'' _ _ => result_honest fun x hx => basic_sound (binary_basic hx)
  | .logical op l r, hn, w, hh => by
    refine honest_bind (eval_honest hc l hn.1 (hosts_left hh)) fun v w' hl hv => ?_
    by_cases hd : op.isDecidedBy v = true
    · rw [if_pos hd, if_pos hd]
      exact honest_pure hv
    · rw [if_neg hd, if_neg hd]
      exact eval_honest hc r hn.2 (hosts_later hl (hosts_right hh))
  | .variable x, _, w, _ => lookup_honest x.text x.pos
  | .assign x e, hn, w, hh =>
    honest_bind (eval_honest hc e hn.2 hh) fun v w' _ hv => assign_honest (Ne.symm hn.1) hv
  | .call f es paren, hn, w, hh => by
    refine honest_bind (eval_honest hc f hn.1 (hosts_left hh)) fun v w' hl hv => ?_
    have hes := hosts_later hl (hosts_right hh)
    refine honest_bind (evalAll_honest hc es hn.2 hes) fun vs w'' hl' hvs => ?_
    exact hc v vs paren w'' (value_later hl' hv) hvs
  | .get o x, hn, w, hh => honest_bind (eval_honest hc o hn hh) fun v w' _ hv => property_honest hv
  | .set o x e, hn, w, hh => by
    refine honest_bind (eval_honest hc o hn.1 (hosts_left hh)) fun v w' hl _ => ?_
    cases v with
    | object c id =>
      have he := hosts_later hl (hosts_right hh)
      refine honest_first (eval_honest hc e hn.2 he) fun u w'' _ hu => ?_
      -- setting a field leaves every frame alone, so what was bound before is bound still
      have hset : w''.Later ⟨w''.past, w''.heap.setField id x.text u⟩ := later_of_frames_eq (fun _ hn => hn) rfl
      have hmodify : Honest w'' (modifyHeap (·.setField id x.text u)) .none fun _ w' => u.Sound w' :=
        honest_alloc (f := fun h => ((), h.setField id x.text u)) hset (sound_setField · hu) (value_later hset hu)
      exact honest_first hmodify fun _ w' _ hu' => honest_pure hu'
    | nil | bool | number | string | function | classValue => exact honest_throw
  | .this pos, _, w, hh => this_honest hh

theorem evalAll_honest (hc : call.Honest tracer) : (es : List Expr) → Expr.NamesAll (· ≠ thisName) True es →
    ∀ {w : Moment}, w.Hosts a i (Expr.selvesAll es) →
    Honest w (Expr.evalAll call i es) (Expr.notesAll call tracer a i es) fun vs w' => ∀ v ∈ vs, v.Sound w'
  | [], _, w, _ => honest_pure (List.forall_mem_nil _)
  | e :: es, hn, w, hh => by
    refine honest_bind (eval_honest hc e hn.1 (hosts_left hh)) fun v w' hl hv => ?_
    have hes := hosts_later hl (hosts_right hh)
    refine honest_first (evalAll_honest hc es hn.2 hes) fun vs w'' hl' hvs => ?_
    exact honest_pure (List.forall_mem_cons.mpr ⟨value_later hl' hv, hvs⟩)

end

theorem evalOption_honest (hc : call.Honest tracer) (e : Option Expr) (hn : Expr.NamesOption (· ≠ thisName) True e)
    (hh : w.Hosts a i (Expr.selvesOption e)) :
    Honest w (Expr.evalOption call i e) (Expr.notesOption call tracer a i e) fun v w' => v.Sound w' := by
  cases e with
  | none => exact honest_pure trivial
  | some e => exact eval_honest hc e hn hh

/-- A loop starts each of its turns from a later moment. -/
theorem iterate_honest {test : Run Value} {body : Run Flow} {tests bodies : Trace}
    (ht : ∀ w', w.Later w' → Honest w' test tests fun v w' => v.Sound w')
    (hb : ∀ w', w.Later w' → Honest w' body bodies fun flow w' => flow.Sound w') (fuel : Nat) :
    Honest w (iterate test body fuel) (iterateNotes test body tests bodies fuel) fun flow w' => flow.Sound w' := by
  induction fuel generalizing w with
  | zero => exact honest_throw
  | succ fuel ih =>
    refine honest_bind (ht w (later_refl w)) fun v w' hl _ => ?_
    by_cases hv : v.truthy = true
    · rw [if_pos hv, if_pos hv]
      refine honest_bind (hb w' hl) fun flow w'' hl' hflow => ?_
      have hlater := later_trans hl hl'
      cases flow with
      | next => exact ih (fun u l => ht u (later_trans hlater l)) fun u l => hb u (later_trans hlater l)
      | broke => exact honest_pure trivial
      | returned u => exact honest_pure hflow
    · rw [if_neg hv, if_neg hv]
      exact honest_pure trivial

/-- A declaration binds a name that is not `this` in a frame that hosts code. -/
theorem declare_honest {x : Text} {v : Value} {note : Heap → Note} {ps : List Pos} (hx : x ≠ thisName)
    (hh : w.Hosts a i ps) (hm : ∀ h, (note h).Mere) (hn : ∀ h, (note h).heap = h)
    (hv : ∀ w', w.Later w' → note w'.heap ∈ w'.past → v.Sound w') :
    Honest w (modifyHeap (·.define i x v) >>= fun _ => pure Flow.next)
      (.behind (modifyHeap (·.define i x v)) fun _ => note) fun flow w' => flow.Sound w' :=
  honest_define hx.symm hm hn (fun _ _ hw hf => ne_scope_of_bare hw hh.bare hf) hv fun _ _ => trivial

theorem serial_honest : Honest w (alloc Heap.nextSerial) .none fun _ _ => True :=
  honest_alloc (later_of_frames_eq (fun _ hn => hn) rfl) sound_nextSerial trivial

theorem logBlock_honest {policy : Policy} {j : FrameId} {P : Moment → Prop} (hp : P w) :
    Honest w (logBlock policy j) .none fun _ => P :=
  honest_log hp

variable {policy : Policy} {fuel : Nat}

mutual

/-- Running a statement is honest, by induction on the statement; a block has a frame of its own. -/
theorem exec_honest (hc : call.Honest tracer) : (s : Stmt) → s.Names (· ≠ thisName) → ∀ {w : Moment} {i : FrameId},
    w.Hosts a i s.selves → Honest w (s.exec policy call fuel i) (s.notes policy call tracer fuel a i) fun flow w' =>
      flow.Sound w'
  | .expr e, hn, w, i, hh => honest_first (eval_honest hc e hn hh) fun _ _ _ _ => honest_pure trivial
  | .print e, hn, w, i, hh => by
    refine honest_first (eval_honest hc e hn hh) fun v w' _ _ => ?_
    exact honest_first (honest_print (Q := fun _ _ => True) trivial) fun _ _ _ _ => honest_pure trivial
  | .var x e, hn, w, i, hh => by
    refine honest_bind (evalOption_honest hc e hn.2 hh) fun v w' hl hv => ?_
    exact declare_honest hn.1 (hosts_later hl hh) (fun _ => trivial) (fun _ => rfl) fun _ l _ => value_later l hv
  | .block ss, hn, w, i, hh => by
    -- the new frame holds nothing, and finds what the frame around it finds
    have hinner : Moment.Hosts ⟨w.past, (w.heap.pushFrame i []).2⟩ a w.heap.frames.size (Stmt.selvesAll ss) :=
      hosts_inner hh.lt rfl hh.finds
    have hpush : Honest w (alloc (·.pushFrame i [])) .none fun j w' => w'.Hosts a j (Stmt.selvesAll ss) :=
      honest_alloc (later_pushFrame fun _ hn => hn) (sound_pushFrame · nofun) hinner
    refine honest_bind hpush fun j w' _ hj => ?_
    exact honest_bind (logBlock_honest hj) fun _ w'' _ hj' => execAll_honest hc ss hn hj'
  | .ifThen test yes no, hn, w, i, hh => by
    refine honest_bind (eval_honest hc test hn.1 (hosts_left hh)) fun v w' hl _ => ?_
    have hbranches := hosts_later hl (hosts_right hh)
    by_cases hv : v.truthy = true
    · rw [if_pos hv, if_pos hv]
      exact exec_honest hc yes hn.2.1 (hosts_left hbranches)
    · rw [if_neg hv, if_neg hv]
      exact execOption_honest hc no hn.2.2 (hosts_right hbranches)
  | .whileLoop test body, hn, w, i, hh => by
    refine iterate_honest (fun w' l => ?_) (fun w' l => ?_) fuel
    · exact eval_honest hc test hn.1 (hosts_later l (hosts_left hh))
    · exact exec_honest hc body hn.2 (hosts_later l (hosts_right hh))
  | .function d, hn, w, i, hh => by
    refine honest_bind serial_honest fun serial w' hl _ => ?_
    have hhost := hosts_later hl hh
    refine declare_honest (Stmt.namesIn_iff.mp hn).1 hhost (fun _ => trivial) (fun _ => rfl) fun w'' l hmade => ?_
    -- the function belongs to the method to which the function around it belongs
    refine ⟨(hosts_later l hhost).lt, hn, fun p hp => ?_⟩
    obtain ⟨b, rfl, g, self, hg, hpg, hfound⟩ := (hosts_later l hhost).finds p hp
    exact ⟨g, self, .nested hmade hg, hpg, hfound⟩
  | .returnValue _ e, hn, w, i, hh => honest_first (evalOption_honest hc e hn hh) fun _ _ _ hv => honest_pure hv
  | .breakLoop _, _, w, i, _ => honest_pure trivial
  | .classDecl x ds, hn, w, i, hh => by
    refine honest_bind serial_honest fun serial w' hl _ => ?_
    have hhost := hosts_later hl hh
    refine declare_honest hn.1 hhost (fun _ => trivial) (fun _ => rfl) fun w'' l _ => ?_
    exact ⟨(hosts_later l hhost).lt, hn.2⟩

theorem execAll_honest (hc : call.Honest tracer) : (ss : List Stmt) → Stmt.NamesAll (· ≠ thisName) ss →
    ∀ {w : Moment} {i : FrameId}, w.Hosts a i (Stmt.selvesAll ss) →
    Honest w (Stmt.execAll policy call fuel i ss) (Stmt.notesAll policy call tracer fuel a i ss) fun flow w' =>
      flow.Sound w'
  | [], _, w, i, _ => honest_pure trivial
  | s :: ss, hn, w, i, hh => by
    refine honest_bind (exec_honest hc s hn.1 (hosts_left hh)) fun flow w' hl hflow => ?_
    cases flow with
    | next => exact execAll_honest hc ss hn.2 (hosts_later hl (hosts_right hh))
    | broke => exact honest_pure trivial
    | returned v => exact honest_pure hflow

theorem execOption_honest (hc : call.Honest tracer) : (s : Option Stmt) → Stmt.NamesOption (· ≠ thisName) s →
    ∀ {w : Moment} {i : FrameId}, w.Hosts a i (Stmt.selvesOption s) →
    Honest w (Stmt.execOption policy call fuel i s) (Stmt.notesOption policy call tracer fuel a i s) fun flow w' =>
      flow.Sound w'
  | none, _, _, _, _ => honest_pure trivial
  | some s, hn, _, _, hh => exec_honest hc s hn hh

end

end program

namespace Run

variable {body : FrameId → List Stmt → Run Flow} {notes : Activation → List Stmt → Trace} {policy : Policy}
  {f : Closure} {args : List Value}

def BodyHonest (body : FrameId → List Stmt → Run Flow) (notes : Activation → List Stmt → Trace) : Prop :=
  ∀ (b : Activation) ss w, Stmt.NamesAll (· ≠ thisName) ss → w.Hosts (some b) b.frame (Stmt.selvesAll ss) →
    Honest w (body b.frame ss) (notes b ss) fun flow w' => flow.Sound w'

/-- However the body of an initializer ends, it yields the instance to which it was bound. -/
theorem enter_honest (hb : BodyHonest body notes) (hf : f.Sound w) (ha : ∀ u ∈ args, u.Sound w) :
    Honest w (enter body policy f args) (enterNotes notes policy f args) fun v w' =>
      v.Sound w' ∧ (f.decl.name.text = initName → ∀ self, Bound w'.past f self → v = self) := by
  obtain ⟨-, hparams, hnames⟩ := Stmt.namesIn_iff.mp hf.names
  unfold enter enterNotes
  cases hvars : bindParams f.decl.params args [] with
  | none => exact honest_throw
  | some vars =>
    have hthis : vars.get? thisName = none := by
      cases hv : vars.get? thisName with
      | none => rfl
      | some v =>
        rcases bindParams_cases hvars hv with ⟨⟨p, hp, hx⟩, -⟩ | hnil
        · exact absurd hx (hparams p hp)
        · cases hnil
    have hvalues (x : Text) (v : Value) (hv : vars.get? x = some v) : v.Sound w := by
      rcases bindParams_cases hvars hv with ⟨-, hmem⟩ | hnil
      · exact ha v hmem
      · cases hnil
    have hinner : Moment.Hosts ⟨w.past, (w.heap.pushFrame f.scope vars).2⟩ (some ⟨f, w.heap.frames.size⟩)
        w.heap.frames.size (Stmt.selvesAll f.decl.body) := by
      refine hosts_inner hf.lt hthis fun p hp => ⟨_, rfl, ?_⟩
      rw [← Routine.selves_eq] at hp
      exact hf.selves p hp
    have hpush : Honest w (alloc (·.pushFrame f.scope vars)) .none fun j w' =>
        w'.Hosts (some ⟨f, j⟩) j (Stmt.selvesAll f.decl.body) :=
      honest_alloc (later_pushFrame fun _ hn => hn) (sound_pushFrame · hvalues) hinner
    refine honest_bind hpush fun j w₁ _ hj => ?_
    have hlog : Honest w₁ (logBlock policy j) .none fun _ w' =>
        w'.Hosts (some ⟨f, j⟩) j (Stmt.selvesAll f.decl.body) := logBlock_honest hj
    refine honest_bind hlog fun _ w₂ _ hj' => ?_
    refine honest_first (hb ⟨f, j⟩ f.decl.body w₂ hnames hj') fun flow w₃ _ hflow => ?_
    extract_lets finish
    have hfinish (v : Value) (hv : v.Sound w₃) : Honest w₃ (finish v) .none fun v w' =>
        v.Sound w' ∧ (f.decl.name.text = initName → ∀ self, Bound w'.past f self → v = self) := by
      unfold finish
      by_cases hinit : f.isInit = true
      · rw [if_pos hinit]
        refine honest_heap fun hw => ?_
        cases hget : (w₃.heap.vars f.scope).get? thisName with
        | none => exact honest_throw
        | some u =>
          refine honest_pure ⟨hw.vars _ _ _ hget, fun _ self hself => ?_⟩
          rw [hw.bound f self hself] at hget
          exact (Option.some.inj hget).symm
      · rw [if_neg hinit]
        -- a bound method that is named as an initializer is one
        refine fun hw => honest_pure ⟨hv, fun hname self hself => absurd ?_ hinit⟩ hw
        rw [hw.isInit f self hself]
        exact decide_eq_true hname
    cases flow with
    | next => exact hfinish .nil trivial
    | returned v => exact hfinish v hflow
    | broke => exact honest_throw

/-- A class yields its new instance, to which the initializer was bound. -/
theorem construct_honest (hb : BodyHonest body notes) {c : Class} (hc : c.Sound w) (ha : ∀ u ∈ args, u.Sound w) :
    Honest w (construct body policy c args) (constructNotes notes policy c args) fun v w' => v.Sound w' ∧
      v = .object c w.heap.instances.size ∧ ∀ d, c.method? initName = some d → ∃ f, f.decl = d ∧ Bound w'.past f v := by
  have hpush : Honest w (alloc Heap.pushInstance) .none fun id _ => id = w.heap.instances.size :=
    honest_alloc (later_of_frames_eq (fun _ hn => hn) rfl) sound_pushInstance rfl
  unfold construct constructNotes
  refine honest_bind hpush fun id w₁ hl hid => ?_
  subst hid
  dsimp only
  have hself := class_later hl hc
  cases hd : c.method? initName with
  | none => exact honest_pure ⟨hself, rfl, nofun⟩
  | some d =>
    refine honest_bind (bind_honest hself (method?_mem hd)) fun f w₂ hl₁ hbound => ?_
    obtain ⟨hf, hdecl, hbound⟩ := hbound
    have hargs (u : Value) (hu : u ∈ args) : u.Sound w₂ := value_later (later_trans hl hl₁) (ha u hu)
    refine honest_first (enter_honest hb hf hargs) fun _ w₃ hl₂ _ => ?_
    refine honest_pure ⟨class_later (later_trans hl₁ hl₂) hself, rfl, ?_⟩
    rintro d ⟨⟩
    exact ⟨f, hdecl, Note.bound_mono hl₂.past hbound⟩

/-- What is called yields what its closing note tells. -/
theorem invoke_honest (hb : BodyHonest body notes) {callee : Callable} (hc : callee.toValue.Sound w)
    (ha : ∀ u ∈ args, u.Sound w) :
    Honest w (invoke body policy args callee) (invokeNotes notes policy args callee) fun v w' =>
      v.Sound w' ∧ (Note.closed callee w.heap v w'.heap).Tells w'.past := by
  cases callee with
  | function f => exact enter_honest hb hc ha
  | classValue c => exact construct_honest hb hc ha

/-- A call that is opened and, if what is called ends well, closed. -/
theorem around_honest {depth : Nat} {run : Callable → Run Value} {inner : Callable → Trace} {value : Value}
    {paren : Pos} (hrun : ∀ callee w', value.takes? args = some callee → w.Later w' → w'.heap = w.heap →
      Honest w' (run callee) (inner callee) fun v w'' =>
        v.Sound w'' ∧ (Note.closed callee w.heap v w''.heap).Tells w''.past) :
    Honest w (checkCall policy depth value args paren >>= run) (aroundNotes policy depth run inner value args paren)
      fun v w' => v.Sound w' := by
  unfold aroundNotes
  cases htakes : value.takes? args with
  | none =>
    obtain ⟨cause, -, hcheck⟩ := checkCall_of_none htakes
    rw [hcheck]
    exact honest_first (P := fun _ _ => False) honest_throw fun _ _ _ hfalse => hfalse.elim
  | some callee =>
    have hopen : Honest w (pure ()) (fun m => [.opened callee paren m.heap]) fun _ w' => w'.heap = w.heap :=
      honest_note (.opened callee paren) rfl nofun (fun _ => trivial) rfl
    -- between the opening note and the body nothing touches the heap, so the body starts where the call did
    have hcheck (w' : Moment) : Honest w' (checkCall policy depth value args paren) .none fun c w'' =>
        c = callee ∧ w''.heap = w'.heap := by
      rw [checkCall_of_some htakes]
      by_cases hd : policy.allowsDepth (depth + 1) = true
      · rw [if_pos hd]
        have hlog : Honest w' (logCall policy callee (depth + 1) paren) .none fun _ w'' => w''.heap = w'.heap :=
          honest_log rfl
        exact honest_first hlog fun _ _ _ heq => honest_pure ⟨rfl, heq⟩
      · rw [if_neg hd]
        exact honest_throw
    let closing (v : Value) : Trace := fun n => [.closed callee w.heap v n.heap]
    have hclose (w' : Moment) (hl : w.Later w') (hheap : w'.heap = w.heap) :
        Honest w' (run callee) (.seq (run callee) (inner callee) closing) fun v w'' => v.Sound w'' := by
      refine honest_last (hrun callee w' htakes hl hheap) fun v w'' _ hv => ?_
      exact honest_note (.closed callee w.heap v) rfl nofun (fun _ => hv.2) (value_later (later_note _) hv.1)
    have hcall (w₁ : Moment) (hl₁ : w.Later w₁) (hheap₁ : w₁.heap = w.heap) :
        Honest w₁ (checkCall policy depth value args paren >>= run)
          (.seq (checkCall policy depth value args paren) .none fun _ => .seq (run callee) (inner callee) closing)
          fun v w'' => v.Sound w'' := by
      refine honest_bind (hcheck w₁) fun c w₂ hl₂ hc => ?_
      obtain ⟨rfl, hheap₂⟩ := hc
      exact hclose w₂ (later_trans hl₁ hl₂) (hheap₂.trans hheap₁)
    have hwhole := honest_bind hopen fun _ w₁ hl₁ hheap₁ => hcall w₁ hl₁ hheap₁
    exact honest_congr (fun _ => rfl) (fun _ => rfl) hwhole

/-- By induction on the fuel: the calls in the body of a call have less. -/
theorem call_honest (policy : Policy) (fuel depth : Nat) :
    (call policy fuel depth).Honest (callNotes policy fuel depth) := by
  induction fuel generalizing depth with
  | zero =>
    intro value args paren w _ _
    rw [call_eq]
    exact around_honest fun _ _ _ _ _ => honest_throw
  | succ fuel ih =>
    intro value args paren w hv ha
    rw [call_eq]
    refine around_honest fun callee w' htakes hl hheap => ?_
    have hvalue : callee.toValue = value := toValue_of_callable? (Option.filter_eq_some_iff.mp htakes).1
    have hcallee : callee.toValue.Sound w' := by
      rw [hvalue]
      exact value_later hl hv
    rw [← hheap]
    exact invoke_honest (fun b ss _ hn hh => execAll_honest (ih (depth + 1)) ss hn hh) hcallee fun u hu =>
      value_later hl (ha u hu)

/-- What an action does to statements in which no name is spelled `this`, and which have `this` in methods only. -/
theorem perform_honest (policy : Policy) (fuel : Nat) (action : Action) (stmts : List Stmt)
    (hn : Stmt.NamesAll (· ≠ thisName) stmts) (hs : Stmt.selvesAll stmts = []) (hh : w.Hosts none Heap.globalFrame []) :
    Honest w (Session.perform policy fuel action stmts) (Session.performNotes policy fuel action stmts) fun _ _ =>
      True := by
  have hc := call_honest policy fuel 0
  rw [← hs] at hh
  have hrun : Honest w (Session.runStmts policy fuel stmts) (Session.performNotes policy fuel .run stmts) fun _ _ =>
      True := by
    refine honest_first (execAll_honest hc stmts hn hh) fun flow w' _ _ => ?_
    cases flow with
    | next => exact honest_pure trivial
    | broke => exact honest_throw
    | returned v => exact honest_throw
  cases action with
  | run => exact hrun
  | eval =>
    change Honest w (Session.evalStmts policy fuel stmts) _ _
    unfold Session.evalStmts
    split
    · next e =>
      rw [Session.performNotes_expr]
      exact honest_first (eval_honest hc e hn.1 (hosts_left hh)) fun v _ _ _ => honest_print trivial
    · exact hrun
  | tree order =>
    change Honest w (Session.printTrees order stmts) .none _
    unfold Session.printTrees
    clear hrun hn hs hh
    -- printing trees runs nothing: the induction needs none of the hypotheses on the statements
    induction stmts generalizing w with
    | nil => exact honest_pure trivial
    | cons s stmts ih => exact honest_first (honest_print (Q := fun _ _ => True) trivial) fun _ _ _ _ => ih

end Run

end Lox
