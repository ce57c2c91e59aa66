import Lox.Proofs.Run.Readings

/-! The heaps in which names are looked up follow each other: a later heap has all frames and names of an earlier one.
The frame of an open call lies around the frame that a name is looked up from, and the frame that the function was made
in lies around that. -/
namespace Lox

open Lox.Parser (Context)

variable {α β : Type} {h h' h'' : Heap} {i : FrameId} {a : Option Activation} {c : Context}

def Heap.Runs (h : Heap) (a : Option Activation) (i : FrameId) : Prop :=
  ∀ b, a = some b → h.enclosing? b.frame = some b.function.scope ∧ b.frame ∈ h.chain i

theorem runs_extends (ha : h.Runs a i) (e : h.Extends h') : h'.Runs a i := by
  intro b hb
  obtain ⟨henc, hmem⟩ := ha b hb
  exact ⟨e.enclosing _ _ henc, Heap.mem_chain_extends e hmem⟩

/-- A block inside a call belongs to the call. -/
theorem runs_pushFrame {vars : Bindings Value} (ha : h.Runs a i) (hi : i < h.frames.size) :
    (h.pushFrame i vars).2.Runs a h.frames.size := by
  intro b hb
  have hextends : h.Extends (h.pushFrame i vars).2 := Heap.extends_pushFrame
  obtain ⟨henc, hmem⟩ := runs_extends ha hextends b hb
  exact ⟨henc, Heap.mem_chain_iff.mpr (.inr ⟨i, Heap.enclosing?_pushFrame_self hi, hmem⟩)⟩

/-- A call makes a frame inside the one that its function was made in. -/
theorem runs_enter {vars : Bindings Value} (f : Closure) (hf : f.scope < h.frames.size) :
    (h.pushFrame f.scope vars).2.Runs (some ⟨f, h.frames.size⟩) h.frames.size := by
  rintro b hb
  cases hb
  exact ⟨Heap.enclosing?_pushFrame_self hf, Heap.mem_chain_self _ _⟩

/-- Readings in the order of their heaps, on the way from `h` to `h'`. -/
structure Between (h : Heap) (rs : List Reading) (h' : Heap) : Prop where
  grows : h.Extends h'
  each : ∀ r ∈ rs, h.Extends r.heap ∧ r.heap.Extends h' ∧ r.heap.Runs r.activation r.scope
  ordered : rs.Pairwise fun r r' => r.heap.Extends r'.heap

theorem between_nil (e : h.Extends h') : Between h [] h' := ⟨e, fun _ hr => (nomatch hr), List.Pairwise.nil⟩

theorem between_one {x : Name} (ha : h.Runs a i) : Between h [⟨a, x, i, h⟩] h := by
  refine ⟨Heap.extends_refl h, fun r hr => ?_, List.pairwise_singleton _ _⟩
  rw [List.mem_singleton.mp hr]
  exact ⟨Heap.extends_refl h, Heap.extends_refl h, ha⟩

/-- Readings of two stretches are in the order of their heaps on the whole way. -/
theorem between_append {rs rs' : List Reading} (hl : Between h rs h') (hr : Between h' rs' h'') :
    Between h (rs ++ rs') h'' := by
  refine ⟨Heap.extends_trans hl.grows hr.grows, fun r hmem => ?_, ?_⟩
  · rcases List.mem_append.mp hmem with hmem | hmem
    · obtain ⟨he, he', hruns⟩ := hl.each r hmem
      exact ⟨he, Heap.extends_trans he' hr.grows, hruns⟩
    · obtain ⟨he, he', hruns⟩ := hr.each r hmem
      exact ⟨Heap.extends_trans hl.grows he, he', hruns⟩
  · refine List.pairwise_append.mpr ⟨hl.ordered, hr.ordered, fun r hmem r' hmem' => ?_⟩
    exact Heap.extends_trans (hl.each r hmem).2.1 (hr.each r' hmem').1

theorem between_extends {rs : List Reading} (hb : Between h rs h') (e : h'.Extends h'') : Between h rs h'' := by
  have happend := between_append hb (between_nil e)
  rwa [List.append_nil] at happend

namespace Run

def Records (r : Run α) (t : Machine → List Reading) (h : Heap) : Prop :=
  h.WellMade False → ∀ events, Between h (t ⟨h, events⟩) (machine (r ⟨h, events⟩)).heap

variable {r : Run α} {t : Machine → List Reading} {Q : α → Heap → Prop}

/-- A run that looks up nothing. -/
theorem records_nothing (hs : Safe False r h Q) : Records r (fun _ => []) h :=
  fun hm events => between_nil (machine_of_leaves (hs hm events)).1

theorem records_pure (x : α) : Records (pure x) (fun _ => []) h := fun _ _ => between_nil (Heap.extends_refl h)

theorem records_stuck : Records (stuck : Run α) (fun _ => []) h := fun _ _ => between_nil (Heap.extends_refl h)

/-- Two runs in a row, and what they look up. -/
theorem records_bind {k : α → Run β} {tk : α → Machine → List Reading} (hr : Records r t h) (hs : Safe False r h Q)
    (hk : ∀ a h', h.Extends h' → Q a h' → Records (k a) (tk a) h') :
    Records (r >>= k) (fun m => t m ++ r.after tk m) h := by
  intro hm events
  have hfirst := hr hm events
  have hleaves := hs hm events
  dsimp only
  rw [bind_eq_match, after]
  match r ⟨h, events⟩, hfirst, hleaves with
  | .ok a ⟨h', events'⟩, hfirst, ⟨he, hm', hq⟩ => exact between_append hfirst (hk a h' he hq hm' events')
  | .error e m, hfirst, _ =>
    dsimp only
    rw [List.append_nil]
    exact hfirst

/-- A first run that looks up nothing. -/
theorem records_after {k : α → Run β} {tk : α → Machine → List Reading} (hs : Safe False r h Q)
    (hk : ∀ a h', h.Extends h' → Q a h' → Records (k a) (tk a) h') :
    Records (r >>= k) (fun m => r.after tk m) h :=
  records_bind (records_nothing hs) hs hk

/-- A second run that looks up nothing. -/
theorem records_then {k : α → Run β} (hr : Records r t h) (hs : Safe False r h Q)
    (hk : ∀ a h', Q a h' → Records (k a) (fun _ => []) h') : Records (r >>= k) t h := by
  intro hm events
  have hboth := records_bind hr hs (fun a h' _ hq => hk a h' hq) hm events
  have hnothing : r.after (fun _ _ => []) ⟨h, events⟩ = [] := by
    unfold after
    cases r ⟨h, events⟩ <;> rfl
  dsimp only at hboth
  rwa [hnothing, List.append_nil] at hboth

/-- A name that is looked up is noted with the heap of that moment. -/
theorem lookup_records (x : Name) (ha : h.Runs a i) :
    Records (lookup i x.text x.pos) (fun m => [⟨a, x, i, m.heap⟩]) h := by
  intro hm events
  have hsafe : Safe False (lookup i x.text x.pos) h fun v h' => v.WellMade False h' := lookup_safe False.elim
  have hend := (machine_of_leaves (hsafe hm events)).1
  exact between_extends (between_one ha) hend

theorem assign_records (x : Name) (v : Value) (ha : h.Runs a i) (hv : v.WellMade False h) :
    Records (assign i x v) (fun m => [⟨a, x, i, m.heap⟩]) h := by
  intro hm events
  have hsafe : Safe False (assign i x v) h fun _ _ => True := assign_safe False.elim hv
  have hend := (machine_of_leaves (hsafe hm events)).1
  exact between_extends (between_one ha) hend

end Run

def Caller.Records (call : Caller) (reader : Reader) : Prop :=
  ∀ f args paren h, f.WellMade False h → (∀ a ∈ args, a.WellMade False h) →
    Run.Records (call f args paren) (reader f args paren) h

open Run

variable {call : Caller} {reader : Reader}

mutual

/-- What an expression looks up is noted in order, by induction on the expression. -/
theorem eval_records (hs : call.Safe False) (hc : call.Records reader) : (e : Expr) →
    e.Names (fun _ => True) (c.inClass = true) → ∀ {h : Heap}, h.Hosts False i c [] → h.Runs a i →
    Records (e.eval call i) (e.readings call reader a i) h
  | .literal l, _, h, _, _ => records_pure _
  | .group e, hp, h, hh, ha => eval_records hs hc e hp hh ha
  | .unary op pos e, hp, h, hh, ha =>
    records_then (eval_records hs hc e hp hh ha) (eval_safe hs e hp False.elim hh) fun _ _ _ =>
      records_nothing unary_safe
  | .binary op pos l r, hp, h, hh, ha => by
    refine records_bind (eval_records hs hc l hp.1 hh ha) (eval_safe hs l hp.1 False.elim hh) fun v h' e _ => ?_
    have hh' := hosts_extends hh e
    exact records_then (eval_records hs hc r hp.2 hh' (runs_extends ha e)) (eval_safe hs r hp.2 False.elim hh')
      fun _ _ _ => records_nothing binary_safe
  | .logical op l r, hp, h, hh, ha => by
    refine records_bind (eval_records hs hc l hp.1 hh ha) (eval_safe hs l hp.1 False.elim hh) fun v h' e hv => ?_
    by_cases hd : op.isDecidedBy v = true
    · simp only [if_pos hd]
      exact records_pure _
    · simp only [if_neg hd]
      exact eval_records hs hc r hp.2 (hosts_extends hh e) (runs_extends ha e)
  | .variable x, _, h, _, ha => lookup_records x ha
  | .assign x e, hp, h, hh, ha => by
    refine records_bind (eval_records hs hc e hp.2 hh ha) (eval_safe hs e hp.2 False.elim hh) fun v h' e' hv => ?_
    -- the target is looked up after the value has been computed
    exact records_then (assign_records x v (runs_extends ha e') hv) (assign_safe False.elim hv) fun _ _ _ =>
      records_pure _
  | .call f es paren, hp, h, hh, ha => by
    refine records_bind (eval_records hs hc f hp.1 hh ha) (eval_safe hs f hp.1 False.elim hh) fun v h' e hv => ?_
    have hh' := hosts_extends hh e
    refine records_bind (evalAll_records hs hc es hp.2 hh' (runs_extends ha e))
      (evalAll_safe hs es hp.2 False.elim hh') fun vs h'' e' hvs => ?_
    exact hc v vs paren h'' (value_extends hv e') hvs
  | .get o x, hp, h, hh, ha =>
    records_then (eval_records hs hc o hp hh ha) (eval_safe hs o hp False.elim hh) fun _ _ hv =>
      records_nothing (getProperty_safe hv)
  | .set o x e, hp, h, hh, ha => by
    refine records_bind (eval_records hs hc o hp.1 hh ha) (eval_safe hs o hp.1 False.elim hh) fun v h' e' hv => ?_
    cases v with
    | object k id =>
      have hh' := hosts_extends hh e'
      refine records_then (eval_records hs hc e hp.2 hh' (runs_extends ha e')) (eval_safe hs e hp.2 False.elim hh')
        fun w h'' _ => ?_
      exact fun _ _ => between_nil (Heap.extends_of_frames_eq rfl)
    | nil | bool | number | string | function | classValue =>
      exact records_nothing (safe_fault (Q := fun _ _ => True) fun _ _ => nofun)
  | .this pos, _, h, _, ha => lookup_records ⟨thisName, pos⟩ ha

theorem evalAll_records (hs : call.Safe False) (hc : call.Records reader) : (es : List Expr) →
    Expr.NamesAll (fun _ => True) (c.inClass = true) es → ∀ {h : Heap}, h.Hosts False i c [] → h.Runs a i →
    Records (Expr.evalAll call i es) (Expr.readingsAll call reader a i es) h
  | [], _, h, _, _ => records_pure _
  | e :: es, hp, h, hh, ha => by
    refine records_bind (eval_records hs hc e hp.1 hh ha) (eval_safe hs e hp.1 False.elim hh) fun v h' e' _ => ?_
    have hh' := hosts_extends hh e'
    exact records_then (evalAll_records hs hc es hp.2 hh' (runs_extends ha e'))
      (evalAll_safe hs es hp.2 False.elim hh') fun _ _ _ => records_pure _

end

theorem evalOption_records (hs : call.Safe False) (hc : call.Records reader) {e : Option Expr}
    (hp : Expr.NamesOption (fun _ => True) (c.inClass = true) e) (hh : h.Hosts False i c []) (ha : h.Runs a i) :
    Records (Expr.evalOption call i e) (Expr.readingsOption call reader a i e) h := by
  cases e with
  | none => exact records_pure _
  | some e => exact eval_records hs hc e hp hh ha

/-- The turns of a loop, each from a later heap. -/
theorem iterate_records {test : Run Value} {body : Run Flow} {tests bodies : Machine → List Reading}
    {P : Value → Heap → Prop} {Q : Flow → Heap → Prop} (fuel : Nat)
    (ht : ∀ h', h.Extends h' → Safe False test h' P ∧ Records test tests h')
    (hb : ∀ h', h.Extends h' → Safe False body h' Q ∧ Records body bodies h') :
    Records (iterate test body fuel) (iterateReadings test body tests bodies fuel) h := by
  induction fuel generalizing h with
  | zero => exact records_nothing (safe_exhausted (Q := fun _ _ => True))
  | succ fuel ih =>
    obtain ⟨hts, htr⟩ := ht h (Heap.extends_refl h)
    refine records_bind htr hts fun v h' e _ => ?_
    by_cases hv : v.truthy = true
    · simp only [if_pos hv]
      obtain ⟨hbs, hbr⟩ := hb h' e
      refine records_bind hbr hbs fun flow h'' e' _ => ?_
      have hee := Heap.extends_trans e e'
      cases flow with
      | next => exact ih (fun h₃ e₃ => ht h₃ (Heap.extends_trans hee e₃)) fun h₃ e₃ => hb h₃ (Heap.extends_trans hee e₃)
      | broke | returned => exact records_pure _
    · simp only [if_neg hv]
      exact records_pure _

/-- A new frame, and a run in it. -/
theorem pushFrame_records {vars : Bindings Value} (policy : Policy) {k : FrameId → Run β}
    {t : FrameId → Machine → List Reading} (hv : ∀ x v, vars.get? x = some v → v.WellMade False h)
    (hk : ∀ h', (h.pushFrame i vars).2.Extends h' → h.frames.size < h'.frames.size →
      Records (k h.frames.size) (t h.frames.size) h') :
    Records (alloc (·.pushFrame i vars) >>= fun inner => logBlock policy inner >>= fun _ => k inner)
      (fun m => (alloc (·.pushFrame i vars)).after (fun inner => (logBlock policy inner).after fun _ => t inner) m)
      h := by
  intro hm events
  have hrun : Records (logBlock policy h.frames.size >>= fun _ => k h.frames.size)
      (fun m => (logBlock policy h.frames.size).after (fun _ => t h.frames.size) m) (h.pushFrame i vars).2 := by
    refine records_after (logBlock_safe (Q := fun _ _ => True) trivial) fun _ h' e _ => hk h' e ?_
    exact Nat.lt_of_lt_of_le Heap.size_lt_pushFrame e.size
  exact between_append (between_nil Heap.extends_pushFrame) (hrun (wellMade_pushFrame hm hv) events)

mutual

/-- What a statement looks up is noted in order, by induction on the statement. -/
theorem exec_records (hs : call.Safe False) (hc : call.Records reader) (policy : Policy) (fuel : Nat) : (s : Stmt) →
    ∀ {c : Context}, s.Placed c → ∀ {h : Heap} {i : FrameId}, h.Hosts False i c [] → h.Runs a i →
    Records (s.exec policy call fuel i) (s.readings policy call reader fuel a i) h
  | .expr e, c, hp, h, i, hh, ha =>
    records_then (eval_records hs hc e hp hh ha) (eval_safe hs e hp False.elim hh) fun _ _ _ =>
      records_pure _
  | .print e, c, hp, h, i, hh, ha => by
    refine records_then (eval_records hs hc e hp hh ha) (eval_safe hs e hp False.elim hh) fun v h' _ => ?_
    exact fun _ _ => between_nil (Heap.extends_refl h')
  | .var x e, c, hp, h, i, hh, ha => by
    refine records_then (evalOption_records hs hc hp hh ha) (evalOption_safe hs hp False.elim hh) fun v h' _ => ?_
    exact fun _ _ => between_nil Heap.extends_define
  | .block ss, c, hp, h, i, hh, ha => by
    refine pushFrame_records policy (fun x v hv => nomatch hv) fun h' e hlt => ?_
    exact execAll_records hs hc policy fuel ss hp (hosts_of_lt hlt) (runs_extends (runs_pushFrame ha hh.lt) e)
  | .ifThen test yes no, c, ⟨hpt, hpy, hpn⟩, h, i, hh, ha => by
    refine records_bind (eval_records hs hc test hpt hh ha) (eval_safe hs test hpt False.elim hh) fun v h' e _ => ?_
    have hh' := hosts_extends hh e
    by_cases hv : v.truthy = true
    · simp only [if_pos hv]
      exact exec_records hs hc policy fuel yes hpy hh' (runs_extends ha e)
    · simp only [if_neg hv]
      exact execOption_records hs hc policy fuel no hpn hh' (runs_extends ha e)
  | .whileLoop test body, c, ⟨hpt, hpb⟩, h, i, hh, ha => by
    have hloop (h' : Heap) (e : h.Extends h') : h'.Hosts False i c.enterLoop [] :=
      hosts_of_inClass (hosts_extends hh e) rfl
    refine iterate_records fuel (fun h' e => ⟨eval_safe hs test hpt False.elim (hosts_extends hh e), ?_⟩) fun h' e =>
      ⟨exec_safe hs policy fuel body hpb (Γ := []) False.elim (hloop h' e), ?_⟩
    · exact eval_records hs hc test hpt (hosts_extends hh e) (runs_extends ha e)
    · exact exec_records hs hc policy fuel body hpb (hloop h' e) (runs_extends ha e)
  | .function d, c, hp, h, i, hh, _ => records_nothing (exec_safe hs policy fuel (.function d) hp False.elim hh)
  | .returnValue pos e, c, hp, h, i, hh, ha =>
    records_then (evalOption_records hs hc hp.2 hh ha) (evalOption_safe hs hp.2 False.elim hh) fun _ _ _ =>
      records_pure _
  | .breakLoop pos, c, _, h, i, _, _ => records_pure _
  | .classDecl x ds, c, hp, h, i, hh, _ => records_nothing (exec_safe hs policy fuel (.classDecl x ds) hp False.elim hh)

theorem execAll_records (hs : call.Safe False) (hc : call.Records reader) (policy : Policy) (fuel : Nat) :
    (ss : List Stmt) → ∀ {c : Context}, Stmt.PlacedAll c ss → ∀ {h : Heap} {i : FrameId}, h.Hosts False i c [] →
    h.Runs a i → Records (Stmt.execAll policy call fuel i ss) (Stmt.readingsAll policy call reader fuel a i ss) h
  | [], c, _, h, i, _, _ => records_pure _
  | s :: ss, c, hp, h, i, hh, ha => by
    refine records_bind (exec_records hs hc policy fuel s hp.1 hh ha)
      (exec_safe hs policy fuel s hp.1 (Γ := []) False.elim hh) fun flow h' e _ => ?_
    cases flow with
    | next => exact execAll_records hs hc policy fuel ss hp.2 (hosts_extends hh e) (runs_extends ha e)
    | broke | returned => exact records_pure _

theorem execOption_records (hs : call.Safe False) (hc : call.Records reader) (policy : Policy) (fuel : Nat) :
    (s : Option Stmt) → ∀ {c : Context}, Stmt.PlacedOption c s → ∀ {h : Heap} {i : FrameId}, h.Hosts False i c [] →
    h.Runs a i →
    Records (Stmt.execOption policy call fuel i s) (Stmt.readingsOption policy call reader fuel a i s) h
  | none, _, _, _, _, _, _ => records_pure _
  | some s, _, hp, _, _, hh, ha => exec_records hs hc policy fuel s hp hh ha

end

namespace Run

def BodyRecords (body : FrameId → List Stmt → Run Flow) (readings : Activation → List Stmt → Machine → List Reading) :
    Prop :=
  ∀ b ss c h, Stmt.PlacedAll c ss → h.Hosts False b.frame c [] → h.Runs (some b) b.frame →
    Records (body b.frame ss) (readings b ss) h

variable {body : FrameId → List Stmt → Run Flow} {readings : Activation → List Stmt → Machine → List Reading}

/-- What the body of a function looks up belongs to its call. -/
theorem enter_records (hs : BodySafe False body) (hb : BodyRecords body readings) {policy : Policy} {f : Closure}
    {args : List Value} (hf : f.WellMade False h) (ha : ∀ v ∈ args, v.WellMade False h)
    (hl : args.length = f.decl.params.length) :
    Records (enter body policy f args) (enterReadings readings policy f args) h := by
  obtain ⟨c, Γ, hh, hp, -, -⟩ := hf
  obtain ⟨vars, hvars, hvalues, -⟩ := bindParams_eq_some f.decl.params args [] hl
  have hargs (x : Text) (v : Value) (hv : vars.get? x = some v) : v.WellMade False h := by
    rcases hvalues x v hv with hmem | hnil
    · exact ha v hmem
    · cases hnil
  unfold enter enterReadings
  rw [hvars]
  refine pushFrame_records policy hargs fun h' e hlt => ?_
  have hplaced := Stmt.placedBody_iff.mp hp
  have hbody := hb ⟨f, h.frames.size⟩ f.decl.body _ h' hplaced (hosts_of_lt hlt) (runs_extends (runs_enter f hh.lt) e)
  refine records_then hbody (hs f.decl.body _ [] h' _ hplaced False.elim (hosts_of_lt hlt)) fun flow h'' _ => ?_
  extract_lets finish
  -- behind the body at most the instance is looked for, and not by a name of the program
  have hfinish (v : Value) : Records (finish v) (fun _ => []) h'' := by
    unfold finish
    by_cases hi : f.isInit = true
    · rw [if_pos hi]
      intro hm events
      rw [bind_of_ok (heap_apply _)]
      dsimp only
      cases (h''.vars f.scope).get? thisName with
      | some self => exact records_pure self hm events
      | none => exact records_stuck hm events
    · rw [if_neg hi]
      exact records_pure v
  cases flow with
  | next => exact hfinish .nil
  | returned v => exact hfinish v
  | broke => exact records_stuck

theorem construct_records (hs : BodySafe False body) (hb : BodyRecords body readings) {policy : Policy} {k : Class}
    {args : List Value} (hk : k.WellMade False h) (ha : ∀ v ∈ args, v.WellMade False h) (hl : args.length = k.arity) :
    Records (construct body policy k args) (constructReadings readings policy k args) h := by
  have e : h.Extends h.pushInstance.2 := Heap.extends_of_frames_eq rfl
  have hself := class_extends hk e
  have hinstance : Safe False (alloc Heap.pushInstance) h fun id h' => id = h.pushInstance.1 ∧ h' = h.pushInstance.2 :=
    fun hm _ => ⟨e, wellMade_pushInstance hm, rfl, rfl⟩
  unfold construct
  refine records_after hinstance ?_
  rintro _ _ - ⟨rfl, rfl⟩
  cases hd : k.method? initName with
  | none => exact records_pure _
  | some d =>
    refine records_after (bind_safe hself (method?_mem hd) hself) fun f h₁ e₁ hf => ?_
    obtain ⟨hf, rfl⟩ := hf
    -- a class takes as many arguments as its initializer
    have harity : args.length = f.decl.params.length := by
      rw [hl, Class.arity, hd]
      rfl
    have hargs (v : Value) (hmem : v ∈ args) : v.WellMade False h₁ :=
      value_extends (ha v hmem) (Heap.extends_trans e e₁)
    exact records_then (enter_records hs hb hf hargs harity) (enter_safe hs hf hargs harity) fun _ _ _ => records_pure _

/-- Everything that a call looks up is noted, with the call that is open. -/
theorem call_records (policy : Policy) (fuel depth : Nat) :
    Caller.Records (Run.call policy fuel depth) (callReadings policy fuel depth) := by
  induction fuel generalizing depth with
  | zero =>
    intro value args paren h hv ha
    rw [call_eq]
    have hcheck : Safe False (checkCall policy depth value args paren) h _ := checkCall_safe hv
    refine records_then (records_nothing hcheck) hcheck fun _ _ _ => ?_
    exact records_nothing (safe_exhausted (Q := fun _ _ => True))
  | succ fuel ih =>
    intro value args paren h hv ha
    rw [call_eq]
    have hcall : Caller.Safe False (Run.call policy fuel (depth + 1)) := call_safe policy fuel (depth + 1)
    have hsafe : BodySafe False (Stmt.execAll policy (Run.call policy fuel (depth + 1)) fuel) := by
      intro ss c Γ h' i hp hs hh
      exact execAll_safe hcall policy fuel ss hp hs hh
    have hbody : BodyRecords (Stmt.execAll policy (Run.call policy fuel (depth + 1)) fuel) fun b =>
        Stmt.readingsAll policy (Run.call policy fuel (depth + 1)) (callReadings policy fuel (depth + 1)) fuel (some b)
          b.frame := by
      intro b ss c h' hp hh hb
      exact execAll_records hcall (ih (depth + 1)) policy fuel ss hp hh hb
    refine records_after (checkCall_safe hv) fun callee h' e hcallee => ?_
    obtain ⟨hvalue, harity⟩ := hcallee
    have hargs (v : Value) (hmem : v ∈ args) : v.WellMade False h' := value_extends (ha v hmem) e
    cases callee with
    | function f => exact enter_records hsafe hbody hvalue hargs harity
    | classValue k => exact construct_records hsafe hbody hvalue hargs harity

end Run
end Lox
