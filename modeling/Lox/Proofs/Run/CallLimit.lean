import Lox.Proofs.Run.Compositional

/-! What the limit of open calls does to a run. A run under a higher limit does the same, up to the call that the lower
limit refuses; and the call that is refused is the one that is asked for when as many calls are open as the limit
allows. On the way, a run only adds to its events, and reports nothing by itself. -/
namespace Lox

variable {α β : Type} {policy policy' : Policy}

def Event.isReport : Event → Bool
  | .err _ => true
  | _ => false

/-- The second policy lets through whatever the first one does, and logs the same. -/
structure Policy.Relaxes (policy policy' : Policy) : Prop where
  level : policy'.level = policy.level
  depth : ∀ depth, policy.allowsDepth depth = true → policy'.allowsDepth depth = true

theorem relaxes_refl (policy : Policy) : policy.Relaxes policy := ⟨rfl, fun _ => id⟩

namespace Run

def Overflowed (R : EStateM.Result Halt Machine α) : Prop := ∃ f n, R = .error (.fault f) n ∧ f.cause = .stackOverflow

theorem overflowed_error {e : Halt} {n : Machine} :
    Overflowed (.error e n : EStateM.Result Halt Machine α) ↔ ∃ f, e = .fault f ∧ f.cause = .stackOverflow := by
  constructor
  · rintro ⟨f, n', heq, hf⟩
    cases heq
    exact ⟨f, rfl, hf⟩
  · rintro ⟨f, rfl, hf⟩
    exact ⟨f, n, rfl, hf⟩

theorem not_overflowed_ok {a : α} {n : Machine} : ¬ Overflowed (.ok a n : EStateM.Result Halt Machine α) := by
  rintro ⟨f, n', heq, -⟩
  cases heq

def Emits (m n : Machine) : Prop := ∃ added, n.events = added ++ m.events ∧ ∀ e ∈ added, e.isReport = false

theorem emits_of_events_eq {m n : Machine} (h : n.events = m.events) : Emits m n := ⟨[], h, nofun⟩

theorem emits_one {m n : Machine} {e : Event} (h : n.events = e :: m.events) (he : e.isReport = false) : Emits m n :=
  ⟨[e], h, List.forall_mem_singleton.mpr he⟩

theorem emits_trans {m n p : Machine} (hmn : Emits m n) (hnp : Emits n p) : Emits m p := by
  obtain ⟨first, hfirst, hf⟩ := hmn
  obtain ⟨second, hsecond, hs⟩ := hnp
  refine ⟨second ++ first, ?_, ?_⟩
  · rw [hsecond, hfirst, List.append_assoc]
  · intro e he
    rcases List.mem_append.mp he with he | he
    · exact hs e he
    · exact hf e he

theorem emits_log (m : Machine) (policy : Policy) (severity : Severity) (entry : Heap → LogEntry) :
    Emits m (m.log policy severity entry) := by
  unfold Machine.log
  split
  · exact emits_one rfl rfl
  · exact emits_of_events_eq rfl

theorem suffix_of_emits {m n : Machine} (h : Emits m n) : m.events <:+ n.events := by
  obtain ⟨added, hadded, -⟩ := h
  exact ⟨added, hadded.symm⟩

/-- The second run does what the first one does, unless a call of the first one is refused; then it goes on from
there. -/
structure Limits (r r' : Run α) : Prop where
  emits : ∀ m, Emits m (machine (r' m))
  same : ∀ m, ¬ Overflowed (r m) → r' m = r m
  before : ∀ m, Overflowed (r m) → (machine (r m)).events <:+ (machine (r' m)).events

/-- A run that adds events and is refused no call. -/
theorem limits_self {r : Run α} (he : ∀ m, Emits m (machine (r m))) : Limits r r :=
  ⟨he, fun _ _ => rfl, fun _ _ => List.suffix_refl _⟩

/-- If the first of two runs is refused a call, the relaxed one goes on from there with all that is left. -/
theorem limits_bind {r r' : Run α} {k k' : α → Run β} (hr : Limits r r') (hk : ∀ a, Limits (k a) (k' a)) :
    Limits (r >>= k) (r' >>= k') := by
  -- whatever the first run has emitted stays when the second one goes on
  have hgoes (m : Machine) : Emits (machine (r' m)) (machine ((r' >>= k') m)) := by
    cases hm : r' m with
    | ok a n =>
      rw [bind_of_ok hm]
      exact (hk a).emits n
    | error e n =>
      rw [bind_of_error hm]
      exact emits_of_events_eq rfl
  refine ⟨fun m => emits_trans (hr.emits m) (hgoes m), fun m hm => ?_, fun m hm => ?_⟩
  · cases hfirst : r m with
    | ok a n =>
      rw [bind_of_ok hfirst] at hm ⊢
      have hsame : r' m = .ok a n := by
        rw [hr.same m (by rw [hfirst]; exact not_overflowed_ok), hfirst]
      rw [bind_of_ok hsame]
      exact (hk a).same n hm
    | error e n =>
      rw [bind_of_error hfirst] at hm ⊢
      have hnot : ¬ Overflowed (r m) := by
        rw [hfirst]
        rwa [overflowed_error] at hm ⊢
      have hsame : r' m = .error e n := (hr.same m hnot).trans hfirst
      exact bind_of_error hsame
  · cases hfirst : r m with
    | ok a n =>
      rw [bind_of_ok hfirst] at hm ⊢
      have hsame : r' m = .ok a n := by
        rw [hr.same m (by rw [hfirst]; exact not_overflowed_ok), hfirst]
      rw [bind_of_ok hsame]
      exact (hk a).before n hm
    | error e n =>
      rw [bind_of_error hfirst] at hm ⊢
      have hover : Overflowed (r m) := by
        rw [hfirst]
        rwa [overflowed_error] at hm ⊢
      have hbefore := hr.before m hover
      rw [hfirst] at hbefore
      exact hbefore.trans (suffix_of_emits (hgoes m))

theorem limits_log (hp : policy.Relaxes policy') (severity : Severity) (entry : Heap → LogEntry) :
    Limits (log policy severity entry) (log policy' severity entry) := by
  have hsame : log policy' severity entry = log policy severity entry := by
    unfold log Machine.log
    rw [hp.level]
  rw [hsame]
  exact limits_self fun m => emits_log m policy severity entry

/-- To be limited follows the structure of programs. -/
theorem compositional_limits (hp : policy.Relaxes policy') :
    Compositional policy policy' fun r r' _ => Limits r r' where
  seq := limits_bind
  done _ := limits_self fun _ => emits_of_events_eq rfl
  halts _ := limits_self fun _ => emits_of_events_eq rfl
  allocs _ := limits_self fun _ => emits_of_events_eq rfl
  prints _ := limits_self fun _ => emits_one rfl rfl
  logs severity entry _ := limits_log hp severity entry
  aside hr _ := hr

/-- A call that the first policy refuses before anything is written. -/
theorem limits_refused {r : Run α} {token : Text} {pos : Pos} (he : ∀ m, Emits m (machine (r m))) :
    Limits (fault .stackOverflow token pos) r where
  emits := he
  same m hm := absurd ⟨_, m, rfl, rfl⟩ hm
  before m _ := suffix_of_emits (he m)

/-- A call that the limit refuses may be let through by the relaxed policy; all other checks are the same. -/
theorem checkCall_limits (hp : policy.Relaxes policy') (depth : Nat) (value : Value) (args : List Value) (paren : Pos) :
    Limits (checkCall policy depth value args paren) (checkCall policy' depth value args paren) := by
  have hT := compositional_limits hp
  cases hright : value.takes? args with
  | none =>
    obtain ⟨cause, hcause, hfault⟩ := checkCall_of_none hright
    rw [hfault, hfault]
    exact hT.faults hcause
  | some callee =>
    have hlet : Limits (logCall policy callee (depth + 1) paren >>= fun _ => pure callee)
        (logCall policy' callee (depth + 1) paren >>= fun _ => pure callee) :=
      limits_bind (limits_log hp _ _) fun _ => hT.done callee
    rw [checkCall_of_some hright, checkCall_of_some hright]
    by_cases hd : policy.allowsDepth (depth + 1) = true
    · rw [if_pos hd, if_pos (hp.depth _ hd)]
      exact hlet
    · rw [if_neg hd]
      apply limits_refused
      intro m
      split
      · exact hlet.emits m
      · exact emits_of_events_eq rfl

theorem call_limits (hp : policy.Relaxes policy') (fuel depth : Nat) (value : Value) (args : List Value) (paren : Pos) :
    Limits (call policy fuel depth value args paren) (call policy' fuel depth value args paren) :=
  (compositional_limits hp).call (checkCall_limits hp) fuel depth value args paren

/-- What an action does under a limit it does under every limit that is relaxed. -/
theorem perform_limits (hp : policy.Relaxes policy') (fuel : Nat) (action : Action) (stmts : List Stmt) :
    Limits (Session.perform policy fuel action stmts) (Session.perform policy' fuel action stmts) :=
  (compositional_limits hp).perform (call_limits hp fuel 0) action stmts

/-- The calls that are noted of a run from within `depth` open calls, under a limit. No call is asked for when there are
more open than the limit allows; one is asked for when just as many are open if and only if it is the last that is
noted and it is refused, at its place. If the run ends well, it has changed the number of open calls by `net`. -/
structure Counts (limit : Nat) (depth net : Int) (R : EStateM.Result Halt Machine α) (notes : List Note) : Prop where
  within : ∀ before callee paren h after, notes = before ++ .opened callee paren h :: after →
    depth + Note.openCalls before ≤ limit
  full : ∀ before callee paren h after, notes = before ++ .opened callee paren h :: after →
    (depth + Note.openCalls before = limit ↔ after = [] ∧ Overflowed R)
  last : ∀ f n, R = .error (.fault f) n → f.cause = .stackOverflow →
    ∃ before callee h, notes = before ++ [.opened callee f.pos h]
  settled : ∀ a n, R = .ok a n → Note.openCalls notes = net

variable {limit : Nat} {depth net : Int} {m n : Machine} {R : EStateM.Result Halt Machine α} {notes : List Note}

theorem openCalls_append (xs ys : List Note) :
    Note.openCalls (xs ++ ys) = Note.openCalls xs + Note.openCalls ys := by
  unfold Note.openCalls
  rw [List.map_append, List.sum_append]

theorem openCalls_cons (x : Note) (xs : List Note) : Note.openCalls (x :: xs) = x.change + Note.openCalls xs := by
  unfold Note.openCalls
  rw [List.map_cons, List.sum_cons]

/-- A run that is refused no call, and of which no opened call is noted. -/
theorem counts_of_quiet (hR : ¬ Overflowed R) (hn : ∀ x ∈ notes, x.change ≠ 1)
    (hnet : ∀ a n, R = .ok a n → Note.openCalls notes = net) : Counts limit depth net R notes := by
  have hno {before after : List Note} {callee : Callable} {paren : Pos} {h : Heap} :
      notes ≠ before ++ .opened callee paren h :: after := by
    rintro rfl
    exact hn (.opened callee paren h) (by simp) rfl
  refine ⟨fun _ _ _ _ _ heq => absurd heq hno, fun _ _ _ _ _ heq => absurd heq hno, ?_, hnet⟩
  intro f n heq hf
  exact absurd ⟨f, n, heq, hf⟩ hR

/-- Notes that neither open nor close a call. -/
theorem counts_aside (hR : ¬ Overflowed R) (hn : ∀ x ∈ notes, x.change = 0) : Counts limit depth 0 R notes := by
  have hzero : Note.openCalls notes = 0 := by
    induction notes with
    | nil => rfl
    | cons x xs ih =>
      obtain ⟨hx, hxs⟩ := List.forall_mem_cons.mp hn
      rw [openCalls_cons, hx, ih hxs]
      rfl
  apply counts_of_quiet hR
  · intro x hx hone
    rw [hn x hx] at hone
    cases hone
  · intro a n _
    exact hzero

theorem counts_nil (hR : ¬ Overflowed R) : Counts limit depth 0 R [] := counts_aside hR (List.forall_mem_nil _)

/-- If a run overflows, something is noted of it. -/
theorem ne_nil_of_counts (hR : Counts limit depth net R notes) (hover : Overflowed R) : notes ≠ [] := by
  obtain ⟨f, n, heq, hf⟩ := hover
  obtain ⟨before, callee, h, rfl⟩ := hR.last f n heq hf
  simp

/-- Two parts of a run, of which the first has ended well. -/
theorem counts_append {k l : Int} {S : EStateM.Result Halt Machine β} {a : α} {xs ys : List Note}
    (hxs : Counts limit depth k (.ok a n : EStateM.Result Halt Machine α) xs) (hys : Counts limit (depth + k) l S ys) :
    Counts limit depth (k + l) S (xs ++ ys) := by
  have hnet : Note.openCalls xs = k := hxs.settled a n rfl
  refine ⟨fun before callee paren h after heq => ?_, fun before callee paren h after heq => ?_,
    fun f n' heq hf => ?_, fun b n' heq => ?_⟩
  · rcases Note.place_of_append heq with ⟨rest, hplace, -⟩ | ⟨first, rfl, hplace⟩
    · exact hxs.within before callee paren h rest hplace
    · rw [openCalls_append, hnet, ← Int.add_assoc]
      exact hys.within first callee paren h after hplace
  · rcases Note.place_of_append heq with ⟨rest, hplace, rfl⟩ | ⟨first, rfl, hplace⟩
    -- a call of the first part was let in, and it is not the last one if the second part overflows
    · have hfull := hxs.full before callee paren h rest hplace
      constructor
      · intro hlimit
        exact absurd (hfull.mp hlimit).2 not_overflowed_ok
      · rintro ⟨hnil, hover⟩
        exact absurd (List.append_eq_nil_iff.mp hnil).2 (ne_nil_of_counts hys hover)
    · rw [openCalls_append, hnet, ← Int.add_assoc]
      exact hys.full first callee paren h after hplace
  · obtain ⟨before, callee, h, hplace⟩ := hys.last f n' heq hf
    exact ⟨xs ++ before, callee, h, by rw [hplace, List.append_assoc]⟩
  · rw [openCalls_append, hnet, hys.settled b n' heq]

/-- Two runs in a row. If the first one ends well, all its calls are closed when the second one starts. -/
theorem counts_seq {r : Run α} {k : α → Run β} {t : Trace} {u : α → Trace} (hr : Counts limit depth 0 (r m) (t m))
    (hk : ∀ a n, Counts limit depth net (k a n) (u a n)) :
    Counts limit depth net ((r >>= k) m) (Trace.seq r t u m) := by
  cases hfirst : r m with
  | error e n =>
    rw [bind_of_error hfirst, Trace.seq_of_error hfirst]
    rw [hfirst] at hr
    have hover : Overflowed (.error e n : EStateM.Result Halt Machine α) ↔
        Overflowed (.error e n : EStateM.Result Halt Machine β) := by
      rw [overflowed_error, overflowed_error]
    refine ⟨hr.within, fun before callee paren h after heq => ?_, fun f n' heq hf => ?_, nofun⟩
    · rw [hr.full before callee paren h after heq, hover]
    · cases heq
      exact hr.last f n rfl hf
  | ok a n =>
    rw [bind_of_ok hfirst, Trace.seq_of_ok hfirst]
    rw [hfirst] at hr
    have hsecond : Counts limit (depth + 0) net (k a n) (u a n) := by
      rw [Int.add_zero]
      exact hk a n
    have hboth := counts_append hr hsecond
    rwa [Int.zero_add] at hboth

/-- Counting calls follows the structure of programs. -/
theorem compositional_counts (limit : Nat) (depth : Int) (policy : Policy) :
    Compositional policy policy fun r _ t => ∀ m, Counts limit depth 0 (r m) (t m) where
  seq hr hk m := counts_seq (hr m) fun a => hk a
  done _ _ := counts_nil not_overflowed_ok
  halts he m := by
    apply counts_nil
    rintro ⟨f, n, heq, hf⟩
    cases heq
    exact he f rfl hf
  allocs _ _ := counts_nil not_overflowed_ok
  prints _ _ := counts_nil not_overflowed_ok
  logs _ _ _ _ := counts_nil not_overflowed_ok
  aside hr hn m := by
    refine counts_aside ?_ (hn m)
    intro hover
    exact ne_nil_of_counts (hr m) hover rfl

/-- The note of a call that is let in, or refused. -/
theorem counts_opened {callee : Callable} {paren : Pos} {h : Heap} (hle : depth ≤ limit)
    (hfull : depth = limit ↔ Overflowed R) (hlast : ∀ f n, R = .error (.fault f) n → f.pos = paren)
    (hnet : ∀ a n, R = .ok a n → net = 1) : Counts limit depth net R [.opened callee paren h] := by
  have hzero : depth + Note.openCalls [] = depth := Int.add_zero depth
  refine ⟨fun before _ _ _ after heq => ?_, fun before _ _ _ after heq => ?_, fun f n heq _ => ?_, fun a n heq => ?_⟩
  · obtain ⟨rfl, -, rfl⟩ := Note.place_of_singleton heq
    rw [hzero]
    exact hle
  · obtain ⟨rfl, -, rfl⟩ := Note.place_of_singleton heq
    rw [hzero, hfull]
    exact (and_iff_right rfl).symm
  · exact ⟨[], callee, h, by rw [hlast f n heq]; rfl⟩
  · rw [hnet a n heq]
    rfl

/-- A call that comes back closes itself. -/
theorem counts_closed {callee : Callable} {start h : Heap} {value : Value} (a : α) (n : Machine) :
    Counts limit depth (-1) (.ok a n : EStateM.Result Halt Machine α) [.closed callee start value h] := by
  apply counts_of_quiet not_overflowed_ok
  · exact List.forall_mem_singleton.mpr nofun
  · intro _ _ _
    rfl

/-- What is called runs with one more call open, and closes it if it ends well. -/
theorem counts_around {callee : Callable} {paren : Pos} {h : Heap} {r : Run Value} {t : Trace} (hlt : depth < limit)
    (hr : Counts limit (depth + 1) 0 (r n) (t n)) :
    Counts limit depth 0 (r n)
      (.opened callee paren h :: Trace.seq r t (fun v p => [.closed callee h v p.heap]) n) := by
  have hopened : Counts limit depth 1 (.ok () n : EStateM.Result Halt Machine Unit) [.opened callee paren h] := by
    refine counts_opened (Int.le_of_lt hlt) ?_ nofun fun _ _ _ => rfl
    exact ⟨fun heq => absurd heq (Int.ne_of_lt hlt), fun hover => absurd hover not_overflowed_ok⟩
  cases hrun : r n with
  | error e p =>
    rw [Trace.seq_of_error hrun]
    rw [hrun] at hr
    have hboth := counts_append hopened hr
    exact ⟨hboth.within, hboth.full, hboth.last, nofun⟩
  | ok v p =>
    rw [Trace.seq_of_ok hrun]
    rw [hrun] at hr
    have hclosed : Counts limit (depth + 1 + 0) (-1) (.ok v p : EStateM.Result Halt Machine Value)
        [.closed callee h v p.heap] := counts_closed v p
    exact counts_append hopened (counts_append hr hclosed)

/-- Under a limit calls are let through up to it. -/
theorem allowsDepth_iff (hlimit : policy.callLimit = some limit) (depth : Nat) :
    policy.allowsDepth depth = true ↔ depth ≤ limit := by
  unfold Policy.allowsDepth
  rw [hlimit]
  exact decide_eq_true_iff

/-- The checks of a call, and what is called after them. -/
theorem call_counts_of (hlimit : policy.callLimit = some limit) {depth : Nat} (hle : depth ≤ limit)
    {run : Callable → Run Value} {inner : Callable → Trace}
    (hrun : depth < limit → ∀ callee n, Counts limit (depth + 1 : Nat) 0 (run callee n) (inner callee n))
    (value : Value) (args : List Value) (paren : Pos) (m : Machine) :
    Counts limit depth 0 ((checkCall policy depth value args paren >>= run) m)
      (aroundNotes policy depth run inner value args paren m) := by
  unfold aroundNotes
  cases hright : value.takes? args with
  -- what cannot be called with these arguments is refused before the depth is looked at
  | none =>
    obtain ⟨cause, hcause, hfault⟩ := checkCall_of_none hright
    have hcheck : checkCall policy depth value args paren m =
        .error (.fault ⟨cause, Punct.rightParen.spelling, paren⟩) m := by
      rw [hfault]
      rfl
    rw [bind_of_error hcheck]
    apply counts_nil
    rintro ⟨f, n, heq, hf⟩
    cases heq
    exact hcause hf
  | some callee =>
    dsimp only
    by_cases hlt : depth < limit
    · obtain ⟨n, hcheck⟩ : ∃ n, checkCall policy depth value args paren m = .ok callee n := by
        rw [checkCall_of_some hright, if_pos ((allowsDepth_iff hlimit _).mpr hlt)]
        exact ⟨_, rfl⟩
      rw [bind_of_ok hcheck, Trace.seq_of_ok hcheck]
      exact counts_around (Int.ofNat_lt.mpr hlt) (hrun hlt callee n)
    -- at the limit the call is opened and refused, so nothing ever closes it
    · obtain rfl : depth = limit := Nat.le_antisymm hle (Nat.le_of_not_lt hlt)
      have hcheck : checkCall policy depth value args paren m =
          .error (.fault ⟨.stackOverflow, Punct.rightParen.spelling, paren⟩) m := by
        have hno : ¬ policy.allowsDepth (depth + 1) = true := by
          rw [allowsDepth_iff hlimit]
          exact Nat.not_succ_le_self depth
        rw [checkCall_of_some hright, if_neg hno]
        rfl
      rw [bind_of_error hcheck, Trace.seq_of_error hcheck]
      refine counts_opened (Int.le_refl _) ?_ ?_ nofun
      · exact ⟨fun _ => ⟨_, m, rfl, rfl⟩, fun _ => rfl⟩
      · intro f n heq
        cases heq
        rfl

/-- By induction on the fuel: what is called inside is called with one more call open. -/
theorem call_counts (hlimit : policy.callLimit = some limit) (fuel : Nat) {depth : Nat} (hle : depth ≤ limit)
    (value : Value) (args : List Value) (paren : Pos) (m : Machine) :
    Counts limit depth 0 (call policy fuel depth value args paren m)
      (callNotes policy fuel depth value args paren m) := by
  induction fuel generalizing depth value args paren m with
  | zero =>
    rw [call_eq]
    refine call_counts_of hlimit hle (fun _ callee n => ?_) value args paren m
    exact (compositional_counts limit (depth + 1 : Nat) policy).exhausts n
  | succ fuel ih =>
    rw [call_eq]
    refine call_counts_of hlimit hle (fun hlt callee n => ?_) value args paren m
    let body := Stmt.execAll policy (call policy fuel (depth + 1)) fuel
    have hT := compositional_counts limit (depth + 1 : Nat) policy
    have hcalls : Compositional.Calls (fun r _ t => ∀ m, Counts limit (depth + 1 : Nat) 0 (r m) (t m))
        (call policy fuel (depth + 1)) (call policy fuel (depth + 1)) (callNotes policy fuel (depth + 1)) := ih hlt
    exact @Compositional.invoke _ _ _ body body _ hT (fun a ss => hT.execAll hcalls ss) args callee n

/-- The calls of an action are counted from no open call on. -/
theorem perform_counts (hlimit : policy.callLimit = some limit) (fuel : Nat) (action : Action) (stmts : List Stmt)
    (m : Machine) :
    Counts limit 0 0 (Session.perform policy fuel action stmts m) (Session.performNotes policy fuel action stmts m) :=
  (compositional_counts limit 0 policy).perform (call_counts hlimit fuel (Nat.zero_le limit)) action stmts m

end Run
end Lox
