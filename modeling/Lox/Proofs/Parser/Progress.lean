import Lox.Proofs.Parser.Acceptance
import Lox.Proofs.Parser.Cursor
import Lox.Proofs.Parser.Sites
import Lox.Proofs.Parser.StmtExtension

/-! Parsers get on. A parser that does not exhaust its bound does what it does at any larger bound, and its cursor walks
through the tokens without ever leaving them or going back. This is shown of every run of every parser, move by move. Each
declaration takes or drops a token, so a whole program is parsed to its end, and no token is blamed for two fatal
errors. -/
namespace Lox.Parser

open SyntaxError (Site)

variable {α β : Type} {tokens : List Token} {endPos : Pos}

/-! ### Larger bounds -/

def Within (p p' : Parser α) : Prop := ∀ s, p s = p' s ∨ ∃ t, p s = .error .exhausted t

theorem within_refl (p : Parser α) : Within p p := fun _ => .inl rfl

theorem within_seq {p p' : Parser α} {k k' : α → Parser β} (hp : Within p p') (hk : ∀ a, Within (k a) (k' a)) :
    Within (p >>= k) (p' >>= k') := by
  intro s
  rw [bind_apply, bind_apply]
  rcases hp s with heq | ⟨t, hexhausted⟩
  · rw [heq]
    cases p' s with
    | ok a t => exact hk a t
    | error e t => exact .inl rfl
  · rw [hexhausted]
    exact .inr ⟨t, rfl⟩

/-- A larger bound makes no difference to all that is built from parsers, unless the smaller one is exhausted. -/
theorem within_compositional : Compositional (fun _ => True) False fun _ _ {_} p p' => Within p p' where
  opens h := h
  done a := within_refl _
  finish f h := within_seq h fun a => within_refl _
  seq := within_seq
  fails _ := within_refl _
  exhausts p s := .inr ⟨s, rfl⟩
  take {ends n α β f k k'} hsome hnone := by
    intro s
    rw [bind_apply, bind_apply]
    rcases next_cases f s.rest with ⟨t, rest, b, hr, hf⟩ | hpass
    · rw [take?_some hr hf]
      exact hsome t b hf trivial _
    · rw [take?_none hpass]
      exact hnone s
  last _ _ := within_refl _
  orElse hp hsome hnone := by
    refine within_seq hp fun a => within_seq (within_refl _) fun q => ?_
    cases q with
    | some q => exact hsome a q
    | none =>
      obtain ⟨b, hb, hb'⟩ := hnone a
      rw [hb, hb']
      exact within_refl _
  looks h := within_seq (within_refl _) h
  looksForEnd h := within_seq (within_refl _) h
  remarksHere _ h := within_seq (within_refl _) fun _ => h
  remarks _ _ h := within_seq (within_refl _) fun _ => h
  remarksOnce hfree := hfree.elim
  remarksOther hfree := hfree.elim

theorem within_recovering {p p' : Parser α} (hp : Within p p') : Within (recovering p) (recovering p') := by
  intro s
  unfold recovering
  rcases hp s with heq | ⟨t, hexhausted⟩
  · rw [heq]
    exact .inl rfl
  · rw [hexhausted]
    exact .inr ⟨t, rfl⟩

theorem within_inner {bound bound' : Nat} (hb : bound ≤ bound') :
    (innerAt bound).Related (fun _ => True) False (fun _ _ {_} => Within) (innerAt bound') := by
  induction bound generalizing bound' with
  | zero => exact ⟨hb, fun _ s => .inr ⟨s, rfl⟩, fun _ _ _ s => .inr ⟨s, rfl⟩⟩
  | succ bound ih =>
    obtain ⟨bound', rfl⟩ : ∃ j, bound' = j + 1 := ⟨bound' - 1, by omega⟩
    have hp := ih (Nat.le_of_succ_le_succ hb)
    refine ⟨hb, fun hc => hp.anyStatement within_compositional hc, fun _ _ hc => ?_⟩
    exact within_recovering (hp.strictDeclaration within_compositional hc)

theorem declaration_within {bound bound' : Nat} (hb : bound ≤ bound') (c : Context) :
    Within (declaration bound c) (declaration bound' c) :=
  (within_inner hb).declaration default trivial (.inl rfl)

/-- A program that is parsed within its bounds is the same for all larger ones. -/
theorem program_within {bound bound' count count' : Nat} (hb : bound ≤ bound') (hc : count ≤ count') :
    Within (program bound count) (program bound' count') := by
  induction count generalizing count' with
  | zero => exact fun s => .inr ⟨s, rfl⟩
  | succ count ih =>
    obtain ⟨count', rfl⟩ : ∃ j, count' = j + 1 := ⟨count' - 1, by omega⟩
    refine within_seq (within_refl _) fun b => ?_
    split
    · exact within_refl _
    · refine within_seq (declaration_within hb {}) fun first => ?_
      exact within_seq (ih (Nat.le_of_succ_le_succ hc)) fun others => within_refl _

/-! ### Runs -/

/-- The runs of a parser: the moves that it makes from a state on, and its result. A parser that is made of others runs
them one after the other, and what it does on its own is one move. -/
inductive Runs : {α : Type} → Parser α → State → List Move → EStateM.Result Stop State α → Prop
  | pure {α : Type} (a : α) (s : State) : Runs (pure a) s [] (.ok a s)
  | seq {α β : Type} {p : Parser α} {k : α → Parser β} {s t : State} {a : α} {moves moves' : List Move}
    {r : EStateM.Result Stop State β} (hp : Runs p s moves (.ok a t)) (hk : Runs (k a) t moves' r) :
    Runs (p >>= k) s (moves ++ moves') r
  | stop {α β : Type} {p : Parser α} {k : α → Parser β} {s t : State} {e : Stop} {moves : List Move}
    (hp : Runs p s moves (.error e t)) : Runs (p >>= k) s moves (.error e t)
  | nextIs (l : Lexeme) (s : State) : Runs (nextIs l) s [] (nextIs l s)
  | atEnd (s : State) : Runs atEnd s [] (atEnd s)
  | take {β : Type} {f : Token → Option β} {s : State} {t : Token} {rest : List Token} {b : β}
    (hr : s.rest = t :: rest) (hf : f t = some b) :
    Runs (take? f) s [.take s t rest] (.ok (some b) { s with rest })
  | pass {β : Type} {f : Token → Option β} {s : State} (h : ∀ t, s.rest.head? = some t → f t = none) :
    Runs (take? f) s [] (.ok none s)
  | report {cause : SyntaxError.Cause} (hc : cause.isFatal = false) (site : Site) (s : State) :
    Runs (report cause site) s [.remark s cause site] (.ok () (s.report cause site))
  | reportHere {cause : SyntaxError.Cause} (hc : cause.isFatal = false) (s : State) :
    Runs (reportHere cause) s [.remark s cause s.site] (.ok () (s.report cause s.site))
  | fail {α : Type} {cause : SyntaxError.Cause} (hc : cause.isFatal = true) (s : State) :
    Runs (fail cause : Parser α) s [.fail s cause] (.error .failed (s.report cause s.site))
  | exhausted {α : Type} (s : State) : Runs (exhausted : Parser α) s [] (.error .exhausted s)
  | recovered {α : Type} {p : Parser α} {s t : State} {a : α} {moves : List Move} (hp : Runs p s moves (.ok a t)) :
    Runs (recovering p) s moves (.ok (some a) t)
  | resume {α : Type} {p : Parser α} {s t : State} {moves : List Move} (hp : Runs p s moves (.error .failed t)) :
    Runs (recovering p) s (moves ++ [.resume t]) (.ok none t.resume)
  | unrecovered {α : Type} {p : Parser α} {s t : State} {moves : List Move}
    (hp : Runs p s moves (.error .exhausted t)) : Runs (recovering p) s moves (.error .exhausted t)

variable {s t u : State} {moves moves' : List Move} {p : Parser α} {r : EStateM.Result Stop State α}

/-- A run has the result that the parser gives. -/
theorem eq_of_runs (h : Runs p s moves r) : p s = r := by
  induction h with
  | pure | nextIs | atEnd | report | reportHere | fail | exhausted => rfl
  | seq hp hk ihp ihk =>
    rw [bind_apply, ihp]
    exact ihk
  | stop hp ih =>
    rw [bind_apply, ih]
  | take hr hf => exact take?_some hr hf
  | pass h => exact take?_none h
  | recovered hp ih => simp only [recovering, ih]
  | resume hp ih => simp only [recovering, ih]
  | unrecovered hp ih => simp only [recovering, ih]

def Running (p : Parser α) : Prop := ∀ s, ∃ moves, Runs p s moves (p s)

theorem running_pure (a : α) : Running (pure a) := fun s => ⟨[], .pure a s⟩

/-- A run of the second parser goes on where the run of the first one has ended. -/
theorem running_seq {k : α → Parser β} (hp : Running p) (hk : ∀ a, Running (k a)) : Running (p >>= k) := by
  intro s
  obtain ⟨moves, hfirst⟩ := hp s
  rw [bind_apply]
  cases hr : p s with
  | error e t =>
    rw [hr] at hfirst
    exact ⟨moves, .stop hfirst⟩
  | ok a t =>
    rw [hr] at hfirst
    obtain ⟨moves', hsecond⟩ := hk a t
    exact ⟨moves ++ moves', .seq hfirst hsecond⟩

theorem running_fail {cause : SyntaxError.Cause} (hc : cause.isFatal = true) : Running (fail cause : Parser α) :=
  fun s => ⟨_, .fail hc s⟩

/-- A token is taken in one move, or it is left where it is in none. -/
theorem running_take (f : Token → Option β) : Running (take? f) := by
  intro s
  rcases next_cases f s.rest with ⟨t, rest, b, hr, hf⟩ | hpass
  · rw [take?_some hr hf]
    exact ⟨_, .take hr hf⟩
  · rw [take?_none hpass]
    exact ⟨_, .pass hpass⟩

theorem running_expect (l : Lexeme) {cause : SyntaxError.Cause} (hc : cause.isFatal = true) :
    Running (expect l cause) := by
  refine running_seq (running_take _) fun q => ?_
  cases q with
  | some q => exact running_pure q
  | none => exact running_fail hc

/-- Every parser that is built like those of the grammar has runs. -/
theorem running_compositional : Compositional (fun _ => True) True fun _ _ {_} p _ => Running p where
  opens h := h
  done := running_pure
  finish _ h := running_seq h fun _ => running_pure _
  seq := running_seq
  fails := running_fail
  exhausts _ s := ⟨[], .exhausted s⟩
  -- whether the token is taken depends on the state, and each answer is a step of its own
  take hsome hnone := by
    intro s
    rw [bind_apply]
    rename_i f k k'
    rcases next_cases f s.rest with ⟨t, rest, b, hr, hf⟩ | hpass
    · obtain ⟨moves, hrun⟩ := hsome t b hf trivial { s with rest }
      rw [take?_some hr hf]
      exact ⟨_, .seq (.take hr hf) hrun⟩
    · obtain ⟨moves, hrun⟩ := hnone s
      rw [take?_none hpass]
      exact ⟨_, .seq (.pass hpass) hrun⟩
  last _ hc := running_expect _ hc
  orElse hp hsome hnone := by
    refine running_seq hp fun a => running_seq (running_take _) fun q => ?_
    cases q with
    | some q => exact hsome a q
    | none =>
      obtain ⟨b, hb, -⟩ := hnone a
      rw [hb]
      exact running_pure b
  looks h := running_seq (fun s => ⟨[], .nextIs _ s⟩) h
  looksForEnd h := running_seq (fun s => ⟨[], .atEnd s⟩) h
  remarksHere hc h := running_seq (fun s => ⟨_, .reportHere hc s⟩) fun _ => h
  remarks hc _ h := running_seq (fun s => ⟨_, .report hc _ s⟩) fun _ => h
  remarksOnce _ hc _ h := running_seq (fun s => ⟨_, .report hc _ s⟩) fun _ => h
  remarksOther _ _ _ h := h

/-- A parser that has given up goes on in one more move. -/
theorem running_recovering (hp : Running p) : Running (recovering p) := by
  intro s
  obtain ⟨moves, hrun⟩ := hp s
  unfold recovering
  cases hr : p s with
  | ok a t =>
    rw [hr] at hrun
    exact ⟨moves, .recovered hrun⟩
  | error e t =>
    rw [hr] at hrun
    cases e with
    | failed => exact ⟨_, .resume hrun⟩
    | exhausted => exact ⟨moves, .unrecovered hrun⟩

theorem running_inner (bound : Nat) :
    (innerAt bound).Related (fun _ => True) True (fun _ _ {_} p _ => Running p) (innerAt bound) := by
  induction bound with
  | zero => exact ⟨Nat.le_refl _, fun _ s => ⟨[], .exhausted s⟩, fun _ _ _ s => ⟨[], .exhausted s⟩⟩
  | succ bound ih =>
    refine ⟨Nat.le_refl _, fun hc => ih.anyStatement running_compositional hc, fun _ _ hc => ?_⟩
    exact running_recovering (ih.strictDeclaration running_compositional hc)

theorem running_expression (inClass : Bool) (bound : Nat) : Running (expression inClass bound) :=
  running_compositional.expression (.inl rfl) (Nat.le_refl bound)

theorem running_statement (bound : Nat) (c : Context) : Running (statement bound c) :=
  (running_inner bound).statement (.inl rfl : c.Matches True c)

theorem running_declaration (bound : Nat) (c : Context) : Running (declaration bound c) :=
  (running_inner bound).declaration default trivial (.inl rfl : c.Matches True c)

/-- The parser of programs has runs. -/
theorem running_program (bound count : Nat) : Running (program bound count) := by
  induction count with
  | zero => exact fun s => ⟨[], .exhausted s⟩
  | succ count ih =>
    refine running_seq (fun s => ⟨[], .atEnd s⟩) fun b => ?_
    split
    · exact running_pure _
    · exact running_seq (running_declaration bound {}) fun first => running_seq ih fun others => running_pure _

/-! ### The walk of the cursor -/

/-- Moves that follow each other from `s` to `t`. After a fatal error the parser goes on at once. -/
inductive Walk : State → List Move → State → Prop
  | stay (s : State) : Walk s [] s
  | take {s t : State} {x : Token} {rest : List Token} {moves : List Move} (hr : s.rest = x :: rest)
    (w : Walk { s with rest } moves t) : Walk s (.take s x rest :: moves) t
  | remark {s t : State} {cause : SyntaxError.Cause} {site : Site} {moves : List Move} (hc : cause.isFatal = false)
    (w : Walk (s.report cause site) moves t) : Walk s (.remark s cause site :: moves) t
  | recover {s t : State} {cause : SyntaxError.Cause} {moves : List Move} (hc : cause.isFatal = true)
    (w : Walk (s.report cause s.site).resume moves t) :
    Walk s (.fail s cause :: .resume (s.report cause s.site) :: moves) t

/-- A walk goes on where another one has ended. -/
theorem walk_append (w : Walk s moves t) (w' : Walk t moves' u) : Walk s (moves ++ moves') u := by
  induction w with
  | stay s => exact w'
  | take hr _ ih => exact .take hr (ih w')
  | remark hc _ ih => exact .remark hc (ih w')
  | recover hc _ ih => exact .recover hc (ih w')

/-- What the result of a run says about its moves. A parser that has given up would walk on if parsing went on. -/
def Walked (s : State) (moves : List Move) : EStateM.Result Stop State α → Prop
  | .ok _ t | .error .exhausted t => Walk s moves t
  | .error .failed t => Walk s (moves ++ [.resume t]) t.resume

/-- The moves of a run are a walk, by induction on the run. -/
theorem walked_of_runs (h : Runs p s moves r) : Walked s moves r := by
  induction h with
  | pure a s => exact .stay s
  | nextIs l s => exact .stay s
  | atEnd s => exact .stay s
  | exhausted s => exact .stay s
  | take hr hf => exact .take hr (.stay _)
  | pass h => exact .stay _
  | report hc site s => exact .remark hc (.stay _)
  | reportHere hc s => exact .remark hc (.stay _)
  | fail hc s => exact .recover hc (.stay _)
  | recovered hp ih => exact ih
  | resume hp ih => exact ih
  | unrecovered hp ih => exact ih
  | stop hp ih =>
    rename_i e _
    cases e with
    | failed => exact ih
    | exhausted => exact ih
  -- the moves of the two parts follow one another, and a failure adds its recovery behind both
  | seq hp hk ihp ihk =>
    rename_i r
    cases r with
    | ok b u => exact walk_append ihp ihk
    | error e u =>
      cases e with
      | exhausted => exact walk_append ihp ihk
      | failed =>
        change Walk _ (_ ++ _ ++ _) _
        rw [List.append_assoc]
        exact walk_append ihp ihk

/-- What moves from `s` to `t` do. They lead from state to state, and the cursor stays inside of the sequence and never
goes back, neither in a move nor from one to the next. What has been reported, and where parsing went on, is told by
them. Fatal errors are found with fewer and fewer tokens left, until they are found at the end. -/
structure Passes (tokens : List Token) (endPos : Pos) (s : State) (moves : List Move) (t : State) : Prop where
  linked : Linked s moves t
  inside : ∀ m ∈ moves, m.Inside tokens endPos
  ahead : t.rest <:+ s.rest
  forward : moves.Pairwise fun m m' => m'.source.rest <:+ m.target.rest
  errors : t.errors = (moves.filterMap Move.error?).reverse ++ s.errors
  resumed : t.resumed = (moves.filterMap Move.resumed?).reverse ++ s.resumed
  blames : (moves.filterMap Move.blamed?).Pairwise fun a b => b < a ∨ a = 0 ∧ b = 0

theorem linked_of_walk (w : Walk s moves t) : Linked s moves t := by
  induction w with
  | stay s => rfl
  | take hr _ ih => exact ⟨rfl, ih⟩
  | remark hc _ ih => exact ⟨rfl, ih⟩
  | recover hc _ ih => exact ⟨rfl, rfl, ih⟩

/-- A walk that starts inside of the sequence stays there, since each of its moves does. -/
theorem inside_of_walk (hne : tokens ≠ []) (w : Walk s moves t) {i : Nat} (hs : s.At tokens endPos i) :
    ∀ m ∈ moves, m.Inside tokens endPos := by
  induction w generalizing i with
  | stay s => exact List.forall_mem_nil _
  | take hr _ ih => exact List.forall_mem_cons.mpr ⟨inside_take hs hr, ih (at_take hs hr)⟩
  | remark hc _ ih => exact List.forall_mem_cons.mpr ⟨inside_remark hs hc, ih (at_report hs)⟩
  | recover hc _ ih =>
    obtain ⟨j, hj, -⟩ := at_resume hne (at_report hs)
    refine List.forall_mem_cons.mpr ⟨inside_fail hs hc, List.forall_mem_cons.mpr ⟨?_, ih hj⟩⟩
    exact inside_resume hne (at_report hs)

/-- Each move starts where the one before it has ended, or further on. -/
theorem forward_of_walk (w : Walk s moves t) :
    t.rest <:+ s.rest ∧ (∀ m ∈ moves, m.source.rest <:+ s.rest) ∧
      moves.Pairwise fun m m' => m'.source.rest <:+ m.target.rest := by
  induction w with
  | stay s => exact ⟨List.suffix_rfl, List.forall_mem_nil _, .nil⟩
  | @take s t x rest moves hr _ ih =>
    obtain ⟨hlast, hmoves, hpairs⟩ := ih
    have htaken : rest <:+ s.rest := hr ▸ List.suffix_cons x rest
    refine ⟨hlast.trans htaken, List.forall_mem_cons.mpr ⟨List.suffix_rfl, fun m hm => (hmoves m hm).trans htaken⟩, ?_⟩
    exact List.pairwise_cons.mpr ⟨hmoves, hpairs⟩
  | remark hc _ ih =>
    obtain ⟨hlast, hmoves, hpairs⟩ := ih
    exact ⟨hlast, List.forall_mem_cons.mpr ⟨List.suffix_rfl, hmoves⟩, List.pairwise_cons.mpr ⟨hmoves, hpairs⟩⟩
  | @recover s t cause moves hc _ ih =>
    obtain ⟨hlast, hmoves, hpairs⟩ := ih
    have hskip : skip s.rest <:+ s.rest := by
      obtain ⟨dropped, hdropped, -⟩ := skip_suffix s.rest
      exact ⟨dropped, hdropped.symm⟩
    -- the moves behind the error start where parsing goes on, or further on
    have hlater : ∀ m ∈ Move.resume (s.report cause s.site) :: moves, m.source.rest <:+ s.rest :=
      List.forall_mem_cons.mpr ⟨List.suffix_rfl, fun m hm => (hmoves m hm).trans hskip⟩
    refine ⟨hlast.trans hskip, List.forall_mem_cons.mpr ⟨List.suffix_rfl, hlater⟩, ?_⟩
    exact List.pairwise_cons.mpr ⟨hlater, List.pairwise_cons.mpr ⟨hmoves, hpairs⟩⟩

/-- What has been reported on the way is told by the moves. -/
theorem reports_of_walk (w : Walk s moves t) :
    t.errors = (moves.filterMap Move.error?).reverse ++ s.errors ∧
      t.resumed = (moves.filterMap Move.resumed?).reverse ++ s.resumed := by
  have hsnoc {β : Type} (x : β) (xs ys : List β) : xs.reverse ++ x :: ys = (x :: xs).reverse ++ ys := by simp
  induction w with
  | stay s => exact ⟨rfl, rfl⟩
  | take hr _ ih => exact ih
  | remark hc _ ih => exact ⟨ih.1.trans (hsnoc _ _ _), ih.2⟩
  | recover hc _ ih => exact ⟨ih.1.trans (hsnoc _ _ _), ih.2.trans (hsnoc _ _ _)⟩

/-- After a fatal error there are fewer tokens left, unless there were none. -/
theorem blames_of_walk (w : Walk s moves t) :
    (moves.filterMap Move.blamed?).Pairwise (fun a b => b < a ∨ a = 0 ∧ b = 0) ∧
      ∀ b ∈ moves.filterMap Move.blamed?, b ≤ s.rest.length := by
  induction w with
  | stay s => exact ⟨.nil, List.forall_mem_nil _⟩
  | @take s t x rest moves hr _ ih =>
    refine ⟨ih.1, fun b hb => Nat.le_trans (ih.2 b hb) ?_⟩
    rw [hr]
    exact Nat.le_succ _
  | remark hc _ ih => exact ih
  | @recover s t cause moves hc _ ih =>
    obtain ⟨hpairs, hbounds⟩ := ih
    obtain ⟨hle, hlt⟩ := skip_le s.rest
    have hlater : ∀ b ∈ moves.filterMap Move.blamed?, b ≤ (skip s.rest).length := hbounds
    have hfirst : ∀ b ∈ moves.filterMap Move.blamed?, b < s.rest.length ∨ s.rest.length = 0 ∧ b = 0 := by
      intro b hb
      rcases Nat.eq_zero_or_pos s.rest.length with hzero | hpos
      · exact .inr ⟨hzero, Nat.le_zero.mp (hzero ▸ Nat.le_trans (hlater b hb) hle)⟩
      · exact .inl (Nat.lt_of_le_of_lt (hlater b hb) (hlt (List.length_pos_iff.mp hpos)))
    refine ⟨List.pairwise_cons.mpr ⟨hfirst, hpairs⟩, List.forall_mem_cons.mpr ⟨Nat.le_refl _, fun b hb => ?_⟩⟩
    exact Nat.le_trans (hlater b hb) hle

/-- All this holds of a walk. -/
theorem passes_of_walk (hne : tokens ≠ []) (w : Walk s moves t) {i : Nat} (hs : s.At tokens endPos i) :
    Passes tokens endPos s moves t where
  linked := linked_of_walk w
  inside := inside_of_walk hne w hs
  ahead := (forward_of_walk w).1
  forward := (forward_of_walk w).2.2
  errors := (reports_of_walk w).1
  resumed := (reports_of_walk w).2
  blames := (blames_of_walk w).1

theorem linked_init {m : Move} (h : Linked s (moves ++ [m]) u) : Linked s moves m.source := by
  induction moves generalizing s with
  | nil => exact h.1.symm
  | cons m' moves ih => exact ⟨h.1, ih h.2⟩

/-- What a parser does after it has given up does not bear on what it did before. -/
theorem passes_of_failed (hne : tokens ≠ []) (w : Walk s (moves ++ [.resume t]) t.resume) {i : Nat}
    (hs : s.At tokens endPos i) : Passes tokens endPos s moves t := by
  obtain ⟨hlinked, hinside, -, hforward, herrors, hresumed, hblames⟩ := passes_of_walk hne w hs
  have hlast : Move.resume t ∈ moves ++ [.resume t] := List.mem_append_right _ (List.mem_singleton_self _)
  have hnone : [Move.resume t].filterMap Move.error? = [] := rfl
  rw [List.filterMap_append, hnone, List.append_nil] at herrors
  rw [List.filterMap_append, List.reverse_append, List.append_assoc] at hresumed
  rw [List.filterMap_append] at hblames
  exact ⟨linked_init hlinked, fun m hm => hinside m (List.mem_append_left _ hm), (forward_of_walk w).2.1 _ hlast,
    (List.pairwise_append.mp hforward).1, herrors, (List.cons.inj hresumed).2, (List.pairwise_append.mp hblames).1⟩

/-- Whatever parser runs, it passes from state to state and stays inside of the sequence. -/
theorem passes_of_runs (hne : tokens ≠ []) (h : Runs p s moves r) {i : Nat} (hs : s.At tokens endPos i) :
    Passes tokens endPos s moves (lastState r) := by
  have hwalked := walked_of_runs h
  cases r with
  | ok a t => exact passes_of_walk hne hwalked hs
  | error e t =>
    cases e with
    | exhausted => exact passes_of_walk hne hwalked hs
    | failed => exact passes_of_failed hne hwalked hs

/-! ### The end -/

/-- Before the end of the input, a declaration takes or drops at least one token, whether it could be parsed or not; or
its bound is too small. -/
theorem declaration_forward {s : State} (hr : s.rest ≠ []) (bound : Nat) (c : Context) :
    (bound < s.rest.length + 3 ∧ ∃ t, declaration bound c s = .error .exhausted t) ∨
    ∃ o t ts, declaration bound c s = .ok o t ∧ s.rest = ts ++ t.rest ∧ ts ≠ [] := by
  -- with a bound that is large enough
  have hlarge (more : Nat) (hmore : s.rest.length + 3 ≤ more) :
      ∃ o t ts, declaration more c s = .ok o t ∧ s.rest = ts ++ t.rest ∧ ts ≠ [] := by
    obtain ⟨n, rfl⟩ : ∃ n, more = n + 2 := ⟨more - 2, by omega⟩
    obtain ⟨o, t, ts, hrun, htook, hts, -⟩ := (faithful_of_bound n).declaration c s (by omega)
    exact ⟨o, t, ts, hrun, htook.rest, hts hr⟩
  by_cases hb : s.rest.length + 3 ≤ bound
  · exact .inr (hlarge bound hb)
  · rcases declaration_within (Nat.le_of_not_le hb) c s with hsame | hexhausted
    · rw [hsame]
      exact .inr (hlarge _ (Nat.le_refl _))
    · exact .inl ⟨Nat.lt_of_not_le hb, hexhausted⟩

/-- A program is parsed to the end of the input. -/
theorem program_ends (tokens : List Token) (endPos : Pos) : ∃ ss s,
    program (tokens.length + 3) (tokens.length + 3) ⟨tokens, endPos, [], []⟩ = .ok ss s ∧ s.rest = [] := by
  have hforward (count : Nat) (s : State) (hs : s.rest.length ≤ tokens.length) (hc : s.rest.length < count) :
      ∃ ss t, program (tokens.length + 3) count s = .ok ss t := by
    induction count generalizing s with
    | zero => exact absurd hc (Nat.not_lt_zero _)
    | succ count ih =>
      by_cases hr : s.rest = []
      · exact ⟨[], s, program_nil hr⟩
      · rcases declaration_forward hr (tokens.length + 3) {} with ⟨hsmall, -⟩ | ⟨o, t, ts, hrun, hrest, hts⟩
        · omega
        · have hlength := congrArg List.length hrest
          rw [List.length_append] at hlength
          have hpos := List.length_pos_iff.mpr hts
          obtain ⟨ss, u, hothers⟩ := ih t (by omega) (by omega)
          refine ⟨o.toList ++ ss, u, ?_⟩
          rw [program_cons hr, bind_apply, hrun]
          change (program (tokens.length + 3) count >>= _) t = _
          rw [bind_apply, hothers]
          rfl
  obtain ⟨ss, s, hrun⟩ := hforward (tokens.length + 3) ⟨tokens, endPos, [], []⟩ (Nat.le_refl _) (by simp)
  exact ⟨ss, s, hrun, program_rest hrun⟩

/-- What is blamed is a mark of the sequence. -/
theorem mark_of_blamed {site : Site} (h : (∃ t ∈ tokens, site = .token t) ∨ site = .endOfInput endPos) :
    ∃ i mark, peek? (marks tokens) i = some mark ∧ site = mark.site endPos := by
  obtain ⟨t, ht, rfl⟩ | rfl := h
  · obtain ⟨before, rest, rfl⟩ := List.append_of_mem ht
    exact ⟨_, _, peek?_token, rfl⟩
  · exact ⟨_, _, peek?_end tokens, rfl⟩

/-- Parsing gets on, whatever the tokens are. (1) It ends with the same result for all bounds that are large enough, and
this is the program; the cursor is at the end of the input then, and what has been blamed is in the sequence. (2) Every
parser runs from every state, move by move. (3) In each run of any parser that starts inside of the sequence, the cursor
passes from state to state, stays inside of the sequence and never goes back; what is read, at the cursor or before it,
is there, and only the end of the input is blamed for more than one fatal error. (4) If there is no token at all, parsing
is at its end before it has started. (5) A declaration that is started before the end of the input, wherever that may be,
comes back with the cursor further on, unless its bound was too small. -/
theorem program_progresses (tokens : List Token) (endPos : Pos) :
    (∃ ss s, s.rest = [] ∧ Program.ofTokens tokens endPos = ⟨ss, s.errors.reverse, s.resumed.reverse⟩ ∧
      (∀ e ∈ s.errors, ∃ i mark, peek? (marks tokens) i = some mark ∧ e.site = mark.site endPos) ∧
      ∀ bound count, tokens.length + 3 ≤ bound → tokens.length + 3 ≤ count →
        program bound count ⟨tokens, endPos, [], []⟩ = .ok ss s) ∧
    (∀ bound c s, (∃ moves, Runs (expression c.inClass bound) s moves (expression c.inClass bound s)) ∧
      (∃ moves, Runs (statement bound c) s moves (statement bound c s)) ∧
      (∃ moves, Runs (declaration bound c) s moves (declaration bound c s)) ∧
      ∀ count, ∃ moves, Runs (program bound count) s moves (program bound count s)) ∧
    (tokens ≠ [] → ∀ {α : Type} (p : Parser α) s i moves r, Runs p s moves r → s.At tokens endPos i →
      p s = r ∧ Passes tokens endPos s moves (lastState r)) ∧
    (tokens = [] → ∀ bound count, program bound (count + 1) ⟨tokens, endPos, [], []⟩ = .ok [] ⟨tokens, endPos, [], []⟩) ∧
    ∀ bound c s, s.rest ≠ [] →
      (bound < s.rest.length + 3 ∧ ∃ t, declaration bound c s = .error .exhausted t) ∨
      ∃ o t ts, declaration bound c s = .ok o t ∧ s.rest = ts ++ t.rest ∧ ts ≠ [] := by
  refine ⟨?_, fun bound c s => ?_, fun hne α p s i moves r h hs => ?_, fun hnil bound count => ?_,
    fun bound c s hr => declaration_forward hr bound c⟩
  · obtain ⟨ss, s, hrun, hrest⟩ := program_ends tokens endPos
    have hprogram := Program.ofTokens_ok hrun
    refine ⟨ss, s, hrest, hprogram, fun e he => ?_, fun bound count hb hc => ?_⟩
    · refine mark_of_blamed (Program.errors_blamed ?_)
      rw [hprogram]
      exact List.mem_reverse.mpr he
    -- the bounds of the program are large enough not to show: it never runs out of them
    · rcases program_within hb hc ⟨tokens, endPos, [], []⟩ with hsame | ⟨t, hexhausted⟩
      · rw [← hsame]
        exact hrun
      · rw [hrun] at hexhausted
        cases hexhausted
  · exact ⟨running_expression _ _ s, running_statement _ _ s, running_declaration _ _ s,
      fun count => running_program _ _ s⟩
  · exact ⟨eq_of_runs h, passes_of_runs hne h hs⟩
  · exact program_nil hnil

def unclosedTokens : List Token :=
  [⟨.punct .leftBrace, ⟨1, 0⟩⟩, ⟨.punct .leftBrace, ⟨1, 2⟩⟩, ⟨.keyword .kwVar, ⟨1, 4⟩⟩, ⟨.punct .semicolon, ⟨1, 8⟩⟩]

/-- An error at a token, and then one for each block that is not closed, at the end of the input. -/
theorem program_progresses_unclosed :
    let start : State := ⟨unclosedTokens, ⟨2, 0⟩, [], []⟩
    let errors : List SyntaxError := [⟨.expectVariableName, .token ⟨.punct .semicolon, ⟨1, 8⟩⟩⟩,
      ⟨.expectBraceAfterBlock, .endOfInput ⟨2, 0⟩⟩, ⟨.expectBraceAfterBlock, .endOfInput ⟨2, 0⟩⟩]
    unclosedTokens ≠ [] ∧ start.At unclosedTokens ⟨2, 0⟩ 0 ∧
    (∃ ss s moves, Runs (program 7 7) start moves (.ok ss s) ∧ s.rest = [] ∧
      Passes unclosedTokens ⟨2, 0⟩ start moves s ∧ moves.filterMap Move.error? = errors) ∧
    start.rest ≠ [] ∧ ∃ o t ts, declaration 7 {} start = .ok o t ∧ start.rest = ts ++ t.rest ∧ ts ≠ [] := by
  intro start errors
  have hne : unclosedTokens ≠ [] := List.cons_ne_nil _ _
  have hstart : start.At unclosedTokens ⟨2, 0⟩ 0 := ⟨⟨[], rfl, rfl⟩, rfl⟩
  have herrors : (Program.ofTokens unclosedTokens ⟨2, 0⟩).errors = errors := by decide +kernel
  obtain ⟨⟨ss, s, hrest, hprogram, -, hruns⟩, hrunning, hpasses, -, hforward⟩ := program_progresses unclosedTokens ⟨2, 0⟩
  have hrun : program 7 7 start = .ok ss s := hruns 7 7 (Nat.le_refl 7) (Nat.le_refl 7)
  obtain ⟨moves, hmoves⟩ := (hrunning 7 {} start).2.2.2 7
  rw [hrun] at hmoves
  have hpassed : Passes unclosedTokens ⟨2, 0⟩ start moves s := (hpasses hne _ _ _ _ _ hmoves hstart).2
  have htold : moves.filterMap Move.error? = errors := by
    rw [hprogram] at herrors
    rw [← herrors, hpassed.errors, List.append_nil, List.reverse_reverse]
  refine ⟨hne, hstart, ⟨ss, s, moves, hmoves, hrest, hpassed, htold⟩, hne, ?_⟩
  rcases hforward 7 {} start hne with ⟨hsmall, -⟩ | hmoved
  · exact absurd hsmall (Nat.lt_irrefl 7)
  · exact hmoved

end Lox.Parser
