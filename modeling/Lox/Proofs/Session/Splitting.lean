import Lox.Proofs.Parser.Concatenation
import Lox.Proofs.Run.ExecAlike
import Lox.Proofs.Session.Outcome

/-! A program may be split over the steps of a session. Two sources that are run one after the other do what they do as
one source with a line break in between, but for the line that is told in a fault at a token of the second source. -/
namespace Lox

open Run

def Fault.relocate (φ : Pos → Pos) (f : Fault) : Fault := ⟨f.cause, f.token, φ f.pos⟩

/-- When two sources are joined, a token stays where it is or it is one of the second source and moves. -/
def Pos.Joined (source more : Text) (p q : Pos) : Prop := q = p ∨ Pos.Moved source more p q

/-- Places of a tree that has been put to two places, beside places that have stayed. -/
def Pos.Beside (φ ψ : Pos → Pos) (p q : Pos) : Prop := q = p ∨ ∃ o, p = φ o ∧ q = ψ o

/-- No two places of a source come together when the source is moved. -/
theorem behind_injective (source : Text) : Function.Injective (Pos.behind source) := by
  rintro ⟨line, offset⟩ ⟨line', offset'⟩ h
  obtain ⟨hline, hoffset⟩ := Pos.mk.inj h
  rw [Pos.mk.injEq]
  exact ⟨Nat.add_right_cancel hline, Nat.add_right_cancel hoffset⟩

theorem behind_ne (source : Text) (p : Pos) : p.behind source ≠ p := by
  intro h
  have hline : p.line + (1 + source.count Text.newline) = p.line := congrArg Pos.line h
  omega

variable {policy : Policy} {fuel : Nat} {h : Heap} {ss ts : List Stmt} {m m' n : Machine} {f f' : Fault}

namespace Session

/-- Statements that follow each other may be run in two parts. -/
theorem runStmts_append (ss ts : List Stmt) :
    runStmts policy fuel (ss ++ ts) = runStmts policy fuel ss >>= fun _ => runStmts policy fuel ts := by
  funext m
  unfold runStmts
  rw [execAll_append, andThen, bind_assoc, bind_assoc, bind_eq_match, bind_eq_match]
  match Stmt.execAll policy (Run.call policy fuel 0) fuel Heap.globalFrame ss m with
  | .ok .next n => rfl
  | .ok .broke n => rfl
  | .ok (.returned v) n => rfl
  | .error e n => rfl

/-- The same statements at other places do the same. -/
theorem runStmts_alike (policy : Policy) (fuel : Nat) {place : Pos → Pos → Prop} (hs : Stmt.AlikeAll place ss ts) :
    Run.Alike (.along place) (fun _ _ => True) (runStmts policy fuel ss) (runStmts policy fuel ts) := by
  have hcall : Caller.Alike (.along place) (Run.call policy fuel 0) (Run.call policy fuel 0) := call_alike rfl fuel 0
  refine alike_bind (execAll_alike hcall ss hs rfl) fun flow flow' hflow => ?_
  cases flow with
  | next =>
    cases hflow
    exact alike_pure trivial
  | broke =>
    cases hflow
    exact alike_stuck
  | returned v =>
    obtain ⟨v', rfl, -⟩ := hflow
    exact alike_stuck

section fault

variable {κ : Correspondence} {a a' : EStateM.Result Halt Machine Unit}

/-- If the first of two runs ends with a fault, so does the second. -/
theorem exit_of_ends (ha : Ends κ (fun _ _ => True) m m' a a') (hf : exit a = .error (.fault f)) :
    ∃ f', exit a' = .error (.fault f') ∧ f.Alike κ f' := by
  cases ha with
  | ok => cases hf
  | error ht he =>
    cases hf
    obtain ⟨f', rfl, hf'⟩ := he
    exact ⟨f', rfl, hf'⟩

/-- A fault that is blamed on a moved token is the moved fault. -/
theorem relocate_of_fault_alike {φ : Pos → Pos} (hf : f.Alike κ f') (hp : f'.pos = φ f.pos) : f' = f.relocate φ := by
  cases f'
  obtain ⟨rfl, rfl, -⟩ := hf
  cases hp
  rfl

/-- Statements that are put to two places. -/
theorem exit_beside (φ ψ : Pos → Pos) (hh : m.heap.Alike .same m'.heap)
    (hf : exit (runStmts policy fuel (Stmt.relocateAll φ ss) m) = .error (.fault f)) :
    ∃ f', exit (runStmts policy fuel (Stmt.relocateAll ψ ss) m') = .error (.fault f') ∧
      f.Alike (.along (Pos.Beside φ ψ)) f' := by
  have hplaces (o : Pos) : Pos.Beside φ ψ (φ o) (ψ o) := .inr ⟨o, rfl, rfl⟩
  have halike := runStmts_alike policy fuel (stmts_alike hplaces ss)
  have hheap : m.heap.Alike (.along (Pos.Beside φ ψ)) m'.heap := Heap.along_alike_mono (fun _ _ => .inl) hh
  exact exit_of_ends (halike m m' hheap).1 hf

/-- From this heap the statements run into the fault `f`, and one of their own tokens is blamed: wherever they are put,
the place of the fault moves with them. What is blamed otherwise is a token of a function that was there before, and it
stays where it is. -/
def Blames (policy : Policy) (fuel : Nat) (h : Heap) (ss : List Stmt) (f : Fault) : Prop :=
  ∀ φ : Pos → Pos, exit (runStmts policy fuel (Stmt.relocateAll φ ss) ⟨h, []⟩) = .error (.fault (f.relocate φ))

/-- All places are told, so it does not matter what was logged. -/
theorem exit_of_blames (hb : Blames policy fuel h ss f) (φ : Pos → Pos) (hh : h.Alike .same m.heap) :
    exit (runStmts policy fuel (Stmt.relocateAll φ ss) m) = .error (.fault (f.relocate φ)) := by
  obtain ⟨f', hexit, hf⟩ := exit_beside φ φ hh (hb φ)
  have hp : f'.pos = id (f.relocate φ).pos := by
    rcases hf.pos with hp | ⟨o, ho, hp⟩
    · exact hp
    · exact hp.trans ho.symm
  rw [hexit, relocate_of_fault_alike hf hp]
  rfl

/-- If the place of a fault has moved once, it moves always. -/
theorem blames_of_moved {ψ : Pos → Pos} (hinj : Function.Injective ψ) (hne : ψ f.pos ≠ f.pos) (hm : m.heap = h)
    (hf : exit (runStmts policy fuel ss m) = .error (.fault f)) (hh : h.Alike .same m'.heap)
    (hf' : exit (runStmts policy fuel (Stmt.relocateAll ψ ss) m') = .error (.fault (f.relocate ψ))) :
    Blames policy fuel h ss f := by
  intro φ
  let start : Machine := ⟨h, []⟩
  have hstart : m.heap.Alike .same start.heap := by
    rw [hm]
    exact Heap.same_alike h
  have hid : exit (runStmts policy fuel (Stmt.relocateAll id ss) m) = .error (.fault f) := by
    rw [relocate_stmts_id]
    exact hf
  obtain ⟨g, hg, hfg⟩ := exit_beside id φ hstart hid
  obtain ⟨g', hg', hgg'⟩ := exit_beside φ ψ hh hg
  obtain rfl : g' = f.relocate ψ := by
    rw [hf'] at hg'
    cases hg'
    rfl
  have hmoved : g.pos = φ f.pos := by
    rcases hfg.pos with hp | ⟨o, rfl, hp⟩
    -- it has not moved with `φ`, so it could have moved with `ψ` only from a place that both have moved
    · rcases hgg'.pos with hq | ⟨o, ho, hq⟩
      · exact absurd (hq.trans hp) hne
      · have hψ : ψ f.pos = ψ o := hq
        rw [ho, hinj hψ]
    · exact hp
  rw [hg, relocate_of_fault_alike hfg hmoved]

end fault

section lines

variable {κ : Correspondence} {a a' : EStateM.Result Halt Machine Unit}

/-- Runs that end in the same way give one verdict. -/
theorem verdict_conclude (ha : Ends κ (fun _ _ => True) m m' a a') :
    (conclude policy a').verdict = (conclude policy a).verdict := by
  cases ha with
  | ok => rfl
  | @error e _ _ _ _ he =>
    cases e with
    | fault f =>
      obtain ⟨f', rfl, -⟩ := he
      rfl
    | stuck =>
      cases he
      rfl
    | exhausted =>
      cases he
      rfl

/-- If the places of the faults are the same, so is what is reported. -/
theorem report_of_ends (ha : Ends κ (fun _ _ => True) m m' a a')
    (hp : ∀ f f', exit a = .error (.fault f) → exit a' = .error (.fault f') → f.Alike κ f' → f'.pos = f.pos) :
    report (exit a') = report (exit a) := by
  cases ha with
  | ok => rfl
  | @error e _ _ _ _ he =>
    cases e with
    | fault f =>
      obtain ⟨f', rfl, hf⟩ := he
      have hpos : f'.pos = f.pos := hp f f' rfl rfl hf
      have htext : f'.toText = f.toText := by rw [Fault.toText, Fault.toText, hf.cause, hpos]
      exact congrArg (fun text => [Event.err text]) htext
    | stuck =>
      cases he
      rfl
    | exhausted =>
      cases he
      rfl

/-- A step starts from a machine that has written nothing. -/
theorem step_eq_conclude (policy : Policy) (fuel : Nat) (h : Heap) (path : Text) {source : Text}
    (hv : (Program.ofSource source).isValid = true) :
    ∃ m : Machine, m.heap = h ∧ m.lines = [] ∧ step policy fuel h .run path source =
      conclude policy (runStmts policy fuel (Program.ofSource source).stmts m) := by
  refine ⟨logResumed policy (Program.ofSource source) ⟨h, []⟩, heap_logResumed _ _ _, lines_logResumed _ _ _, ?_⟩
  exact step_of_isValid policy fuel .run path hv

end lines

/-- A run that ends well does so again from the same heap, and it writes the same. -/
theorem runStmts_again (hrun : runStmts policy fuel ss m = .ok () n) (hm : m'.heap = m.heap)
    (hl : m'.lines = m.lines) :
    ∃ n', runStmts policy fuel ss m' = .ok () n' ∧ n.heap.Alike .same n'.heap ∧ n'.lines = n.lines := by
  have hplace (p : Pos) : Correspondence.same.place p p := rfl
  have halike : Run.Alike .same _ (runStmts policy fuel ss) (runStmts policy fuel ss) :=
    runStmts_alike policy fuel (stmts_alike_refl hplace ss)
  have hheap : m.heap.Alike .same m'.heap := by
    rw [hm]
    exact Heap.same_alike m.heap
  have hends := (halike m m' hheap).1
  rw [hrun] at hends
  generalize runStmts policy fuel ss m' = again at hends ⊢
  cases hends with
  | @ok _ _ _ n' ht _ =>
    obtain ⟨new, hn, hn'⟩ := ht.lines
    exact ⟨n', rfl, ht.heap, by rw [hn', hl, hn]⟩

section split

variable {source more : Text}

/-- The two steps and the one step, each as a run of the statements of the second program. -/
theorem steps_of_split (hs : (Program.ofSource source).isValid = true) (hm : (Program.ofSource more).isValid = true)
    (h : Heap) (path path' path'' : Text) (hok : (step policy fuel h .run path source).verdict = .ok) :
    ∃ m n : Machine, m.heap = (step policy fuel h .run path source).heap ∧ m.lines = [] ∧
      (step policy fuel h .run path source).heap.Alike .same n.heap ∧
      (step policy fuel h .run path source).lines = n.lines.reverse ∧
      step policy fuel (step policy fuel h .run path source).heap .run path' more =
        conclude policy (runStmts policy fuel (Program.ofSource more).stmts m) ∧
      step policy fuel h .run path'' (source ++ Text.newline :: more) = conclude policy
        (runStmts policy fuel (Stmt.relocateAll (Pos.behind source) (Program.ofSource more).stmts) n) := by
  obtain ⟨hvalid, hstmts, -⟩ := Program.ofSource_line hs hm
  obtain ⟨m₁, hheap₁, hlines₁, hfirst⟩ := step_eq_conclude policy fuel h path hs
  obtain ⟨m₀, hheap₀, hlines₀, hwhole⟩ := step_eq_conclude policy fuel h path'' hvalid
  rw [hfirst] at hok ⊢
  obtain ⟨n₁, hrun⟩ := ok_of_verdict hok
  obtain ⟨n, hagain, hsame, hlines⟩ := runStmts_again hrun (hheap₀.trans hheap₁.symm) (hlines₀.trans hlines₁.symm)
  rw [hrun]
  obtain ⟨m, hheap, hlines', hsecond⟩ := step_eq_conclude policy fuel n₁.heap path' hm
  refine ⟨m, n, hheap, hlines', hsame, ?_, hsecond, ?_⟩
  · rw [hlines]
    exact lines_outcome _ _
  · rw [hwhole, hstmts, runStmts_append, bind_eq_match, hagain]

section joined

variable (hends : Ends (.along (Pos.Joined source more)) (fun _ _ => True) m n (runStmts policy fuel ss m)
    (runStmts policy fuel (Stmt.relocateAll (Pos.behind source) ss) n))
  (hm : m.heap = h) (hn : h.Alike .same n.heap)

include hends hm hn

/-- A fault whose place has moved is one of the second program, so other faults are reported as they are. -/
theorem report_joined (hno : ∀ f, ¬ Blames policy fuel h ss f) :
    report (exit (runStmts policy fuel (Stmt.relocateAll (Pos.behind source) ss) n)) =
      report (exit (runStmts policy fuel ss m)) := by
  apply report_of_ends hends
  intro f f' hexit hexit' hf
  rcases hf.pos with hp | ⟨-, hp⟩
  · exact hp
  · rw [relocate_of_fault_alike hf hp] at hexit'
    have hb := blames_of_moved (behind_injective source) (behind_ne source f.pos) hm hexit hn hexit'
    exact absurd hb (hno f)

/-- The fault of statements that blame their own tokens moves with them. -/
theorem exits_of_blames (hb : Blames policy fuel h ss f) :
    exit (runStmts policy fuel ss m) = .error (.fault f) ∧
    exit (runStmts policy fuel (Stmt.relocateAll (Pos.behind source) ss) n) =
      .error (.fault (f.relocate (Pos.behind source))) ∧
    ∃ t ∈ (Scan.ofSource more).tokens, t.pos = f.pos := by
  have hstart : h.Alike .same m.heap := by
    rw [hm]
    exact Heap.same_alike h
  have hexit : exit (runStmts policy fuel ss m) = .error (.fault f) := by
    have hid := exit_of_blames hb id hstart
    rw [relocate_stmts_id] at hid
    exact hid
  have hexit' := exit_of_blames hb (Pos.behind source) hn
  obtain ⟨f', hf', halike⟩ := exit_of_ends hends hexit
  rw [hexit'] at hf'
  cases hf'
  refine ⟨hexit, hexit', ?_⟩
  rcases halike.pos with hp | ⟨ht, -⟩
  · exact absurd hp (behind_ne source f.pos)
  · exact ht

end joined

/-- A source may be split at a line break between two programs. If the first one ends well, running the second one after
it ends as running both in one does, leaves the same heap but for the places of tokens of the second program, and writes
the same lines. Only if one of these tokens is blamed for a fault, the line that is told is further on. -/
theorem step_line (hs : (Program.ofSource source).isValid = true) (hm : (Program.ofSource more).isValid = true)
    (policy : Policy) (fuel : Nat) (h : Heap) (path path' path'' : Text)
    (hok : (step policy fuel h .run path source).verdict = .ok) :
    let first := step policy fuel h .run path source
    let second := step policy fuel first.heap .run path' more
    let whole := step policy fuel h .run path'' (source ++ Text.newline :: more)
    whole.verdict = second.verdict ∧
    second.heap.Alike (.along (Pos.Joined source more)) whole.heap ∧
    ((∀ f, ¬ Blames policy fuel first.heap (Program.ofSource more).stmts f) →
      whole.lines = first.lines ++ second.lines) ∧
    ∀ f, Blames policy fuel first.heap (Program.ofSource more).stmts f →
      (∃ t ∈ (Scan.ofSource more).tokens, t.pos = f.pos) ∧ second.verdict = .runtimeError ∧
      ∃ lines, first.lines ++ second.lines = lines ++ [.err f.toText] ∧
        whole.lines = lines ++ [.err (f.relocate (Pos.behind source)).toText] := by
  intro first second whole
  obtain ⟨m, n, hheap, hnothing, hsame, hfirst, hsecond, hwhole⟩ := steps_of_split hs hm h path path' path'' hok
  change second = _ at hsecond
  change whole = _ at hwhole
  obtain ⟨-, -, hmoved⟩ := Program.ofSource_line hs hm
  generalize (Program.ofSource more).stmts = ss at hmoved hsecond hwhole ⊢
  -- from here on the statements of the second program are run side by side, at their two places
  have hstart : m.heap.Alike (.along (Pos.Joined source more)) n.heap := by
    rw [hheap]
    exact Heap.along_alike_mono (fun _ _ => .inl) hsame
  have hends := (runStmts_alike policy fuel (stmts_alike_mono (fun _ _ => .inr) ss hmoved) m n hstart).1
  have ht := together_of_ends hends
  obtain ⟨new, hnew, hnew'⟩ := ht.lines
  have hlines : second.lines = new.reverse ++ report (exit (runStmts policy fuel ss m)) := by
    rw [hsecond, lines_conclude, hnew, hnothing, List.append_nil]
  have hlines' : whole.lines = first.lines ++ (new.reverse ++
      report (exit (runStmts policy fuel (Stmt.relocateAll (Pos.behind source) ss) n))) := by
    rw [hwhole, lines_conclude, hnew', List.reverse_append, ← hfirst, List.append_assoc]
  refine ⟨?_, ?_, fun hno => ?_, fun f hb => ?_⟩
  · rw [hsecond, hwhole]
    exact verdict_conclude hends
  · rw [hsecond, hwhole, heap_conclude, heap_conclude]
    exact ht.heap
  · rw [hlines, hlines', report_joined hends hheap hsame hno]
  · obtain ⟨hexit, hexit', htoken⟩ := exits_of_blames hends hheap hsame hb
    refine ⟨htoken, ?_, first.lines ++ new.reverse, ?_, ?_⟩
    · rw [hsecond]
      exact verdict_of_fault hexit
    · rw [hlines, hexit, List.append_assoc]
      rfl
    · rw [hlines', hexit', List.append_assoc]
      rfl

def functionSource : Text := "fun f(x) \x7b return x; \x7d"

def callSource : Text := "print f(1);\nprint y;"

/-- The fault of the second program moves to a later line when the two are joined. -/
theorem step_line_undefined :
    (Program.ofSource functionSource).isValid = true ∧ (Program.ofSource callSource).isValid = true ∧
    (step ⟨none, .error⟩ 9 Heap.empty .run "" functionSource).verdict = .ok ∧
    ∃ (lines : List Event) (f : Fault), f.pos.line = 2 ∧
      (step ⟨none, .error⟩ 9 Heap.empty .run "" functionSource).lines ++
        (step ⟨none, .error⟩ 9 (step ⟨none, .error⟩ 9 Heap.empty .run "" functionSource).heap .run ""
          callSource).lines = lines ++ [.err f.toText] ∧
      (step ⟨none, .error⟩ 9 Heap.empty .run "" (functionSource ++ Text.newline :: callSource)).lines =
        lines ++ [.err (f.relocate (Pos.behind functionSource)).toText] := by
  have hs : (Program.ofSource functionSource).isValid = true := by decide +kernel
  have hm : (Program.ofSource callSource).isValid = true := by decide +kernel
  have hok : (step ⟨none, .error⟩ 9 Heap.empty .run "" functionSource).verdict = .ok := by decide +kernel
  let start : Machine := ⟨(step ⟨none, .error⟩ 9 Heap.empty .run "" functionSource).heap, []⟩
  let f : Fault := ⟨.undefinedVariable "y", "y", ⟨2, 18⟩⟩
  have hf : exit (runStmts ⟨none, .error⟩ 9 (Program.ofSource callSource).stmts start) = .error (.fault f) := by
    decide +kernel
  have hf' : exit (runStmts ⟨none, .error⟩ 9 (Stmt.relocateAll (Pos.behind functionSource)
      (Program.ofSource callSource).stmts) start) = .error (.fault (f.relocate (Pos.behind functionSource))) := by
    decide +kernel
  have hb := blames_of_moved (behind_injective functionSource) (behind_ne functionSource f.pos) rfl hf
    (Heap.same_alike start.heap) hf'
  obtain ⟨-, -, -, hfault⟩ := step_line hs hm ⟨none, .error⟩ 9 Heap.empty "" "" "" hok
  obtain ⟨-, -, lines, htwo, hone⟩ := hfault f hb
  exact ⟨hs, hm, hok, lines, f, rfl, htwo, hone⟩

end split

end Session
end Lox
