import Lox.Proofs.Session.Answers
import Lox.Settings

/-! The limit of open calls, seen from a session. A step that does not end with a stack overflow is the same under any
higher limit and without one; a step that does has written the beginning of what is written then. And the overflow
comes exactly when one more call is asked for than the limit allows to be open. -/
namespace Lox

open Run

def Event.out? : Event → Option Text
  | .out line => some line
  | _ => none

def Outcome.output (o : Outcome) : List Text := o.events.filterMap Event.out?

/-- A step has ended with the report of a stack overflow. -/
def Outcome.Overflows (o : Outcome) : Prop :=
  o.verdict = .runtimeError ∧ ∃ f : Fault, f.cause = .stackOverflow ∧ o.events.getLast? = some (.err f.toText)

/-- No other message starts like that of a stack overflow. -/
theorem head?_message (cause : Fault.Cause) : ∃ b, cause.message.head? = some b ∧ (b = 83 ↔ cause = .stackOverflow) := by
  have hvariable : (Text.ofString "Undefined variable '").head? = some 85 := by decide +kernel
  have hproperty : (Text.ofString "Undefined property '").head? = some 85 := by decide +kernel
  have harity : (Text.ofString "Wrong number of arguments: expected ").head? = some 87 := by decide +kernel
  cases cause with
  | undefinedVariable x => exact ⟨85, by simp [Fault.Cause.message, List.head?_append, hvariable], by simp⟩
  | undefinedProperty x => exact ⟨85, by simp [Fault.Cause.message, List.head?_append, hproperty], by simp⟩
  | wrongArity k l => exact ⟨87, by simp [Fault.Cause.message, List.head?_append, harity], by simp⟩
  | operandNotNumber | operandsNotNumbers | operandsNotAlike | noProperties | noFields =>
    exact ⟨79, by decide +kernel, by simp⟩
  | notCallable => exact ⟨67, by decide +kernel, by simp⟩
  | stackOverflow => exact ⟨83, by decide +kernel, fun _ => rfl, fun _ => rfl⟩

/-- The report of a fault tells whether it was a stack overflow. -/
theorem cause_of_toText {f g : Fault} (htext : f.toText = g.toText) (hf : f.cause = .stackOverflow) :
    g.cause = .stackOverflow := by
  obtain ⟨b, hb, hbf⟩ := head?_message f.cause
  obtain ⟨c, hc, hcg⟩ := head?_message g.cause
  have hhead := congrArg List.head? htext
  unfold Fault.toText at hhead
  simp only [List.append_assoc, List.head?_append, hb, hc, Option.some_or, Option.some.injEq] at hhead
  exact hcg.mp (hhead ▸ hbf.mpr hf)

namespace Session

variable {policy : Policy} {R : EStateM.Result Halt Machine Unit} {h : Heap} {s s' : Settings} {source : Text}

/-- The report of a fault is the last thing that a step shows. -/
theorem getLast?_of_fault (policy : Policy) (f : Fault) (m : Machine) :
    (conclude policy (.error (.fault f) m)).events.getLast? = some (.err f.toText) := by
  unfold conclude outcome
  rw [List.getLast?_reverse]
  rfl

/-- A step overflows if and only if its run does. -/
theorem overflows_conclude : (conclude policy R).Overflows ↔ Overflowed R := by
  constructor
  · rintro ⟨hverdict, f, hf, hlast⟩
    match R with
    | .error (.fault g) m =>
      rw [getLast?_of_fault] at hlast
      have htext : f.toText = g.toText := by
        injection hlast with hevent
        injection hevent with htext
        exact htext.symm
      exact ⟨g, m, rfl, cause_of_toText htext hf⟩
    | .ok () m | .error .stuck m | .error .exhausted m => cases hverdict
  · rintro ⟨f, m, rfl, hf⟩
    exact ⟨rfl, f, hf, getLast?_of_fault policy f m⟩

/-- Reports are no output. -/
theorem output_conclude (policy : Policy) (R : EStateM.Result Halt Machine Unit) :
    (conclude policy R).output = (machine R).events.reverse.filterMap Event.out? := by
  match R with
  | .ok () m | .error .stuck m | .error .exhausted m => rfl
  | .error (.fault f) m =>
    change (reportFault policy f m).events.reverse.filterMap Event.out? = m.events.reverse.filterMap Event.out?
    -- neither the report nor the log entry before it is output
    unfold reportFault Machine.log
    split
    · simp [Machine.emit, Event.out?]
    · simp [Machine.emit, Event.out?]

/-- A larger limit, or none, relaxes a limit. -/
theorem relaxes_of_more (level : Severity) (hpos : 0 < s.maxCallDepth)
    (hmore : s.maxCallDepth < s'.maxCallDepth ∨ s'.maxCallDepth ≤ 0) :
    (s.policy level).Relaxes (s'.policy level) := by
  refine ⟨rfl, fun depth hdepth => ?_⟩
  unfold Settings.policy Policy.allowsDepth Settings.callLimit at hdepth ⊢
  rw [if_pos hpos] at hdepth
  have hle : depth ≤ s.maxCallDepth.toNat := of_decide_eq_true hdepth
  split
  · have hle' : depth ≤ s'.maxCallDepth.toNat := by omega
    exact decide_eq_true hle'
  · rfl

section step

variable {level : Severity} (hv : (Program.ofSource source).isValid = true) (hpos : 0 < s.maxCallDepth)
  (hmore : s.maxCallDepth < s'.maxCallDepth ∨ s'.maxCallDepth ≤ 0) (fuel : Nat) (action : Action) (path : Text)
include hv hpos hmore

/-- Without an overflow the limit has done nothing. -/
theorem step_of_not_overflows (hno : ¬ (step (s.policy level) fuel h action path source).Overflows) :
    step (s'.policy level) fuel h action path source = step (s.policy level) fuel h action path source := by
  rw [step_of_isValid _ fuel action path hv] at hno ⊢
  rw [step_of_isValid _ fuel action path hv]
  rw [overflows_conclude] at hno
  have hlimits := perform_limits (relaxes_of_more level hpos hmore) fuel action (Program.ofSource source).stmts
  -- both policies log alike
  have hsame := hlimits.same (logResumed (s.policy level) (Program.ofSource source) ⟨h, []⟩) hno
  exact congrArg (conclude (s.policy level)) hsame

/-- An overflow cuts the output off. -/
theorem output_of_overflows (hover : (step (s.policy level) fuel h action path source).Overflows) {more : Nat}
    (hfuel : fuel ≤ more) : (step (s.policy level) fuel h action path source).output <+:
      (step (s'.policy level) more h action path source).output := by
  have hended : (step (s.policy level) fuel h action path source).verdict ≠ .exhausted := by
    rw [hover.1]
    nofun
  rw [← step_of_more_fuel _ fuel action path hv hended hfuel] at hover ⊢
  rw [step_of_isValid _ more action path hv] at hover ⊢
  rw [step_of_isValid _ more action path hv]
  rw [overflows_conclude] at hover
  have hlimits := perform_limits (relaxes_of_more level hpos hmore) more action (Program.ofSource source).stmts
  have hbefore := hlimits.before (logResumed (s.policy level) (Program.ofSource source) ⟨h, []⟩) hover
  rw [output_conclude, output_conclude]
  apply List.IsPrefix.filterMap
  exact List.reverse_prefix.mpr hbefore

end step

/-- The calls of a step are counted from no open call on. -/
theorem notes_counts (hv : (Program.ofSource source).isValid = true) (hpos : 0 < s.maxCallDepth) (level : Severity)
    (fuel : Nat) (h : Heap) (action : Action) : Counts s.maxCallDepth.toNat 0 0
      (perform (s.policy level) fuel action (Program.ofSource source).stmts
        (logResumed (s.policy level) (Program.ofSource source) ⟨h, []⟩))
      (notes (s.policy level) fuel h action source) := by
  have hlimit : (s.policy level).callLimit = some s.maxCallDepth.toNat := if_pos hpos
  rw [notes_of_isValid (s.policy level) fuel h action hv]
  exact perform_counts hlimit fuel action _ _

/-- The limit of open calls, for a valid program and a limit `s.maxCallDepth`. (1) If a step does not overflow, it is the
same under any higher limit and under none. (2) If it does, its output is the beginning of what is printed then, for
however long that goes on. (3) It overflows if and only if something is called with as many arguments as it takes while
`s.maxCallDepth` calls are open; no call is ever asked for while more are open, and the one that overflows is the last
thing that happens, and is blamed. -/
theorem step_callLimit (hv : (Program.ofSource source).isValid = true) (hpos : 0 < s.maxCallDepth)
    (hmore : s.maxCallDepth < s'.maxCallDepth ∨ s'.maxCallDepth ≤ 0) (level : Severity) (fuel : Nat) (h : Heap)
    (action : Action) (path : Text) :
    (¬ (step (s.policy level) fuel h action path source).Overflows →
      step (s'.policy level) fuel h action path source = step (s.policy level) fuel h action path source) ∧
    ((step (s.policy level) fuel h action path source).Overflows → ∀ more, fuel ≤ more →
      (step (s.policy level) fuel h action path source).output <+:
        (step (s'.policy level) more h action path source).output) ∧
    ((step (s.policy level) fuel h action path source).Overflows ↔ ∃ before callee paren h' after,
      notes (s.policy level) fuel h action source = before ++ .opened callee paren h' :: after ∧
      Note.openCalls before = s.maxCallDepth) ∧
    ∀ before callee paren h' after,
      notes (s.policy level) fuel h action source = before ++ .opened callee paren h' :: after →
      Note.openCalls before ≤ s.maxCallDepth ∧ (Note.openCalls before = s.maxCallDepth → after = [] ∧
        (step (s.policy level) fuel h action path source).events.getLast? =
          some (.err (Fault.toText ⟨.stackOverflow, Punct.rightParen.spelling, paren⟩))) := by
  refine ⟨step_of_not_overflows hv hpos hmore fuel action path,
    fun hover more hfuel => output_of_overflows hv hpos hmore fuel action path hover hfuel, ?_⟩
  have hcounts := notes_counts hv hpos level fuel h action
  rw [step_of_isValid _ fuel action path hv, overflows_conclude]
  generalize perform (s.policy level) fuel action (Program.ofSource source).stmts
    (logResumed (s.policy level) (Program.ofSource source) ⟨h, []⟩) = result at hcounts ⊢
  generalize notes (s.policy level) fuel h action source = ns at hcounts ⊢
  have hlimit : (s.maxCallDepth.toNat : Int) = s.maxCallDepth := Int.toNat_of_nonneg (Int.le_of_lt hpos)
  have hfull (before : List Note) (callee : Callable) (paren : Pos) (h' : Heap) (after : List Note)
      (hns : ns = before ++ .opened callee paren h' :: after) :
      Note.openCalls before ≤ s.maxCallDepth ∧
        (Note.openCalls before = s.maxCallDepth ↔ after = [] ∧ Overflowed result) := by
    have hle := hcounts.within before callee paren h' after hns
    have hiff := hcounts.full before callee paren h' after hns
    rw [Int.zero_add, hlimit] at hle hiff
    exact ⟨hle, hiff⟩
  constructor
  · constructor
    · intro hover
      obtain ⟨f, n, hresult, hf⟩ := id hover
      obtain ⟨before, callee, h', hns⟩ := hcounts.last f n hresult hf
      exact ⟨before, callee, f.pos, h', [], hns, (hfull before callee f.pos h' [] hns).2.mpr ⟨rfl, hover⟩⟩
    · rintro ⟨before, callee, paren, h', after, hns, heq⟩
      exact ((hfull before callee paren h' after hns).2.mp heq).2
  · intro before callee paren h' after hns
    obtain ⟨hle, hiff⟩ := hfull before callee paren h' after hns
    refine ⟨hle, fun heq => ?_⟩
    obtain ⟨rfl, f, n, rfl, hf⟩ := hiff.mp heq
    -- the last note is that of the call that is blamed
    obtain ⟨before', callee', h'', hns'⟩ := hcounts.last f n rfl hf
    have hpos : f.pos = paren := by
      have hlast := (List.append_inj' (hns.symm.trans hns') rfl).2
      injection hlast with hnote
      injection hnote with _ hparen
      exact hparen.symm
    refine ⟨rfl, ?_⟩
    rw [getLast?_of_fault]
    unfold Fault.toText
    rw [hf, hpos]

def chainSource : Text :=
  "class Link \x7b init(s) \x7b print s; this.next = Link(s + \"x\"); \x7d \x7d Link(\"\");"

/-- A chain of instances that would be made without end is cut off at the limit. -/
theorem step_callLimit_chain :
    let s : Settings := { maxCallDepth := 3 }
    let s' : Settings := { maxCallDepth := 0 }
    let o := step (s.policy .error) 9 Heap.empty .run "" chainSource
    (Program.ofSource chainSource).isValid = true ∧ o.Overflows ∧ o.output = ["", "x", "xx"].map Text.ofString ∧
    (∀ more, 9 ≤ more → o.output <+: (step (s'.policy .error) more Heap.empty .run "" chainSource).output) ∧
    ∃ before callee paren h' after,
      notes (s.policy .error) 9 Heap.empty .run chainSource = before ++ .opened callee paren h' :: after ∧
      Note.openCalls before = 3 := by
  intro s s' o
  have hv : (Program.ofSource chainSource).isValid = true := by decide +kernel
  have hverdict : o.verdict = .runtimeError := by decide +kernel
  have hoverflow : o.events.getLast? = some (.err (Fault.toText ⟨.stackOverflow, "", ⟨1, 0⟩⟩)) := by decide +kernel
  have houtput : o.output = ["", "x", "xx"].map Text.ofString := by decide +kernel
  have hover : o.Overflows := ⟨hverdict, _, rfl, hoverflow⟩
  have hpos : 0 < s.maxCallDepth := by decide
  have hmore : s.maxCallDepth < s'.maxCallDepth ∨ s'.maxCallDepth ≤ 0 := .inr (Int.le_refl 0)
  obtain ⟨-, hprefix, hcalls, -⟩ := step_callLimit hv hpos hmore .error 9 Heap.empty .run ""
  exact ⟨hv, hover, houtput, hprefix hover, hcalls.mp hover⟩

end Session
end Lox
