import Lox.Proofs.Run.ReadingOrder
import Lox.Proofs.Session.Safety

/-! The variables that a function has captured. Names are looked up along the frames each time that the body of a
function runs. Between two calls a variable of the same name may be declared in a captured frame, and the second call
finds that one then; nothing else can come between a function and a variable that it has found. -/
namespace Lox

/-- The captured frame that a name is found in, if it is found in none of the frames of the call itself. -/
def Reading.captured? (r : Reading) : Option FrameId :=
  match r.activation, r.heap.resolve? r.name.text r.scope with
  | some a, some (j, _) => if j ∈ r.heap.chain a.function.scope then some j else none
  | _, _ => none

/-- One function value: functions are told apart by their serial numbers, and each was made in one frame. -/
def Activation.SameFunction (a b : Activation) : Prop :=
  b.function.serial = a.function.serial ∧ b.function.scope = a.function.scope

/-- One place in the body of one function value, perhaps in two of its calls. -/
def Reading.SamePlace (r r' : Reading) : Prop :=
  r'.name = r.name ∧ match r.activation, r'.activation with
    | some a, some b => a.SameFunction b
    | _, _ => False

/-- If both readings of a place find a captured variable, they find it in the same frame. -/
def Reading.Lexical (r r' : Reading) : Prop :=
  r.SamePlace r' → r.captured?.isSome = true → r'.captured?.isSome = true → r'.captured? = r.captured?

instance (a b : Activation) : Decidable (a.SameFunction b) := inferInstanceAs (Decidable (_ ∧ _))

instance (r r' : Reading) : Decidable (r.SamePlace r') := by
  unfold Reading.SamePlace
  cases r.activation <;> cases r'.activation <;> infer_instance

instance (r r' : Reading) : Decidable (r.Lexical r') := inferInstanceAs (Decidable (_ → _ → _ → _))

variable {r r' : Reading} {j j' : FrameId}

/-- A captured variable is found from the frame that the function was made in. -/
theorem resolve?_of_captured (hr : r.heap.Runs r.activation r.scope) (hj : r.captured? = some j) :
    ∃ a v, r.activation = some a ∧ r.heap.resolve? r.name.text a.function.scope = some (j, v) := by
  unfold Reading.captured? at hj
  split at hj
  · next a k v ha hres =>
    by_cases hk : k ∈ r.heap.chain a.function.scope
    · rw [if_pos hk] at hj
      cases hj
      obtain ⟨henc, hmem⟩ := hr a ha
      exact ⟨a, v, ha, Heap.resolve?_of_mem_chain hmem henc hres hk⟩
    · rw [if_neg hk] at hj
      cases hj
  · cases hj

/-- A later reading of a captured variable finds the name again. It finds the same variable, or one that did not exist
at the first reading, in a captured frame further in. -/
theorem captured_later (hr : r.heap.Runs r.activation r.scope) (hr' : r'.heap.Runs r'.activation r'.scope)
    (e : r.heap.Extends r'.heap) (hsame : r.SamePlace r') (hj : r.captured? = some j) :
    r'.heap.Resolves r'.scope r'.name.text ∧ ∀ j', r'.captured? = some j' →
      j' = j ∨ j ∈ r.heap.chain j' ∧ (r.heap.vars j').get? r.name.text = none := by
  obtain ⟨a, v, ha, hres⟩ := resolve?_of_captured hr hj
  obtain ⟨hname, hfun⟩ := hsame
  -- from the frame of the function the name is found in both heaps, so only the frames further in matter
  obtain ⟨k, w, hres', hk⟩ := Heap.resolve?_extends e hres
  rw [ha] at hfun
  cases hb : r'.activation with
  | none =>
    rw [hb] at hfun
    cases hfun
  | some b =>
    rw [hb] at hfun
    have hscope : b.function.scope = a.function.scope := hfun.2
    constructor
    · obtain ⟨henc, hmem⟩ := hr' b hb
      have hframe : b.function.scope ∈ r'.heap.chain b.frame :=
        Heap.mem_chain_iff.mpr (.inr ⟨_, henc, Heap.mem_chain_self _ _⟩)
      refine Heap.resolves_of_mem_chain hmem (Heap.resolves_of_mem_chain hframe ?_)
      rw [hname, hscope, Heap.Resolves, hres']
      rfl
    · intro j' hj'
      obtain ⟨b', w', hb', hlater⟩ := resolve?_of_captured hr' hj'
      rw [hb] at hb'
      cases hb'
      rw [hname, hscope, hres'] at hlater
      cases hlater
      exact hk

namespace Session

/-- What running a program looks up. -/
def readings (policy : Policy) (fuel : Nat) (h : Heap) (source : Text) : List Reading :=
  Stmt.readingsAll policy (Run.call policy fuel 0) (Run.callReadings policy fuel 0) fuel none Heap.globalFrame
    (Program.ofSource source).stmts (logResumed policy (Program.ofSource source) ⟨h, []⟩)

def lateVariable : Text :=
  "var a = \"global\"; \x7b fun showA() \x7b print a; \x7d showA(); var a = \"block\"; showA(); \x7d"

/-- One place in one function finds a name in two frames. -/
theorem lateVariable_not_lexical : (Program.ofSource lateVariable).isValid = true ∧
    ¬ (readings ⟨none, .error⟩ 9 Heap.empty lateVariable).Pairwise Reading.Lexical := by
  decide +kernel

variable {h : Heap}

/-- What a program looks up is noted in the order of its heaps. -/
theorem readings_between (hr : Reachable h) {source : Text} (hv : (Program.ofSource source).isValid = true)
    (policy : Policy) (fuel : Nat) : ∃ h', Between h (readings policy fuel h source) h' := by
  obtain ⟨hm, hlt⟩ := wellMade_of_reachable hr
  have hall := execAll_records (a := none) (Run.call_safe policy fuel 0) (Run.call_records policy fuel 0) policy fuel
    _ (placed_of_isValid hv) (hosts_global hlt) (fun b hb => nomatch hb)
  have hheap := heap_logResumed policy (Program.ofSource source) ⟨h, []⟩
  unfold readings
  generalize logResumed policy (Program.ofSource source) ⟨h, []⟩ = m at hheap ⊢
  obtain ⟨h', events⟩ := m
  obtain rfl : h' = h := hheap
  exact ⟨_, hall hm events⟩

/-- In every run of a valid program, a name in the body of a function that has been found in a captured frame is found
again whenever the function is called later. If it is found outside the frames of the call again, it is found in the
same frame, unless it was declared in the meantime in a captured frame further in: then it is found in such a frame. -/
theorem captured_until_declared (hr : Reachable h) {source : Text} (hv : (Program.ofSource source).isValid = true)
    (policy : Policy) (fuel : Nat) :
    (readings policy fuel h source).Pairwise fun r r' => r.SamePlace r' → ∀ j, r.captured? = some j →
      r'.heap.Resolves r'.scope r'.name.text ∧ ∀ j', r'.captured? = some j' →
        j' = j ∨ j ∈ r.heap.chain j' ∧ (r.heap.vars j').get? r.name.text = none := by
  obtain ⟨h', hb⟩ := readings_between hr hv policy fuel
  refine List.Pairwise.imp_of_mem ?_ hb.ordered
  intro r r' hmem hmem' e hsame j hj
  exact captured_later (hb.each r hmem).2.2 (hb.each r' hmem').2.2 e hsame hj

/-- The second call of the example finds the variable of the block, in which there was none before. -/
theorem captured_until_declared_late : (Program.ofSource lateVariable).isValid = true ∧
    (readings ⟨none, .error⟩ 9 Heap.empty lateVariable).map Reading.captured? = [none, some 0, none, some 1] ∧
    (readings ⟨none, .error⟩ 9 Heap.empty lateVariable).Pairwise fun r r' => r.SamePlace r' →
      ∀ j, r.captured? = some j → r'.heap.Resolves r'.scope r'.name.text ∧ ∀ j', r'.captured? = some j' →
        j' = j ∨ j ∈ r.heap.chain j' ∧ (r.heap.vars j').get? r.name.text = none := by
  have hv : (Program.ofSource lateVariable).isValid = true := by decide +kernel
  exact ⟨hv, by decide +kernel, captured_until_declared .start hv ⟨none, .error⟩ 9⟩

end Session
end Lox
