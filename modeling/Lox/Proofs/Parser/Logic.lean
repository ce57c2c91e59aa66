import Lox.Parser.Basic
import Lox.Proofs.Grammar.Expr

/-! Two ways to reason about parsers. `Sound` says what a parser may do from any state: it never exhausts its bound,
it takes tokens off the front, and what it returns without reporting an error is what the tokens it took spell.
`Reads` says what a parser returns on given tokens. -/
namespace Lox.Parser

variable {α β : Type}

structure State.Took (s : State) (ts : List Token) (s' : State) : Prop where
  rest : s.rest = ts ++ s'.rest
  errors : s.errors <:+ s'.errors

theorem took_trans {s s' s'' : State} {ts us : List Token} (h : s.Took ts s') (h' : s'.Took us s'') :
    s.Took (ts ++ us) s'' :=
  ⟨by rw [h.rest, h'.rest, List.append_assoc], h.errors.trans h'.errors⟩

theorem took_length {s s' : State} {ts : List Token} (h : s.Took ts s') :
    s.rest.length = ts.length + s'.rest.length := by
  rw [h.rest, List.length_append]

/-- If no error was added in the end, none was added on the way. -/
theorem took_clean {s s' s'' : State} {ts us : List Token} (h : s.Took ts s') (h' : s'.Took us s'')
    (hc : s''.errors = s.errors) : s'.errors = s.errors ∧ s''.errors = s'.errors := by
  have hl := h.errors.length_le
  have hl' := h'.errors.length_le
  rw [hc] at hl'
  have he : s.errors = s'.errors := h.errors.eq_of_length (by omega)
  exact ⟨he.symm, hc.trans he⟩

structure State.Failed (s s' : State) : Prop where
  rest : s'.rest <:+ s.rest
  errors : s.errors <:+ s'.errors
  reported : s.errors.length < s'.errors.length

theorem failed_of_took {s s' s'' : State} {ts : List Token} (h : s.Took ts s') (h' : s'.Failed s'') :
    s.Failed s'' := by
  refine ⟨h'.rest.trans ⟨ts, h.rest.symm⟩, h.errors.trans h'.errors, ?_⟩
  have hl := h.errors.length_le
  have hr := h'.reported
  omega

def lastState : EStateM.Result Stop State α → State
  | .ok _ s | .error _ s => s

def Meets (s : State) (m : Nat) (G : α → List Token → Prop) : EStateM.Result Stop State α → Prop
  | .ok a s' => ∃ ts, s.Took ts s' ∧ m ≤ ts.length ∧ (s'.errors = s.errors → G a ts)
  | .error .failed s' => s.Failed s'
  | .error .exhausted _ => False

/-- What `p` does from any state with fewer than `n` tokens left. If it succeeds, it has taken at least `m`
tokens, and `G` relates them to the result unless an error was reported. -/
def Sound (n m : Nat) (p : Parser α) (G : α → List Token → Prop) : Prop :=
  ∀ s : State, s.rest.length < n → Meets s m G (p s)

theorem bind_apply (p : Parser α) (k : α → Parser β) (s : State) :
    (p >>= k) s = match p s with
      | .ok a s' => k a s'
      | .error e s' => .error e s' := by
  change EStateM.bind p k s = _
  unfold EStateM.bind
  cases p s <;> rfl

theorem take?_some {f : Token → Option β} {s : State} {t : Token} {rest : List Token} {b : β}
    (hr : s.rest = t :: rest) (hf : f t = some b) : take? f s = .ok (some b) { s with rest } := by
  unfold take?
  simp only [hr, hf]

theorem take?_none {f : Token → Option β} {s : State} (h : ∀ t, s.rest.head? = some t → f t = none) :
    take? f s = .ok none s := by
  unfold take?
  cases hr : s.rest with
  | nil => rfl
  | cons t rest =>
    rw [hr] at h
    simp only [h t rfl]

/-- What holds of a later part of a parse holds of the whole, together with the tokens taken before. -/
theorem meets_of_took {s s' : State} {ts : List Token} {m m' : Nat} {G G' : α → List Token → Prop}
    {r : EStateM.Result Stop State α} (ht : s.Took ts s') (h : Meets s' m G r) (hm : m' ≤ ts.length + m)
    (hG : s'.errors = s.errors → ∀ a us, G a us → G' a (ts ++ us)) : Meets s m' G' r := by
  match r, h with
  | .ok a s'', ⟨us, hu, hl, hg⟩ =>
    refine ⟨ts ++ us, took_trans ht hu, by rw [List.length_append]; omega, fun hc => ?_⟩
    obtain ⟨hc₁, hc₂⟩ := took_clean ht hu hc
    exact hG hc₁ a us (hg hc₂)
  | .error .failed s'', h => exact failed_of_took ht h

theorem sound_mono {n n' m m' : Nat} {p : Parser α} {G G' : α → List Token → Prop}
    (h : Sound n m p G) (hn : n' ≤ n) (hm : m' ≤ m) (hG : ∀ a ts, G a ts → G' a ts) : Sound n' m' p G' := by
  intro s hs
  have ht : s.Took [] s := ⟨rfl, List.suffix_refl _⟩
  exact meets_of_took ht (h s (by omega)) (by omega) fun _ => hG

theorem sound_weaken {n n' m m' : Nat} {p : Parser α} {G : α → List Token → Prop} (h : Sound n m p G)
    (hn : n' ≤ n) (hm : m' ≤ m) : Sound n' m' p G :=
  sound_mono h hn hm fun _ _ hg => hg

/-- Two parsers in a row. The second is asked for less, by what the first is known to take. -/
theorem sound_bind {n m m₁ : Nat} {p : Parser α} {k : α → Parser β} {P : α → List Token → Prop}
    {G : β → List Token → Prop} (hp : Sound n m₁ p P)
    (hk : ∀ a, Sound (n - m₁) (m - m₁) (k a) fun b us => ∀ ts, P a ts → G b (ts ++ us)) :
    Sound n m (p >>= k) G := by
  intro s hs
  have h := hp s hs
  rw [bind_apply]
  match p s, h with
  | .ok a s', ⟨ts, ht, hl, hP⟩ =>
    have hlen := took_length ht
    have hs' : s'.rest.length < n - m₁ := by omega
    exact meets_of_took ht (hk a s' hs') (by omega) fun hc b us hb => hb ts (hP hc)
  | .error .failed s', h => exact h

theorem sound_map_bind {γ : Type} {n m m₁ : Nat} {p : Parser α} {f : α → γ} {k : γ → Parser β}
    {P : α → List Token → Prop} {G : β → List Token → Prop} (hp : Sound n m₁ p P)
    (hk : ∀ a, Sound (n - m₁) (m - m₁) (k (f a)) fun b us => ∀ ts, P a ts → G b (ts ++ us)) :
    Sound n m (f <$> p >>= k) G := by
  rw [bind_map_left]
  exact sound_bind hp hk

theorem sound_pure {n : Nat} {a : α} {G : α → List Token → Prop} (h : G a []) :
    Sound n 0 (pure a : Parser α) G :=
  fun _ _ => ⟨[], ⟨rfl, List.suffix_refl _⟩, Nat.le_refl _, fun _ => h⟩

theorem sound_pure_bind {n m : Nat} {a : α} {k : α → Parser β} {G : β → List Token → Prop}
    (h : Sound n m (k a) G) : Sound n m (pure a >>= k) G := by
  rwa [pure_bind]

theorem sound_map {n m : Nat} {f : α → β} {p : Parser α} {G : β → List Token → Prop}
    (h : Sound n m p fun a ts => G (f a) ts) : Sound n m (f <$> p) G := by
  have hb : Sound n m (p >>= fun a => pure (f a)) G := by
    refine sound_bind h fun a => ?_
    rw [Nat.sub_self]
    exact sound_pure fun ts hts => by rwa [List.append_nil]
  simpa only [bind_pure_comp] using hb

/-- A parser that gives up has reported an error. -/
theorem sound_fail {n m : Nat} (cause : SyntaxError.Cause) {G : α → List Token → Prop} :
    Sound n m (fail cause : Parser α) G :=
  fun _ _ => ⟨List.suffix_refl _, List.suffix_cons _ _, Nat.lt_succ_self _⟩

/-- Of a bound of zero nothing is claimed, since no state has fewer tokens left than none. -/
theorem sound_exhausted {m : Nat} {G : α → List Token → Prop} : Sound 0 m (exhausted : Parser α) G :=
  fun _ h => absurd h (Nat.not_lt_zero _)

/-- After a report that does not end the parse nothing has to be spelled any more. -/
theorem sound_report {n m : Nat} (cause : SyntaxError.Cause) (site : SyntaxError.Site)
    {k : Unit → Parser α} {G H : α → List Token → Prop} (hk : Sound n m (k ()) H) :
    Sound n m (report cause site >>= k) G := by
  intro s hs
  have hr : s.Took [] (s.report cause site) := ⟨rfl, List.suffix_cons _ _⟩
  refine meets_of_took hr (hk (s.report cause site) hs) (by simp) fun hc => ?_
  exact absurd (congrArg List.length hc) (by simp [State.report])

theorem sound_reportHere {n m : Nat} (cause : SyntaxError.Cause)
    {k : Unit → Parser α} {G H : α → List Token → Prop} (hk : Sound n m (k ()) H) :
    Sound n m (reportHere cause >>= k) G :=
  fun s hs => sound_report cause s.site hk s hs

/-- The two ways on after looking at the next token. -/
theorem sound_take {n m : Nat} {f : Token → Option β} {k : Option β → Parser α} {G : α → List Token → Prop}
    (hsome : ∀ t b, f t = some b → Sound (n - 1) (m - 1) (k (some b)) fun a ts => G a (t :: ts))
    (hnone : Sound n m (k none) G) : Sound n m (take? f >>= k) G := by
  intro s hs
  rw [bind_apply]
  cases hr : s.rest with
  | nil =>
    rw [take?_none (by simp [hr])]
    exact hnone s hs
  | cons t rest =>
    cases hf : f t with
    | none =>
      rw [take?_none (by simp [hr, hf])]
      exact hnone s hs
    | some b =>
      have hl : rest.length < n - 1 := by
        rw [hr, List.length_cons] at hs
        omega
      have ht : s.Took [t] { s with rest } := ⟨hr, List.suffix_refl _⟩
      have h := hsome t b hf { s with rest } hl
      rw [take?_some hr hf]
      exact meets_of_took ht h (by rw [List.length_singleton]; omega) fun _ a us h => h

theorem sound_accept {n m : Nat} {l : Lexeme} {k : Option Pos → Parser α} {G : α → List Token → Prop}
    (hsome : ∀ p, Sound (n - 1) (m - 1) (k (some p)) fun a ts => G a (⟨l, p⟩ :: ts))
    (hnone : Sound n m (k none) G) : Sound n m (accept? l >>= k) G := by
  refine sound_take (fun t p h => ?_) hnone
  split at h
  · rename_i hl
    cases h
    subst hl
    exact hsome t.pos
  · cases h

theorem sound_expect {n m : Nat} {l : Lexeme} {cause : SyntaxError.Cause} {k : Pos → Parser α}
    {G : α → List Token → Prop}
    (h : ∀ p, Sound (n - 1) (m - 1) (k p) fun a ts => G a (⟨l, p⟩ :: ts)) :
    Sound n m (expect l cause >>= k) G := by
  unfold expect
  rw [bind_assoc]
  exact sound_accept h (sound_fail cause)

theorem sound_expectName {n m : Nat} {cause : SyntaxError.Cause} {k : Name → Parser α}
    {G : α → List Token → Prop}
    (h : ∀ x, Sound (n - 1) (m - 1) (k x) fun a ts => G a (x.token :: ts)) :
    Sound n m (expectName cause >>= k) G := by
  unfold expectName
  rw [bind_assoc]
  refine sound_take (fun t x hx => ?_) (sound_fail cause)
  obtain ⟨l, p⟩ := t
  cases l with
  | identifier text =>
    cases hx
    exact h ⟨text, p⟩
  | _ => cases hx

theorem sound_nextIs {n m : Nat} {l : Lexeme} {k : Bool → Parser α} {G : α → List Token → Prop}
    (h : ∀ b, Sound n m (k b) G) : Sound n m (nextIs l >>= k) G :=
  fun s hs => h _ s hs

end Lox.Parser
