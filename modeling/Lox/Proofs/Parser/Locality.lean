import Lox.Proofs.Parser.Compositional
import Lox.Proofs.Parser.StmtReads
import Lox.Proofs.Parser.StmtSound

/-! Parsers do not look ahead further than they must. What a parser does before it comes to the end of the input, it
does in the same way if more tokens follow, whatever was found before; and a declaration that has its last token ends
there. This holds of parses that fail or go on after an error as well. What surrounds a parser changes only which
remarks it makes. -/
namespace Lox.Parser

open Grammar (NotNext)

variable {α β : Type}

/-- From `s` to `t` the tokens `ts` are taken, the errors `es` are reported, and parsing goes on after an error on the
lines `ls`. -/
structure State.Moved (s t : State) (ts : List Token) (es : List SyntaxError) (ls : List Nat) : Prop where
  rest : s.rest = ts ++ t.rest
  errors : t.errors = es ++ s.errors
  resumed : t.resumed = ls ++ s.resumed

theorem moved_refl (s : State) : s.Moved s [] [] [] := ⟨rfl, rfl, rfl⟩

theorem moved_trans {s t u : State} {ts ts' : List Token} {es es' : List SyntaxError} {ls ls' : List Nat}
    (h : s.Moved t ts es ls) (h' : t.Moved u ts' es' ls') : s.Moved u (ts ++ ts') (es' ++ es) (ls' ++ ls) :=
  ⟨by rw [h.rest, h'.rest, List.append_assoc], by rw [h'.errors, h.errors, List.append_assoc],
    by rw [h'.resumed, h.resumed, List.append_assoc]⟩

theorem moved_report (s : State) (cause : SyntaxError.Cause) (site : SyntaxError.Site) :
    s.Moved (s.report cause site) [] [⟨cause, site⟩] [] := ⟨rfl, rfl, rfl⟩

theorem moved_take {s : State} {t : Token} {rest : List Token} (h : s.rest = t :: rest) :
    s.Moved { s with rest } [t] [] [] := ⟨h, rfl, rfl⟩

/-- Going on after an error drops tokens. -/
theorem moved_resume (s : State) : ∃ ts, s.Moved s.resume ts [] [s.resume.site.pos.line] := by
  obtain ⟨ts, hts, -⟩ := skip_suffix s.rest
  exact ⟨ts, hts, rfl, rfl⟩

def State.after (s : State) (rest : List Token) (es : List SyntaxError) (ls : List Nat) : State :=
  ⟨rest, s.endPos, es ++ s.errors, ls ++ s.resumed⟩

/-- A run from `s` has ended in `t`. From every state with the tokens `us` behind, the run `p'` ends in the same way,
except that it may make other remarks if it is `free`. -/
def Echoes (free : Prop) (us : List Token) (s t : State) (es : List SyntaxError) (ls : List Nat)
    (p' : Parser α) (r : State → EStateM.Result Stop State α) : Prop :=
  ∀ s', s'.rest = s.rest ++ us → ∃ es', (es' = es ∨ free) ∧ p' s' = r (s'.after (t.rest ++ us) es' ls)

/-- What the result of a run from `s` says about the parser `p'`. It matters whether the run has come to the end of the
input, unless its last token is that of a declaration. -/
def EchoedBy (free : Prop) (us : List Token) (ends : Bool) (s : State) (p' : Parser α) :
    EStateM.Result Stop State α → Prop
  | .ok a t => ∃ ts es ls, s.Moved t ts es ls ∧ (ends = true → ts ≠ []) ∧
    (t.rest ≠ [] ∨ ends = true → Echoes free us s t es ls p' (.ok a))
  | .error .failed t => ∃ ts es ls, s.Moved t ts es ls ∧ (t.rest ≠ [] → Echoes free us s t es ls p' (.error .failed))
  | .error .exhausted _ => True

def Local (free : Prop) (us : List Token) (ends : Bool) (p p' : Parser α) : Prop :=
  ∀ s, EchoedBy free us ends s p' (p s)

variable {free : Prop} {us : List Token} {ends : Bool} {p p' : Parser α}

/-- A first part of a run, which both runs have in common. -/
theorem echoedBy_of_moved {s t : State} {ts : List Token} {es : List SyntaxError} {ls : List Nat} {q' : Parser α}
    {r : EStateM.Result Stop State α} (hmoved : s.Moved t ts es ls)
    (hfirst : t.rest ≠ [] → ∀ s', s'.rest = s.rest ++ us →
      ∃ es', (es' = es ∨ free) ∧ p' s' = q' (s'.after (t.rest ++ us) es' ls))
    (h : EchoedBy free us ends t q' r) : EchoedBy free us ends s p' r := by
  -- the two parts of the second run, one after the other
  have hechoes {u : State} {es' : List SyntaxError} {ls' : List Nat}
      {r : State → EStateM.Result Stop State α} (hne : t.rest ≠ []) (h' : Echoes free us t u es' ls' q' r) :
      Echoes free us s u (es' ++ es) (ls' ++ ls) p' r := by
    intro s' hs'
    obtain ⟨es₁, hes₁, hrun₁⟩ := hfirst hne s' hs'
    obtain ⟨es₂, hes₂, hrun₂⟩ := h' (s'.after (t.rest ++ us) es₁ ls) rfl
    refine ⟨es₂ ++ es₁, ?_, ?_⟩
    · rcases hes₁ with rfl | hfree
      · rcases hes₂ with rfl | hfree
        · exact .inl rfl
        · exact .inr hfree
      · exact .inr hfree
    · rw [hrun₁, hrun₂]
      simp [State.after]
  match r, h with
  | .ok a u, ⟨ts', es', ls', hmoved', hends, hecho⟩ =>
    refine ⟨ts ++ ts', es' ++ es, ls' ++ ls, moved_trans hmoved hmoved', ?_, ?_⟩
    · intro he hnil
      exact hends he (List.append_eq_nil_iff.mp hnil).2
    · intro hor
      have hne : t.rest ≠ [] := by
        rw [hmoved'.rest]
        intro hnil
        obtain ⟨hts', hu⟩ := List.append_eq_nil_iff.mp hnil
        rcases hor with hrest | he
        · exact hrest hu
        · exact hends he hts'
      exact hechoes hne (hecho hor)
  | .error .failed u, ⟨ts', es', ls', hmoved', hecho⟩ =>
    refine ⟨ts ++ ts', es' ++ es, ls' ++ ls, moved_trans hmoved hmoved', fun hrest => ?_⟩
    have hne : t.rest ≠ [] := by
      rw [hmoved'.rest]
      intro hnil
      exact hrest (List.append_eq_nil_iff.mp hnil).2
    exact hechoes hne (hecho hrest)
  | .error .exhausted u, _ => trivial

/-- What holds even at the end of the input holds before it. -/
theorem local_opens (h : Local free us true p p') : Local free us false p p' := by
  intro s
  have hs := h s
  match p s, hs with
  | .ok a t, ⟨ts, es, ls, hmoved, _, hecho⟩ => exact ⟨ts, es, ls, hmoved, nofun, fun _ => hecho (.inr rfl)⟩
  | .error .failed t, hs => exact hs
  | .error .exhausted t, _ => trivial

theorem local_pure (a : α) : Local free us false (pure a) (pure a) := by
  intro s
  refine ⟨[], [], [], moved_refl s, nofun, fun _ s' hs' => ⟨[], .inl rfl, ?_⟩⟩
  change EStateM.Result.ok a s' = .ok a (s'.after (s.rest ++ us) [] [])
  rw [← hs']
  rfl

/-- The first parser must not have come to the end, so the second one starts from tokens that are the same. -/
theorem local_seq {k k' : α → Parser β} (hp : Local free us false p p')
    (hk : ∀ a, Local free us ends (k a) (k' a)) : Local free us ends (p >>= k) (p' >>= k') := by
  intro s
  have hs := hp s
  rw [bind_apply]
  match hrun : p s, hs with
  | .error .exhausted t, _ => trivial
  | .error .failed t, ⟨ts, es, ls, hmoved, hecho⟩ =>
    refine ⟨ts, es, ls, hmoved, fun hne s' hs' => ?_⟩
    obtain ⟨es', hes', hrun'⟩ := hecho hne s' hs'
    exact ⟨es', hes', by rw [bind_apply, hrun']⟩
  | .ok a t, ⟨ts, es, ls, hmoved, _, hecho⟩ =>
    refine echoedBy_of_moved hmoved (fun hne s' hs' => ?_) (hk a t)
    obtain ⟨es', hes', hrun'⟩ := hecho (.inl hne) s' hs'
    exact ⟨es', hes', by rw [bind_apply, hrun']⟩

theorem local_finish (f : α → β) (hp : Local free us ends p p') :
    Local free us ends (p >>= fun a => pure (f a)) (p' >>= fun a => pure (f a)) := by
  intro s
  have hs := hp s
  rw [bind_apply]
  match p s, hs with
  | .error .exhausted t, _ => trivial
  | .error .failed t, ⟨ts, es, ls, hmoved, hecho⟩ =>
    refine ⟨ts, es, ls, hmoved, fun hne s' hs' => ?_⟩
    obtain ⟨es', hes', hrun'⟩ := hecho hne s' hs'
    exact ⟨es', hes', by rw [bind_apply, hrun']⟩
  | .ok a t, ⟨ts, es, ls, hmoved, hends, hecho⟩ =>
    refine ⟨ts, es, ls, hmoved, hends, fun hor s' hs' => ?_⟩
    obtain ⟨es', hes', hrun'⟩ := hecho hor s' hs'
    exact ⟨es', hes', by rw [bind_apply, hrun']; rfl⟩

/-- Before the end of the input an error is blamed on the same token, whatever follows. -/
theorem site_append {s s' : State} (hne : s.rest ≠ []) (hs' : s'.rest = s.rest ++ us) : s'.site = s.site := by
  obtain ⟨t, rest, hr⟩ := List.exists_cons_of_ne_nil hne
  rw [hr] at hs'
  simp [State.site, hr, hs']

/-- A parser that gives up before the end gives up at the same token. -/
theorem local_fail (cause : SyntaxError.Cause) : Local free us ends (fail cause : Parser α) (fail cause) := by
  intro s
  refine ⟨[], [⟨cause, s.site⟩], [], moved_report s cause s.site, fun hne s' hs' => ?_⟩
  refine ⟨[⟨cause, s.site⟩], .inl rfl, ?_⟩
  have hsite : s'.site = s.site := site_append hne hs'
  change EStateM.Result.error Stop.failed (s'.report cause s'.site) = _
  rw [hsite]
  change _ = EStateM.Result.error Stop.failed (s'.after (s.rest ++ us) _ _)
  rw [← hs']
  rfl

theorem local_exhausted : Local free us ends exhausted p' := fun _ => trivial

section token

variable {f : Token → Option β} {k k' : Option β → Parser α}

/-- Either there is a next token with a value, or there is none. -/
theorem next_cases (f : Token → Option β) (ts : List Token) :
    (∃ t rest b, ts = t :: rest ∧ f t = some b) ∨ ∀ t, ts.head? = some t → f t = none := by
  cases ts with
  | nil => exact .inr nofun
  | cons t rest =>
    cases hf : f t with
    | none => exact .inr fun u hu => by cases hu; exact hf
    | some b => exact .inl ⟨t, rest, b, rfl, hf⟩

/-- Either the given token comes next and is taken, or it does not. -/
theorem accept_cases (l : Lexeme) (s : State) :
    (∃ q rest, s.rest = ⟨l, q⟩ :: rest ∧ accept? l s = .ok (some q) { s with rest }) ∨
      (NotNext l s.rest ∧ accept? l s = .ok none s) := by
  rcases next_cases (fun t => if t.lexeme = l then some t.pos else none) s.rest with ⟨t, rest, q, hr, hq⟩ | hn
  · have htake : accept? l s = .ok (some q) { s with rest } := take?_some hr hq
    split at hq
    · rename_i hl
      cases hq
      exact .inl ⟨t.pos, rest, by rw [hr, ← hl], htake⟩
    · cases hq
  · refine .inr ⟨fun t ht hl => ?_, take?_none hn⟩
    have hnone := hn t ht
    rw [if_pos hl] at hnone
    cases hnone

theorem echoedBy_take {s : State} {t : Token} {rest : List Token} {b : β} {r : EStateM.Result Stop State α}
    (hr : s.rest = t :: rest) (hf : f t = some b) (h : EchoedBy free us ends { s with rest } (k' (some b)) r) :
    EchoedBy free us ends s (take? f >>= k') r := by
  refine echoedBy_of_moved (moved_take hr) (fun _ s' hs' => ⟨[], .inl rfl, ?_⟩) h
  have hr' : s'.rest = t :: (rest ++ us) := by rw [hs', hr, List.cons_append]
  rw [bind_apply, take?_some hr' hf]
  rfl

theorem echoedBy_pass {s : State} {r : EStateM.Result Stop State α}
    (hn : ∀ t, s.rest.head? = some t → f t = none) (h : EchoedBy free us ends s (k' none) r) :
    EchoedBy free us ends s (take? f >>= k') r := by
  refine echoedBy_of_moved (moved_refl s) (fun hne s' hs' => ⟨[], .inl rfl, ?_⟩) h
  obtain ⟨t, rest, hr⟩ := List.exists_cons_of_ne_nil hne
  have hn' : ∀ t, s'.rest.head? = some t → f t = none := by simpa [hs', hr] using hn
  rw [bind_apply, take?_none hn', ← hs']
  rfl

/-- Before the end the next token is the same, whatever follows. -/
theorem local_take (hsome : ∀ t b, f t = some b → Local free us ends (k (some b)) (k' (some b)))
    (hnone : Local free us ends (k none) (k' none)) : Local free us ends (take? f >>= k) (take? f >>= k') := by
  intro s
  rw [bind_apply]
  rcases next_cases f s.rest with ⟨t, rest, b, hr, hf⟩ | hn
  · rw [take?_some hr hf]
    exact echoedBy_take hr hf (hsome t b hf { s with rest })
  · rw [take?_none hn]
    exact echoedBy_pass hn (hnone s)

/-- Where the last token of a declaration has been taken, the end of the input may have been reached. -/
theorem local_last {l : Lexeme} (cause : SyntaxError.Cause) :
    Local free us true (expect l cause) (expect l cause) := by
  intro s
  unfold expect
  rw [bind_apply]
  rcases accept_cases l s with ⟨q, rest, hr, htake⟩ | ⟨hn, hpass⟩
  · -- the last token is taken, and nothing is asked about what follows
    rw [htake]
    refine ⟨[⟨l, q⟩], [], [], moved_take hr, fun _ => List.cons_ne_nil _ _, fun _ s' hs' => ⟨[], .inl rfl, ?_⟩⟩
    have hr' : s'.rest = ⟨l, q⟩ :: (rest ++ us) := by rw [hs', hr, List.cons_append]
    have htake' : accept? l s' = .ok (some q) { s' with rest := rest ++ us } := take?_some hr' (if_pos rfl)
    rw [bind_apply, htake']
    rfl
  · rw [hpass]
    exact echoedBy_pass (fun t ht => if_neg (hn t ht)) (local_fail cause s)

/-- Looking at what is left gives the same in both runs, unless the first is at the end. -/
theorem local_look {g : List Token → Bool} (hg : ∀ t ts, g (t :: ts ++ us) = g (t :: ts)) {k k' : Bool → Parser α}
    (h : ∀ b, Local free us ends (k b) (k' b)) :
    Local free us ends ((fun s => .ok (g s.rest) s : Parser Bool) >>= k)
      ((fun s => .ok (g s.rest) s : Parser Bool) >>= k') := by
  intro s
  refine echoedBy_of_moved (moved_refl s) (fun hne s' hs' => ⟨[], .inl rfl, ?_⟩) (h _ s)
  obtain ⟨t, rest, hr⟩ := List.exists_cons_of_ne_nil hne
  have hsame : g s'.rest = g s.rest := by rw [hs', hr, hg]
  change k' (g s'.rest) s' = k' (g s.rest) (s'.after (s.rest ++ us) [] [])
  rw [hsame, ← hs']
  rfl

theorem local_nextIs (l : Lexeme) {k k' : Bool → Parser α} (h : ∀ b, Local free us ends (k b) (k' b)) :
    Local free us ends (nextIs l >>= k) (nextIs l >>= k') :=
  local_look (g := fun ts => ts.head?.any fun t : Token => t.lexeme = l) (fun _ _ => rfl) h

end token

/-- An `else` that is not there does not come with the tokens behind either. -/
theorem local_orElse {k k' : α → Option Pos → Parser β} (hus : NotNext (.keyword .kwElse) us)
    (hp : Local free us true p p') (hsome : ∀ a q, Local free us true (k a (some q)) (k' a (some q)))
    (hnone : ∀ a, ∃ b, k a none = pure b ∧ k' a none = pure b) :
    Local free us true (p >>= fun a => accept? (.keyword .kwElse) >>= k a)
      (p' >>= fun a => accept? (.keyword .kwElse) >>= k' a) := by
  intro s
  have hs := hp s
  rw [bind_apply]
  match hrun : p s, hs with
  | .error .exhausted t, _ => trivial
  | .error .failed t, ⟨ts, es, ls, hmoved, hecho⟩ =>
    refine ⟨ts, es, ls, hmoved, fun hne s' hs' => ?_⟩
    obtain ⟨es', hes', hrun'⟩ := hecho hne s' hs'
    exact ⟨es', hes', by rw [bind_apply, hrun']⟩
  | .ok a t, ⟨ts, es, ls, hmoved, hends, hecho⟩ =>
    obtain ⟨b, hb, hb'⟩ := hnone a
    change EchoedBy free us true s _ ((accept? (.keyword .kwElse) >>= k a) t)
    rw [bind_apply]
    rcases accept_cases (.keyword .kwElse) t with ⟨q, rest, hr, htake⟩ | ⟨hn, hpass⟩
    · have hthen : EchoedBy free us true t (accept? (.keyword .kwElse) >>= k' a) (k a (some q) { t with rest }) :=
        echoedBy_take hr (if_pos rfl) (hsome a q { t with rest })
      rw [htake]
      refine echoedBy_of_moved hmoved (fun _ s' hs' => ?_) hthen
      obtain ⟨es', hes', hrun'⟩ := hecho (.inr rfl) s' hs'
      exact ⟨es', hes', by rw [bind_apply, hrun']⟩
    · -- the first run takes no `else`, and neither does the second, which may be at the tokens behind
      rw [hpass]
      change EchoedBy free us true s _ (k a none t)
      rw [hb]
      refine ⟨ts, es, ls, hmoved, hends, fun _ s' hs' => ?_⟩
      obtain ⟨es', hes', hrun'⟩ := hecho (.inr rfl) s' hs'
      have hn' : NotNext (.keyword .kwElse) (t.rest ++ us) := by
        cases hr : t.rest with
        | nil => exact hus
        | cons u rest =>
          rw [hr] at hn
          exact hn
      have hpass' : accept? (.keyword .kwElse) (s'.after (t.rest ++ us) es' ls) =
          .ok none (s'.after (t.rest ++ us) es' ls) := take?_none fun u hu => if_neg (hn' u hu)
      refine ⟨es', hes', ?_⟩
      rw [bind_apply, hrun']
      change (accept? (.keyword .kwElse) >>= k' a) _ = _
      rw [bind_apply, hpass']
      change k' a none _ = _
      rw [hb']
      rfl

theorem local_reportHere {cause : SyntaxError.Cause} {k k' : Unit → Parser α}
    (h : Local free us ends (k ()) (k' ())) : Local free us ends (reportHere cause >>= k) (reportHere cause >>= k') := by
  intro s
  refine echoedBy_of_moved (moved_report s cause s.site) (fun hne s' hs' => ?_) (h (s.report cause s.site))
  refine ⟨[⟨cause, s.site⟩], .inl rfl, ?_⟩
  have hsite : s'.site = s.site := site_append hne hs'
  change k' () (s'.report cause s'.site) = k' () (s'.after (s.rest ++ us) [⟨cause, s.site⟩] [])
  rw [hsite, ← hs']
  rfl

section remark

variable {cause : SyntaxError.Cause} {t : Token} {k k' : Unit → Parser α}

theorem local_report (h : Local free us ends (k ()) (k' ())) :
    Local free us ends (report cause (.token t) >>= k) (report cause (.token t) >>= k') := by
  intro s
  refine echoedBy_of_moved (moved_report s cause _) (fun _ s' hs' => ⟨[⟨cause, .token t⟩], .inl rfl, ?_⟩)
    (h (s.report cause _))
  change k' () (s'.report cause _) = k' () (s'.after (s.rest ++ us) [⟨cause, .token t⟩] [])
  rw [← hs']
  rfl

/-- Where remarks are free, one of the parsers may make one that the other does not. -/
theorem local_reportOnce (hfree : free) (h : Local free us ends (k ()) p') :
    Local free us ends (report cause (.token t) >>= k) p' := by
  intro s
  refine echoedBy_of_moved (moved_report s cause _) (fun _ s' hs' => ⟨[], .inr hfree, ?_⟩)
    (h (s.report cause _))
  change p' s' = p' (s'.after (s.rest ++ us) [] [])
  rw [← hs']
  rfl

theorem local_reportOther (hfree : free) (h : Local free us ends p (k ())) :
    Local free us ends p (report cause (.token t) >>= k) := by
  intro s
  refine echoedBy_of_moved (moved_refl s) (fun _ s' hs' => ⟨[⟨cause, .token t⟩], .inr hfree, ?_⟩) (h s)
  change k () (s'.report cause _) = k () (s'.after (s.rest ++ us) [⟨cause, .token t⟩] [])
  rw [← hs']
  rfl

end remark

/-- To be local follows the structure of the grammar, if no `else` comes behind. -/
theorem local_compositional (free : Prop) (hus : NotNext (.keyword .kwElse) us) :
    Compositional (fun _ => True) free fun ends _ {_} => Local free us ends where
  opens := local_opens
  done := local_pure
  finish f := local_finish f
  seq := local_seq
  fails _ := local_fail _
  exhausts _ := local_exhausted
  take hsome hnone := local_take (fun t b hb => hsome t b hb trivial) hnone
  last _ _ := local_last _
  orElse := local_orElse hus
  looks := local_nextIs _
  looksForEnd h := local_look (g := List.isEmpty) (fun _ _ => rfl) h
  remarksHere _ := local_reportHere
  remarks _ _ := local_report
  remarksOnce hfree _ _ := local_reportOnce hfree
  remarksOther hfree _ _ := local_reportOther hfree

/-- If parsing goes on before the end of the input, it goes on at the same token, whatever follows. -/
theorem skipFrom_append {t : Token} {ts : List Token} (h : skipFrom t ts ≠ []) (us : List Token) :
    skipFrom t (ts ++ us) = skipFrom t ts ++ us := by
  induction ts generalizing t with
  | nil => exact absurd rfl h
  | cons u ts ih =>
    rw [List.cons_append]
    unfold skipFrom at h ⊢
    split
    · rfl
    · rename_i hgo
      rw [if_neg hgo] at h
      exact ih h

/-- The tokens behind do not matter if the tokens to go on with are found before them. -/
theorem skip_append {ts : List Token} (h : skip ts ≠ []) (us : List Token) : skip (ts ++ us) = skip ts ++ us := by
  cases ts with
  | nil => exact absurd rfl h
  | cons t ts => exact skipFrom_append h us

/-- So the state in which parsing goes on is the same but for the tokens behind. -/
theorem resume_append {s s' : State} (h : skip s.rest ≠ []) (hs' : s'.rest = s.rest ++ us) :
    s'.resume = s'.after (skip s.rest ++ us) [] [s.resume.site.pos.line] := by
  have hskip : skip s'.rest = skip s.rest ++ us := by
    rw [hs']
    exact skip_append h us
  have hsite : ({ s' with rest := skip s'.rest } : State).site = s.resume.site :=
    site_append (s := s.resume) h hskip
  calc s'.resume
    _ = s'.after (skip s'.rest) [] [({ s' with rest := skip s'.rest } : State).site.pos.line] := rfl
    _ = _ := by rw [hsite, hskip]

/-- A parser that goes on after an error does so in the same way with more behind. The first may also refuse to. -/
theorem local_recovering {q : Parser (Option α)}
    (hq : ∀ s, q s = recovering p s ∨ ∃ t, q s = .error .exhausted t) (h : Local free us true p p') :
    Local free us false q (recovering p') := by
  intro s
  rcases hq s with hrun | ⟨t, hrun⟩
  · rw [hrun]
    have hs := h s
    unfold recovering
    match p s, hs with
    | .error .exhausted t, _ => trivial
    | .ok a t, ⟨ts, es, ls, hmoved, _, hecho⟩ =>
      refine ⟨ts, es, ls, hmoved, nofun, fun _ s' hs' => ?_⟩
      obtain ⟨es', hes', hrun'⟩ := hecho (.inr rfl) s' hs'
      exact ⟨es', hes', by simp only [hrun']⟩
    | .error .failed t, ⟨ts, es, ls, hmoved, hecho⟩ =>
      obtain ⟨vs, hresume⟩ := moved_resume t
      refine ⟨ts ++ vs, [] ++ es, _, moved_trans hmoved hresume, nofun, fun hor s' hs' => ?_⟩
      have hskip : skip t.rest ≠ [] := hor.resolve_right nofun
      have hne : t.rest ≠ [] := by
        rintro hnil
        rw [hnil] at hskip
        exact hskip rfl
      obtain ⟨es', hes', hrun'⟩ := hecho hne s' hs'
      refine ⟨es', hes', ?_⟩
      simp only [hrun']
      rw [resume_append (s := t) hskip rfl]
      rfl
  · rw [hrun]
    trivial

/-- The parsers at a bound do the same as those at a larger one, with more tokens behind. -/
theorem local_of_le (free : Prop) (hus : NotNext (.keyword .kwElse) us) {bound bound' : Nat} (hb : bound ≤ bound') :
    (innerAt bound).Related (fun _ => True) free (fun ends _ {_} => Local free us ends) (innerAt bound') := by
  induction bound generalizing bound' with
  | zero => exact ⟨hb, fun _ => local_exhausted, fun _ _ _ => local_exhausted⟩
  | succ bound ih =>
    obtain ⟨bound', rfl⟩ : ∃ j, bound' = j + 1 := ⟨bound' - 1, by omega⟩
    have hp := ih (Nat.le_of_succ_le_succ hb)
    have hT := local_compositional free hus
    refine ⟨hb, fun hc => hp.anyStatement hT hc, fun _ _ hc => ?_⟩
    exact local_recovering (fun s => .inl rfl) (hp.strictDeclaration hT hc)

end Lox.Parser
