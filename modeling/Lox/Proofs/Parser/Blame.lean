import Lox.Proofs.Parser.Locality

/-! What a parser reports. Each time it gives up there is exactly one fatal error, at the token where it gave up; all
others are remarks. Errors are blamed on tokens that were there to be parsed, and on the end of the input only by a
parser that came to it. -/
namespace Lox.Parser

variable {α β : Type} {K : Token → Prop} {ends : Bool} {n m : Int} {p : Parser α}

def bracesOf : List Token → Int
  | [] => 0
  | t :: ts => t.lexeme.braces + bracesOf ts

@[simp]
theorem bracesOf_nil : bracesOf [] = 0 := rfl

@[simp]
theorem bracesOf_cons (t : Token) (ts : List Token) : bracesOf (t :: ts) = t.lexeme.braces + bracesOf ts := rfl

@[simp]
theorem bracesOf_append (ts us : List Token) : bracesOf (ts ++ us) = bracesOf ts + bracesOf us := by
  induction ts with
  | nil => simp
  | cons t ts ih => rw [List.cons_append, bracesOf_cons, bracesOf_cons, ih, Int.add_assoc]

def fatals (es : List SyntaxError) : Nat := es.countP (·.cause.isFatal)

theorem fatals_cons {cause : SyntaxError.Cause} (hc : cause.isFatal = true) (site : SyntaxError.Site)
    (es : List SyntaxError) : fatals (⟨cause, site⟩ :: es) = fatals es + 1 := by
  simp [fatals, hc]

/-- What has been reported on the way to `t`, where parsing went on after an error on the lines `ls`. That takes a
parser of declarations, which is used behind an opening brace. -/
structure State.Reported (K : Token → Prop) (t : State) (es : List SyntaxError) (ls : List Nat) : Prop where
  blamed : ∀ e ∈ es, (∃ x, e.site = .token x ∧ K x) ∨ t.rest = []
  fatal : fatals es = ls.length
  brace : ls ≠ [] → ∃ q, K ⟨.punct .leftBrace, q⟩

theorem reported_nil (t : State) : t.Reported K [] [] :=
  ⟨fun _ he => absurd he List.not_mem_nil, rfl, fun h => absurd rfl h⟩

/-- What is reported on two stretches is reported on the whole way. -/
theorem reported_append {s t : State} {ts : List Token} {es es' : List SyntaxError} {ls ls' : List Nat}
    (h : s.Reported K es ls) (h' : t.Reported K es' ls') (hrest : s.rest = ts ++ t.rest) :
    t.Reported K (es' ++ es) (ls' ++ ls) := by
  refine ⟨fun e he => ?_, ?_, fun hne => ?_⟩
  · rcases List.mem_append.mp he with he | he
    · exact h'.blamed e he
    · rcases h.blamed e he with hx | hnil
      · exact .inl hx
      · rw [hnil] at hrest
        exact .inr (List.append_eq_nil_iff.mp hrest.symm).2
  · have hfatal := h.fatal
    have hfatal' := h'.fatal
    rw [fatals] at hfatal hfatal' ⊢
    rw [List.countP_append, List.length_append, hfatal, hfatal']
  · by_cases hnil : ls = []
    · refine h'.brace fun hnil' => hne ?_
      rw [hnil, hnil']
      rfl
    · exact h.brace hnil

/-- A remark at a token, or at the end of the input by a parser that has come to it. -/
theorem reported_remark {t : State} {cause : SyntaxError.Cause} {site : SyntaxError.Site}
    (hc : cause.isFatal = false) (hsite : (∃ x, site = .token x ∧ K x) ∨ t.rest = []) :
    t.Reported K [⟨cause, site⟩] [] := by
  refine ⟨fun e he => ?_, ?_, fun h => absurd rfl h⟩
  · rw [List.mem_singleton] at he
    rw [he]
    exact hsite
  · simp [fatals, hc]

/-- The place of an error that is found now. -/
theorem site_blamed {s : State} (hK : ∀ t ∈ s.rest, K t) : (∃ x, s.site = .token x ∧ K x) ∨ s.rest = [] := by
  cases hr : s.rest with
  | nil => exact .inr rfl
  | cons t rest =>
    rw [hr] at hK
    exact .inl ⟨t, by simp [State.site, hr], hK t List.mem_cons_self⟩

def Conducted (K : Token → Prop) (ends : Bool) (n : Int) (s : State) : EStateM.Result Stop State α → Prop
  | .ok _ t => ∃ ts es ls, s.Moved t ts es ls ∧ t.Reported K es ls ∧ bracesOf ts = n ∧
    (ends = true → ∃ us x, ts = us ++ [x] ∧ x.lexeme.IsEnd)
  | .error .failed t => ∃ ts cause es ls, s.Moved t ts (⟨cause, t.site⟩ :: es) ls ∧ cause.isFatal = true ∧
    t.Reported K es ls
  | .error .exhausted _ => True

/-- What `p` does on tokens of which `K` is known: it changes the number of open braces by `n`, and it ends with the
last token of a declaration if `ends` is true. -/
def Conducts (K : Token → Prop) (ends : Bool) (n : Int) (p : Parser α) : Prop :=
  ∀ s, (∀ t ∈ s.rest, K t) → Conducted K ends n s (p s)

/-- A run that goes on after a first stretch says the same about the whole way. -/
theorem conducted_of_moved {s t : State} {ts : List Token} {es : List SyntaxError} {ls : List Nat}
    {r : EStateM.Result Stop State α} (hmoved : s.Moved t ts es ls) (hreported : t.Reported K es ls)
    (hn : bracesOf ts + m = n) (h : Conducted K ends m t r) : Conducted K ends n s r := by
  match r, h with
  | .ok a u, ⟨ts', es', ls', hmoved', hreported', hm, hends⟩ =>
    refine ⟨ts ++ ts', es' ++ es, ls' ++ ls, moved_trans hmoved hmoved',
      reported_append hreported hreported' hmoved'.rest, by rw [bracesOf_append, hm, hn], fun he => ?_⟩
    obtain ⟨us, x, hus, hx⟩ := hends he
    exact ⟨ts ++ us, x, by rw [hus, List.append_assoc], hx⟩
  | .error .failed u, ⟨ts', cause, es', ls', hmoved', hc, hreported'⟩ =>
    exact ⟨ts ++ ts', cause, es' ++ es, ls' ++ ls, moved_trans hmoved hmoved', hc,
      reported_append hreported hreported' hmoved'.rest⟩
  | .error .exhausted u, _ => trivial

theorem known_of_moved {s t : State} {ts : List Token} {es : List SyntaxError} {ls : List Nat}
    (hmoved : s.Moved t ts es ls) (hK : ∀ x ∈ s.rest, K x) : ∀ x ∈ t.rest, K x := by
  intro x hx
  apply hK x
  rw [hmoved.rest]
  exact List.mem_append_right ts hx

theorem conducts_opens (h : Conducts K true n p) : Conducts K false n p := by
  intro s hK
  have hs := h s hK
  match p s, hs with
  | .ok a t, ⟨ts, es, ls, hmoved, hreported, hn, _⟩ => exact ⟨ts, es, ls, hmoved, hreported, hn, nofun⟩
  | .error .failed t, hs => exact hs
  | .error .exhausted t, _ => trivial

theorem conducts_pure (a : α) : Conducts K false 0 (pure a) :=
  fun s _ => ⟨[], [], [], moved_refl s, reported_nil s, rfl, nofun⟩

theorem conducts_seq {k : α → Parser β} (hp : Conducts K false 0 p) (hk : ∀ a, Conducts K ends n (k a)) :
    Conducts K ends n (p >>= k) := by
  intro s hK
  have hs := hp s hK
  rw [bind_apply]
  match p s, hs with
  | .error .exhausted t, _ => trivial
  | .error .failed t, hs => exact hs
  | .ok a t, ⟨ts, es, ls, hmoved, hreported, hn, _⟩ =>
    exact conducted_of_moved hmoved hreported (by rw [hn, Int.zero_add]) (hk a t (known_of_moved hmoved hK))

theorem conducts_finish (f : α → β) (hp : Conducts K ends n p) : Conducts K ends n (p >>= fun a => pure (f a)) := by
  intro s hK
  have hs := hp s hK
  rw [bind_apply]
  match p s, hs with
  | .error .exhausted t, _ => trivial
  | .error .failed t, hs => exact hs
  | .ok a t, hs => exact hs

/-- A parser that gives up reports one fatal error, where it stands. -/
theorem conducts_fail {cause : SyntaxError.Cause} (hc : cause.isFatal = true) :
    Conducts K ends n (fail cause : Parser α) :=
  fun s _ => ⟨[], cause, [], [], moved_report s cause s.site, hc, reported_nil _⟩

/-- A token that is taken changes the number of open braces as its lexeme says. -/
theorem conducts_take {f : Token → Option β} {k : Option β → Parser α}
    (hsome : ∀ t b, f t = some b → K t → Conducts K ends (n - t.lexeme.braces) (k (some b)))
    (hnone : Conducts K ends n (k none)) : Conducts K ends n (take? f >>= k) := by
  intro s hK
  rw [bind_apply]
  rcases next_cases f s.rest with ⟨t, rest, b, hr, hf⟩ | hpass
  · have hmoved : s.Moved { s with rest } [t] [] [] := moved_take hr
    have ht : K t := hK t (by rw [hr]; exact List.mem_cons_self)
    rw [take?_some hr hf]
    refine conducted_of_moved hmoved (reported_nil _) ?_ (hsome t b hf ht _ (known_of_moved hmoved hK))
    rw [bracesOf_cons, bracesOf_nil]
    omega
  · rw [take?_none hpass]
    exact hnone s hK

/-- The token that a declaration ends with has been taken when it is expected. -/
theorem conducts_last {l : Lexeme} {cause : SyntaxError.Cause} (hl : l.IsEnd) (hc : cause.isFatal = true) :
    Conducts K true l.braces (expect l cause) := by
  intro s hK
  unfold expect
  rw [bind_apply]
  rcases accept_cases l s with ⟨q, rest, hr, htake⟩ | ⟨-, hpass⟩
  · rw [htake]
    exact ⟨[⟨l, q⟩], [], [], moved_take hr, reported_nil _, by simp, fun _ => ⟨[], ⟨l, q⟩, rfl, hl⟩⟩
  · rw [hpass]
    exact conducts_fail hc s hK

/-- Behind a branch there may be another one; either way the last token is that of a declaration. -/
theorem conducts_orElse {k : α → Option Pos → Parser β} (hp : Conducts K true 0 p)
    (hsome : ∀ a q, Conducts K true 0 (k a (some q))) (hnone : ∀ a, ∃ b, k a none = pure b) :
    Conducts K true 0 (p >>= fun a => accept? (.keyword .kwElse) >>= k a) := by
  intro s hK
  have hs := hp s hK
  rw [bind_apply]
  match p s, hs with
  | .error .exhausted t, _ => trivial
  | .error .failed t, hs => exact hs
  | .ok a t, ⟨ts, es, ls, hmoved, hreported, hn, hends⟩ =>
    obtain ⟨b, hb⟩ := hnone a
    change Conducted K true 0 s ((accept? (.keyword .kwElse) >>= k a) t)
    rw [bind_apply]
    rcases accept_cases (.keyword .kwElse) t with ⟨q, rest, hr, htake⟩ | ⟨-, hpass⟩
    · have hmoved' : t.Moved { t with rest } [⟨.keyword .kwElse, q⟩] [] [] := moved_take hr
      have hK' := known_of_moved hmoved' (known_of_moved hmoved hK)
      have hthen : Conducted K true 0 t (k a (some q) { t with rest }) :=
        conducted_of_moved hmoved' (reported_nil _) rfl (hsome a q _ hK')
      rw [htake]
      exact conducted_of_moved hmoved hreported (by rw [hn, Int.zero_add]) hthen
    · -- without an `else` the statement before it is the last part
      rw [hpass]
      change Conducted K true 0 s (k a none t)
      rw [hb]
      exact ⟨ts, es, ls, hmoved, hreported, hn, hends⟩

theorem conducts_look {g : State → Bool} {k : Bool → Parser α} (h : ∀ b, Conducts K ends n (k b)) :
    Conducts K ends n ((fun s => .ok (g s) s : Parser Bool) >>= k) :=
  fun s hK => h (g s) s hK

theorem conducts_reportHere {cause : SyntaxError.Cause} {k : Unit → Parser α} (hc : cause.isFatal = false)
    (h : Conducts K ends n (k ())) : Conducts K ends n (reportHere cause >>= k) := by
  intro s hK
  have hmoved : s.Moved (s.report cause s.site) [] [⟨cause, s.site⟩] [] := moved_report s cause s.site
  have hreported : (s.report cause s.site).Reported K [⟨cause, s.site⟩] [] := reported_remark hc (site_blamed hK)
  exact conducted_of_moved hmoved hreported (Int.zero_add n) (h _ hK)

theorem conducts_report {cause : SyntaxError.Cause} {t : Token} {k : Unit → Parser α} (hc : cause.isFatal = false)
    (ht : K t) (h : Conducts K ends n (k ())) : Conducts K ends n (report cause (.token t) >>= k) := by
  intro s hK
  have hmoved : s.Moved (s.report cause (.token t)) [] [⟨cause, .token t⟩] [] := moved_report s cause _
  have hreported : (s.report cause (.token t)).Reported K [⟨cause, .token t⟩] [] :=
    reported_remark hc (.inl ⟨t, rfl, ht⟩)
  exact conducted_of_moved hmoved hreported (Int.zero_add n) (h _ hK)

/-- Parsers that report and count in this way follow the structure of the grammar. -/
theorem conducts_compositional :
    Compositional K True fun ends n {_} p _ => Conducts K ends n p where
  opens := conducts_opens
  done := conducts_pure
  finish f := conducts_finish f
  seq := conducts_seq
  fails hc := conducts_fail hc
  exhausts _ _ _ := trivial
  take := conducts_take
  last hl hc := conducts_last hl hc
  orElse hp hsome hnone := conducts_orElse hp hsome fun a => (hnone a).imp fun _ h => h.1
  looks h := conducts_look h
  looksForEnd h := conducts_look h
  remarksHere hc h := conducts_reportHere hc h
  remarks hc ht h := conducts_report hc ht h
  remarksOnce _ hc ht h := conducts_report hc ht h
  remarksOther _ _ _ h := h

/-- On tokens without an opening brace no parser of declarations is used. -/
theorem conducts_of_no_brace (hK : ∀ q, ¬ K ⟨.punct .leftBrace, q⟩) (bound : Nat) :
    (innerAt bound).Related K True (fun ends n {_} p _ => Conducts K ends n p) (innerAt bound) := by
  induction bound with
  | zero => exact ⟨Nat.le_refl _, fun _ _ _ => trivial, fun q hq => absurd hq (hK q)⟩
  | succ bound ih =>
    exact ⟨Nat.le_refl _, fun hc => ih.anyStatement conducts_compositional hc, fun q hq => absurd hq (hK q)⟩

end Lox.Parser
