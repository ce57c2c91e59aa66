import Lox.Proofs.Parser.StmtSound
import Lox.Proofs.Syntax.Alike

/-! Parsing with more behind. A parser that has parsed some tokens without an error parses the same tokens at other
places in the same way if more tokens follow, as long as it has not looked at the end of the input. An open parser may
have done so when it has taken all tokens; a closed one ends with a token of its own. -/
namespace Lox

variable {α β γ : Type} {P : Pos → Pos → Prop} {us : List Token}

def Token.Alike (P : Pos → Pos → Prop) (t t' : Token) : Prop := t'.lexeme = t.lexeme ∧ P t.pos t'.pos

namespace Parser

open Grammar (NotNext)

/-- In the second state the tokens of the first one are left, at other places, and then the tokens `us`; and no error
has been found. -/
structure State.Extended (P : Pos → Pos → Prop) (us : List Token) (s s' : State) : Prop where
  rest : ∃ ts, List.Forall₂ (Token.Alike P) s.rest ts ∧ s'.rest = ts ++ us
  errors : s'.errors = []

/-- What a result of a parser that started in `s` says about the parser `p'`. If no error was reported, at least `m`
tokens were taken; and `p'` does the same where more tokens follow, unless the first parser is `open` and has come
to the end. -/
def Extends (P : Pos → Pos → Prop) (us : List Token) (m : Nat) (o : Prop) (R : α → α → Prop) (s : State)
    (p' : Parser α) : EStateM.Result Stop State α → Prop
  | .ok a t => ∃ ts, s.Took ts t ∧ (t.errors = s.errors → m ≤ ts.length ∧ ((o → t.rest = [] → us = []) →
      ∀ s', State.Extended P us s s' → ∃ a' t', p' s' = .ok a' t' ∧ R a a' ∧ State.Extended P us t t'))
  | .error .failed t => s.Failed t
  | .error .exhausted _ => True

def Carries (P : Pos → Pos → Prop) (us : List Token) (m : Nat) (o : Prop) (R : α → α → Prop) (p p' : Parser α) : Prop :=
  ∀ s, Extends P us m o R s p' (p s)

variable {m m' m₁ : Nat} {o o' o₁ : Prop} {R R' : α → α → Prop} {S : β → β → Prop} {p p' : Parser α}

/-- At the end nothing can be taken. -/
theorem took_nil {s t : State} {ts : List Token} (h : s.Took ts t) (hnil : s.rest = []) : ts = [] ∧ t.rest = [] := by
  have hrest := h.rest
  rw [hnil] at hrest
  exact List.append_eq_nil_iff.mp hrest.symm

/-- The second parser may be any that does the same where more tokens follow. It is asked for only if the first parser
has taken what it should and has not come to an end that matters. -/
theorem extends_congr {q' : Parser α} {s : State} {r : EStateM.Result Stop State α} (h : Extends P us m o R s p' r)
    (hq : ∀ a t ts s', r = .ok a t → s.Took ts t → m ≤ ts.length → (o → t.rest = [] → us = []) →
      State.Extended P us s s' → q' s' = p' s') : Extends P us m o R s q' r := by
  match r, h with
  | .ok a t, ⟨ts, htook, hclean⟩ =>
    refine ⟨ts, htook, fun he => ⟨(hclean he).1, fun hend s' hs' => ?_⟩⟩
    rw [hq a t ts s' rfl htook (hclean he).1 hend hs']
    exact (hclean he).2 hend s' hs'
  | .error .failed t, h => exact h
  | .error .exhausted t, _ => trivial

theorem carries_mono (h : Carries P us m o R p p') (hm : m' ≤ m) (ho : o → o') (hR : ∀ a a', R a a' → R' a a') :
    Carries P us m' o' R' p p' := by
  intro s
  have hs := h s
  match p s, hs with
  | .ok a t, ⟨ts, htook, hclean⟩ =>
    refine ⟨ts, htook, fun he => ⟨Nat.le_trans hm (hclean he).1, fun hend s' hs' => ?_⟩⟩
    obtain ⟨a', t', hrun, ha, ht⟩ := (hclean he).2 (fun h => hend (ho h)) s' hs'
    exact ⟨a', t', hrun, hR a a' ha, ht⟩
  | .error .failed t, hs => exact hs
  | .error .exhausted t, _ => trivial

theorem carries_least (hm : m' ≤ m) (h : Carries P us m o R p p') : Carries P us m' o R p p' :=
  carries_mono h hm id fun _ _ ha => ha

/-- A closed parser is one that may be open. -/
theorem carries_open (h : Carries P us m False R p p') : Carries P us 0 o R p p' :=
  carries_mono h (Nat.zero_le m) False.elim fun _ _ ha => ha

/-- Two parsers in a row. The first one may be open if the second one takes a token, or is open itself. -/
theorem carries_bind_of {k k' : α → Parser β} (hp : Carries P us m₁ o₁ R p p') (ho : o₁ → o ∨ m₁ < m)
    (hk : ∀ a a', R a a' ∨ a' = a → Carries P us (m - m₁) o (fun b b' => R a a' → S b b') (k a) (k' a')) :
    Carries P us m o S (p >>= k) (p' >>= k') := by
  intro s
  have hs := hp s
  rw [bind_apply]
  match p s, hs with
  | .error .failed t, hs => exact hs
  | .error .exhausted t, _ => trivial
  | .ok a t, ⟨ts, htook, hclean⟩ =>
    have hself := hk a a (.inr rfl) t
    dsimp only
    cases hres : k a t with
    | error e t₂ =>
      rw [hres] at hself
      cases e with
      | failed => exact failed_of_took htook hself
      | exhausted => trivial
    | ok b t₂ =>
      rw [hres] at hself
      obtain ⟨vs, htook₂, hclean₂⟩ := hself
      refine ⟨ts ++ vs, took_trans htook htook₂, fun he => ?_⟩
      obtain ⟨he₁, he₂⟩ := took_clean htook htook₂ he
      have hm₁ := (hclean he₁).1
      have hm₂ := (hclean₂ he₂).1
      refine ⟨by rw [List.length_append]; omega, fun hend s' hs' => ?_⟩
      -- if the first parser came to the end, the second one has taken nothing and is at the end as well
      have hend₁ (h₁ : o₁) (hnil : t.rest = []) : us = [] := by
        obtain ⟨hvs, ht₂⟩ := took_nil htook₂ hnil
        rw [hvs, List.length_nil] at hm₂
        rcases ho h₁ with h | h
        · exact hend h ht₂
        · omega
      obtain ⟨a', t', hrun, ha, ht⟩ := (hclean he₁).2 hend₁ s' hs'
      have hrel := hk a a' (.inl ha) t
      rw [hres] at hrel
      obtain ⟨_, _, hclean₃⟩ := hrel
      obtain ⟨b', t₂', hrun₂, hb, ht₂⟩ := (hclean₃ he₂).2 hend t' ht
      refine ⟨b', t₂', ?_, hb ha, ht₂⟩
      rw [bind_apply, hrun]
      exact hrun₂

/-- One parser after the other. The first may come to the end if the second takes a token. -/
theorem carries_bind {k k' : α → Parser β} (hp : Carries P us m₁ o₁ R p p') (ho : o₁ → o ∨ m₁ < m)
    (hk : ∀ a a', Carries P us (m - m₁) o (fun b b' => R a a' → S b b') (k a) (k' a')) :
    Carries P us m o S (p >>= k) (p' >>= k') :=
  carries_bind_of hp ho fun a a' _ => hk a a'

theorem carries_pure {a a' : α} (ha : R a a') : Carries P us 0 o R (pure a) (pure a') :=
  fun _ => ⟨[], ⟨rfl, List.suffix_refl _⟩, fun _ => ⟨Nat.le_refl _, fun _ s' hs' => ⟨a', s', rfl, ha, hs'⟩⟩⟩

theorem carries_map {f f' : α → β} (h : Carries P us m o (fun a a' => S (f a) (f' a')) p p') :
    Carries P us m o S (f <$> p) (f' <$> p') := by
  rw [map_eq_pure_bind, map_eq_pure_bind]
  refine carries_bind h .inl fun a a' => ?_
  rw [Nat.sub_self]
  exact carries_pure fun ha => ha

theorem carries_map_bind {f f' : α → γ} {k k' : γ → Parser β} (hp : Carries P us m₁ o₁ R p p') (ho : o₁ → o ∨ m₁ < m)
    (hk : ∀ a a', Carries P us (m - m₁) o (fun b b' => R a a' → S b b') (k (f a)) (k' (f' a'))) :
    Carries P us m o S (f <$> p >>= k) (f' <$> p' >>= k') := by
  rw [bind_map_left, bind_map_left]
  exact carries_bind hp ho hk

theorem carries_pure_bind {a a' : α} {k k' : α → Parser β} (h : Carries P us m o S (k a) (k' a')) :
    Carries P us m o S (pure a >>= k) (pure a' >>= k') := by
  rwa [pure_bind, pure_bind]

/-- Of a parser that gives up nothing is claimed. -/
theorem carries_fail (cause : SyntaxError.Cause) : Carries P us m o R (fail cause) p' :=
  fun _ => ⟨List.suffix_refl _, List.suffix_cons _ _, Nat.lt_succ_self _⟩

theorem carries_exhausted : Carries P us m o R exhausted p' := fun _ => trivial

/-- After a report nothing has to be said about the other parser. -/
theorem carries_report (cause : SyntaxError.Cause) (site : SyntaxError.Site) {k : Unit → Parser α} {q q' : Parser α}
    (hk : Carries P us m o R (k ()) q) : Carries P us m' o' R' (report cause site >>= k) q' := by
  intro s
  have hs := hk (s.report cause site)
  have hreport : s.Took [] (s.report cause site) := ⟨rfl, List.suffix_cons _ _⟩
  change Extends P us m' o' R' s q' (k () (s.report cause site))
  match k () (s.report cause site), hs with
  | .ok a t, ⟨ts, htook, _⟩ =>
    refine ⟨[] ++ ts, took_trans hreport htook, fun he => ?_⟩
    have hl := congrArg List.length (took_clean hreport htook he).1
    rw [State.report, List.length_cons] at hl
    omega
  | .error .failed t, hs => exact failed_of_took hreport hs
  | .error .exhausted t, _ => trivial

theorem carries_reportHere (cause : SyntaxError.Cause) {k : Unit → Parser α} {q q' : Parser α}
    (hk : Carries P us m o R (k ()) q) : Carries P us m' o' R' (reportHere cause >>= k) q' :=
  fun s => carries_report cause s.site hk s

section token

variable {f : Token → Option γ} {T : γ → γ → Prop}

/-- A token that is taken has its counterpart, which is taken too. -/
theorem take?_extended_some {s s' : State} {t : Token} {rest : List Token} {b : γ} (hs : State.Extended P us s s')
    (hr : s.rest = t :: rest) (hf : ∀ t t' : Token, t.Alike P t' → Option.Rel T (f t) (f t')) (hb : f t = some b) :
    ∃ b' t', take? f s' = .ok (some b') t' ∧ T b b' ∧ State.Extended P us { s with rest } t' := by
  obtain ⟨⟨ts, hts, hrest⟩, herrors⟩ := hs
  rw [hr] at hts
  cases hts with
  | @cons _ t' _ ts ht hts =>
    have hrel := hf t t' ht
    rw [hb] at hrel
    cases hb' : f t' with
    | none =>
      rw [hb'] at hrel
      cases hrel
    | some b' =>
      rw [hb'] at hrel
      cases hrel with
      | some hrel => exact ⟨b', _, take?_some hrest hb', hrel, ⟨ts, hts, rfl⟩, herrors⟩

/-- If no token is taken, none is taken where more tokens follow, unless the first state is at its end. -/
theorem take?_extended_none {s s' : State} (hs : State.Extended P us s s')
    (hf : ∀ t t' : Token, t.Alike P t' → Option.Rel T (f t) (f t')) (hn : ∀ t, s.rest.head? = some t → f t = none)
    (hend : s.rest = [] → ∀ t, us.head? = some t → f t = none) : take? f s' = .ok none s' := by
  obtain ⟨⟨ts, hts, hrest⟩, -⟩ := hs
  refine take?_none fun t' ht' => ?_
  rw [hrest] at ht'
  generalize hr : s.rest = rest at hts hn hend
  cases hts with
  | nil => exact hend rfl t' ht'
  | @cons t _ _ ts ht _ =>
    cases ht'
    have hrel := hf t t' ht
    rw [hn t rfl] at hrel
    cases hb : f t' with
    | none => rfl
    | some b =>
      rw [hb] at hrel
      cases hrel

variable {k k' : Option γ → Parser α} {s : State}

/-- The first parser has found no token that it is interested in. If it is at the end, the second parser may find one;
so it must be open, take a token anyway, or not be interested in that token. -/
theorem extends_take_none (hf : ∀ t t' : Token, t.Alike P t' → Option.Rel T (f t) (f t'))
    (hend : o ∨ 0 < m ∨ ∀ t, us.head? = some t → f t = none) (hn : ∀ t, s.rest.head? = some t → f t = none)
    (hnone : Carries P us m o R (k none) (k' none)) : Extends P us m o R s (take? f >>= k') ((take? f >>= k) s) := by
  rw [bind_apply, take?_none hn]
  apply extends_congr (hnone s)
  intro a t ts s' _ htook hm hopen hs'
  have hrun : take? f s' = .ok none s' := by
    apply take?_extended_none hs' hf hn
    intro hnil u hu
    obtain ⟨hts, ht⟩ := took_nil htook hnil
    rw [hts, List.length_nil] at hm
    rcases hend with ho | hpos | hus
    · rw [hopen ho ht] at hu
      cases hu
    · omega
    · exact hus u hu
  rw [bind_apply, hrun]

/-- The first parser has found a token, and so does the second. -/
theorem extends_take_some {t : Token} {rest : List Token} {b : γ}
    (hf : ∀ t t' : Token, t.Alike P t' → Option.Rel T (f t) (f t')) (hr : s.rest = t :: rest) (hb : f t = some b)
    (hsome : ∀ b b', Carries P us (m - 1) o (fun a a' => T b b' → R a a') (k (some b)) (k' (some b'))) :
    Extends P us m o R s (take? f >>= k') ((take? f >>= k) s) := by
  have htake : s.Took [t] { s with rest } := ⟨hr, List.suffix_refl _⟩
  rw [bind_apply, take?_some hr hb]
  change Extends P us m o R s _ (k (some b) { s with rest })
  have hs := hsome b b { s with rest }
  cases hres : k (some b) { s with rest } with
  | error e t₂ =>
    rw [hres] at hs
    cases e with
    | failed => exact failed_of_took htake hs
    | exhausted => trivial
  | ok a t₂ =>
    rw [hres] at hs
    obtain ⟨ts, htook, hclean⟩ := hs
    refine ⟨[t] ++ ts, took_trans htake htook, fun he => ?_⟩
    have hm := (hclean he).1
    refine ⟨by rw [List.length_append, List.length_singleton]; omega, fun hopen s' hs' => ?_⟩
    obtain ⟨b', s₂', hrun, hbb, hs₂'⟩ := take?_extended_some hs' hr hf hb
    -- the run from here on is known for what the first parser has found; now it is asked about what the second has
    have hrel := hsome b b' { s with rest }
    rw [hres] at hrel
    obtain ⟨_, _, hclean'⟩ := hrel
    obtain ⟨a', t', hk, ha, ht'⟩ := (hclean' he).2 hopen s₂' hs₂'
    refine ⟨a', t', ?_, ha hbb, ht'⟩
    rw [bind_apply, hrun]
    exact hk

/-- The two ways on after looking at the next token. -/
theorem carries_take (hf : ∀ t t' : Token, t.Alike P t' → Option.Rel T (f t) (f t'))
    (hend : o ∨ 0 < m ∨ ∀ t, us.head? = some t → f t = none)
    (hsome : ∀ b b', Carries P us (m - 1) o (fun a a' => T b b' → R a a') (k (some b)) (k' (some b')))
    (hnone : Carries P us m o R (k none) (k' none)) : Carries P us m o R (take? f >>= k) (take? f >>= k') := by
  intro s
  by_cases hn : ∀ t, s.rest.head? = some t → f t = none
  · exact extends_take_none hf hend hn hnone
  · simp only [not_forall] at hn
    obtain ⟨t, ht, hft⟩ := hn
    obtain ⟨rest, hr⟩ := List.head?_eq_some_iff.mp ht
    obtain ⟨b, hb⟩ := Option.ne_none_iff_exists'.mp hft
    exact extends_take_some hf hr hb hsome

theorem accept_alike (l : Lexeme) (t t' : Token) (ht : t.Alike P t') :
    Option.Rel P (if t.lexeme = l then some t.pos else none) (if t'.lexeme = l then some t'.pos else none) := by
  rw [ht.1]
  split
  · exact .some ht.2
  · exact .none

/-- Whether a token comes next is the same, unless the parser is at the end. -/
theorem carries_accept {l : Lexeme} {k k' : Option Pos → Parser α}
    (hend : o ∨ 0 < m ∨ NotNext l us)
    (hsome : ∀ q q', Carries P us (m - 1) o (fun a a' => P q q' → R a a') (k (some q)) (k' (some q')))
    (hnone : Carries P us m o R (k none) (k' none)) : Carries P us m o R (accept? l >>= k) (accept? l >>= k') := by
  refine carries_take (accept_alike l) ?_ hsome hnone
  rcases hend with ho | hpos | hus
  · exact .inl ho
  · exact .inr (.inl hpos)
  · exact .inr (.inr fun t ht => if_neg (hus t ht))

theorem carries_expect {l : Lexeme} {cause : SyntaxError.Cause} {k k' : Pos → Parser α}
    (h : ∀ q q', Carries P us (m - 1) o (fun a a' => P q q' → R a a') (k q) (k' q')) :
    Carries P us m o R (expect l cause >>= k) (expect l cause >>= k') := by
  have hexpect : Carries P us 1 False P (expect l cause) (expect l cause) :=
    carries_accept (.inr (.inl Nat.one_pos)) (fun q q' => carries_pure fun hq => hq) (carries_fail cause)
  exact carries_bind hexpect False.elim h

/-- An open parser up to a token that ends it. -/
theorem carries_until {l : Lexeme} {cause : SyntaxError.Cause} {k k' : α → Pos → Parser β}
    (hp : Carries P us 0 True R p p')
    (hk : ∀ a a' q q', Carries P us (m - 1) o (fun b b' => P q q' → R a a' → S b b') (k a q) (k' a' q')) :
    Carries P us m o S (p >>= fun a => expect l cause >>= k a) (p' >>= fun a => expect l cause >>= k' a) := by
  have hm : m ≤ m - 1 + 1 := by omega
  exact carries_least hm (carries_bind hp (fun _ => .inr (Nat.succ_pos _)) fun a a' => carries_expect (hk a a'))

theorem name_alike (t t' : Token) (ht : t.Alike P t') :
    Option.Rel (Name.Alike P)
      (match t.lexeme with
        | .identifier text => some ⟨text, t.pos⟩
        | _ => none)
      (match t'.lexeme with
        | .identifier text => some ⟨text, t'.pos⟩
        | _ => none) := by
  rw [ht.1]
  cases t.lexeme with
  | identifier text => exact .some ⟨rfl, ht.2⟩
  | punct | keyword | string | number => exact .none

theorem expectName_carries (cause : SyntaxError.Cause) :
    Carries P us 1 False (Name.Alike P) (expectName cause) (expectName cause) :=
  carries_take name_alike (.inr (.inl Nat.one_pos)) (fun _ _ => carries_pure fun hx => hx) (carries_fail cause)

/-- Looking at what is left gives the same on both sides, unless the first parser is at the end. -/
theorem carries_look {g : List Token → Bool} {k k' : Bool → Parser α}
    (hg : ∀ ts ts', List.Forall₂ (Token.Alike P) ts ts' → (ts = [] → us = []) → g (ts' ++ us) = g ts)
    (h : ∀ b, Carries P us m True R (k b) (k' b)) :
    Carries P us m True R ((fun s => .ok (g s.rest) s : Parser Bool) >>= k)
      ((fun s => .ok (g s.rest) s : Parser Bool) >>= k') := by
  intro s
  apply extends_congr (h (g s.rest) s)
  intro a t ts s' _ htook _ hopen hs'
  obtain ⟨⟨ts', hts', hrest⟩, -⟩ := hs'
  have hsame : g s'.rest = g s.rest := by
    rw [hrest]
    apply hg s.rest ts' hts'
    intro hnil
    exact hopen trivial (took_nil htook hnil).2
  change k' (g s'.rest) s' = k' (g s.rest) s'
  rw [hsame]

/-- A parser that looks ahead may come to the end. -/
theorem carries_nextIs {l : Lexeme} {k k' : Bool → Parser α} (h : ∀ b, Carries P us m True R (k b) (k' b)) :
    Carries P us m True R (nextIs l >>= k) (nextIs l >>= k') := by
  refine carries_look (g := fun ts => ts.head?.any (·.lexeme = l)) (fun ts ts' hts hend => ?_) h
  cases hts with
  | nil =>
    rw [hend rfl]
    rfl
  | cons ht _ =>
    change decide (_ = l) = decide (_ = l)
    rw [ht.1]

theorem carries_atEnd {k k' : Bool → Parser α} (h : ∀ b, Carries P us m True R (k b) (k' b)) :
    Carries P us m True R (atEnd >>= k) (atEnd >>= k') := by
  refine carries_look (g := List.isEmpty) (fun ts ts' hts hend => ?_) h
  cases hts with
  | nil =>
    rw [hend rfl]
    rfl
  | cons _ _ => rfl

end token

/-- A parser that goes on after an error does what the parser does that may give up. -/
theorem recovering_carries (h : Carries P us m o R p p') :
    Carries P us m o (Option.Rel R) (recovering p) (recovering p') := by
  intro s
  have hs := h s
  unfold recovering
  match p s, hs with
  | .error .exhausted t, _ => trivial
  | .error .failed t, hs =>
    -- an error has been reported
    obtain ⟨vs, hvs⟩ := hs.rest
    obtain ⟨ws, hws, -⟩ := skip_suffix t.rest
    refine ⟨vs ++ ws, ⟨?_, hs.errors⟩, fun he => ?_⟩
    · change s.rest = vs ++ ws ++ skip t.rest
      rw [List.append_assoc, ← hws, hvs]
    · have hlonger := hs.reported
      change t.errors = s.errors at he
      rw [he] at hlonger
      exact absurd hlonger (Nat.lt_irrefl _)
  | .ok a t, ⟨ts, htook, hclean⟩ =>
    refine ⟨ts, htook, fun he => ⟨(hclean he).1, fun hopen s' hs' => ?_⟩⟩
    obtain ⟨a', t', hrun, ha, ht'⟩ := (hclean he).2 hopen s' hs'
    refine ⟨some a', t', ?_, .some ha, ht'⟩
    dsimp only
    rw [hrun]

end Parser
end Lox
