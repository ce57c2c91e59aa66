import Lox.Proofs.Grammar.Stmt
import Lox.Proofs.Parser.ExprSound

/-! What the parsers of statements and declarations return is what the tokens they took form by the rules of the
grammar, unless an error was reported; and their bounds are never too small. -/
namespace Lox.Parser

open Grammar

variable {α β : Type}

/-- What is left after an error is the end of what there was. -/
theorem skipFrom_suffix (last : Token) (ts : List Token) : skipFrom last ts <:+ ts := by
  induction ts generalizing last with
  | nil => exact List.suffix_refl _
  | cons t ts ih =>
    unfold skipFrom
    split
    · exact List.suffix_refl _
    · exact (ih t).trans (List.suffix_cons t ts)

/-- Going on after an error drops at least one token, if there is one. -/
theorem skip_suffix (ts : List Token) : ∃ us, ts = us ++ skip ts ∧ (ts ≠ [] → us ≠ []) := by
  cases ts with
  | nil => exact ⟨[], rfl, fun h => absurd rfl h⟩
  | cons t ts =>
    obtain ⟨us, hus⟩ := skipFrom_suffix t ts
    refine ⟨t :: us, ?_, fun _ => List.cons_ne_nil t us⟩
    change t :: ts = t :: (us ++ skipFrom t ts)
    rw [hus]

/-- What a parser does that goes on after an error: it always ends, it takes a token if there is one, and it
returns what the tokens spell unless an error was reported. -/
def Recovers (n : Nat) (q : Parser (Option α)) (G : α → List Token → Prop) : Prop :=
  ∀ s : State, s.rest.length < n → ∃ o s' ts, q s = .ok o s' ∧ s.Took ts s' ∧ (s.rest ≠ [] → ts ≠ []) ∧
    (s'.errors = s.errors → ∃ a, o = some a ∧ G a ts)

theorem recovers_zero {q : Parser (Option α)} {G : α → List Token → Prop} : Recovers 0 q G :=
  fun _ h => absurd h (Nat.not_lt_zero _)

/-- A parser that goes on after an error always ends, since it takes or drops a token. -/
theorem recovering_sound {n : Nat} {p : Parser α} {G : α → List Token → Prop} (hp : Sound n 1 p G) :
    Recovers n (recovering p) G := by
  intro s hs
  have h := hp s hs
  unfold recovering
  match p s, h with
  | .ok a s', ⟨ts, ht, hl, hG⟩ =>
    refine ⟨some a, s', ts, rfl, ht, fun _ hn => ?_, fun hc => ⟨a, rfl, hG hc⟩⟩
    rw [hn] at hl
    exact absurd hl (by decide)
  | .error .failed s', h =>
    obtain ⟨us, hus⟩ := h.rest
    obtain ⟨vs, hvs, hne⟩ := skip_suffix s'.rest
    -- the tokens that the parser took before it gave up, and those that are skipped
    have htook : s.Took (us ++ vs) s'.resume := by
      refine ⟨?_, h.errors⟩
      change s.rest = us ++ vs ++ skip s'.rest
      rw [List.append_assoc, ← hvs, hus]
    refine ⟨none, s'.resume, us ++ vs, rfl, htook, fun hr hn => ?_, fun hc => ?_⟩
    · obtain ⟨rfl, rfl⟩ := List.append_eq_nil_iff.mp hn
      rw [List.nil_append] at hus
      exact hne (by rw [hus]; exact hr) rfl
    · have hl := h.reported
      have he := congrArg List.length hc
      change s'.errors.length = s.errors.length at he
      omega

/-- One turn of a loop over declarations, which is only taken when a token is left. -/
theorem recovers_bind {n m : Nat} {q : Parser (Option α)} {k : Option α → Parser β} {P : α → List Token → Prop}
    {G : β → List Token → Prop} (hq : Recovers n q P)
    (hk : ∀ o, Sound (n - 1) m (k o) fun b us => ∀ a ts, o = some a → P a ts → G b (ts ++ us))
    (s : State) (hs : s.rest.length < n) (hr : s.rest ≠ []) : Meets s m G ((q >>= k) s) := by
  -- the bound of the rest is smaller by one because at least one token has been taken
  obtain ⟨o, s', ts, hq, ht, hne, hP⟩ := hq s hs
  have hlen := took_length ht
  have hpos := List.length_pos_iff.mpr (hne hr)
  rw [bind_apply, hq]
  refine meets_of_took ht (hk o s' (by omega)) (by omega) fun hc b us hb => ?_
  obtain ⟨a, rfl, ha⟩ := hP hc
  exact hb a ts rfl ha

/-- A declaration and then more of them, where a token is left. -/
theorem moreDecls_meets {n : Nat} {c : Context} {q : Parser (Option Stmt)} {p : Parser (List Stmt)}
    (hq : Recovers n q fun s ts => Forms c (.decl s) ts)
    (hp : Sound (n - 1) 0 p fun ss ts => Forms c (.decls ss) ts) (s : State) (hs : s.rest.length < n)
    (hr : s.rest ≠ []) :
    Meets s 0 (fun ss ts => Forms c (.decls ss) ts) ((do return (← q).toList ++ (← p) : Parser (List Stmt)) s) := by
  refine recovers_bind hq (fun o => sound_bind hp fun ss => sound_pure ?_) s hs hr
  intro us hss d ts ho hdecl
  subst ho
  rw [List.append_nil]
  exact .moreDecls hdecl hss

/-- Before the end there is a token, so the parser that goes on there may rely on one. -/
theorem sound_atEnd {n m : Nat} {k : Bool → Parser α} {G : α → List Token → Prop} (htrue : Sound n m (k true) G)
    (hfalse : ∀ s : State, s.rest.length < n → s.rest ≠ [] → Meets s m G (k false s)) :
    Sound n m (atEnd >>= k) G := by
  intro s hs
  rw [bind_apply]
  unfold atEnd
  cases hr : s.rest with
  | nil => exact htrue s hs
  | cons t rest => exact hfalse s hs (by rw [hr]; exact List.cons_ne_nil t rest)

theorem expectName_sound (n : Nat) (cause : SyntaxError.Cause) : Sound n 1 (expectName cause) Named := by
  have h : Sound n 1 (expectName cause >>= pure) Named := sound_expectName fun x => sound_pure rfl
  rwa [bind_pure] at h

structure Inner.Faithful (p : Inner) (n : Nat) : Prop where
  bound : n + 2 ≤ p.bound
  statement : ∀ c, Sound n 1 (p.statement c) fun s ts => Forms c (.stmt s) ts
  declaration : ∀ c, Recovers n (p.declaration c) fun s ts => Forms c (.decl s) ts

namespace Inner.Faithful

variable {p : Inner} {n : Nat}

theorem expression (hp : p.Faithful n) (c : Context) :
    Sound (n + 1) 1 (p.expression c) (Spells c.inClass .assignment) := by
  have hb := hp.bound
  exact sound_weaken (expression_sound c.inClass p.bound) (by omega) (Nat.le_refl _)

theorem expressionUnless (hp : p.Faithful n) (c : Context) (ending : Lexeme) :
    Sound (n + 1) 0 (p.expressionUnless c ending) (Optional c) := by
  refine sound_nextIs fun b => ?_
  split
  · exact sound_pure rfl
  · exact sound_map (sound_weaken (hp.expression c) (Nat.le_refl _) (Nat.zero_le 1))

/-- Declarations that are read without an error are formed by the rules. -/
theorem declarations (hp : p.Faithful n) (c : Context) (k j : Nat) (hk : j ≤ k) (hn : j ≤ n) :
    Sound j 0 (p.declarations c k) fun ss ts => Forms c (.decls ss) ts := by
  induction k generalizing j with
  | zero =>
    obtain rfl : j = 0 := by omega
    exact sound_exhausted
  | succ k ih =>
    refine sound_nextIs fun b => sound_atEnd ?_ fun s hs hr => ?_
    · rw [Bool.or_true, if_pos rfl]
      exact sound_pure .noDecls
    · cases b with
      | true => exact sound_pure .noDecls s hs
      | false =>
        have hd : Recovers j (p.declaration c) fun s ts => Forms c (.decl s) ts :=
          fun s hs => hp.declaration c s (by omega)
        exact moreDecls_meets hd (ih (j - 1) (by omega) (by omega)) s hs hr

theorem block (hp : p.Faithful n) (c : Context) :
    Sound n 1 (p.block c) fun ss ts =>
      ∃ us q, ts = us ++ [Punct.rightBrace.token q] ∧ Forms c (.decls ss) us := by
  have hb := hp.bound
  refine sound_bind (hp.declarations c p.bound n (by omega) (Nat.le_refl _)) fun ss => ?_
  exact sound_expect fun q => sound_pure fun ts hss => ⟨ts, q, rfl, hss⟩

theorem function (hp : p.Faithful n) (c : Context) (noName : SyntaxError.Cause) :
    Sound n 1 (p.function c noName) fun d ts => Forms c (.function d) ts := by
  have hb := hp.bound
  refine sound_expectName fun x => sound_expect fun q₁ => ?_
  refine sound_bind (sound_weaken (list_sound .tooManyParameters (expectName_sound p.bound _) p.bound
    (Nat.le_refl _)) (by omega) (Nat.le_refl 0)) fun params => ?_
  refine sound_expect fun q₂ => sound_expect fun q₃ => ?_
  refine sound_bind (sound_weaken (hp.block c.enterFunction) (by omega) (Nat.zero_le 1))
    fun body => sound_pure ?_
  rintro _ ⟨us, q₄, rfl, hbody⟩ ts hparams
  simpa only [List.append_assoc, List.cons_append, List.nil_append, List.append_nil] using
    Forms.routine x q₁ q₂ q₃ q₄ hparams hbody

theorem methods (hp : p.Faithful n) (c : Context) (k j : Nat) (hk : j ≤ k) (hn : j ≤ n) :
    Sound j 0 (p.methods c k) fun ds ts => Forms c (.methods ds) ts := by
  induction k generalizing j with
  | zero =>
    obtain rfl : j = 0 := by omega
    exact sound_exhausted
  | succ k ih =>
    refine sound_nextIs fun b => sound_atEnd ?_ fun s hs _ => ?_
    · rw [Bool.or_true, if_pos rfl]
      exact sound_pure .noMethods
    · cases b with
      | true => exact sound_pure .noMethods s hs
      | false =>
        refine sound_bind (sound_weaken (hp.function c _) hn (Nat.le_refl 1)) (fun d => ?_) s hs
        refine sound_bind (ih (j - 1) (by omega) (by omega)) fun ds => sound_pure ?_
        intro us hds ts hd
        rw [List.append_nil]
        exact .moreMethods hd hds

theorem classDecl (hp : p.Faithful n) (c : Context) :
    Sound n 1 (p.classDecl c) fun s ts => ∀ q, Forms c (.decl s) (Keyword.kwClass.token q :: ts) := by
  have hb := hp.bound
  refine sound_expectName fun x => sound_expect fun q₁ => ?_
  refine sound_bind (sound_weaken (hp.methods c.enterClass p.bound n (by omega) (Nat.le_refl _)) (by omega)
    (Nat.le_refl 0)) fun ds => ?_
  exact sound_expect fun q₂ => sound_pure fun ts hds q => .classDecl x q q₁ q₂ hds

theorem varDecl (hp : p.Faithful n) (c : Context) :
    Sound (n + 1) 1 (p.varDecl c) fun s ts => ∀ q, Forms c (.varDecl s) (Keyword.kwVar.token q :: ts) := by
  refine sound_expectName fun x => sound_accept (fun q₁ => ?_) ?_
  · refine sound_map_bind (sound_weaken (hp.expression c) (by omega) (Nat.zero_le 1)) fun e => ?_
    exact sound_expect fun q₂ => sound_pure fun ts he q => .varValue x q q₁ q₂ he
  · exact sound_pure_bind (sound_expect fun q₁ => sound_pure fun q => .varBare x q q₁)

theorem exprStmt (hp : p.Faithful n) (c : Context) :
    Sound (n + 1) 1 (p.exprStmt c) fun s ts => Forms c (.exprStmt s) ts := by
  refine sound_bind (hp.expression c) fun e => ?_
  exact sound_expect fun q => sound_pure fun ts he => .exprStmt q he

/-- A loop that is read without an error is formed by the rules, whichever of its clauses are missing. -/
theorem forStmt (hp : p.Faithful n) (c : Context) :
    Sound n 1 (p.forStmt c) fun s ts => ∀ q, Forms c (.stmt s) (Keyword.kwFor.token q :: ts) := by
  have hb := hp.bound
  refine sound_expect fun q₁ => ?_
  extract_lets clauses
  -- what follows the first clause, which has taken the tokens `ts`
  have hclauses (start : Option Stmt) : Sound n 0 (clauses start) fun s us => ∀ ts, Forms c (.start start) ts →
      ∀ q, Forms c (.stmt s) (Keyword.kwFor.token q :: Punct.leftParen.token q₁ :: (ts ++ us)) := by
    refine sound_bind (sound_weaken (hp.expressionUnless c _) (by omega) (Nat.le_refl 0))
      fun test => sound_expect fun q₂ => ?_
    refine sound_bind (sound_weaken (hp.expressionUnless c _) (by omega) (Nat.le_refl 0))
      fun step => sound_expect fun q₃ => ?_
    refine sound_bind (sound_weaken (hp.statement c.enterLoop) (by omega) (Nat.zero_le 1))
      fun body => sound_pure ?_
    intro ws hbody vs hstep us htest ts hstart q
    simpa only [List.append_assoc, List.cons_append, List.nil_append, List.append_nil] using
      Forms.forLoop q q₁ q₂ q₃ hstart htest hstep hbody
  clear_value clauses
  refine sound_accept (fun q₂ => ?_) (sound_accept (fun q₂ => ?_) ?_)
  · refine sound_pure_bind (sound_mono (hclauses none) (by omega) (Nat.le_refl 0) fun s us h q => ?_)
    exact h _ (.noStart q₂) q
  · refine sound_map_bind (sound_weaken (hp.varDecl c) (by omega) (Nat.zero_le 1)) fun start => ?_
    refine sound_mono (hclauses (some start)) (by omega) (Nat.le_refl 0) fun s us h ts hstart q => ?_
    exact h _ (.startVar (hstart q₂)) q
  · refine sound_map_bind (sound_weaken (hp.exprStmt c) (by omega) (Nat.zero_le 1)) fun start => ?_
    refine sound_mono (hclauses (some start)) (by omega) (Nat.le_refl 0) fun s us h ts hstart q => ?_
    exact h _ (.startExpr hstart) q

theorem ifStmt (hp : p.Faithful n) (c : Context) :
    Sound n 1 (p.ifStmt c) fun s ts => ∀ q, Forms c (.stmt s) (Keyword.kwIf.token q :: ts) := by
  refine sound_expect fun q₁ => ?_
  refine sound_bind (sound_weaken (hp.expression c) (by omega) (Nat.zero_le 1))
    fun test => sound_expect fun q₂ => ?_
  refine sound_bind (sound_weaken (hp.statement c) (by omega) (Nat.zero_le 1)) fun yes => ?_
  refine sound_accept (fun q₃ => ?_) ?_
  · refine sound_map_bind (sound_weaken (hp.statement c) (by omega) (Nat.zero_le 1)) fun no => ?_
    refine sound_pure fun vs hno us hyes ts htest q => ?_
    simpa only [List.append_assoc, List.cons_append, List.nil_append, List.append_nil] using
      Forms.ifElse q q₁ q₂ q₃ htest hyes hno
  · refine sound_pure_bind (sound_pure fun us hyes ts htest q => ?_)
    simpa only [List.append_assoc, List.cons_append, List.nil_append, List.append_nil] using
      Forms.ifThen q q₁ q₂ htest hyes

theorem printStmt (hp : p.Faithful n) (c : Context) :
    Sound n 1 (p.printStmt c) fun s ts => ∀ q, Forms c (.simple s) (Keyword.kwPrint.token q :: ts) := by
  refine sound_bind (sound_weaken (hp.expression c) (by omega) (Nat.le_refl 1)) fun e => ?_
  exact sound_expect fun q₁ => sound_pure fun ts he q => .print q q₁ he

/-- A return outside of functions is an error, so nothing is left to show there. -/
theorem returnStmt (hp : p.Faithful n) (c : Context) (q : Pos) :
    Sound n 1 (p.returnStmt c q) fun s ts => Forms c (.simple s) (Keyword.kwReturn.token q :: ts) := by
  unfold Inner.returnStmt
  extract_lets rest
  have hrest : Sound n 1 (rest ⟨⟩) fun s ts =>
      c.inFunction = true → Forms c (.simple s) (Keyword.kwReturn.token q :: ts) := by
    refine sound_bind (sound_weaken (hp.expressionUnless c _) (by omega) (Nat.le_refl 0))
      fun value => sound_expect fun q₁ => sound_pure ?_
    exact fun ts hvalue hc => .returnValue q q₁ hc hvalue
  clear_value rest
  cases hc : c.inFunction with
  | true => exact sound_mono hrest (Nat.le_refl _) (Nat.le_refl _) fun s ts h => h hc
  | false => exact sound_report _ _ hrest

theorem breakStmt_sound (n : Nat) (c : Context) (q : Pos) :
    Sound n 1 (Inner.breakStmt c q) fun s ts => Forms c (.simple s) (Keyword.kwBreak.token q :: ts) := by
  unfold Inner.breakStmt
  extract_lets rest
  have hrest : Sound n 1 (rest ⟨⟩) fun s ts =>
      c.inLoop = true → Forms c (.simple s) (Keyword.kwBreak.token q :: ts) :=
    sound_expect fun q₁ => sound_pure fun hc => .breakLoop q q₁ hc
  clear_value rest
  cases hc : c.inLoop with
  | true => exact sound_mono hrest (Nat.le_refl _) (Nat.le_refl _) fun s ts h => h hc
  | false => exact sound_report _ _ hrest

theorem whileStmt (hp : p.Faithful n) (c : Context) :
    Sound n 1 (p.whileStmt c) fun s ts => ∀ q, Forms c (.stmt s) (Keyword.kwWhile.token q :: ts) := by
  refine sound_expect fun q₁ => ?_
  refine sound_bind (sound_weaken (hp.expression c) (by omega) (Nat.zero_le 1))
    fun test => sound_expect fun q₂ => ?_
  refine sound_bind (sound_weaken (hp.statement c.enterLoop) (by omega) (Nat.zero_le 1))
    fun body => sound_pure ?_
  intro us hbody ts htest q
  simpa only [List.append_assoc, List.cons_append, List.nil_append, List.append_nil] using
    Forms.whileLoop q q₁ q₂ htest hbody

/-- A statement that is read without an error is formed by the rules. -/
theorem anyStatement (hp : p.Faithful n) (c : Context) :
    Sound (n + 1) 1 (p.anyStatement c) fun s ts => Forms c (.stmt s) ts := by
  unfold Inner.anyStatement
  refine sound_accept (fun q => sound_mono (hp.forStmt c) (Nat.le_refl _) (Nat.zero_le 1) fun _ _ h => h q) ?_
  refine sound_accept (fun q => sound_mono (hp.ifStmt c) (Nat.le_refl _) (Nat.zero_le 1) fun _ _ h => h q) ?_
  refine sound_accept (fun q => sound_mono (hp.printStmt c) (Nat.le_refl _) (Nat.zero_le 1)
    fun _ _ h => .simple (h q)) ?_
  refine sound_accept (fun q => sound_mono (hp.returnStmt c q) (Nat.le_refl _) (Nat.zero_le 1)
    fun _ _ h => .simple h) ?_
  refine sound_accept (fun q => sound_mono (breakStmt_sound n c q) (Nat.le_refl _) (Nat.zero_le 1)
    fun _ _ h => .simple h) ?_
  refine sound_accept (fun q => sound_mono (hp.whileStmt c) (Nat.le_refl _) (Nat.zero_le 1) fun _ _ h => h q) ?_
  refine sound_accept (fun q => sound_map (sound_mono (hp.block c) (Nat.le_refl _) (Nat.zero_le 1) ?_)) ?_
  · rintro ss _ ⟨us, q₁, rfl, h⟩
    exact .simple (.block q q₁ h)
  · exact sound_mono (hp.exprStmt c) (Nat.le_refl _) (Nat.le_refl _) fun _ _ h => .simple (.expr h)

/-- A declaration that is read without an error is formed by the rules. -/
theorem strictDeclaration (hp : p.Faithful n) (c : Context) :
    Sound (n + 1) 1 (p.strictDeclaration c) fun s ts => Forms c (.decl s) ts := by
  unfold Inner.strictDeclaration
  refine sound_accept (fun q => sound_mono (hp.classDecl c) (Nat.le_refl _) (Nat.zero_le 1) fun _ _ h => h q) ?_
  refine sound_accept (fun q => sound_map (sound_mono (hp.function c _) (Nat.le_refl _) (Nat.zero_le 1)
    fun _ _ h => .function q h)) ?_
  refine sound_accept (fun q => sound_mono (hp.varDecl c) (by omega) (Nat.zero_le 1)
    fun _ _ h => .varDecl (h q)) ?_
  exact sound_mono (hp.anyStatement c) (Nat.le_refl _) (Nat.le_refl _) fun _ _ h => .stmt h

end Inner.Faithful

/-- The parsers tied together at a bound do what they should while at least two less tokens are left. -/
theorem faithful_of_bound (n : Nat) : (Inner.mk (n + 2) (statement (n + 2)) (declaration (n + 2))).Faithful n := by
  induction n with
  -- at each bound the parsers inside are those of the bound below
  | zero => exact ⟨Nat.le_refl _, fun c => fun _ h => absurd h (Nat.not_lt_zero _), fun c => recovers_zero⟩
  | succ n ih => exact ⟨Nat.le_refl _, ih.anyStatement, fun c => recovering_sound (ih.strictDeclaration c)⟩

/-- Whole programs are parsed to the end, and without an error only if they are formed by the rules. -/
theorem program_sound (n : Nat) (count j : Nat) (hc : j ≤ count) (hn : j ≤ n) :
    Sound j 0 (program (n + 2) count) fun ss ts => Forms {} (.decls ss) ts := by
  induction count generalizing j with
  | zero =>
    obtain rfl : j = 0 := by omega
    exact sound_exhausted
  | succ count ih =>
    refine sound_atEnd (sound_pure .noDecls) fun s hs hr => ?_
    have hd : Recovers j (declaration (n + 2) {}) fun s ts => Forms {} (.decl s) ts :=
      fun s hs => (faithful_of_bound n).declaration {} s (by omega)
    exact moreDecls_meets hd (ih (j - 1) (by omega) (by omega)) s hs hr

end Lox.Parser
