import Lox.Proofs.Parser.ExprExtension

/-! Statements and declarations are parsed in the same way with more behind them, if this does not start with an `else`,
which could belong to them. -/
namespace Lox.Parser

open Grammar (NotNext)

variable {P : Pos → Pos → Prop} {us : List Token}

/-- Loops with clauses that are the same at other places are made of parts that are. -/
theorem forLoop_alike {start start' : Option Stmt} {test test' step step' : Option Expr} {body body' : Stmt}
    (hs : Stmt.AlikeOption P start start') (ht : Expr.AlikeOption P test test') (he : Expr.AlikeOption P step step')
    (hb : body.Alike P body') :
    (Stmt.forLoop start test step body).Alike P (Stmt.forLoop start' test' step' body') := by
  have htest : (test.getD (.literal (.bool true))).Alike P (test'.getD (.literal (.bool true))) := by
    cases test with
    | none =>
      cases ht
      rfl
    | some e =>
      obtain ⟨e', rfl, ht⟩ := ht
      exact ht
  have hblock (a a' b b' : Stmt) (ha : a.Alike P a') (hb : b.Alike P b') :
      Stmt.Alike P (.block [a, b]) (.block [a', b']) := ⟨_, rfl, a', _, rfl, ha, b', _, rfl, hb, rfl⟩
  have hwhile (turn turn' : Stmt) (hturn : turn.Alike P turn') :
      (Stmt.forLoop start test none turn).Alike P (Stmt.forLoop start' test' none turn') := by
    have hloop : Stmt.Alike P (.whileLoop (test.getD (.literal (.bool true))) turn)
        (.whileLoop (test'.getD (.literal (.bool true))) turn') := ⟨_, _, rfl, htest, hturn⟩
    cases start with
    | none =>
      cases hs
      exact hloop
    | some s =>
      obtain ⟨s', rfl, hs⟩ := hs
      exact hblock s s' _ _ hs hloop
  cases step with
  | none =>
    cases he
    exact hwhile body body' hb
  -- a step is a part of the turn
  | some e =>
    obtain ⟨e', rfl, he⟩ := he
    exact hwhile _ _ (hblock body body' (.expr e) (.expr e') hb ⟨e', rfl, he⟩)

structure Inner.Stable (P : Pos → Pos → Prop) (us : List Token) (p p' : Inner) : Prop where
  bound : p.bound ≤ p'.bound
  statement : ∀ c, Carries P us 1 False (Stmt.Alike P) (p.statement c) (p'.statement c)
  declaration : ∀ c, Carries P us 1 False (Option.Rel (Stmt.Alike P)) (p.declaration c) (p'.declaration c)

namespace Inner.Stable

variable {p p' : Inner}

theorem expression (hp : p.Stable P us p') (c : Context) :
    Carries P us 0 True (Expr.Alike P) (p.expression c) (p'.expression c) :=
  expression_carries c.inClass hp.bound

theorem expressionUnless (hp : p.Stable P us p') (c : Context) (ending : Lexeme) :
    Carries P us 0 True (Expr.AlikeOption P) (p.expressionUnless c ending) (p'.expressionUnless c ending) := by
  refine carries_nextIs fun b => ?_
  split
  · exact carries_pure rfl
  · exact carries_map (carries_mono (hp.expression c) (Nat.le_refl _) id fun e e' he => ⟨e', rfl, he⟩)

theorem toList_alike {s s' : Option Stmt} {ss ss' : List Stmt} (hs : Option.Rel (Stmt.Alike P) s s')
    (hss : Stmt.AlikeAll P ss ss') : Stmt.AlikeAll P (s.toList ++ ss) (s'.toList ++ ss') := by
  cases hs with
  | none => exact hss
  | some hs => exact ⟨_, _, rfl, hs, hss⟩

/-- Declarations are the same with more behind them, since their closing brace is still there. -/
theorem declarations (hp : p.Stable P us p') (c : Context) {k k' : Nat} (hk : k ≤ k') :
    Carries P us 0 True (Stmt.AlikeAll P) (p.declarations c k) (p'.declarations c k') := by
  induction k generalizing k' with
  | zero => exact carries_exhausted
  | succ k ih =>
    obtain ⟨k', rfl⟩ : ∃ j, k' = j + 1 := ⟨k' - 1, by omega⟩
    refine carries_nextIs fun b => carries_atEnd fun b' => ?_
    split
    · exact carries_pure rfl
    · refine carries_bind (carries_open (hp.declaration c)) .inl fun s s' => ?_
      refine carries_bind (ih (Nat.le_of_succ_le_succ hk)) .inl fun ss ss' => ?_
      exact carries_pure fun hss hs => toList_alike hs hss

theorem block (hp : p.Stable P us p') (c : Context) :
    Carries P us 1 False (Stmt.AlikeAll P) (p.block c) (p'.block c) :=
  carries_until (hp.declarations c hp.bound) fun _ _ _ _ => carries_pure fun _ hss => hss

theorem function (hp : p.Stable P us p') (c : Context) (noName : SyntaxError.Cause) :
    Carries P us 1 False (Stmt.AlikeDecl P) (p.function c noName) (p'.function c noName) := by
  have hnames : Carries P us 0 True (Name.Alike P) (expectName .expectParameterName)
      (expectName .expectParameterName) := carries_open (expectName_carries _)
  refine carries_bind (expectName_carries noName) False.elim fun x x' => carries_expect fun q q' => ?_
  refine carries_until (list_carries .tooManyParameters hnames hp.bound) fun ps ps' r r' => ?_
  refine carries_expect fun w w' => ?_
  refine carries_bind (hp.block c.enterFunction) False.elim fun body body' => carries_pure ?_
  exact fun hbody _ _ hps _ hx => Stmt.alikeDecl_iff.mpr ⟨hx, hps, hbody⟩

theorem methods (hp : p.Stable P us p') (c : Context) {k k' : Nat} (hk : k ≤ k') :
    Carries P us 0 True (List.Forall₂ (Stmt.AlikeDecl P)) (p.methods c k) (p'.methods c k') := by
  induction k generalizing k' with
  | zero => exact carries_exhausted
  | succ k ih =>
    obtain ⟨k', rfl⟩ : ∃ j, k' = j + 1 := ⟨k' - 1, by omega⟩
    refine carries_nextIs fun b => carries_atEnd fun b' => ?_
    split
    · exact carries_pure .nil
    · refine carries_bind (carries_open (hp.function c _)) .inl fun d d' => ?_
      refine carries_bind (ih (Nat.le_of_succ_le_succ hk)) .inl fun ds ds' => ?_
      exact carries_pure fun hds hd => .cons hd hds

theorem classDecl (hp : p.Stable P us p') (c : Context) :
    Carries P us 1 False (Stmt.Alike P) (p.classDecl c) (p'.classDecl c) := by
  refine carries_bind (expectName_carries _) False.elim fun x x' => carries_expect fun q q' => ?_
  refine carries_until (hp.methods c.enterClass hp.bound) fun ds ds' r r' => carries_pure ?_
  exact fun _ hds _ hx => ⟨x', ds', rfl, hx, Stmt.alikeDecls_iff.mpr hds⟩

theorem varDecl (hp : p.Stable P us p') (c : Context) :
    Carries P us 2 False (Stmt.Alike P) (p.varDecl c) (p'.varDecl c) := by
  refine carries_bind (expectName_carries _) False.elim fun x x' => ?_
  refine carries_accept (.inr (.inl Nat.one_pos)) (fun q q' => ?_) ?_
  · have hvalue : Carries P us 0 True (Expr.AlikeOption P) (some <$> p.expression c) (some <$> p'.expression c) :=
      carries_map (carries_mono (hp.expression c) (Nat.le_refl _) id fun e e' he => ⟨e', rfl, he⟩)
    refine carries_until hvalue fun e e' r r' => carries_pure ?_
    exact fun _ he _ hx => ⟨x', e', rfl, hx, he⟩
  · refine carries_pure_bind (carries_expect fun r r' => carries_pure ?_)
    exact fun _ hx => ⟨x', none, rfl, hx, rfl⟩

theorem exprStmt (hp : p.Stable P us p') (c : Context) :
    Carries P us 1 False (Stmt.Alike P) (p.exprStmt c) (p'.exprStmt c) :=
  carries_until (hp.expression c) fun _ e' _ _ => carries_pure fun _ he => ⟨e', rfl, he⟩

theorem printStmt (hp : p.Stable P us p') (c : Context) :
    Carries P us 1 False (Stmt.Alike P) (p.printStmt c) (p'.printStmt c) :=
  carries_until (hp.expression c) fun _ e' _ _ => carries_pure fun _ he => ⟨e', rfl, he⟩

theorem forStmt (hp : p.Stable P us p') (c : Context) :
    Carries P us 2 False (Stmt.Alike P) (p.forStmt c) (p'.forStmt c) := by
  refine carries_expect fun q q' => ?_
  extract_lets clauses clauses'
  have hclauses (start start' : Option Stmt) : Carries P us 0 False
      (fun s s' => Stmt.AlikeOption P start start' → s.Alike P s') (clauses start) (clauses' start') := by
    refine carries_until (hp.expressionUnless c _) fun test test' r r' => ?_
    refine carries_until (hp.expressionUnless c _) fun step step' w w' => ?_
    refine carries_bind (hp.statement c.enterLoop) False.elim fun body body' => carries_pure ?_
    exact fun hbody _ hstep _ htest hstart => forLoop_alike hstart htest hstep hbody
  clear_value clauses clauses'
  refine carries_accept (.inr (.inl Nat.one_pos)) (fun r r' => ?_) (carries_accept (.inr (.inl Nat.one_pos))
    (fun r r' => ?_) ?_)
  · refine carries_pure_bind (carries_mono (hclauses none none) (Nat.le_refl _) id ?_)
    exact fun s s' h _ _ => h rfl
  · refine carries_map_bind (hp.varDecl c) False.elim fun start start' => ?_
    refine carries_mono (hclauses (some start) (some start')) (Nat.le_refl _) id ?_
    exact fun s s' h hstart _ _ => h ⟨start', rfl, hstart⟩
  · refine carries_map_bind (hp.exprStmt c) False.elim fun start start' => ?_
    refine carries_mono (hclauses (some start) (some start')) (Nat.le_refl _) id ?_
    exact fun s s' h hstart _ => h ⟨start', rfl, hstart⟩

/-- A conditional is the same with more behind it, unless an `else` comes. -/
theorem ifStmt (hp : p.Stable P us p') (hus : NotNext (.keyword .kwElse) us) (c : Context) :
    Carries P us 1 False (Stmt.Alike P) (p.ifStmt c) (p'.ifStmt c) := by
  refine carries_expect fun q q' => carries_until (hp.expression c) fun test test' r r' => ?_
  refine carries_bind (hp.statement c) False.elim fun yes yes' => ?_
  refine carries_accept (.inr (.inr hus)) (fun w w' => ?_) ?_
  · refine carries_map_bind (hp.statement c) False.elim fun no no' => carries_pure ?_
    exact fun hno _ hyes _ htest _ => ⟨test', yes', some no', rfl, htest, hyes, no', rfl, hno⟩
  · refine carries_pure_bind (carries_pure ?_)
    exact fun hyes _ htest _ => ⟨test', yes', none, rfl, htest, hyes, rfl⟩

theorem returnStmt (hp : p.Stable P us p') (c : Context) (q q' : Pos) :
    Carries P us 1 False (fun s s' => P q q' → s.Alike P s') (p.returnStmt c q) (p'.returnStmt c q') := by
  unfold Inner.returnStmt
  extract_lets rest rest'
  have hrest : Carries P us 1 False (fun s s' => P q q' → s.Alike P s') (rest ⟨⟩) (rest' ⟨⟩) := by
    refine carries_until (hp.expressionUnless c _) fun e e' r r' => carries_pure ?_
    exact fun _ he hq => ⟨q', e', rfl, hq, he⟩
  clear_value rest rest'
  split
  · exact carries_report _ _ hrest
  · exact hrest

theorem breakStmt_carries (c : Context) (q q' : Pos) :
    Carries P us 1 False (fun s s' => P q q' → Stmt.Alike P s s') (breakStmt c q) (breakStmt c q') := by
  unfold Inner.breakStmt
  extract_lets rest rest'
  have hrest : Carries P us 1 False (fun s s' => P q q' → Stmt.Alike P s s') (rest ⟨⟩) (rest' ⟨⟩) :=
    carries_expect fun r r' => carries_pure fun _ hq => ⟨q', rfl, hq⟩
  clear_value rest rest'
  split
  · exact carries_report _ _ hrest
  · exact hrest

theorem whileStmt (hp : p.Stable P us p') (c : Context) :
    Carries P us 1 False (Stmt.Alike P) (p.whileStmt c) (p'.whileStmt c) := by
  refine carries_expect fun q q' => carries_until (hp.expression c) fun test test' r r' => ?_
  refine carries_bind (hp.statement c.enterLoop) False.elim fun body body' => carries_pure ?_
  exact fun hbody _ htest _ => ⟨test', body', rfl, htest, hbody⟩

/-- A statement is the same with more behind it, unless an `else` comes. -/
theorem anyStatement (hp : p.Stable P us p') (hus : NotNext (.keyword .kwElse) us) (c : Context) :
    Carries P us 1 False (Stmt.Alike P) (p.anyStatement c) (p'.anyStatement c) := by
  unfold Inner.anyStatement
  refine carries_accept (.inr (.inl Nat.one_pos)) (fun q q' => ?_) ?_
  · exact carries_mono (hp.forStmt c) (Nat.zero_le _) id fun s s' hs _ => hs
  refine carries_accept (.inr (.inl Nat.one_pos)) (fun q q' => ?_) ?_
  · exact carries_mono (hp.ifStmt hus c) (Nat.zero_le _) id fun s s' hs _ => hs
  refine carries_accept (.inr (.inl Nat.one_pos)) (fun q q' => ?_) ?_
  · exact carries_mono (hp.printStmt c) (Nat.zero_le _) id fun s s' hs _ => hs
  refine carries_accept (.inr (.inl Nat.one_pos)) (fun q q' => ?_) ?_
  · exact carries_least (Nat.zero_le _) (hp.returnStmt c q q')
  refine carries_accept (.inr (.inl Nat.one_pos)) (fun q q' => ?_) ?_
  · exact carries_least (Nat.zero_le _) (breakStmt_carries c q q')
  refine carries_accept (.inr (.inl Nat.one_pos)) (fun q q' => ?_) ?_
  · exact carries_mono (hp.whileStmt c) (Nat.zero_le _) id fun s s' hs _ => hs
  refine carries_accept (.inr (.inl Nat.one_pos)) (fun q q' => ?_) (hp.exprStmt c)
  exact carries_map (carries_mono (hp.block c) (Nat.zero_le _) id fun ss ss' hss _ => ⟨ss', rfl, hss⟩)

theorem strictDeclaration (hp : p.Stable P us p') (hus : NotNext (.keyword .kwElse) us) (c : Context) :
    Carries P us 1 False (Stmt.Alike P) (p.strictDeclaration c) (p'.strictDeclaration c) := by
  unfold Inner.strictDeclaration
  refine carries_accept (.inr (.inl Nat.one_pos)) (fun q q' => ?_) ?_
  · exact carries_mono (hp.classDecl c) (Nat.zero_le _) id fun s s' hs _ => hs
  refine carries_accept (.inr (.inl Nat.one_pos)) (fun q q' => ?_) ?_
  · exact carries_map (carries_mono (hp.function c _) (Nat.zero_le _) id fun d d' hd _ => ⟨d', rfl, hd⟩)
  refine carries_accept (.inr (.inl Nat.one_pos)) (fun q q' => ?_) (hp.anyStatement hus c)
  exact carries_mono (hp.varDecl c) (Nat.zero_le _) id fun s s' hs _ => hs

end Inner.Stable

/-- The parsers that are tied together at a bound do the same as those at a larger one. -/
theorem stable_of_le (hus : NotNext (.keyword .kwElse) us) {bound bound' : Nat} (hb : bound ≤ bound') :
    (Inner.mk bound (statement bound) (declaration bound)).Stable P us
      (Inner.mk bound' (statement bound') (declaration bound')) := by
  induction bound generalizing bound' with
  | zero => exact ⟨hb, fun c => carries_exhausted, fun c => carries_exhausted⟩
  | succ bound ih =>
    obtain ⟨bound', rfl⟩ : ∃ j, bound' = j + 1 := ⟨bound' - 1, by omega⟩
    have hp := ih (Nat.le_of_succ_le_succ hb)
    exact ⟨hb, hp.anyStatement hus, fun c => recovering_carries (hp.strictDeclaration hus c)⟩

/-- A program is the same with more behind it, as far as it goes. -/
theorem program_carries (hus : NotNext (.keyword .kwElse) us) {bound bound' count count' : Nat} (hb : bound ≤ bound')
    (hc : count ≤ count') : Carries P us 0 True (Stmt.AlikeAll P) (program bound count) (program bound' count') := by
  induction count generalizing count' with
  | zero => exact carries_exhausted
  | succ count ih =>
    obtain ⟨count', rfl⟩ : ∃ j, count' = j + 1 := ⟨count' - 1, by omega⟩
    refine carries_atEnd fun b => ?_
    split
    · exact carries_pure rfl
    · refine carries_bind (carries_open ((stable_of_le hus hb).declaration {})) .inl fun s s' => ?_
      refine carries_bind (ih (Nat.le_of_succ_le_succ hc)) .inl fun ss ss' => ?_
      exact carries_pure fun hss hs => Inner.Stable.toList_alike hs hss

/-- At the end of the input a program is complete. -/
theorem program_nil {bound n : Nat} {s : State} (hr : s.rest = []) : program bound (n + 1) s = .ok [] s := by
  unfold program
  rw [bind_apply]
  change (if s.rest.isEmpty = true then _ else _ : Parser (List Stmt)) s = _
  rw [if_pos (List.isEmpty_iff.mpr hr)]
  rfl

/-- The first declaration of a program, and the others. -/
theorem program_cons {bound n : Nat} {s : State} (hr : s.rest ≠ []) :
    program bound (n + 1) s = (do return (← declaration bound {}).toList ++ (← program bound n) : Parser _) s := by
  conv_lhs => rw [program]
  rw [bind_apply]
  change (if s.rest.isEmpty = true then _ else _ : Parser (List Stmt)) s = _
  rw [if_neg fun h => hr (List.isEmpty_iff.mp h)]

/-- A sequence that succeeds consists of two parsers that do. -/
theorem bind_eq_ok {α β : Type} {p : Parser α} {k : α → Parser β} {b : β} {s t : State} (h : (p >>= k) s = .ok b t) :
    ∃ a u, p s = .ok a u ∧ k a u = .ok b t := by
  rw [bind_apply] at h
  cases hp : p s with
  | error e u =>
    rw [hp] at h
    cases h
  | ok a u =>
    rw [hp] at h
    exact ⟨a, u, rfl, h⟩

/-- A program that is parsed without an error is the first part of a longer one, whose second part `us` is parsed on its
own if it does not start with an `else`. -/
theorem program_extends (hus : NotNext (.keyword .kwElse) us) {bound bound' : Nat} (hb : bound ≤ bound') {least : Nat}
    {Q : List Stmt → Prop} (hmore : ∀ n u, least ≤ n → u.rest = us → u.errors = [] →
      ∃ second t, program bound' n u = .ok second t ∧ Q second ∧ t.errors = [])
    {count : Nat} {s t : State} {ss : List Stmt} (hrun : program bound count s = .ok ss t) (he : t.errors = s.errors)
    {n : Nat} {s' : State} (hs : State.Extended P us s s') (hn : s.rest.length + least ≤ n) :
    ∃ first second t', program bound' n s' = .ok (first ++ second) t' ∧ Stmt.AlikeAll P ss first ∧ Q second ∧
      t'.errors = [] := by
  induction count generalizing s ss n s' with
  | zero => cases hrun
  | succ count ih =>
    obtain ⟨ts, hts, hrest⟩ := hs.rest
    by_cases hnil : s.rest = []
    -- the first part is at its end
    · rw [program_nil hnil] at hrun
      cases hrun
      rw [hnil] at hts hn
      cases hts
      obtain ⟨second, t', hrun', hsecond⟩ := hmore n s' (by simpa using hn) hrest hs.errors
      exact ⟨[], second, t', hrun', rfl, hsecond⟩
    · rw [program_cons hnil] at hrun
      obtain ⟨d, u, hd, hrun⟩ := bind_eq_ok hrun
      obtain ⟨ds, v, hds, hrun⟩ := bind_eq_ok hrun
      cases hrun
      have hdecl := (stable_of_le (P := P) hus hb).declaration {} s
      have hothers := program_carries (P := P) hus hb (Nat.le_refl count) u
      dsimp only at hdecl
      rw [hd] at hdecl
      rw [hds] at hothers
      obtain ⟨vs, htook, hclean⟩ := hdecl
      obtain ⟨ws, htook', -⟩ := hothers
      obtain ⟨he₁, he₂⟩ := took_clean htook htook' he
      obtain ⟨hpos, hcarry⟩ := hclean he₁
      obtain ⟨d', u', hd', halike, hu'⟩ := hcarry False.elim s' hs
      -- a declaration takes a token, so the count goes down with what is left
      have hlen := took_length htook
      obtain ⟨n, rfl⟩ : ∃ j, n = j + 1 := ⟨n - 1, by omega⟩
      obtain ⟨first, second, t', hprogram, hfirst, hsecond⟩ := ih hds he₂ hu' (n := n) (by omega)
      have hne : s'.rest ≠ [] := by
        intro hnil'
        rw [hnil'] at hrest
        rw [(List.append_eq_nil_iff.mp hrest.symm).1] at hts
        exact hnil (List.forall₂_nil_right_iff.mp hts)
      refine ⟨d'.toList ++ first, second, t', ?_, Inner.Stable.toList_alike halike hfirst, hsecond⟩
      rw [program_cons hne, bind_apply, hd']
      change (program bound' n >>= fun ds => pure (d'.toList ++ ds)) u' = _
      rw [bind_apply, hprogram, List.append_assoc]
      rfl

end Lox.Parser
