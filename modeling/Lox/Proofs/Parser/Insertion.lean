import Lox.Proofs.Grammar.Place
import Lox.Proofs.Parser.Mending

/-! Tokens that are dropped between two declarations. If a parser of declarations drops some tokens wherever it meets
them, then a program with these tokens put at some place is parsed as it is without them. -/
namespace Lox.Parser

open Grammar

variable {c c' : Context} {b : Nat} {es : List SyntaxError} {ts us vs rest before after : List Token}

/-! ### Statements and the `else` that they can take -/

/-- What the parser reads as a statement without an error is one. -/
theorem formed_of_reads {s : Stmt} (hb : ts.length ≤ b) (h : Reads ((innerAt (b + 2)).anyStatement c) ts [] [] s) :
    Formed c .stmt ts := by
  have hsound := (faithful_of_bound b).anyStatement c ⟨ts ++ [], default, [], []⟩ (by simp; omega)
  have hrun := h default [] []
  change Meets _ 1 _ ((innerAt (b + 2)).anyStatement c _) at hsound
  rw [hrun] at hsound
  obtain ⟨us, htook, -, hforms⟩ := hsound
  have hall : ts = us := by simpa using htook.rest
  rw [hall]
  exact ⟨s, hforms rfl⟩

theorem reads_alone {o : Bool} (h : Settled o c ts) :
    ∃ s, Reads ((innerAt (ts.length + 2)).anyStatement c) ts [] [] s :=
  settled_reads h (widens_refl c) (fun _ => notNext_nil _) (Nat.le_refl _)

/-- A statement that can take no `else` is settled as such. -/
theorem settled_of_not_takesElse (h : Formed c .stmt ts) (hn : ¬ TakesElse c ts) : Settled false c ts := by
  obtain ⟨s, hs⟩ := h
  obtain ⟨o, hsettled⟩ : ∃ o, Settled o c ts := accepted_of_forms hs
  cases o with
  | false => exact hsettled
  | true =>
    -- otherwise an `else` with an empty block could follow
    have hempty : Settled false c [Punct.leftBrace.token default, Punct.rightBrace.token default] :=
      .closed (closed_block default default .nil)
    obtain ⟨o, hlonger⟩ := settled_else hsettled hempty default
    obtain ⟨s, hread⟩ := reads_alone hlonger
    have hformed := formed_of_reads (Nat.le_refl _) hread
    exact absurd ⟨default, _, hformed⟩ hn

/-- A statement is read whatever follows, unless it would take an `else` that comes next. -/
theorem reads_statement (h : Formed c .stmt ts) (hr : TakesElse c ts → NotNext (.keyword .kwElse) rest)
    (hb : ts.length + rest.length + 2 ≤ b) : ∃ s, Reads ((innerAt (b + 1)).statement c) ts rest [] s := by
  by_cases htakes : TakesElse c ts
  · obtain ⟨_, hs⟩ := h
    obtain ⟨o, hsettled⟩ : ∃ o, Settled o c ts := accepted_of_forms hs
    exact settled_reads hsettled (widens_refl c) (fun _ => hr htakes) hb
  · exact settled_reads (settled_of_not_takesElse h htakes) (widens_refl c) nofun hb

/-- The first branch of a conditional is the same whatever follows the `else`. -/
theorem reads_thenBranch (h : Settled false c ts) (w : Pos) : ∃ s, ∀ b rest, NotNext (.keyword .kwElse) rest →
    ts.length + 4 ≤ b → Reads ((innerAt b).statement c) ts (Keyword.kwElse.token w :: rest) [] s := by
  obtain ⟨s, hs⟩ : ∃ s, Reads ((innerAt (ts.length + 3)).anyStatement c) ts [Keyword.kwElse.token w] [] s :=
    settled_reads h (widens_refl c) nofun (Nat.le_refl _)
  refine ⟨s, fun b rest hrest hb => ?_⟩
  obtain ⟨b, rfl⟩ : ∃ j, b = j + 1 := ⟨b - 1, by omega⟩
  have hlocal := (local_of_le False hrest (show ts.length + 3 ≤ b by omega)).anyStatement
    (local_compositional False hrest) (.inl rfl : c.Matches False c)
  exact reads_before hlocal hs

/-! ### The parts of a statement up to the place -/

theorem leads_while {e : Expr} (p q r : Pos) (he : Spells c.inClass .assignment e ts)
    (hb : ts.length + rest.length + 3 ≤ b) :
    Leads ((innerAt b).anyStatement c)
      (Keyword.kwWhile.token p :: Punct.leftParen.token q :: ts ++ [Punct.rightParen.token r]) rest []
      ((innerAt b).statement c.enterLoop >>= fun body => pure (.whileLoop e body)) := by
  iterate 5 refine leads_decline (notNext_cons (by simp)) ?_
  refine leads_accept (leads_expect ?_)
  have htest := reads_expression_before (l := .punct .rightParen) (p := r) (widens_refl c) he rfl hb
  exact leads_seq htest (leads_expect (leads_refl _ rest))

def elsePart (b : Nat) (c : Context) (e : Expr) (yes : Stmt) : Parser Stmt := do
  let no ← match ← accept? (.keyword .kwElse) with
    | some _ => some <$> (innerAt b).statement c
    | none => pure none
  return .ifThen e yes no

theorem leads_if {e : Expr} (p q r : Pos) (he : Spells c.inClass .assignment e ts)
    (hb : ts.length + rest.length + 3 ≤ b) :
    Leads ((innerAt b).anyStatement c)
      (Keyword.kwIf.token p :: Punct.leftParen.token q :: ts ++ [Punct.rightParen.token r]) rest []
      ((innerAt b).statement c >>= elsePart b c e) := by
  refine leads_decline (notNext_cons (by simp)) (leads_accept (leads_expect ?_))
  have htest := reads_expression_before (l := .punct .rightParen) (p := r) (widens_refl c) he rfl hb
  exact leads_seq htest (leads_expect (leads_refl _ rest))

theorem leads_else {e : Expr} {yes : Stmt} (w : Pos) :
    Leads (elsePart b c e yes) [Keyword.kwElse.token w] rest []
      ((innerAt b).statement c >>= fun no => pure (.ifThen e yes (some no))) := by
  rw [← bind_map_left some ((innerAt b).statement c) fun no => pure (Stmt.ifThen e yes no)]
  exact leads_accept (leads_refl _ rest)

theorem reads_noElse {e : Expr} {yes : Stmt} (h : NotNext (.keyword .kwElse) rest) :
    Reads (elsePart b c e yes) [] rest [] (.ifThen e yes none) :=
  leads_decline h (leads_refl _ rest)

theorem leads_for {start : Option Stmt} {test step : Option Expr} (p q r w : Pos) (hs : Forms c (.start start) ts)
    (ht : Optional c test us) (he : Optional c step vs)
    (hb : ts.length + us.length + vs.length + rest.length + 5 ≤ b) :
    Leads ((innerAt b).anyStatement c)
      (Keyword.kwFor.token p :: Punct.leftParen.token q ::
        (ts ++ (us ++ Punct.semicolon.token r :: (vs ++ [Punct.rightParen.token w])))) rest []
      ((innerAt b).statement c.enterLoop >>= fun body => pure (.forLoop start test step body)) := by
  have hw := widens_refl c
  -- the part behind the first clause is read in the same way whichever that clause is
  have hclauses : Leads (do
      let test ← (innerAt b).expressionUnless c (.punct .semicolon)
      let _ ← expect (.punct .semicolon) .expectSemicolonAfterCondition
      let step ← (innerAt b).expressionUnless c (.punct .rightParen)
      let _ ← expect (.punct .rightParen) .expectParenAfterClauses
      let body ← (innerAt b).statement c.enterLoop
      return Stmt.forLoop start test step body)
      (us ++ Punct.semicolon.token r :: (vs ++ [Punct.rightParen.token w])) rest []
      ((innerAt b).statement c.enterLoop >>= fun body => pure (.forLoop start test step body)) := by
    have htest : us.length + (vs ++ [Punct.rightParen.token w] ++ rest).length + 3 ≤ b := by simp; omega
    have hstep : vs.length + rest.length + 3 ≤ b := by omega
    refine leads_seq (reads_expressionUnless hw ht rfl rfl htest) (leads_expect ?_)
    exact leads_seq (reads_expressionUnless hw he rfl rfl hstep) (leads_expect (leads_refl _ rest))
  refine leads_accept (leads_expect ?_)
  cases hs with
  | noStart p => exact leads_accept (leads_pure_bind hclauses)
  | startVar h =>
    obtain ⟨p, ws, rfl, hread⟩ := accepted_of_forms h
    refine leads_decline (notNext_cons (by simp)) (leads_accept (leads_seq (reads_map some ?_) hclauses))
    exact hread c hw _ b (by simp at hb ⊢; omega)
  -- an expression starts with neither a semicolon nor `var`
  | startExpr h =>
    have hstarts : StartsWith startsExpr ts := opens_of_forms h
    have hn : ∀ l, startsExpr l = false →
        NotNext l (ts ++ (us ++ Punct.semicolon.token r :: (vs ++ [Punct.rightParen.token w])) ++ rest) := by
      intro l hl
      rw [List.append_assoc]
      exact notNext_of_startsWith hstarts hl _
    refine leads_decline (hn _ rfl) (leads_decline (hn _ rfl) (leads_seq (reads_map some ?_) hclauses))
    exact accepted_of_forms h c hw _ b (by simp; omega)

theorem leads_block {inner : Inner} (p : Pos) :
    Leads (inner.anyStatement c) [Punct.leftBrace.token p] rest [] (.block <$> inner.block c) := by
  iterate 6 refine leads_decline (notNext_cons (by simp)) ?_
  exact leads_accept (leads_refl _ rest)

theorem leads_function {params : List Name} (noName : SyntaxError.Cause) (x : Name) (p q r : Pos)
    (hp : Listed Named params ts) (hb : ts.length < b) :
    Leads ((innerAt b).function c noName)
      (x.token :: Punct.leftParen.token p :: ts ++ [Punct.rightParen.token q, Punct.leftBrace.token r]) rest []
      ((innerAt b).block c.enterFunction >>= fun body => pure ⟨x, params, body⟩) := by
  refine leads_expectName x (leads_expect (leads_seq (reads_params q hp hb) ?_))
  exact leads_expect (leads_expect (leads_refl _ rest))

theorem leads_class (x : Name) (p q : Pos) :
    Leads ((innerAt b).strictDeclaration c)
      [Keyword.kwClass.token p, x.token, Punct.leftBrace.token q] rest []
      (do
        let ds ← (innerAt b).methods c.enterClass b
        let _ ← expect (.punct .rightBrace) .expectBraceAfterClassBody
        return .classDecl x ds) :=
  leads_accept (leads_expectName x (leads_expect (leads_refl _ rest)))

/-! ### The way out of a place -/

/-- A statement in a place where a declaration may stand. -/
theorem leads_stmt {inner : Inner} (hs : StartsWith startsStmt ts) :
    Leads (inner.strictDeclaration c) [] (ts ++ rest) [] (inner.anyStatement c) := by
  iterate 3 refine leads_decline (notNext_of_startsWith hs rfl rest) ?_
  exact leads_refl _ _

theorem leads_fun (p : Pos) :
    Leads ((innerAt b).strictDeclaration c) [Keyword.kwFun.token p] rest []
      (.function <$> (innerAt b).function c .expectFunctionName) :=
  leads_decline (notNext_cons (by simp)) (leads_accept (leads_refl _ rest))

theorem startsStmt_of_place (h : Place c .stmt before after c') : StartsWith startsStmt before := by
  cases h <;> exact ⟨_, _, rfl, rfl⟩

theorem startsDecl_of_place (h : Place c .decl before after c') : StartsWith startsDecl before := by
  cases h with
  | stmt h =>
    obtain ⟨t, us, rfl, ht⟩ := startsStmt_of_place h
    exact ⟨t, us, rfl, by rw [startsDecl, ht, Bool.true_or]⟩
  | function p h => exact ⟨_, _, rfl, rfl⟩
  | classDecl x p q r h => exact ⟨_, _, rfl, rfl⟩

theorem startsPiece_of_place (h : Place c .function before after c') : StartsWith startsPiece before := by
  cases h with
  | routine x p q r w hp h => exact ⟨_, _, rfl, rfl⟩

structure Dropped (c : Context) (ts : List Token) (es : List SyntaxError) : Prop where
  starts : StartsWith startsPiece ts
  mends : ∀ b rest, NotNext (.keyword .kwElse) rest → ts.length + 3 ≤ b → Mends (declaration b c) ts rest es none

/-- What the tokens before and after a place are parsed as does not change when `ts` is put there. -/
def Heals (ts : List Token) (es : List SyntaxError) (c : Context) (before after : List Token) : Region → Prop
  | .stmt => ∀ b rest, (TakesElse c (before ++ after) → NotNext (.keyword .kwElse) rest) →
    before.length + ts.length + after.length + rest.length + 2 ≤ b →
    ∃ s, Agrees ((innerAt b).anyStatement c) (before ++ (ts ++ after)) (before ++ after) rest es s
  | .decl => ∀ b rest, NotNext (.keyword .kwElse) rest →
    before.length + ts.length + after.length + rest.length + 2 ≤ b →
    ∃ s, Agrees ((innerAt b).strictDeclaration c) (before ++ (ts ++ after)) (before ++ after) rest es s
  | .decls => ∀ b loop stop k, Repeats (Option.toList <$> declaration b c) stop loop →
    NotNext (.keyword .kwElse) stop → before.length + ts.length + after.length + stop.length + 3 ≤ b →
    before.length + ts.length + after.length < k →
    ∃ ss, Agrees (loop k) (before ++ (ts ++ after)) (before ++ after) stop es ss
  | .function => ∀ noName b rest, before.length + ts.length + after.length + rest.length + 2 ≤ b →
    ∃ d, Agrees ((innerAt b).function c noName) (before ++ (ts ++ after)) (before ++ after) rest es d
  | .methods => ∀ b q rest k, before.length + ts.length + after.length + rest.length + 3 ≤ b →
    before.length + ts.length + after.length < k →
    ∃ ds, Agrees ((innerAt b).methods c k) (before ++ (ts ++ after)) (before ++ after)
      (Punct.rightBrace.token q :: rest) es ds

/-- Tokens that are dropped may stand between declarations. -/
theorem heals_here (hd : Dropped c ts es) (hb : Formed c .decls before) (ha : Formed c .decls after) :
    Heals ts es c before after .decls := by
  intro b loop stop k hl hstop hlen hk
  obtain ⟨_, hb⟩ := hb
  obtain ⟨_, ha⟩ := ha
  have hafter := pieces_of_declared (accepted_of_forms ha) (show after.length + 3 ≤ b by omega)
  have hbefore := pieces_of_declared (accepted_of_forms hb) (show before.length + 3 ≤ b by omega)
  have hdrop := hd.mends b (after ++ stop) (notNext_else_of_pieces hafter hstop) (by omega)
  exact agrees_dropped hl hbefore hafter hstop hd.starts (mends_map Option.toList hdrop) hk

/-- There may be more declarations before and behind. -/
theorem heals_amid (hp : Place c .decl before after c') (h : Heals ts es c before after .decl)
    (hu : Formed c .decls us) (hv : Formed c .decls vs) : Heals ts es c (us ++ before) (after ++ vs) .decls := by
  intro b loop stop k hl hstop hlen hk
  obtain ⟨_, hu⟩ := hu
  obtain ⟨_, hv⟩ := hv
  simp only [List.length_append] at hlen hk
  have hafter := pieces_of_declared (accepted_of_forms hv) (show vs.length + 3 ≤ b by omega)
  have hbefore := pieces_of_declared (accepted_of_forms hu) (show us.length + 3 ≤ b by omega)
  obtain ⟨b, rfl⟩ : ∃ j, b = j + 1 := ⟨b - 1, by omega⟩
  obtain ⟨s, hs⟩ := h b (vs ++ stop) (notNext_else_of_pieces hafter hstop) (by rw [List.length_append]; omega)
  have hitem : Agrees (Option.toList <$> declaration (b + 1) c) (before ++ (ts ++ after)) (before ++ after)
    (vs ++ stop) es [s] := agrees_map Option.toList (agrees_recovering hs)
  have hstarts := startsWith_imp startsPiece_of_startsDecl (startsDecl_of_place hp)
  have hall := agrees_changed hl hbefore hafter hstop (startsWith_append hstarts) (startsWith_append hstarts) hitem
    (k := k) (by have := startsWith_length hstarts; omega)
  simpa only [List.append_assoc] using hall

theorem heals_stmt (hp : Place c .stmt before after c') (h : Heals ts es c before after .stmt) :
    Heals ts es c before after .decl := by
  intro b rest hrest hlen
  obtain ⟨s, hs⟩ := h b rest (fun _ => hrest) hlen
  have hstarts := startsStmt_of_place hp
  exact ⟨s, agrees_start (leads_stmt (startsWith_append hstarts)) (leads_stmt (startsWith_append hstarts)) hs⟩

theorem heals_function (p : Pos) (h : Heals ts es c before after .function) :
    Heals ts es c (Keyword.kwFun.token p :: before) after .decl := by
  intro b rest hrest hlen
  rw [List.length_cons] at hlen
  obtain ⟨d, hd⟩ := h .expectFunctionName b rest (by omega)
  have hall := agrees_lead (leads_fun p) (leads_fun p) (agrees_map Stmt.function hd)
  exact ⟨.function d, hall⟩

/-- In a class there may be a malformed statement in one of the methods. -/
theorem heals_class (x : Name) (p q r : Pos) (h : Heals ts es c.enterClass before after .methods) :
    Heals ts es c (Keyword.kwClass.token p :: x.token :: Punct.leftBrace.token q :: before)
      (after ++ [Punct.rightBrace.token r]) .decl := by
  intro b rest hrest hlen
  simp only [List.length_cons, List.length_append, List.length_nil] at hlen
  obtain ⟨ds, hds⟩ := h b r rest b (by omega) (by omega)
  have hlast : Reads (expect (.punct .rightBrace) .expectBraceAfterClassBody >>= fun _ => pure (Stmt.classDecl x ds))
    [Punct.rightBrace.token r] rest [] (.classDecl x ds) := leads_expect (leads_refl _ rest)
  have hbody : Agrees (do
      let ds ← (innerAt b).methods c.enterClass b
      let _ ← expect (.punct .rightBrace) .expectBraceAfterClassBody
      return Stmt.classDecl x ds) (before ++ (ts ++ after) ++ [Punct.rightBrace.token r])
    (before ++ after ++ [Punct.rightBrace.token r]) rest es (.classDecl x ds) := agrees_bind (a := ds) hds hlast
  have hall := agrees_lead (leads_class x p q) (leads_class x p q) hbody
  exact ⟨_, by simpa only [List.append_assoc, List.cons_append, List.nil_append] using hall⟩

/-- A block ends at its own closing brace. -/
theorem agrees_block (q : Pos) (rest : List Token) (h : Heals ts es c before after .decls)
    (hlen : before.length + ts.length + after.length + rest.length + 4 ≤ b) :
    ∃ ss, Agrees ((innerAt b).block c) (before ++ (ts ++ (after ++ [Punct.rightBrace.token q])))
      (before ++ (after ++ [Punct.rightBrace.token q])) rest es ss := by
  obtain ⟨ss, hss⟩ := h b _ (Punct.rightBrace.token q :: rest) b (repeats_declarations b c q rest)
    (notNext_cons (by simp)) (by rw [List.length_cons]; omega) (by omega)
  have hlast : Reads (expect (.punct .rightBrace) .expectBraceAfterBlock >>= fun _ => pure ss)
    [Punct.rightBrace.token q] rest [] ss := leads_expect (leads_refl _ rest)
  have hall : Agrees ((innerAt b).block c) (before ++ (ts ++ after) ++ [Punct.rightBrace.token q])
    (before ++ after ++ [Punct.rightBrace.token q]) rest es ss := agrees_bind (a := ss) hss hlast
  exact ⟨ss, by simpa only [List.append_assoc] using hall⟩

/-- In a function there may be a malformed statement in the body. -/
theorem heals_routine {params : List Name} (x : Name) (p q r w : Pos) (hp : Listed Named params us)
    (h : Heals ts es c.enterFunction before after .decls) :
    Heals ts es c
      (x.token :: Punct.leftParen.token p :: us ++ Punct.rightParen.token q :: Punct.leftBrace.token r :: before)
      (after ++ [Punct.rightBrace.token w]) .function := by
  intro noName b rest hlen
  simp only [List.length_cons, List.length_append, List.length_nil] at hlen
  obtain ⟨ss, hss⟩ := agrees_block w rest h (show _ ≤ b by omega)
  have hus : us.length < b := by omega
  have hall := agrees_lead (leads_function noName x p q r hp hus) (leads_function noName x p q r hp hus)
    (agrees_finish (x := ⟨x, params, ss⟩) hss rfl)
  exact ⟨_, by simpa only [List.append_assoc, List.cons_append, List.nil_append] using hall⟩

/-- There may be more methods before and behind. -/
theorem heals_method (hp : Place c .function before after c') (h : Heals ts es c before after .function)
    (hu : Formed c .methods us) (hv : Formed c .methods vs) :
    Heals ts es c (us ++ before) (after ++ vs) .methods := by
  intro b q rest k hlen hk
  obtain ⟨_, hu⟩ := hu
  obtain ⟨_, hv⟩ := hv
  simp only [List.length_append] at hlen hk
  have hafter := pieces_of_functionLike (accepted_of_forms hv) (show vs.length + 2 ≤ b by omega)
  have hbefore := pieces_of_functionLike (accepted_of_forms hu) (show us.length + 2 ≤ b by omega)
  have hstop : NotNext (.keyword .kwElse) (Punct.rightBrace.token q :: rest) := notNext_cons (by simp)
  obtain ⟨d, hd⟩ := h .expectMethodName b (vs ++ Punct.rightBrace.token q :: rest)
    (by simp only [List.length_append, List.length_cons]; omega)
  have hstarts := startsPiece_of_place hp
  have hall := agrees_changed (repeats_methods b c q rest) hbefore hafter hstop (startsWith_append hstarts)
    (startsWith_append hstarts) (agrees_map (fun d => [d]) hd) (k := k)
    (by have := startsWith_length hstarts; omega)
  simpa only [List.append_assoc] using hall

/-- In a block there may be a malformed statement. -/
theorem heals_block (p q : Pos) (h : Heals ts es c before after .decls) :
    Heals ts es c (Punct.leftBrace.token p :: before) (after ++ [Punct.rightBrace.token q]) .stmt := by
  intro b rest _ hlen
  simp only [List.length_cons, List.length_append, List.length_nil] at hlen
  obtain ⟨ss, hss⟩ := agrees_block q rest h (show _ ≤ b by omega)
  have hall := agrees_lead (leads_block p) (leads_block p) (agrees_map Stmt.block hss)
  exact ⟨.block ss, hall⟩

/-- The place is in a statement that ends another one. -/
theorem heals_last (make : Stmt → Stmt) (hs : StartsWith startsStmt before) (hus : 0 < us.length)
    (hforms : ∀ ws, Formed c' .stmt ws → Formed c .stmt (us ++ ws))
    (hlead : ∀ b rest, NotNext (.keyword .kwElse) rest → us.length + rest.length + 2 ≤ b →
      Leads ((innerAt b).anyStatement c) us rest [] ((innerAt b).statement c' >>= fun s => pure (make s)))
    (h : Heals ts es c' before after .stmt) : Heals ts es c (us ++ before) after .stmt := by
  intro b rest hrest hlen
  rw [List.length_append] at hlen
  obtain ⟨b, rfl⟩ : ∃ j, b = j + 1 := ⟨b - 1, by omega⟩
  have htakes : TakesElse c' (before ++ after) → NotNext (.keyword .kwElse) rest := by
    intro htakes
    apply hrest
    rw [List.append_assoc]
    exact takesElse_of_last (fun ws => hforms _) htakes
  obtain ⟨s, hagrees⟩ := h b rest htakes (by omega)
  have hleads : ∀ vs : List Token, (before ++ vs).length + us.length + rest.length + 2 ≤ b + 1 →
      Leads ((innerAt (b + 1)).anyStatement c) us (before ++ vs ++ rest) []
        ((innerAt (b + 1)).statement c' >>= fun s => pure (make s)) := by
    intro vs hvs
    apply hlead
    · exact notNext_of_startsWith (startsWith_append hs) rfl rest
    · rw [List.length_append]
      omega
  have hbody := agrees_finish (p := (innerAt (b + 1)).statement c') (f := fun s => pure (make s)) hagrees rfl
  have hall := agrees_lead (hleads _ (by simp only [List.length_append]; omega))
    (hleads _ (by simp only [List.length_append]; omega)) hbody
  exact ⟨make s, by simpa only [List.append_assoc] using hall⟩

theorem heals_while {e : Expr} (p q r : Pos) (he : Spells c.inClass .assignment e us)
    (hs : StartsWith startsStmt before) (h : Heals ts es c.enterLoop before after .stmt) :
    Heals ts es c
      (Keyword.kwWhile.token p :: Punct.leftParen.token q :: us ++ [Punct.rightParen.token r] ++ before) after
      .stmt := by
  refine heals_last (.whileLoop e) hs (by simp) (fun ws hws => ?_) (fun b rest _ hb => ?_) h
  · obtain ⟨s, hs⟩ := hws
    exact ⟨_, by simpa using Forms.whileLoop p q r he hs⟩
  · simp only [List.length_append, List.length_cons, List.length_nil] at hb
    exact leads_while p q r he (by omega)

theorem heals_for {start : Option Stmt} {test step : Option Expr} {ws : List Token} (p q r w : Pos)
    (hstart : Forms c (.start start) us) (ht : Optional c test vs) (he : Optional c step ws)
    (hs : StartsWith startsStmt before) (h : Heals ts es c.enterLoop before after .stmt) :
    Heals ts es c
      (Keyword.kwFor.token p :: Punct.leftParen.token q ::
        (us ++ (vs ++ Punct.semicolon.token r :: (ws ++ [Punct.rightParen.token w]))) ++ before) after .stmt := by
  refine heals_last (.forLoop start test step) hs (by simp) (fun ws hws => ?_) (fun b rest _ hb => ?_) h
  · obtain ⟨s, hs⟩ := hws
    exact ⟨_, by simpa using Forms.forLoop p q r w hstart ht he hs⟩
  · simp only [List.length_append, List.length_cons, List.length_nil] at hb
    exact leads_for p q r w hstart ht he (by omega)

theorem heals_elseBranch {e : Expr} (p q r w : Pos) (he : Spells c.inClass .assignment e us)
    (hv : Formed c .stmt vs) (hn : ¬ TakesElse c vs) (hs : StartsWith startsStmt before)
    (h : Heals ts es c before after .stmt) :
    Heals ts es c
      (Keyword.kwIf.token p :: Punct.leftParen.token q :: us ++ [Punct.rightParen.token r] ++
        (vs ++ [Keyword.kwElse.token w]) ++ before) after .stmt := by
  obtain ⟨yes, hyes⟩ := reads_thenBranch (settled_of_not_takesElse hv hn) w
  refine heals_last (fun no => .ifThen e yes (some no)) hs (by simp) (fun ws hws => ?_)
    (fun b rest hrest hb => ?_) h
  · obtain ⟨_, hv⟩ := hv
    obtain ⟨s, hs⟩ := hws
    exact ⟨_, by simpa using Forms.ifElse p q r w he hv hs⟩
  · simp only [List.length_append, List.length_cons, List.length_nil] at hb
    have hlen : us.length + (vs ++ [Keyword.kwElse.token w] ++ rest).length + 3 ≤ b := by
      simp only [List.length_append, List.length_cons, List.length_nil]
      omega
    exact leads_trans (leads_if p q r he hlen) (leads_seq (hyes b rest hrest (by omega)) (leads_else w))

/-- The place is in the first branch of a conditional. -/
theorem agrees_if {e : Expr} {s x : Stmt} (p q r : Pos) (he : Spells c.inClass .assignment e us)
    (hb : us.length + before.length + ts.length + after.length + vs.length + rest.length + 3 ≤ b)
    (h : Agrees ((innerAt b).statement c) (before ++ (ts ++ after)) (before ++ after) (vs ++ rest) es s)
    (hx : Reads (elsePart b c e s) vs rest [] x) :
    Agrees ((innerAt b).anyStatement c)
      (Keyword.kwIf.token p :: Punct.leftParen.token q :: us ++ Punct.rightParen.token r :: before ++
        (ts ++ (after ++ vs)))
      (Keyword.kwIf.token p :: Punct.leftParen.token q :: us ++ Punct.rightParen.token r :: before ++
        (after ++ vs)) rest es x := by
  have hall := agrees_lead (leads_if p q r he (by simp only [List.length_append]; omega))
    (leads_if p q r he (by simp only [List.length_append]; omega)) (agrees_bind h hx)
  simpa only [List.append_assoc, List.cons_append, List.nil_append] using hall

theorem heals_ifThen {e : Expr} (p q r : Pos) (he : Spells c.inClass .assignment e us)
    (hf : Formed c .stmt (before ++ after)) (h : Heals ts es c before after .stmt) :
    Heals ts es c
      (Keyword.kwIf.token p :: Punct.leftParen.token q :: us ++ Punct.rightParen.token r :: before) after .stmt := by
  intro b rest hrest hlen
  simp only [List.length_cons, List.length_append] at hlen
  obtain ⟨b, rfl⟩ : ∃ j, b = j + 1 := ⟨b - 1, by omega⟩
  -- an `else` that followed would belong to this conditional
  have hnone : NotNext (.keyword .kwElse) rest := by
    apply hrest
    simpa using takesElse_ifThen p q r he hf
  obtain ⟨s, hs⟩ := h b rest (fun _ => hnone) (by omega)
  have hyes : Agrees ((innerAt (b + 1)).statement c) (before ++ (ts ++ after)) (before ++ after) ([] ++ rest) es s := hs
  have hall := agrees_if p q r he (by rw [List.length_nil]; omega) hyes (reads_noElse hnone)
  rw [List.append_nil] at hall
  exact ⟨_, hall⟩

/-- In a conditional with two branches there may be a malformed statement in the first one. -/
theorem heals_thenBranch {e : Expr} (p q r w : Pos) (he : Spells c.inClass .assignment e us)
    (hf : Formed c .stmt (before ++ after)) (hn : ¬ TakesElse c (before ++ after)) (hv : Formed c .stmt vs)
    (h : Heals ts es c before after .stmt) :
    Heals ts es c
      (Keyword.kwIf.token p :: Punct.leftParen.token q :: us ++ Punct.rightParen.token r :: before)
      (after ++ Keyword.kwElse.token w :: vs) .stmt := by
  intro b rest hrest hlen
  simp only [List.length_cons, List.length_append] at hlen
  obtain ⟨b, rfl⟩ : ∃ j, b = j + 1 := ⟨b - 1, by omega⟩
  have htakes : TakesElse c vs → NotNext (.keyword .kwElse) rest := by
    obtain ⟨_, hf⟩ := hf
    intro htakes
    apply hrest
    have hwhole : TakesElse c (Keyword.kwIf.token p :: Punct.leftParen.token q :: us ++
        Punct.rightParen.token r :: (before ++ after) ++ [Keyword.kwElse.token w] ++ vs) :=
      takesElse_of_last (fun ws hws => hws.elim fun s hs => ⟨_, by simpa using Forms.ifElse p q r w he hf hs⟩) htakes
    simpa using hwhole
  obtain ⟨no, hno⟩ := reads_statement hv htakes (show vs.length + rest.length + 2 ≤ b by omega)
  obtain ⟨s, hs⟩ := h b (Keyword.kwElse.token w :: vs ++ rest) (fun htakes => absurd htakes hn)
    (by simp only [List.length_append, List.length_cons]; omega)
  have hlast : Reads (elsePart (b + 1) c e s) (Keyword.kwElse.token w :: vs) rest [] (.ifThen e s (some no)) :=
    leads_trans (leads_else w) (leads_bind_last hno (leads_refl _ rest))
  exact ⟨_, agrees_if p q r he (by rw [List.length_cons]; omega) hs hlast⟩

/-- At whatever place tokens are put that are dropped, the rest is parsed as it is without them. -/
theorem heals_of_place {region : Region} (h : Place c region before after c') (hd : Dropped c' ts es) :
    Heals ts es c before after region := by
  induction h with
  | here hb ha => exact heals_here hd hb ha
  | amid hu hp hv ih => exact heals_amid hp (ih hd) hu hv
  | stmt hp ih => exact heals_stmt hp (ih hd)
  | function p _ ih => exact heals_function p (ih hd)
  | classDecl x p q r _ ih => exact heals_class x p q r (ih hd)
  | routine x p q r w hp _ ih => exact heals_routine x p q r w hp (ih hd)
  | method hu hp hv ih => exact heals_method hp (ih hd) hu hv
  | block p q _ ih => exact heals_block p q (ih hd)
  | ifThen p q r he hp ih => exact heals_ifThen p q r he (formed_of_place hp) (ih hd)
  | thenBranch p q r w he hp hy hn ih => exact heals_thenBranch p q r w he (formed_of_place hp) hy hn (ih hd)
  | elseBranch p q r w he hu hy hp ih =>
    simpa using heals_elseBranch p q r w he hu hy (startsStmt_of_place hp) (ih hd)
  | whileLoop p q r he hp ih => simpa using heals_while p q r he (startsStmt_of_place hp) (ih hd)
  | forLoop p q r w hs ht he hp ih => simpa using heals_for p q r w hs ht he (startsStmt_of_place hp) (ih hd)

end Lox.Parser
