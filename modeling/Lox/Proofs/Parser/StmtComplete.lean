import Lox.Proofs.Parser.DanglingElse

/-! The parser reads all that the rules of statements form, without an error. Which tree it builds is left open
where the rules leave it open to which conditional an `else` belongs. -/
namespace Lox.Parser

open Grammar

variable {c c' : Context} {ts us rest : List Token} {b k : Nat}

theorem leads_atEnd {α : Type} {f : Bool → Parser α} {q : Parser α} {es : List SyntaxError}
    (h : Leads (f (ts ++ rest).isEmpty) ts rest es q) : Leads (atEnd >>= f) ts rest es q := by
  intro endPos errors resumed
  rw [bind_apply]
  exact h endPos errors resumed

theorem reads_recovering {α : Type} {p : Parser α} {a : α} {es : List SyntaxError} (h : Reads p ts rest es a) :
    Reads (recovering p) ts rest es (some a) := by
  intro endPos errors resumed
  unfold recovering
  rw [h endPos errors resumed]
  rfl

/-- The names of parameters, after some that have been read before. -/
theorem reads_names {xs : List Name} {before : Nat} (p : Pos) (h : Separated Named xs ts)
    (hl : before + xs.length ≤ maxListLength) (hk : ts.length < k) :
    Reads (items .tooManyParameters (expectName .expectParameterName) k before) ts
      (Punct.rightParen.token p :: rest) [] xs := by
  induction h generalizing before k with
  | @one x ts h =>
    cases h
    obtain ⟨k, rfl⟩ : ∃ j, k = j + 1 := ⟨k - 1, by omega⟩
    rw [List.length_singleton] at hl
    unfold items
    rw [if_neg (by omega)]
    exact leads_expectName x (leads_decline (notNext_cons (by simp)) (leads_refl _ _))
  | @more x xs ts us q h _ ih =>
    cases h
    simp only [List.length_append, List.length_cons, List.length_nil] at hl hk
    obtain ⟨k, rfl⟩ : ∃ j, k = j + 1 := ⟨k - 1, by omega⟩
    unfold items
    rw [if_neg (by omega)]
    have hothers := ih (show before + 1 + xs.length ≤ maxListLength by omega) (show us.length < k by omega)
    exact leads_expectName x (leads_accept (leads_bind_last hothers (leads_refl _ _)))

theorem reads_params {xs : List Name} (p : Pos) (h : Listed Named xs ts) (hb : ts.length < b) :
    Reads (list .tooManyParameters (expectName .expectParameterName) b) ts (Punct.rightParen.token p :: rest) []
      xs := by
  obtain ⟨hi, hl⟩ := h
  rcases hi with ⟨rfl, rfl⟩ | hi
  · exact leads_nextIs_true (leads_refl _ _)
  · have hfirst : NotNext (.punct .rightParen) (ts ++ Punct.rightParen.token p :: rest) := by
      cases hi with
      | one h =>
        cases h
        exact notNext_cons (by simp)
      | more q h _ =>
        cases h
        exact notNext_cons (by simp)
    exact leads_nextIs hfirst (reads_names p hi (by omega) hb)

inductive Sequence (P : List Token → Prop) : List Token → Prop where
  | nil : Sequence P []
  | cons {ts us : List Token} (h : P ts) (hs : Sequence P us) : Sequence P (ts ++ us)

/-- The tokens of a declaration: whatever follows, unless it is an `else`, they are read without an error. -/
structure Declared (c : Context) (ts : List Token) : Prop where
  starts : StartsWith startsDecl ts
  reads : ∀ c', c.Widens c' → ∀ rest b, NotNext (.keyword .kwElse) rest → ts.length + rest.length + 2 ≤ b →
    ∃ s, Reads ((innerAt b).strictDeclaration c') ts rest [] s

structure FunctionLike (c : Context) (ts : List Token) : Prop where
  starts : ∃ x, StartsWith (· = .identifier x) ts
  reads : ∀ c', c.Widens c' → ∀ noName rest b, ts.length + rest.length + 2 ≤ b →
    ∃ d, Reads ((innerAt b).function c' noName) ts rest [] d

/-- What starts with a declaration does not start with an `else`. -/
theorem notNext_else_of_declared (h : Sequence (Declared c) ts) (hr : NotNext (.keyword .kwElse) rest) :
    NotNext (.keyword .kwElse) (ts ++ rest) := by
  cases h with
  | nil => exact hr
  | cons h _ =>
    rw [List.append_assoc]
    exact notNext_of_startsWith h.starts rfl _

/-- One declaration is read by the parser that goes on after errors. -/
theorem reads_declaration (h : Declared c ts) (hw : c.Widens c') (hr : NotNext (.keyword .kwElse) rest)
    (hb : ts.length + rest.length + 3 ≤ b) : ∃ s, Reads (declaration b c') ts rest [] (some s) := by
  obtain ⟨b, rfl⟩ : ∃ j, b = j + 1 := ⟨b - 1, by omega⟩
  obtain ⟨s, hs⟩ := h.reads c' hw rest b hr (by omega)
  exact ⟨s, reads_recovering hs⟩

/-- Declarations are read up to the closing brace of their block. -/
theorem reads_declarations (p : Pos) (h : Sequence (Declared c) ts) (hw : c.Widens c')
    (hb : ts.length + rest.length + 4 ≤ b) (hk : ts.length < k) :
    ∃ ss, Reads ((innerAt b).declarations c' k) ts (Punct.rightBrace.token p :: rest) [] ss := by
  induction h generalizing k with
  | nil =>
    obtain ⟨k, rfl⟩ : ∃ j, k = j + 1 := ⟨k - 1, by omega⟩
    exact ⟨[], leads_nextIs_true (leads_atEnd (leads_refl _ _))⟩
  | @cons ts us hts hus ih =>
    have hbrace := notNext_of_startsWith hts.starts (l := .punct .rightBrace) rfl
      (us ++ Punct.rightBrace.token p :: rest)
    -- a statement with an open conditional is read only if no `else` follows
    have helse : NotNext (.keyword .kwElse) (us ++ Punct.rightBrace.token p :: rest) :=
      notNext_else_of_declared hus (notNext_cons (by simp))
    rw [List.length_append] at hb hk
    have hlen : ts.length + (us ++ Punct.rightBrace.token p :: rest).length + 3 ≤ b := by
      simp only [List.length_append, List.length_cons]
      omega
    obtain ⟨s, hs⟩ := reads_declaration hts hw helse hlen
    -- a declaration has a token, so that the turns that are left are enough for the others
    obtain ⟨t, vs, rfl, -⟩ := hts.starts
    rw [List.length_cons] at hb hk
    obtain ⟨k, rfl⟩ : ∃ j, k = j + 1 := ⟨k - 1, by omega⟩
    obtain ⟨ss, hss⟩ := ih (by omega) (show us.length < k by omega)
    rw [← List.append_assoc] at hbrace
    refine ⟨s :: ss, leads_nextIs hbrace (leads_atEnd (leads_seq hs ?_))⟩
    exact leads_bind_last hss (leads_refl _ _)

theorem reads_methods (p : Pos) (h : Sequence (FunctionLike c) ts) (hw : c.Widens c')
    (hb : ts.length + rest.length + 3 ≤ b) (hk : ts.length < k) :
    ∃ ds, Reads ((innerAt b).methods c' k) ts (Punct.rightBrace.token p :: rest) [] ds := by
  induction h generalizing k with
  | nil =>
    obtain ⟨k, rfl⟩ : ∃ j, k = j + 1 := ⟨k - 1, by omega⟩
    exact ⟨[], leads_nextIs_true (leads_atEnd (leads_refl _ _))⟩
  | @cons ts us hts _ ih =>
    obtain ⟨x, hx⟩ := hts.starts
    have hbrace := notNext_of_startsWith hx (l := .punct .rightBrace) (decide_eq_false (by simp))
      (us ++ Punct.rightBrace.token p :: rest)
    rw [List.length_append] at hb hk
    have hlen : ts.length + (us ++ Punct.rightBrace.token p :: rest).length + 2 ≤ b := by
      simp only [List.length_append, List.length_cons]
      omega
    obtain ⟨d, hd⟩ := hts.reads c' hw .expectMethodName (us ++ Punct.rightBrace.token p :: rest) b hlen
    obtain ⟨t, vs, rfl, -⟩ := hx
    rw [List.length_cons] at hb hk
    obtain ⟨k, rfl⟩ : ∃ j, k = j + 1 := ⟨k - 1, by omega⟩
    obtain ⟨ds, hds⟩ := ih (by omega) (show us.length < k by omega)
    rw [← List.append_assoc] at hbrace
    refine ⟨d :: ds, leads_nextIs hbrace (leads_atEnd (leads_seq hd ?_))⟩
    exact leads_bind_last hds (leads_refl _ _)

def Accepted (c : Context) : Construct → List Token → Prop
  | .exprStmt s, ts => ∀ c', c.Widens c' → ∀ rest b, ts.length + rest.length + 2 ≤ b →
    Reads ((innerAt b).exprStmt c') ts rest [] s
  | .varDecl s, ts => ∃ p us, ts = Keyword.kwVar.token p :: us ∧ ∀ c', c.Widens c' → ∀ rest b,
    us.length + rest.length + 2 ≤ b → Reads ((innerAt b).varDecl c') us rest [] s
  | .simple _, ts => Closed c ts
  | .start _, ts => Starting c ts
  | .stmt _, ts => ∃ o, Settled o c ts
  | .decl _, ts => Declared c ts
  | .decls _, ts => Sequence (Declared c) ts
  | .function _, ts => FunctionLike c ts
  | .methods _, ts => Sequence (FunctionLike c) ts

theorem reads_body (p : Pos) (h : Sequence (Declared c) ts) (hw : c.Widens c')
    (hb : ts.length + rest.length + 4 ≤ b) :
    ∃ ss, Reads ((innerAt b).block c') (ts ++ [Punct.rightBrace.token p]) rest [] ss := by
  obtain ⟨ss, hss⟩ := reads_declarations p h hw hb (show ts.length < b by omega)
  exact ⟨ss, reads_block p hss⟩

theorem closed_exprStmt {s : Stmt} (h : Accepted c (.exprStmt s) ts) (hs : StartsWith startsExpr ts) :
    Closed c ts := by
  intro c' hw rest b hb
  exact ⟨s, anyStatement_expr (h c' hw rest b hb) fun l hl => notNext_of_startsWith hs hl rest⟩

theorem closed_print {e : Expr} (p q : Pos) (h : Spells c.inClass .assignment e ts) :
    Closed c (Keyword.kwPrint.token p :: ts ++ [Punct.semicolon.token q]) := by
  intro c' hw rest b hb
  simp only [List.length_append, List.length_cons, List.length_nil] at hb
  exact ⟨_, anyStatement_print (reads_print q hw h (by omega))⟩

theorem closed_return {e : Option Expr} (p q : Pos) (hf : c.inFunction = true) (h : Optional c e ts) :
    Closed c (Keyword.kwReturn.token p :: ts ++ [Punct.semicolon.token q]) := by
  intro c' hw rest b hb
  simp only [List.length_append, List.length_cons, List.length_nil] at hb
  exact ⟨_, anyStatement_return (reads_return p q hw hf h (by omega))⟩

theorem closed_break (p q : Pos) (hl : c.inLoop = true) :
    Closed c [Keyword.kwBreak.token p, Punct.semicolon.token q] := by
  intro c' hw rest b _
  exact ⟨_, anyStatement_break (reads_break p q hw hl)⟩

theorem closed_block (p q : Pos) (h : Sequence (Declared c) ts) :
    Closed c (Punct.leftBrace.token p :: ts ++ [Punct.rightBrace.token q]) := by
  intro c' hw rest b hb
  simp only [List.length_append, List.length_cons, List.length_nil] at hb
  obtain ⟨ss, hss⟩ := reads_body q h hw (show ts.length + rest.length + 4 ≤ b by omega)
  exact ⟨.block ss, anyStatement_block hss⟩

theorem starting_var {s : Stmt} (h : Accepted c (.varDecl s) ts) : Starting c ts := by
  obtain ⟨p, us, rfl, h⟩ := h
  intro c' hw rest b hb
  rw [List.length_cons] at hb
  exact .var p (h c' hw rest b (by omega))

theorem starting_expr {s : Stmt} (h : Accepted c (.exprStmt s) ts) (hs : StartsWith startsExpr ts) :
    Starting c ts := by
  intro c' hw rest b hb
  exact .expr (h c' hw rest b hb) fun l hl => notNext_of_startsWith hs hl rest

/-- With two branches, the `else` belongs to the conditional itself or to an open one in its first branch. -/
theorem settled_ifElse {o o' : Bool} {e : Expr} {vs : List Token} (p q r w : Pos)
    (he : Spells c.inClass .assignment e ts) (hy : Settled o c us) (hn : Settled o' c vs) :
    ∃ o'', Settled o'' c (Keyword.kwIf.token p :: Punct.leftParen.token q :: ts ++
      Punct.rightParen.token r :: us ++ Keyword.kwElse.token w :: vs) := by
  rw [List.append_assoc]
  cases o with
  | false => exact ⟨o', .ifElse p q r w he hy hn⟩
  -- the grammar puts the `else` here, the parser into the first branch; the tokens are the same
  | true =>
    obtain ⟨o'', h⟩ := settled_else hy hn w
    exact ⟨true, .ifThen p q r he h⟩

theorem declared_stmt {o : Bool} (h : Settled o c ts) (hs : StartsWith startsStmt ts) : Declared c ts := by
  refine ⟨?_, fun c' hw rest b hr hb => ?_⟩
  · obtain ⟨t, us, rfl, ht⟩ := hs
    exact ⟨t, us, rfl, by rw [startsDecl, ht, Bool.true_or]⟩
  · obtain ⟨s, hread⟩ := settled_reads h hw (fun _ => hr) hb
    refine ⟨s, ?_⟩
    -- no statement starts like a class, a function or a variable
    iterate 3 refine leads_decline (notNext_of_startsWith hs rfl rest) ?_
    exact hread

theorem declared_var {s : Stmt} (h : Accepted c (.varDecl s) ts) : Declared c ts := by
  obtain ⟨p, us, rfl, h⟩ := h
  refine ⟨⟨_, us, rfl, rfl⟩, fun c' hw rest b _ hb => ?_⟩
  rw [List.length_cons] at hb
  refine ⟨s, ?_⟩
  iterate 2 refine leads_decline (notNext_cons (by simp)) ?_
  exact leads_accept (h c' hw rest b (by omega))

theorem declared_function (p : Pos) (h : FunctionLike c ts) : Declared c (Keyword.kwFun.token p :: ts) := by
  refine ⟨⟨_, ts, rfl, rfl⟩, fun c' hw rest b _ hb => ?_⟩
  rw [List.length_cons] at hb
  obtain ⟨d, hd⟩ := h.reads c' hw .expectFunctionName rest b (by omega)
  exact ⟨.function d, leads_decline (notNext_cons (by simp)) (leads_accept (reads_map _ hd))⟩

theorem declared_class (x : Name) (p q r : Pos) (h : Sequence (FunctionLike c.enterClass) ts) :
    Declared c (Keyword.kwClass.token p :: x.token :: Punct.leftBrace.token q :: ts ++
      [Punct.rightBrace.token r]) := by
  refine ⟨⟨_, _, rfl, rfl⟩, fun c' hw rest b _ hb => ?_⟩
  simp only [List.length_append, List.length_cons, List.length_nil] at hb
  obtain ⟨ds, hds⟩ := reads_methods r h (widens_enterClass hw)
    (show ts.length + rest.length + 3 ≤ b by omega) (show ts.length < b by omega)
  refine ⟨.classDecl x ds, leads_accept (leads_expectName x (leads_expect ?_))⟩
  exact leads_seq hds (leads_expect (leads_refl _ rest))

theorem routine_reads {params : List Name} (x : Name) (p q r w : Pos) (hp : Listed Named params ts)
    (h : Sequence (Declared c.enterFunction) us) :
    FunctionLike c (x.token :: Punct.leftParen.token p :: ts ++
      Punct.rightParen.token q :: Punct.leftBrace.token r :: us ++ [Punct.rightBrace.token w]) := by
  refine ⟨⟨x.text, _, _, rfl, decide_eq_true rfl⟩, fun c' hw noName rest b hb => ?_⟩
  simp only [List.length_append, List.length_cons, List.length_nil] at hb
  obtain ⟨ss, hss⟩ := reads_body w h (widens_enterFunction hw) (show us.length + rest.length + 4 ≤ b by omega)
  rw [List.append_assoc]
  refine ⟨⟨x, params, ss⟩, leads_expectName x (leads_expect ?_)⟩
  refine leads_seq (reads_params q hp (show ts.length < b by omega)) (leads_expect (leads_expect ?_))
  exact leads_bind_last hss (leads_refl _ rest)

/-- Whatever the rules form is accepted, by induction on the derivation. -/
theorem accepted_of_forms {construct : Construct} (h : Forms c construct ts) : Accepted c construct ts := by
  induction h with
  | exprStmt p he =>
    intro c' hw rest b hb
    rw [List.length_append, List.length_singleton] at hb
    exact reads_exprStmt p hw he (by omega)
  | varBare x p q => exact ⟨p, _, rfl, fun c' _ rest b _ => reads_varBare x q⟩
  | @varValue _ _ ts x p q r he =>
    refine ⟨p, x.token :: Punct.equal.token q :: (ts ++ [Punct.semicolon.token r]), rfl, ?_⟩
    intro c' hw rest b hb
    simp only [List.length_append, List.length_cons, List.length_nil] at hb
    exact reads_varValue x q r hw he (by omega)
  | expr h ih => exact closed_exprStmt ih (opens_of_forms h)
  | print p q he => exact closed_print p q he
  | returnValue p q hf he => exact closed_return p q hf he
  | breakLoop p q hl => exact closed_break p q hl
  | block p q _ ih => exact closed_block p q ih
  | noStart p => exact fun c' _ rest b _ => .none p
  | startVar _ ih => exact starting_var ih
  | startExpr h ih => exact starting_expr ih (opens_of_forms h)
  | simple _ ih => exact ⟨false, .closed ih⟩
  -- without an `else` the conditional is still open to one
  | ifThen p q r he _ ih =>
    obtain ⟨o, hy⟩ := ih
    exact ⟨true, .ifThen p q r he hy⟩
  | ifElse p q r w he _ _ ihy ihn =>
    obtain ⟨o, hy⟩ := ihy
    obtain ⟨o', hn⟩ := ihn
    exact settled_ifElse p q r w he hy hn
  | whileLoop p q r he _ ih =>
    obtain ⟨o, hb⟩ := ih
    exact ⟨o, .whileLoop p q r he hb⟩
  | forLoop p q r w _ ht he _ ihs ihb =>
    obtain ⟨o, hb⟩ := ihb
    have hloop := Settled.forLoop p q r w ihs ht he hb
    exact ⟨o, by simpa only [List.cons_append, List.append_assoc] using hloop⟩
  | stmt h ih =>
    obtain ⟨o, hs⟩ := ih
    exact declared_stmt hs (opens_of_forms h)
  | varDecl _ ih => exact declared_var ih
  | function p _ ih => exact declared_function p ih
  | classDecl x p q r _ ih => exact declared_class x p q r ih
  | noDecls => exact .nil
  | moreDecls _ _ ih ihs => exact .cons ih ihs
  | routine x p q r w hp _ ih => exact routine_reads x p q r w hp ih
  | noMethods => exact .nil
  | moreMethods _ _ ih ihs => exact .cons ih ihs

end Lox.Parser
