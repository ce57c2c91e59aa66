import Lox.Proofs.Parser.ExprSound
import Lox.Proofs.Parser.Reading

/-! How the parser gets through the tokens of an expression, one rule of the grammar after the other. At a rank
where operands are gathered by a loop, the tokens lead into the loop with the tree that has been built so far. -/
namespace Lox.Parser

open Grammar

/-- The errors that `this` gives where no class is around, the newest first. -/
def strayThis (inClass : Bool) (ts : List Token) : List SyntaxError :=
  if inClass then []
  else ((ts.filter (·.lexeme = .keyword .kwThis)).map fun t => ⟨.thisOutsideClass, .token t⟩).reverse

variable {inClass : Bool}

@[simp] theorem strayThis_nil : strayThis inClass [] = [] := by
  cases inClass <;> rfl

/-- Errors are found in the order of the tokens. -/
theorem strayThis_append (ts us : List Token) :
    strayThis inClass (ts ++ us) = strayThis inClass us ++ strayThis inClass ts := by
  cases inClass with
  | true => rfl
  | false => simp [strayThis]

theorem strayThis_cons {t : Token} (h : t.lexeme ≠ .keyword .kwThis) (ts : List Token) :
    strayThis inClass (t :: ts) = strayThis inClass ts := by
  simp [strayThis, h]

def callAt (inClass : Bool) (b : Nat) : Parser Expr := do
  suffixes (expression inClass b) b (← primary (expression inClass b) inClass)

def operandAt (inClass : Bool) (b : Nat) : Parser Expr := unary (callAt inClass b) b

/-- What the parser does on the tokens of an expression, by its rank. Where the parser has a loop, it reaches the
loop with what it has read so far. -/
def Joins (inClass : Bool) (ts : List Token) (e : Expr) : Rank → Prop
  | .assignment => ∀ rest b, ts.length + rest.length + 2 ≤ b → Stops .assignment rest →
    Reads (expression inClass b) ts rest (strayThis inClass ts) e
  | .operator level => ∀ rest b levels, level :: levels <:+ Level.all → ts.length + rest.length + 1 ≤ b →
    Stops (Rank.operator level).tighter rest → ∃ k, rest.length < k ∧
      Leads (binary (operandAt inClass b) b (level :: levels)) ts rest (strayThis inClass ts)
        (operands level (binary (operandAt inClass b) b levels) k e)
  | .unary => ∀ rest b k, ts.length + rest.length + 1 ≤ b → ts.length + rest.length < k → Stops .call rest →
    Reads (unary (callAt inClass b) k) ts rest (strayThis inClass ts) e
  | .call => ∀ rest b, ts.length + rest.length + 1 ≤ b → ∃ k, rest.length < k ∧
    Leads (callAt inClass b) ts rest (strayThis inClass ts) (suffixes (expression inClass b) k e)
  | .primary => ∀ rest b, ts.length + rest.length + 1 ≤ b →
    Reads (primary (expression inClass b) inClass) ts rest (strayThis inClass ts) e

/-- A loop over operands ends where no operator of its level comes next. -/
theorem operands_stop {level : Level} {operand : Parser Expr} {k : Nat} {e : Expr} {rest : List Token}
    (hk : rest.length < k) (hs : Stops (.operator level) rest) : Reads (operands level operand k e) [] rest [] e := by
  obtain ⟨k, rfl⟩ : ∃ j, k = j + 1 := ⟨k - 1, by omega⟩
  refine leads_pass (fun t ht => ?_) (leads_refl _ rest)
  have hj : joins? t.lexeme ≠ some (.operator level) := by
    intro hj
    exact Nat.lt_irrefl _ (hs t ht _ hj)
  -- a token from which the level would build a node joins at that level
  obtain ⟨l, p⟩ := t
  unfold Level.node?
  split
  all_goals first | rfl | (rename_i hl; cases hl; exact absurd rfl hj)

/-- Where neither a call nor a property goes on with it, an expression is complete. -/
theorem suffixes_stop {inner : Parser Expr} {k : Nat} {e : Expr} {rest : List Token} (hk : rest.length < k)
    (hs : Stops .call rest) : Reads (suffixes inner k e) [] rest [] e := by
  obtain ⟨k, rfl⟩ : ∃ j, k = j + 1 := ⟨k - 1, by omega⟩
  refine leads_decline (notNext_of_stops (l := .punct .leftParen) hs rfl (Nat.le_refl _)) ?_
  refine leads_decline (notNext_of_stops (l := .punct .dot) hs rfl (Nat.le_refl _)) ?_
  exact leads_refl _ rest

/-- Where the tokens end a sequence of operands, the operators of its levels are read to their end. -/
theorem reads_binary {ts rest : List Token} {e : Expr} {b : Nat} {levels : List Level}
    (h : Joins inClass ts e (rankOf levels)) (hl : levels <:+ Level.all) (hb : ts.length + rest.length + 1 ≤ b)
    (hs : Stops (rankOf levels) rest) :
    Reads (binary (operandAt inClass b) b levels) ts rest (strayThis inClass ts) e := by
  cases levels with
  | nil => exact h rest b b hb (by omega) (stops_tighter hs)
  | cons level levels =>
    obtain ⟨k, hk, hlead⟩ := h rest b levels hl hb (stops_tighter hs)
    exact leads_trans_last hlead (operands_stop hk hs)

theorem atom?_eq_none {l : Lexeme} {p : Pos} (h : l = .keyword .kwThis ∨ l = .punct .leftParen) :
    atom? ⟨l, p⟩ = none := by
  rcases h with rfl | rfl <;> rfl

/-- A single token that is an expression by itself. -/
theorem joins_atom {t : Token} {e : Expr} (h : atom? t = some e) : Joins inClass [t] e .primary := by
  intro rest b _
  have hthis : t.lexeme ≠ .keyword .kwThis := by
    intro ht
    obtain ⟨l, p⟩ := t
    rw [atom?_eq_none (Or.inl ht)] at h
    cases h
  rw [strayThis_cons hthis, strayThis_nil]
  exact leads_take h (leads_refl _ rest)

/-- A `this` is read, and reported where no class is around. -/
theorem joins_this (p : Pos) : Joins inClass [Keyword.kwThis.token p] (.this p) .primary := by
  intro rest b _
  refine leads_pass (fun t ht => ?_) (leads_accept ?_)
  · cases ht
    exact atom?_eq_none (Or.inl rfl)
  · cases inClass with
    | true => exact leads_refl _ rest
    | false => exact fun _ _ _ => rfl

theorem joins_group {ts : List Token} {e : Expr} (p q : Pos) (h : Joins inClass ts e .assignment) :
    Joins inClass (Punct.leftParen.token p :: ts ++ [Punct.rightParen.token q]) (.group e) .primary := by
  intro rest b hb
  simp only [List.cons_append, List.length_cons, List.length_append, List.length_nil] at hb
  have hinner := h (Punct.rightParen.token q :: rest) b (by rw [List.length_cons]; omega) (stops_of_joins rfl)
  have hstray : strayThis inClass (Punct.leftParen.token p :: ts ++ [Punct.rightParen.token q]) =
      [] ++ strayThis inClass ts := by
    rw [List.cons_append, strayThis_cons (by simp), strayThis_append, strayThis_cons (by simp), strayThis_nil]
  rw [hstray]
  refine leads_pass (fun t ht => ?_) (leads_decline (notNext_cons (by simp)) (leads_accept ?_))
  · cases ht
    exact atom?_eq_none (Or.inr rfl)
  · exact leads_bind hinner (leads_expect (leads_refl _ rest))

theorem joins_call_of_primary {ts : List Token} {e : Expr} (h : Joins inClass ts e .primary) :
    Joins inClass ts e .call := by
  intro rest b hb
  exact ⟨b, by omega, leads_bind_last (h rest b hb) (leads_refl _ rest)⟩

/-- A property goes on with what can be called. -/
theorem joins_get {ts : List Token} {o : Expr} (p : Pos) (x : Name) (h : Joins inClass ts o .call) :
    Joins inClass (ts ++ [Punct.dot.token p, x.token]) (.get o x) .call := by
  intro rest b hb
  simp only [List.length_append, List.length_cons, List.length_nil] at hb
  obtain ⟨k, hk, hlead⟩ := h ([Punct.dot.token p, x.token] ++ rest) b
    (by simp only [List.length_append, List.length_cons, List.length_nil]; omega)
  obtain ⟨k, rfl⟩ : ∃ j, k = j + 1 := ⟨k - 1, by omega⟩
  simp only [List.length_append, List.length_cons, List.length_nil] at hk
  refine ⟨k, by omega, ?_⟩
  -- the loop is reached with the object, and one turn of it adds the property
  have hstep : Leads (suffixes (expression inClass b) (k + 1) o) [Punct.dot.token p, x.token] rest []
      (suffixes (expression inClass b) k (.get o x)) :=
    leads_decline (notNext_cons (by simp)) (leads_accept (leads_expectName x (leads_refl _ rest)))
  have hstray : strayThis inClass (ts ++ [Punct.dot.token p, x.token]) = [] ++ strayThis inClass ts := by
    rw [strayThis_append, strayThis_cons (by simp), strayThis_cons (by simp), strayThis_nil]
  rw [hstray]
  exact leads_trans hlead hstep

def JoinsArgs (inClass : Bool) (ts : List Token) (es : List Expr) : Prop :=
  ∀ rest b k p, ts.length + rest.length + 3 ≤ b → ts.length + rest.length < k →
    Reads (list .tooManyArguments (expression inClass b) k) ts (Punct.rightParen.token p :: rest)
      (strayThis inClass ts) es

/-- Arguments in parentheses go on with what can be called. -/
theorem joins_call {ts us : List Token} {f : Expr} {es : List Expr} (p q : Pos) (hf : Joins inClass ts f .call)
    (hes : JoinsArgs inClass us es) :
    Joins inClass (ts ++ Punct.leftParen.token p :: us ++ [Punct.rightParen.token q]) (.call f es q) .call := by
  intro rest b hb
  simp only [List.length_append, List.length_cons, List.length_nil] at hb
  obtain ⟨k, hk, hlead⟩ := hf (Punct.leftParen.token p :: us ++ [Punct.rightParen.token q] ++ rest) b
    (by simp only [List.length_append, List.length_cons, List.length_nil]; omega)
  obtain ⟨k, rfl⟩ : ∃ j, k = j + 1 := ⟨k - 1, by omega⟩
  simp only [List.length_append, List.length_cons, List.length_nil] at hk
  refine ⟨k, by omega, ?_⟩
  -- one turn of the loop reads the arguments, with the turns that are left as their bound
  have hargs := hes rest b k q (by omega) (by omega)
  have hstep : Leads (suffixes (expression inClass b) (k + 1) f)
      (Punct.leftParen.token p :: us ++ [Punct.rightParen.token q]) rest ([] ++ strayThis inClass us)
      (suffixes (expression inClass b) k (.call f es q)) :=
    leads_accept (leads_bind hargs (leads_expect (leads_refl _ rest)))
  have hstray : strayThis inClass (ts ++ Punct.leftParen.token p :: us ++ [Punct.rightParen.token q]) =
      [] ++ strayThis inClass us ++ strayThis inClass ts := by
    rw [strayThis_append, strayThis_append, strayThis_cons (by simp), strayThis_cons (by simp), strayThis_nil]
    rfl
  rw [hstray, List.append_assoc]
  exact leads_trans hlead hstep

theorem joins_unary {ts : List Token} {e : Expr} (op : UnaryOp) (p : Pos) (h : Joins inClass ts e .unary) :
    Joins inClass (op.punct.token p :: ts) (.unary op p e) .unary := by
  intro rest b k hb hk hs
  simp only [List.length_cons] at hb hk
  obtain ⟨k, rfl⟩ : ∃ j, k = j + 1 := ⟨k - 1, by omega⟩
  have hop : prefixOp? (op.punct.token p) = some (op, p) := by cases op <;> rfl
  rw [strayThis_cons (by simp)]
  exact leads_take hop (leads_bind_last (h rest b k (by omega) (by omega) hs) (leads_refl _ rest))

theorem joins_unary_of_call {ts : List Token} {e : Expr} (h : Joins inClass ts e .call)
    (hs : Starts (.expr .call e) ts) : Joins inClass ts e .unary := by
  intro rest b k hb hk hstop
  obtain ⟨k, rfl⟩ : ∃ j, k = j + 1 := ⟨k - 1, by omega⟩
  obtain ⟨j, hj, hlead⟩ := h rest b hb
  obtain ⟨t, us, rfl, -, hp⟩ := hs
  -- a call starts with a primary expression, so the loop over prefix operators ends at once
  have hpre : prefixOp? t = none := by
    have hstart := hp (Nat.le_refl _)
    obtain ⟨l, q⟩ := t
    unfold prefixOp?
    split
    · rename_i hl
      cases hl
      cases hstart
    · rename_i hl
      cases hl
      cases hstart
    · rfl
  refine leads_pass (fun u hu => ?_) (leads_trans_last hlead (suffixes_stop hj hstop))
  cases hu
  exact hpre

/-- An operator between two operands, of which the left one may have been read by the same loop. -/
theorem joins_node {level : Level} {t : Token} {node : Expr → Expr → Expr} (hn : level.node? t = some node)
    (hj : joins? t.lexeme = some (.operator level)) {l r : Expr} {ts us : List Token}
    (hl : Joins inClass ts l (.operator level)) (hr : Joins inClass us r (Rank.operator level).tighter) :
    Joins inClass (ts ++ t :: us) (node l r) (.operator level) := by
  intro rest b levels hsuf hb hs
  simp only [List.length_append, List.length_cons] at hb
  obtain ⟨k, hk, hlead⟩ := hl (t :: us ++ rest) b levels hsuf
    (by simp only [List.length_append, List.length_cons]; omega)
    (stops_cons fun rank hrank => by
      rw [hj] at hrank
      cases hrank
      exact tightness_lt_tighter level)
  obtain ⟨k, rfl⟩ : ∃ j, k = j + 1 := ⟨k - 1, by omega⟩
  simp only [List.length_append, List.length_cons] at hk
  refine ⟨k, by omega, ?_⟩
  -- the right operand is read by the levels that are left, which bind tighter
  rw [tighter_eq_rankOf hsuf] at hr hs
  have hright := reads_binary hr ((List.suffix_cons level levels).trans hsuf)
    (show us.length + rest.length + 1 ≤ b by omega) hs
  have hstep : Leads (operands level (binary (operandAt inClass b) b levels) (k + 1) l) (t :: us) rest
      (strayThis inClass us) (operands level (binary (operandAt inClass b) b levels) k (node l r)) :=
    leads_take hn (leads_bind_last hright (leads_refl _ rest))
  have hthis : t.lexeme ≠ .keyword .kwThis := by
    intro ht
    rw [ht] at hj
    cases hj
  rw [strayThis_append, strayThis_cons hthis]
  exact leads_trans hlead hstep

end Lox.Parser
