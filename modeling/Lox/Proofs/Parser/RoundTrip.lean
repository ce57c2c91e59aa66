import Lox.Proofs.Grammar.Yield
import Lox.Proofs.Parser.ExprComplete

/-! Parsing an expression and reading the tokens off its tree are inverse to each other. The one thing that is not
in the tree is whether a class is around: where none is, each `this` is reported, but read all the same. -/
namespace Lox.Parser

open Grammar

/-- Nothing is reported if a class is around, or if there is no `this`. -/
theorem strayThis_eq_nil_iff {inClass : Bool} {ts : List Token} :
    strayThis inClass ts = [] ↔ inClass = true ∨ ∀ t ∈ ts, t.lexeme ≠ .keyword .kwThis := by
  cases inClass with
  | true => exact ⟨fun _ => .inl rfl, fun _ => rfl⟩
  | false => simp [strayThis]

/-- The tokens of a stratified tree are read as that tree, whether or not a class is around. -/
theorem reads_yield (inClass : Bool) {e : Expr} {ts rest : List Token} {b : Nat} (hs : e.Stratified)
    (hf : Fit e.yield ts) (hb : ts.length + rest.length + 2 ≤ b) (hr : Stops .assignment rest) :
    Reads (expression inClass b) ts rest (strayThis inClass ts) e := by
  have hspells : Spells true .assignment e ts := spelled_loosen (spelled_of_stratified e hs) (Nat.zero_le _) hf
  exact reads_expression inClass hspells hb hr

/-- What is returned without an error is stratified, and its tokens are those that were taken. -/
theorem yield_of_expression {inClass : Bool} {b : Nat} {s s' : State} {e : Expr} (hb : s.rest.length + 2 ≤ b)
    (h : expression inClass b s = .ok e s') (hc : s'.errors = s.errors) :
    e.Stratified ∧ ∃ ts, s.rest = ts ++ s'.rest ∧ Fit e.yield ts := by
  have hsound := expression_sound inClass b s (by omega)
  rw [h] at hsound
  obtain ⟨ts, htook, -, hspells⟩ := hsound
  obtain ⟨hs, -, hf⟩ := sits_of_derives (hspells hc)
  exact ⟨hs, ts, htook.rest, hf⟩

/-- On the tokens of a stratified tree, followed by a token that cannot go on with an expression, `expression` returns
that tree and takes just these tokens; it reports each `this` if no class is around, and nothing else. A tree that
it returns without reporting anything is stratified, and the tokens that it took are the tokens of the tree. -/
theorem expression_inverse_yield (inClass : Bool) (b : Nat) (s : State) (hb : s.rest.length + 2 ≤ b) :
    (∀ e ts rest, e.Stratified → Fit e.yield ts → Stops .assignment rest → s.rest = ts ++ rest →
      expression inClass b s = .ok e { s with rest := rest, errors := strayThis inClass ts ++ s.errors } ∧
      (strayThis inClass ts = [] ↔ inClass = true ∨ ∀ t ∈ ts, t.lexeme ≠ .keyword .kwThis)) ∧
    ∀ e s', expression inClass b s = .ok e s' → s'.errors = s.errors →
      e.Stratified ∧ ∃ ts, s.rest = ts ++ s'.rest ∧ Fit e.yield ts := by
  constructor
  · intro e ts rest hs hf hr htokens
    have hlen : ts.length + rest.length + 2 ≤ b := by
      rw [htokens, List.length_append] at hb
      exact hb
    have hread := reads_yield inClass hs hf hlen hr s.endPos s.errors s.resumed
    rw [← htokens] at hread
    exact ⟨hread, strayThis_eq_nil_iff⟩
  · intro e s' h hc
    exact yield_of_expression hb h hc

def sumTree (p : Pos) : Expr :=
  -- `x = -a + f(b).c`
  .assign ⟨"x", p⟩ (.binary .add p (.unary .negate p (.variable ⟨"a", p⟩))
    (.get (.call (.variable ⟨"f", p⟩) [.variable ⟨"b", p⟩] p) ⟨"c", p⟩))

def sumTokens (p : Pos) : List Token :=
  [⟨.identifier "x", p⟩, ⟨.punct .equal, p⟩, ⟨.punct .minus, p⟩, ⟨.identifier "a", p⟩, ⟨.punct .plus, p⟩,
    ⟨.identifier "f", p⟩, ⟨.punct .leftParen, p⟩, ⟨.identifier "b", p⟩, ⟨.punct .rightParen, p⟩, ⟨.punct .dot, p⟩,
    ⟨.identifier "c", p⟩]

/-- An assignment of a sum, with a call and a property in it, is read back from its tokens. -/
theorem expression_inverse_yield_sum :
    (sumTree default).Stratified ∧ Fit (sumTree default).yield (sumTokens default) ∧
    expression false 14 ⟨sumTokens default ++ [⟨.punct .semicolon, default⟩], default, [], []⟩ =
      .ok (sumTree default) ⟨[⟨.punct .semicolon, default⟩], default, [], []⟩ := by
  have hs : (sumTree default).Stratified := by
    simp only [sumTree, Expr.Stratified, Expr.StratifiedAll]
    decide
  have hf : Fit (sumTree default).yield (sumTokens default) := by
    decide
  have h := (expression_inverse_yield false 14
    ⟨sumTokens default ++ [⟨.punct .semicolon, default⟩], default, [], []⟩ (by decide)).1 _ _ _ hs hf
    (stops_of_joins rfl) rfl
  exact ⟨hs, hf, h.1⟩

/-- Where no class is around, the tree of `this` comes back with an error. -/
theorem expression_this_outside_class :
    (Expr.this default).Stratified ∧ Fit (Expr.this default).yield [⟨.keyword .kwThis, default⟩] ∧
    expression false 4 ⟨[⟨.keyword .kwThis, default⟩, ⟨.punct .semicolon, default⟩], default, [], []⟩ =
      .ok (.this default) ⟨[⟨.punct .semicolon, default⟩], default,
        [⟨.thisOutsideClass, .token ⟨.keyword .kwThis, default⟩⟩], []⟩ :=
  ⟨trivial, by decide, rfl⟩

end Lox.Parser
