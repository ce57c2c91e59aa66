import Lox.Proofs.Parser.Acceptance
import Lox.Proofs.Parser.Locality
import Lox.Proofs.Static.Surroundings
import Lox.Proofs.Token.Lines
import Mathlib.Data.List.Nodup

/-! What a parser finds about the keywords that need something around them. It decides about each of them once, when it
takes the token, and reports those that are not allowed. Whatever goes wrong before and after, what it decided about the
keywords in a statement that it returns is what the context of the statement says. -/
namespace Lox.Parser

variable {α β : Type}

def Unrelated (cause : SyntaxError.Cause) : Prop := ∀ k : Restricted, k.cause ≠ cause

instance (cause : SyntaxError.Cause) : Decidable (Unrelated cause) :=
  decidable_of_iff (Restricted.this.cause ≠ cause ∧ Restricted.returnValue.cause ≠ cause ∧
    Restricted.breakLoop.cause ≠ cause)
    ⟨fun h k => by cases k <;> simp [h], fun h => ⟨h _, h _, h _⟩⟩

/-- From `s` to `t` the rulings are made, each about another one of the tokens that are taken, and just those keywords
are reported that are not allowed. -/
structure State.Ruled (s t : State) (made : List Ruling) : Prop where
  tokens : ∃ ts, s.rest = ts ++ t.rest ∧ (made.map Ruling.token).Sublist ts
  errors : ∃ es, t.errors = es ++ s.errors ∧ ∀ k q, k.complaint q ∈ es ↔ ⟨k, q, false⟩ ∈ made

/-- Tokens are taken or dropped without a ruling. -/
theorem ruled_of_rest {s t : State} {ts : List Token} (hrest : s.rest = ts ++ t.rest) (herrors : t.errors = s.errors) :
    s.Ruled t [] := by
  refine ⟨⟨ts, hrest, List.nil_sublist _⟩, [], herrors, ?_⟩
  simp

theorem ruled_refl (s : State) : s.Ruled s [] := ruled_of_rest (List.nil_append _).symm rfl

theorem ruled_trans {s t u : State} {made made' : List Ruling} (h : s.Ruled t made) (h' : t.Ruled u made') :
    s.Ruled u (made ++ made') := by
  obtain ⟨⟨ts, hts, hsub⟩, es, hes, hreported⟩ := h
  obtain ⟨⟨ts', hts', hsub'⟩, es', hes', hreported'⟩ := h'
  refine ⟨⟨ts ++ ts', ?_, ?_⟩, es' ++ es, ?_, ?_⟩
  · rw [hts, hts', List.append_assoc]
  · rw [List.map_append]
    exact hsub.append hsub'
  · rw [hes', hes, List.append_assoc]
  · intro k q
    rw [List.mem_append, List.mem_append, hreported, hreported', or_comm]

/-- An error that is not about a keyword is no ruling. -/
theorem ruled_report {cause : SyntaxError.Cause} (hc : Unrelated cause) (s : State) (site : SyntaxError.Site) :
    s.Ruled (s.report cause site) [] := by
  refine ⟨⟨[], rfl, .slnil⟩, [⟨cause, site⟩], rfl, fun k q => ?_⟩
  have hne : k.complaint q ≠ ⟨cause, site⟩ := fun heq => hc k (congrArg SyntaxError.cause heq)
  simp [hne]

theorem ruled_resume (s : State) : s.Ruled s.resume [] := by
  obtain ⟨ts, hts, -⟩ := skip_suffix s.rest
  exact ruled_of_rest hts rfl

/-- A complaint tells the keyword and its place. -/
theorem complaint_inj {k k' : Restricted} {q q' : Pos} (h : k.complaint q = k'.complaint q') : k = k' ∧ q = q' := by
  have hcause : k.cause = k'.cause := congrArg SyntaxError.cause h
  have hpos : q = q' := congrArg (fun e => e.site.pos) h
  refine ⟨?_, hpos⟩
  cases k <;> cases k' <;> first | rfl | cases hcause

/-- A keyword is taken, and reported if it is not allowed. -/
theorem ruled_keyword {s : State} {k : Restricted} {q : Pos} {rest : List Token} (hr : s.rest = k.token q :: rest) :
    s.Ruled { s with rest } [⟨k, q, true⟩] ∧
      s.Ruled (({ s with rest } : State).report k.cause (.token (k.token q))) [⟨k, q, false⟩] := by
  have htokens : ∀ allowed, ([⟨k, q, allowed⟩].map Ruling.token).Sublist [k.token q] := fun _ => List.Sublist.refl _
  refine ⟨⟨⟨_, hr, htokens _⟩, [], rfl, ?_⟩, ⟨_, hr, htokens _⟩, [k.complaint q], rfl, ?_⟩
  · simp
  · intro k' q'
    simp only [List.mem_singleton, Ruling.mk.injEq, and_true]
    constructor
    · exact complaint_inj
    · rintro ⟨rfl, rfl⟩
      rfl

def Judged (known : List Ruling) (R : α → List Ruling) (s : State) : EStateM.Result Stop State α → Prop
  | .ok a t => ∃ made, s.Ruled t made ∧ R a ⊆ known ++ made
  | .error .failed t => ∃ made, s.Ruled t made
  | .error .exhausted _ => True

/-- The parser decides about all keywords in what it returns, those apart that were `known` before. -/
def Judges (known : List Ruling) (p : Parser α) (R : α → List Ruling) : Prop := ∀ s, Judged known R s (p s)

variable {known known' : List Ruling} {p : Parser α} {R : α → List Ruling} {R' : β → List Ruling}

/-- What has been ruled before the run is known in it. -/
theorem judged_of_ruled {s t : State} {made : List Ruling} {r : EStateM.Result Stop State α} (h : s.Ruled t made)
    (hknown : known' ⊆ known ++ made) (hr : Judged known' R t r) : Judged known R s r := by
  cases r with
  | ok a u =>
    obtain ⟨made', hruled, hrulings⟩ := hr
    refine ⟨made ++ made', ruled_trans h hruled, ?_⟩
    rw [← List.append_assoc]
    exact List.Subset.trans hrulings (List.append_subset.mpr
      ⟨List.subset_append_of_subset_left _ hknown, List.subset_append_right _ _⟩)
  | error stop u =>
    cases stop with
    | failed =>
      obtain ⟨made', hruled⟩ := hr
      exact ⟨made ++ made', ruled_trans h hruled⟩
    | exhausted => trivial

/-! ### The steps of a parser -/

theorem judges_pure {a : α} (h : R a ⊆ known) : Judges known (pure a) R :=
  fun s => ⟨[], ruled_refl s, by rwa [List.append_nil]⟩

theorem judges_done (a : α) : Judges (R a) (pure a) R := judges_pure (List.Subset.refl _)

/-- A later parser knows what an earlier one has ruled. -/
theorem judges_bind {k : α → Parser β} (hp : Judges known p R) (hk : ∀ a, Judges (R a) (k a) R') :
    Judges known (p >>= k) R' := by
  intro s
  have hs := hp s
  rw [bind_apply]
  cases hr : p s with
  | ok a t =>
    rw [hr] at hs
    obtain ⟨made, hruled, hrulings⟩ := hs
    exact judged_of_ruled hruled hrulings (hk a t)
  | error stop t =>
    rw [hr] at hs
    cases stop with
    | failed => exact hs
    | exhausted => trivial

/-- A parser that needs to know nothing, and what follows. -/
theorem judges_seq {k : α → Parser β} (hp : Judges [] p R) (hk : ∀ a, Judges (known ++ R a) (k a) R') :
    Judges known (p >>= k) R' := by
  have hframe : Judges known p (fun a => known ++ R a) := by
    intro s
    have hs := hp s
    cases hr : p s with
    | ok a t =>
      rw [hr] at hs
      obtain ⟨made, hruled, hrulings⟩ := hs
      exact ⟨made, hruled, List.append_subset.mpr
        ⟨List.subset_append_left _ _, List.subset_append_of_subset_right _ hrulings⟩⟩
    | error stop t =>
      rw [hr] at hs
      cases stop with
      | failed => exact hs
      | exhausted => trivial
  exact judges_bind hframe hk

theorem judges_map (f : α → β) (hp : Judges known p fun a => R' (f a)) : Judges known (f <$> p) R' := by
  rw [map_eq_pure_bind]
  exact judges_bind hp fun a => judges_done _

theorem judges_fail {cause : SyntaxError.Cause} (hc : Unrelated cause) : Judges known (fail cause : Parser α) R :=
  fun s => ⟨[], ruled_report hc s s.site⟩

theorem judges_exhausted : Judges known (exhausted : Parser α) R := fun _ => trivial

theorem judges_look {g : State → Bool} {k : Bool → Parser α} (h : ∀ b, Judges known (k b) R) :
    Judges known ((fun s => .ok (g s) s : Parser Bool) >>= k) R :=
  fun s => h (g s) s

theorem judges_reportHere {cause : SyntaxError.Cause} {k : Unit → Parser α} (hc : Unrelated cause)
    (h : Judges known (k ()) R) : Judges known (reportHere cause >>= k) R :=
  fun s => judged_of_ruled (ruled_report hc s s.site) (List.subset_append_left _ _) (h _)

theorem judges_report {cause : SyntaxError.Cause} {site : SyntaxError.Site} {k : Unit → Parser α} (hc : Unrelated cause)
    (h : Judges known (k ()) R) : Judges known (report cause site >>= k) R :=
  fun s => judged_of_ruled (ruled_report hc s site) (List.subset_append_left _ _) (h _)

/-- A token that is taken may be one that has been ruled about. -/
theorem judges_take {f : Token → Option β} {k : Option β → Parser α}
    (hsome : ∀ t b, f t = some b → Judges known (k (some b)) R) (hnone : Judges known (k none) R) :
    Judges known (take? f >>= k) R := by
  intro s
  rw [bind_apply]
  rcases next_cases f s.rest with ⟨t, rest, b, hr, hf⟩ | hpass
  · rw [take?_some hr hf]
    have hrest : s.rest = [t] ++ rest := hr
    have hruled : s.Ruled { s with rest } [] := ruled_of_rest hrest rfl
    exact judged_of_ruled hruled (List.subset_append_left _ _) (hsome t b hf _)
  · rw [take?_none hpass]
    exact hnone s

theorem judges_accept {l : Lexeme} {k : Option Pos → Parser α} (hsome : ∀ q, Judges known (k (some q)) R)
    (hnone : Judges known (k none) R) : Judges known (accept? l >>= k) R :=
  judges_take (fun _ q _ => hsome q) hnone

theorem judges_expect {l : Lexeme} {cause : SyntaxError.Cause} {k : Pos → Parser α} (hc : Unrelated cause)
    (h : ∀ q, Judges known (k q) R) : Judges known (expect l cause >>= k) R := by
  unfold expect
  rw [bind_assoc]
  exact judges_accept h (judges_fail hc)

theorem judges_expectName {cause : SyntaxError.Cause} {k : Name → Parser α} (hc : Unrelated cause)
    (h : ∀ x, Judges known (k x) R) : Judges known (expectName cause >>= k) R := by
  unfold expectName
  rw [bind_assoc]
  exact judges_take (fun _ x _ => h x) (judges_fail hc)

/-- The keyword is taken, reported if it is not allowed, and known from then on. -/
theorem judges_keyword {k : Restricted} {allowed : Bool} {next : Option Pos → Parser α} {rest : Pos → Parser α}
    (hnext : ∀ q, next (some q) =
      if (!allowed) = true then report k.cause (.token (k.token q)) >>= fun _ => rest q else rest q)
    (hsome : ∀ q, Judges (known ++ [⟨k, q, allowed⟩]) (rest q) R) (hnone : Judges known (next none) R) :
    Judges known (accept? (.keyword k.keyword) >>= next) R := by
  intro s
  rw [bind_apply]
  rcases accept_cases (.keyword k.keyword) s with ⟨q, left, hr, htake⟩ | ⟨-, hpass⟩
  · obtain ⟨htrue, hfalse⟩ := ruled_keyword hr
    rw [htake]
    change Judged known R s (next (some q) _)
    rw [hnext]
    cases allowed with
    | true => exact judged_of_ruled htrue (List.Subset.refl _) (hsome q _)
    | false => exact judged_of_ruled hfalse (List.Subset.refl _) (hsome q _)
  · rw [hpass]
    exact hnone s

/-- Of what is dropped nothing is returned, so there is nothing to decide. -/
theorem judges_recovering {R : Option α → List Ruling} (hp : Judges known p fun a => R (some a)) (hnone : R none = []) :
    Judges known (recovering p) R := by
  intro s
  have hs := hp s
  unfold recovering
  cases hr : p s with
  | ok a t =>
    rw [hr] at hs
    exact hs
  | error stop t =>
    rw [hr] at hs
    cases stop with
    | failed =>
      obtain ⟨made, hruled⟩ := hs
      refine ⟨made ++ [], ruled_trans hruled (ruled_resume t), ?_⟩
      rw [hnone]
      exact List.nil_subset _
    | exhausted => trivial

/-! ### Expressions -/

section expressions

open Lox.Expr (rulings)

theorem judges_items {item : Parser α} {tooMany : SyntaxError.Cause} (hc : Unrelated tooMany) (hi : Judges [] item R)
    (bound before : Nat) : Judges [] (items tooMany item bound before) (·.flatMap R) := by
  induction bound generalizing before with
  | zero => exact judges_exhausted
  | succ bound ih =>
    unfold items
    extract_lets rest
    have hrest : Judges [] (rest ⟨⟩) (·.flatMap R) := by
      refine judges_seq hi fun a => judges_accept (fun q => ?_) (judges_pure ?_)
      · exact judges_seq (ih (before + 1)) fun as => judges_done _
      · simp
    split
    · exact judges_reportHere hc hrest
    · exact hrest

theorem judges_list {item : Parser α} {tooMany : SyntaxError.Cause} (hc : Unrelated tooMany) (hi : Judges [] item R)
    (bound : Nat) : Judges [] (list tooMany item bound) (·.flatMap R) := by
  refine judges_look fun b => ?_
  split
  · exact judges_done _
  · exact judges_items hc hi bound 0

variable {inner operand : Parser Expr} {inClass : Bool}

theorem rulings_of_atom {t : Token} {e : Expr} (h : atom? t = some e) : e.rulings inClass = [] := by
  unfold atom? at h
  split at h <;> cases h <;> rfl

theorem rulings_node {level : Level} {t : Token} {node : Expr → Expr → Expr} (h : level.node? t = some node)
    (left right : Expr) : (node left right).rulings inClass = left.rulings inClass ++ right.rulings inClass := by
  unfold Level.node? at h
  split at h <;> cases h <;> exact List.map_append

/-- An assignment has no keywords but those of the target and the value. -/
theorem rulings_assignment {target value e : Expr} (h : assignment? target value = some e) :
    e.rulings inClass ⊆ target.rulings inClass ++ value.rulings inClass := by
  unfold assignment? at h
  split at h
  · cases h
    exact List.Subset.refl _
  · cases h
    rw [rulings, Expr.selves, List.map_append]
    exact List.Subset.refl _
  · cases h

/-- About `this` it is decided where it is taken. -/
theorem judges_primary (hi : Judges [] inner (rulings inClass)) :
    Judges [] (primary inner inClass) (rulings inClass) := by
  refine judges_take (fun t e he => judges_pure ?_) ?_
  · rw [rulings_of_atom he]
    exact List.Subset.refl _
  refine judges_keyword (k := .this) (fun q => rfl) (fun q => judges_done _) ?_
  refine judges_accept (fun q => ?_) (judges_fail (by decide))
  exact judges_seq hi fun e => judges_expect (by decide) fun r => judges_done _

theorem judges_suffixes (hi : Judges [] inner (rulings inClass)) (bound : Nat) (e : Expr) :
    Judges (e.rulings inClass) (suffixes inner bound e) (rulings inClass) := by
  induction bound generalizing e with
  | zero => exact judges_exhausted
  | succ bound ih =>
    refine judges_accept (fun q => ?_) (judges_accept (fun q => ?_) (judges_done _))
    · refine judges_seq (judges_list (by decide) hi bound) fun args => judges_expect (by decide) fun r => ?_
      rw [← Expr.rulings_call e args r]
      exact ih _
    · exact judges_expectName (by decide) fun x => ih _

theorem judges_unary (ho : Judges [] operand (rulings inClass)) (bound : Nat) :
    Judges [] (unary operand bound) (rulings inClass) := by
  induction bound with
  | zero => exact judges_exhausted
  | succ bound ih =>
    refine judges_take (fun t a _ => ?_) ho
    exact judges_seq ih fun e => judges_done _

theorem judges_operands {level : Level} (ho : Judges [] operand (rulings inClass)) (bound : Nat) (left : Expr) :
    Judges (left.rulings inClass) (operands level operand bound left) (rulings inClass) := by
  induction bound generalizing left with
  | zero => exact judges_exhausted
  | succ bound ih =>
    refine judges_take (fun t node hnode => judges_seq ho fun right => ?_) (judges_done _)
    rw [← rulings_node hnode]
    exact ih _

theorem judges_binary (ho : Judges [] operand (rulings inClass)) (bound : Nat) (levels : List Level) :
    Judges [] (binary operand bound levels) (rulings inClass) := by
  induction levels with
  | nil => exact ho
  | cons level levels ih => exact judges_seq ih fun left => judges_operands ih bound left

theorem judges_assignment (hi : Judges [] inner (rulings inClass)) (bound : Nat) :
    Judges [] (assignment inner inClass bound) (rulings inClass) := by
  have hcall : Judges [] (do suffixes inner bound (← primary inner inClass)) (rulings inClass) :=
    judges_seq (judges_primary hi) fun e => judges_suffixes hi bound e
  have hoperation : Judges [] (operation inner inClass bound) (rulings inClass) :=
    judges_binary (judges_unary hcall bound) bound Level.all
  refine judges_seq hoperation fun target => judges_accept (fun q => ?_) (judges_done _)
  refine judges_seq hi fun value => ?_
  cases he : assignment? target value with
  | some e => exact judges_pure (rulings_assignment he)
  | none =>
    -- what cannot be assigned to stands for itself, and the value is dropped
    exact judges_report (by decide) (judges_pure (List.subset_append_left _ _))

/-- All keywords in an expression are decided about. -/
theorem judges_expression (inClass : Bool) (bound : Nat) :
    Judges [] (expression inClass bound) (rulings inClass) := by
  induction bound with
  | zero => exact judges_exhausted
  | succ bound ih => exact judges_assignment ih bound

end expressions

/-! ### Statements -/

theorem rulings_pair (c : Context) (s t : Stmt) : (Stmt.block [s, t]).rulings c = s.rulings c ++ t.rulings c := by
  change s.rulings c ++ (t.rulings c ++ []) = _
  rw [List.append_nil]

/-- The keywords in a loop with clauses are those in its clauses and in its body, which stands in a loop. -/
theorem rulings_forLoop (c : Context) (start : Option Stmt) (test step : Option Expr) (body : Stmt) :
    (Stmt.forLoop start test step body).rulings c ⊆ Stmt.rulingsOption c start ++
      (Expr.rulingsOption c.inClass test ++ Expr.rulingsOption c.inClass step ++ body.rulings c.enterLoop) := by
  have htest : (test.getD (.literal (.bool true))).rulings c.inClass = Expr.rulingsOption c.inClass test := by
    cases test with
    | none => rfl
    | some e => rfl
  have hloop : (Stmt.forLoop none test step body).rulings c ⊆
      Expr.rulingsOption c.inClass test ++ Expr.rulingsOption c.inClass step ++ body.rulings c.enterLoop := by
    cases step with
    | none =>
      change _ ++ _ ⊆ _ ++ [] ++ _
      rw [htest, List.append_nil]
      exact List.Subset.refl _
    | some e =>
      -- the step stands behind the body
      change _ ++ (Stmt.block [body, .expr e]).rulings c.enterLoop ⊆ _
      rw [htest, rulings_pair, List.append_assoc]
      exact List.append_subset.mpr ⟨List.subset_append_left _ _,
        List.subset_append_of_subset_right _ List.perm_append_comm.subset⟩
  cases start with
  | none => exact hloop
  | some s =>
    change (Stmt.block [s, Stmt.forLoop none test step body]).rulings c ⊆ _
    rw [rulings_pair]
    exact List.append_subset.mpr ⟨List.subset_append_left _ _, List.subset_append_of_subset_right _ hloop⟩

structure Inner.Judging (p : Inner) : Prop where
  statement (c : Context) : Judges [] (p.statement c) (Stmt.rulings c)
  declaration (c : Context) : Judges [] (p.declaration c) (Stmt.rulingsOption c)

namespace Inner.Judging

variable {p : Inner} (hp : p.Judging) (c : Context)

theorem expression (p : Inner) : Judges [] (p.expression c) (Expr.rulings c.inClass) := judges_expression c.inClass p.bound

theorem expressionUnless (p : Inner) (ending : Lexeme) :
    Judges [] (p.expressionUnless c ending) (Expr.rulingsOption c.inClass) := by
  refine judges_look fun b => ?_
  split
  · exact judges_done _
  · exact judges_map some (expression c p)

theorem varDecl (p : Inner) : Judges [] (p.varDecl c) (Stmt.rulings c) := by
  refine judges_expectName (by decide) fun x => judges_accept (fun q => ?_) ?_
  · refine judges_seq (R := Expr.rulingsOption c.inClass) (judges_map some (expression c p)) fun e => ?_
    exact judges_expect (by decide) fun r => judges_done _
  · refine judges_seq (R := Expr.rulingsOption c.inClass) (judges_done _) fun e => ?_
    exact judges_expect (by decide) fun r => judges_done _

theorem exprStmt (p : Inner) : Judges [] (p.exprStmt c) (Stmt.rulings c) :=
  judges_seq (expression c p) fun e => judges_expect (by decide) fun q => judges_done _

theorem printStmt (p : Inner) : Judges [] (p.printStmt c) (Stmt.rulings c) :=
  judges_seq (expression c p) fun e => judges_expect (by decide) fun q => judges_done _

include hp

theorem declarations (bound : Nat) : Judges [] (p.declarations c bound) (Stmt.rulingsAll c) := by
  induction bound with
  | zero => exact judges_exhausted
  | succ bound ih =>
    refine judges_look fun b => judges_look fun b' => ?_
    split
    · exact judges_done _
    · refine judges_seq (hp.declaration c) fun first => judges_seq ih fun others => judges_pure ?_
      rw [Stmt.rulingsAll_toList]
      exact List.Subset.refl _

theorem block : Judges [] (p.block c) (Stmt.rulingsAll c) :=
  judges_seq (hp.declarations c p.bound) fun body => judges_expect (by decide) fun q => judges_done _

/-- The body of a function is in the context of a function, without a loop. -/
theorem function {noName : SyntaxError.Cause} (hn : Unrelated noName) :
    Judges [] (p.function c noName) (Routine.rulings c.enterFunction) := by
  have hname : Judges [] (expectName .expectParameterName) (fun _ => []) := by
    have h : Judges [] (expectName .expectParameterName >>= pure) (fun _ => []) :=
      judges_expectName (by decide) fun x => judges_pure (List.nil_subset _)
    rwa [bind_pure] at h
  refine judges_expectName hn fun x => judges_expect (by decide) fun q => ?_
  refine judges_seq (judges_list (by decide) hname p.bound) fun params => judges_expect (by decide) fun r => ?_
  refine judges_expect (by decide) fun w => judges_seq (hp.block c.enterFunction) fun body => judges_pure ?_
  exact List.subset_append_right _ _

theorem methods (bound : Nat) : Judges [] (p.methods c bound) (Routine.rulingsAll c.enterFunction) := by
  induction bound with
  | zero => exact judges_exhausted
  | succ bound ih =>
    refine judges_look fun b => judges_look fun b' => ?_
    split
    · exact judges_done _
    · refine judges_seq (hp.function c (by decide)) fun first => ?_
      exact judges_seq ih fun others => judges_done _

theorem classDecl : Judges [] (p.classDecl c) (Stmt.rulings c) := by
  refine judges_expectName (by decide) fun x => judges_expect (by decide) fun q => ?_
  exact judges_seq (hp.methods c.enterClass p.bound) fun ds => judges_expect (by decide) fun r => judges_done _

/-- The body of a loop is in the context of the loop, its clauses are not. -/
theorem forStmt : Judges [] (p.forStmt c) (Stmt.rulings c) := by
  refine judges_expect (by decide) fun q => ?_
  extract_lets clauses
  -- what follows the first clause is the same whatever that clause was
  have hclauses (start : Option Stmt) : Judges (Stmt.rulingsOption c start) (clauses start) (Stmt.rulings c) := by
    refine judges_seq (expressionUnless c p _) fun test => judges_expect (by decide) fun r => ?_
    refine judges_seq (expressionUnless c p _) fun step => judges_expect (by decide) fun w => ?_
    refine judges_seq (hp.statement c.enterLoop) fun body => judges_pure ?_
    rw [List.append_assoc, List.append_assoc, ← List.append_assoc (Expr.rulingsOption c.inClass test)]
    exact rulings_forLoop c start test step body
  clear_value clauses
  refine judges_accept (fun r => ?_) (judges_accept (fun r => ?_) ?_)
  · exact judges_bind (judges_done _) hclauses
  · exact judges_bind (judges_map some (varDecl c p)) hclauses
  · exact judges_bind (judges_map some (exprStmt c p)) hclauses

theorem ifStmt : Judges [] (p.ifStmt c) (Stmt.rulings c) := by
  refine judges_expect (by decide) fun q => judges_seq (expression c p) fun test => judges_expect (by decide) fun r => ?_
  refine judges_seq (hp.statement c) fun yes => judges_accept (fun w => ?_) ?_
  · refine judges_seq (R := Stmt.rulingsOption c) (judges_map some (hp.statement c)) fun no => ?_
    exact judges_done _
  · refine judges_seq (R := Stmt.rulingsOption c) (judges_done _) fun no => ?_
    exact judges_done _

theorem whileStmt : Judges [] (p.whileStmt c) (Stmt.rulings c) := by
  refine judges_expect (by decide) fun q => judges_seq (expression c p) fun test => judges_expect (by decide) fun r => ?_
  exact judges_seq (hp.statement c.enterLoop) fun body => judges_done _

theorem anyStatement : Judges [] (p.anyStatement c) (Stmt.rulings c) := by
  unfold Inner.anyStatement
  refine judges_accept (fun q => hp.forStmt c) ?_
  refine judges_accept (fun q => hp.ifStmt c) ?_
  refine judges_accept (fun q => printStmt c p) ?_
  refine judges_keyword (k := .returnValue) (fun q => rfl) (fun q => ?_) ?_
  · refine judges_seq (expressionUnless c p _) fun e => judges_expect (by decide) fun r => ?_
    exact judges_done _
  refine judges_keyword (k := .breakLoop) (fun q => rfl) (fun q => ?_) ?_
  · exact judges_expect (by decide) fun r => judges_done _
  refine judges_accept (fun q => hp.whileStmt c) ?_
  exact judges_accept (fun q => judges_map _ (hp.block c)) (exprStmt c p)

theorem strictDeclaration : Judges [] (p.strictDeclaration c) (Stmt.rulings c) := by
  unfold Inner.strictDeclaration
  refine judges_accept (fun q => hp.classDecl c) ?_
  refine judges_accept (fun q => judges_map _ (hp.function c (by decide))) ?_
  exact judges_accept (fun q => varDecl c p) (hp.anyStatement c)

end Inner.Judging

theorem judging_inner (bound : Nat) : (innerAt bound).Judging := by
  induction bound with
  | zero => exact ⟨fun _ => judges_exhausted, fun _ => judges_exhausted⟩
  | succ bound ih => exact ⟨fun c => ih.anyStatement c, fun c => judges_recovering (ih.strictDeclaration c) rfl⟩

/-- All keywords in a program are decided about. -/
theorem judges_program (bound count : Nat) : Judges [] (program bound count) (Stmt.rulingsAll {}) := by
  induction count with
  | zero => exact judges_exhausted
  | succ count ih =>
    refine judges_look fun b => ?_
    split
    · exact judges_done _
    · refine judges_seq ((judging_inner bound).declaration {}) fun first => judges_seq ih fun others => judges_pure ?_
      rw [Stmt.rulingsAll_toList]
      exact List.Subset.refl _

end Lox.Parser

namespace Lox.Program

open Lox.Parser

/-- The rulings of a parse that returned statements. -/
theorem rulings_ofTokens {tokens : List Token} {endPos : Pos} {s : Stmt} (hs : s ∈ (ofTokens tokens endPos).stmts) :
    ∃ made : List Ruling, (made.map Ruling.token).Sublist tokens ∧
      (∀ k q, k.complaint q ∈ (ofTokens tokens endPos).errors ↔ ⟨k, q, false⟩ ∈ made) ∧ s.rulings {} ⊆ made := by
  have hjudged := judges_program (tokens.length + 3) (tokens.length + 3) ⟨tokens, endPos, [], []⟩
  cases hr : program (tokens.length + 3) (tokens.length + 3) ⟨tokens, endPos, [], []⟩ with
  | ok ss t =>
    rw [hr] at hjudged
    rw [ofTokens_ok hr] at hs ⊢
    obtain ⟨made, ⟨⟨ts, hts, hsub⟩, es, hes, hreported⟩, hrulings⟩ := hjudged
    refine ⟨made, hsub.trans ?_, fun k q => ?_, fun r hr => hrulings (Stmt.mem_rulingsAll hs hr)⟩
    · change tokens = ts ++ t.rest at hts
      rw [hts]
      exact List.sublist_append_left _ _
    · rw [← hreported, List.mem_reverse, hes]
      simp
  | error stop t =>
    rw [ofTokens_error hr] at hs
    cases hs

/-- A keyword is reported if the ruling about it says so, since there is no other ruling about it. -/
theorem complaint_iff {tokens : List Token} {endPos : Pos} {s : Stmt} {r : Ruling} (hnodup : tokens.Nodup)
    (hs : s ∈ (ofTokens tokens endPos).stmts) (hr : r ∈ s.rulings {}) :
    r.token ∈ tokens ∧ (r.what.complaint r.pos ∈ (ofTokens tokens endPos).errors ↔ r.allowed = false) := by
  obtain ⟨made, hsub, hreported, hrulings⟩ := rulings_ofTokens hs
  have hmade := hrulings hr
  refine ⟨hsub.subset (List.mem_map_of_mem hmade), ?_⟩
  rw [hreported]
  constructor
  · intro hrefused
    have hsame := List.inj_on_of_nodup_map (hnodup.sublist hsub) hmade hrefused rfl
    rw [hsame]
  · intro hrefused
    rw [← hrefused]
    exact hmade

/-- Whatever the errors of a source, those about keywords are exact. A `this`, a return or a break in a statement that
was parsed is a token of the source, and it is reported if and only if what stands around it does not allow it. -/
theorem ofSource_complaints {source : Text} {s : Stmt} {k : Restricted} {q : Pos} {rings : List Ring}
    (hs : s ∈ (ofSource source).stmts) (h : s.Holds k q rings) :
    k.token q ∈ (Scan.ofSource source).tokens ∧ (k.complaint q ∈ (ofSource source).errors ↔ ¬ k.Allowed rings) := by
  obtain ⟨htoken, hparsed⟩ := complaint_iff (Scan.nodup_tokens source) hs (Stmt.mem_rulings_of_holds h {})
  -- the errors of the scanner are at bytes that are no token
  have hscanned : k.complaint q ∉ (Scan.ofSource source).errors := by
    intro hmem
    obtain ⟨before, bytes, -, hsite⟩ := Scan.mem_errors_iff.mp hmem
    cases hsite
  refine ⟨htoken, ?_⟩
  rw [← allowedIn_iff, Bool.not_eq_true, ← hparsed, ofSource, List.mem_append]
  exact or_iff_right hscanned

def strayBreak (f : Text) : List Token :=
  -- `while (true) { fun f() { print; break; return this; } }`
  [⟨.keyword .kwWhile, ⟨1, 0⟩⟩, ⟨.punct .leftParen, ⟨1, 6⟩⟩, ⟨.keyword .kwTrue, ⟨1, 7⟩⟩, ⟨.punct .rightParen, ⟨1, 11⟩⟩,
    ⟨.punct .leftBrace, ⟨1, 13⟩⟩, ⟨.keyword .kwFun, ⟨1, 15⟩⟩, ⟨.identifier f, ⟨1, 19⟩⟩, ⟨.punct .leftParen, ⟨1, 20⟩⟩,
    ⟨.punct .rightParen, ⟨1, 21⟩⟩, ⟨.punct .leftBrace, ⟨1, 23⟩⟩, ⟨.keyword .kwPrint, ⟨1, 25⟩⟩,
    ⟨.punct .semicolon, ⟨1, 30⟩⟩, ⟨.keyword .kwBreak, ⟨1, 32⟩⟩, ⟨.punct .semicolon, ⟨1, 37⟩⟩,
    ⟨.keyword .kwReturn, ⟨1, 39⟩⟩, ⟨.keyword .kwThis, ⟨1, 46⟩⟩, ⟨.punct .semicolon, ⟨1, 50⟩⟩,
    ⟨.punct .rightBrace, ⟨1, 52⟩⟩, ⟨.punct .rightBrace, ⟨1, 54⟩⟩]

def strayLoop (f : Text) : Stmt :=
  .whileLoop (.literal (.bool true)) (.block [.function ⟨⟨f, ⟨1, 19⟩⟩, [],
    [.breakLoop ⟨1, 32⟩, .returnValue ⟨1, 39⟩ (some (.this ⟨1, 46⟩))]⟩])

/-- The malformed statement is dropped, and the others are kept. -/
theorem strayLoop_parsed (f : Text) : (ofTokens (strayBreak f) ⟨1, 55⟩).stmts = [strayLoop f] := by
  cbv

/-- A break in a function that stands in a loop, behind a statement that is malformed. The function takes the loop from
the break, the return has its function, and there is no class around. -/
theorem ofSource_complaints_nested :
    let source : Text := "while (true) \x7b fun f() \x7b print; break; return this; \x7d \x7d"
    strayLoop "f" ∈ (ofSource source).stmts ∧
    (strayLoop "f").Holds .breakLoop ⟨1, 32⟩ [.function, .loop] ∧
    (strayLoop "f").Holds .returnValue ⟨1, 39⟩ [.function, .loop] ∧
    Restricted.breakLoop.complaint ⟨1, 32⟩ ∈ (ofSource source).errors ∧
    Restricted.returnValue.complaint ⟨1, 39⟩ ∉ (ofSource source).errors := by
  intro source
  have htokens : (Scan.ofSource source).tokens = strayBreak "f" := by decide +kernel
  have hend : (Scan.ofSource source).endPos = ⟨1, 55⟩ := by decide +kernel
  have hmem : strayLoop "f" ∈ (ofSource source).stmts := by
    rw [ofSource, htokens, hend, strayLoop_parsed]
    exact List.mem_cons_self
  have hbreak : (strayLoop "f").Holds .breakLoop ⟨1, 32⟩ [.function, .loop] :=
    .loop (.block List.mem_cons_self (.function List.mem_cons_self (.breakLoop _)))
  have hreturn : (strayLoop "f").Holds .returnValue ⟨1, 39⟩ [.function, .loop] :=
    .loop (.block List.mem_cons_self (.function (List.mem_cons_of_mem _ List.mem_cons_self) (.returnValue _ _)))
  obtain ⟨-, hrefused⟩ := ofSource_complaints hmem hbreak
  obtain ⟨-, hallowed⟩ := ofSource_complaints hmem hreturn
  exact ⟨hmem, hbreak, hreturn, hrefused.mpr (by decide), fun h => hallowed.mp h (by decide)⟩

end Lox.Program
