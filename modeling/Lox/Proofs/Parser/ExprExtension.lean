import Lox.Proofs.Parser.Extension

/-! Expressions are parsed in the same way with more behind them, unless the parser has come to the end of the input. -/
namespace Lox.Parser

variable {α : Type} {P : Pos → Pos → Prop} {us : List Token} {R : α → α → Prop} {inClass : Bool}

/-- With more tokens behind it a sequence of items stays the same, since what ends it is still there. -/
theorem items_carries {item item' : Parser α} (tooMany : SyntaxError.Cause) (hi : Carries P us 0 True R item item')
    {bound bound' : Nat} (hb : bound ≤ bound') (before : Nat) :
    Carries P us 0 True (List.Forall₂ R) (items tooMany item bound before) (items tooMany item' bound' before) := by
  induction bound generalizing bound' before with
  | zero => exact carries_exhausted
  | succ bound ih =>
    obtain ⟨bound', rfl⟩ : ∃ j, bound' = j + 1 := ⟨bound' - 1, by omega⟩
    unfold items
    extract_lets rest rest'
    have hrest : Carries P us 0 True (List.Forall₂ R) (rest ⟨⟩) (rest' ⟨⟩) := by
      refine carries_bind hi .inl fun a a' => carries_accept (.inl trivial) (fun q q' => ?_) ?_
      · refine carries_bind (ih (Nat.le_of_succ_le_succ hb) (before + 1)) .inl fun as as' => ?_
        exact carries_pure fun has _ ha => .cons ha has
      · exact carries_pure fun ha => .cons ha .nil
    split
    · exact carries_reportHere tooMany hrest
    · exact hrest

theorem list_carries {item item' : Parser α} (tooMany : SyntaxError.Cause) (hi : Carries P us 0 True R item item')
    {bound bound' : Nat} (hb : bound ≤ bound') :
    Carries P us 0 True (List.Forall₂ R) (list tooMany item bound) (list tooMany item' bound') := by
  refine carries_nextIs fun b => ?_
  split
  · exact carries_pure .nil
  · exact items_carries tooMany hi hb 0

theorem atom_alike (t t' : Token) (ht : t.Alike P t') : Option.Rel (Expr.Alike P) (atom? t) (atom? t') := by
  unfold atom?
  rw [ht.1]
  split
  · exact .some rfl
  · exact .some rfl
  · exact .some rfl
  · exact .some rfl
  · exact .some rfl
  · exact .some ⟨_, rfl, rfl, ht.2⟩
  · exact .none

variable {inner inner' : Parser Expr}

theorem primary_carries (hi : Carries P us 0 True (Expr.Alike P) inner inner') :
    Carries P us 0 True (Expr.Alike P) (primary inner inClass) (primary inner' inClass) := by
  refine carries_take atom_alike (.inl trivial) (fun e e' => carries_pure fun he => he) ?_
  refine carries_accept (.inl trivial) (fun q q' => ?_) ?_
  · have hthis : Carries P us 0 True (fun e e' => P q q' → Expr.Alike P e e') (pure (.this q)) (pure (.this q')) :=
      carries_pure fun hq => ⟨q', rfl, hq⟩
    cases inClass with
    | true => exact hthis
    | false => exact carries_report _ _ hthis
  refine carries_accept (.inl trivial) (fun q q' => ?_) (carries_fail _)
  refine carries_bind hi .inl fun e e' => carries_expect fun r r' => carries_pure ?_
  exact fun _ he _ => ⟨e', rfl, he⟩

theorem exprs_alike_of_forall₂ {es es' : List Expr} (h : List.Forall₂ (Expr.Alike P) es es') :
    Expr.AlikeAll P es es' := by
  induction h with
  | nil => rfl
  | cons he _ ih => exact ⟨_, _, rfl, he, ih⟩

/-- Calls and properties are the same with more behind them, unless they came to the end. -/
theorem suffixes_carries (hi : Carries P us 0 True (Expr.Alike P) inner inner') {bound bound' : Nat}
    (hb : bound ≤ bound') (e e' : Expr) :
    Carries P us 0 True (fun a a' => e.Alike P e' → a.Alike P a') (suffixes inner bound e)
      (suffixes inner' bound' e') := by
  induction bound generalizing bound' e e' with
  | zero => exact carries_exhausted
  | succ bound ih =>
    obtain ⟨bound', rfl⟩ : ∃ j, bound' = j + 1 := ⟨bound' - 1, by omega⟩
    have hb' := Nat.le_of_succ_le_succ hb
    refine carries_accept (.inl trivial) (fun q q' => ?_) (carries_accept (.inl trivial) (fun q q' => ?_) ?_)
    · refine carries_bind (list_carries .tooManyArguments hi hb') .inl fun es es' => carries_expect fun r r' => ?_
      refine carries_mono (ih hb' _ _) (Nat.le_refl _) id fun a a' h hr hes _ he => ?_
      exact h ⟨e', es', r', rfl, hr, he, exprs_alike_of_forall₂ hes⟩
    · refine carries_bind (carries_open (expectName_carries _)) .inl fun x x' => ?_
      refine carries_mono (ih hb' _ _) (Nat.le_refl _) id fun a a' h hx _ he => ?_
      exact h ⟨e', x', rfl, hx, he⟩
    · exact carries_pure fun he => he

theorem prefixOp_alike (t t' : Token) (ht : t.Alike P t') :
    Option.Rel (fun a a' => a'.1 = a.1 ∧ P a.2 a'.2) (prefixOp? t) (prefixOp? t') := by
  unfold prefixOp?
  rw [ht.1]
  split
  · exact .some ⟨rfl, ht.2⟩
  · exact .some ⟨rfl, ht.2⟩
  · exact .none

variable {operand operand' : Parser Expr}

theorem unary_carries (ho : Carries P us 0 True (Expr.Alike P) operand operand') {bound bound' : Nat}
    (hb : bound ≤ bound') : Carries P us 0 True (Expr.Alike P) (unary operand bound) (unary operand' bound') := by
  induction bound generalizing bound' with
  | zero => exact carries_exhausted
  | succ bound ih =>
    obtain ⟨bound', rfl⟩ : ∃ j, bound' = j + 1 := ⟨bound' - 1, by omega⟩
    refine carries_take prefixOp_alike (.inl trivial) (fun a a' => ?_) ho
    obtain ⟨op, q⟩ := a
    obtain ⟨op', q'⟩ := a'
    refine carries_bind (ih (Nat.le_of_succ_le_succ hb)) .inl fun e e' => carries_pure ?_
    rintro he ⟨rfl, hq⟩
    exact ⟨q', e', rfl, hq, he⟩

def NodeAlike (P : Pos → Pos → Prop) (node node' : Expr → Expr → Expr) : Prop :=
  ∀ l l' r r', l.Alike P l' → r.Alike P r' → (node l r).Alike P (node' l' r')

/-- An operator at another place makes the same node of its operands. -/
theorem node_alike (level : Level) (t t' : Token) (ht : t.Alike P t') :
    Option.Rel (NodeAlike P) (level.node? t) (level.node? t') := by
  have hlogical (op : LogicalOp) : NodeAlike P (.logical op) (.logical op) :=
    fun l l' r r' hl hr => ⟨l', r', rfl, hl, hr⟩
  have hbinary (op : BinaryOp) : NodeAlike P (.binary op t.pos) (.binary op t'.pos) :=
    fun l l' r r' hl hr => ⟨t'.pos, l', r', rfl, ht.2, hl, hr⟩
  unfold Level.node?
  rw [ht.1]
  split
  all_goals first
    | exact .some (hlogical _)
    | exact .some (hbinary _)
    | exact .none

/-- Operands are the same with more behind them, unless they came to the end. -/
theorem operands_carries {level : Level} (ho : Carries P us 0 True (Expr.Alike P) operand operand')
    {bound bound' : Nat} (hb : bound ≤ bound') (left left' : Expr) :
    Carries P us 0 True (fun e e' => left.Alike P left' → e.Alike P e') (operands level operand bound left)
      (operands level operand' bound' left') := by
  induction bound generalizing bound' left left' with
  | zero => exact carries_exhausted
  | succ bound ih =>
    obtain ⟨bound', rfl⟩ : ∃ j, bound' = j + 1 := ⟨bound' - 1, by omega⟩
    refine carries_take (node_alike level) (.inl trivial) (fun node node' => ?_) (carries_pure fun hl => hl)
    refine carries_bind ho .inl fun r r' => ?_
    refine carries_mono (ih (Nat.le_of_succ_le_succ hb) _ _) (Nat.le_refl _) id fun e e' h hr hnode hl => ?_
    exact h (hnode left left' r r' hl hr)

theorem binary_carries (ho : Carries P us 0 True (Expr.Alike P) operand operand') {bound bound' : Nat}
    (hb : bound ≤ bound') (levels : List Level) :
    Carries P us 0 True (Expr.Alike P) (binary operand bound levels) (binary operand' bound' levels) := by
  induction levels with
  | nil => exact ho
  | cons level levels ih => exact carries_bind ih .inl fun left left' => operands_carries ih hb left left'

theorem operation_carries (hi : Carries P us 0 True (Expr.Alike P) inner inner') {bound bound' : Nat}
    (hb : bound ≤ bound') :
    Carries P us 0 True (Expr.Alike P) (operation inner inClass bound) (operation inner' inClass bound') := by
  have hcall : Carries P us 0 True (Expr.Alike P) (do suffixes inner bound (← primary inner inClass))
      (do suffixes inner' bound' (← primary inner' inClass)) :=
    carries_bind (primary_carries hi) .inl fun e e' => suffixes_carries hi hb e e'
  exact binary_carries (unary_carries hcall hb) hb Level.all

/-- What can be assigned to is the same on both sides. -/
theorem assignment?_alike {target target' : Expr} (ht : target.Alike P target' ∨ target' = target)
    (value value' : Expr) :
    Option.Rel (fun e e' => value.Alike P value' → target.Alike P target' → e.Alike P e') (assignment? target value)
      (assignment? target' value') := by
  have hvariable (x x' : Name) : Option.Rel (fun e e' : Expr => value.Alike P value' →
      Expr.Alike P (.variable x) (.variable x') → e.Alike P e') (some (.assign x value))
      (some (.assign x' value')) := by
    refine .some fun hv ht => ?_
    obtain ⟨_, heq, hx⟩ := ht
    cases heq
    exact ⟨_, value', rfl, hx, hv⟩
  have hget (o o' : Expr) (x x' : Name) : Option.Rel (fun e e' : Expr => value.Alike P value' →
      Expr.Alike P (.get o x) (.get o' x') → e.Alike P e') (some (.set o x value)) (some (.set o' x' value')) := by
    refine .some fun hv ht => ?_
    obtain ⟨_, _, heq, hx, ho⟩ := ht
    cases heq
    exact ⟨_, _, value', rfl, hx, ho, hv⟩
  -- the shape of the target decides, and alike targets have the same shape
  rcases ht with ht | rfl
  · cases target with
    | «variable» x =>
      obtain ⟨x', rfl, -⟩ := ht
      exact hvariable x x'
    | get o x =>
      obtain ⟨o', x', rfl, -⟩ := ht
      exact hget o o' x x'
    | literal =>
      cases ht
      exact .none
    | group | this =>
      obtain ⟨_, rfl, -⟩ := ht
      exact .none
    | unary | logical | assign =>
      obtain ⟨_, _, rfl, -⟩ := ht
      exact .none
    | binary | call | set =>
      obtain ⟨_, _, _, rfl, -⟩ := ht
      exact .none
  · cases target' with
    | «variable» x => exact hvariable x x
    | get o x => exact hget o o x x
    | literal | group | unary | binary | logical | assign | call | set | this => exact .none

theorem assignment_carries (hi : Carries P us 0 True (Expr.Alike P) inner inner') {bound bound' : Nat}
    (hb : bound ≤ bound') :
    Carries P us 0 True (Expr.Alike P) (assignment inner inClass bound) (assignment inner' inClass bound') := by
  refine carries_bind_of (operation_carries hi hb) .inl fun target target' ht => ?_
  refine carries_accept (.inl trivial) (fun q q' => ?_) (carries_pure fun htarget => htarget)
  refine carries_bind hi .inl fun value value' => ?_
  match assignment? target value, assignment? target' value', assignment?_alike ht value value' with
  | some e, some e', .some he => exact carries_pure fun hv _ htarget => he hv htarget
  | none, none, .none =>
    have htarget : Carries P us 0 True (fun _ _ => True) (pure target) (pure target) := carries_pure trivial
    exact carries_report _ _ htarget

/-- An expression is the same with more behind it, unless it came to the end. -/
theorem expression_carries (inClass : Bool) {bound bound' : Nat} (hb : bound ≤ bound') :
    Carries P us 0 True (Expr.Alike P) (expression inClass bound) (expression inClass bound') := by
  induction bound generalizing bound' with
  | zero => exact carries_exhausted
  | succ bound ih =>
    obtain ⟨bound', rfl⟩ : ∃ j, bound' = j + 1 := ⟨bound' - 1, by omega⟩
    have hb' := Nat.le_of_succ_le_succ hb
    exact assignment_carries (ih hb') hb'

end Lox.Parser
