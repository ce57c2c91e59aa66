import Lox.Proofs.Parser.Logic

/-! What the parser of expressions returns is what the tokens it took spell by the rules of the grammar. -/
namespace Lox.Parser

open Grammar

variable {α : Type}

/-- Items are taken one after the other, with commas between them. -/
theorem items_sound {N : Nat} {item : Parser α} {P : α → List Token → Prop} (tooMany : SyntaxError.Cause)
    (hi : Sound N 1 item P) (bound : Nat) (hb : bound ≤ N) (before : Nat) :
    Sound bound 1 (items tooMany item bound before) fun as ts =>
      Separated P as ts ∧ before + as.length ≤ maxListLength := by
  induction bound generalizing before with
  | zero => exact sound_exhausted
  | succ bound ih =>
    unfold items
    -- the same steps follow whether or not the item is reported as one too many
    extract_lets rest
    have hrest : Sound (bound + 1) 1 (rest ⟨⟩) fun as ts =>
        before < maxListLength → Separated P as ts ∧ before + as.length ≤ maxListLength := by
      refine sound_bind (sound_weaken hi hb (Nat.le_refl 1)) fun a => ?_
      refine sound_accept (fun p => ?_) (sound_pure fun ts ha hlt => ?_)
      · refine sound_bind (sound_weaken (ih (by omega) (before + 1)) (by omega) (Nat.zero_le 1))
          fun as => sound_pure fun us has ts ha hlt => ?_
        rw [List.append_nil]
        exact ⟨.more p ha has.1, by rw [List.length_cons]; omega⟩
      · rw [List.append_nil]
        exact ⟨.one ha, hlt⟩
    split
    · exact sound_reportHere tooMany hrest
    · exact sound_mono hrest (Nat.le_refl _) (Nat.le_refl _) fun as ts h => h (by omega)

theorem list_sound {N : Nat} {item : Parser α} {P : α → List Token → Prop} (tooMany : SyntaxError.Cause)
    (hi : Sound N 1 item P) (bound : Nat) (hb : bound ≤ N) :
    Sound bound 0 (list tooMany item bound) (Listed P) := by
  refine sound_nextIs fun b => ?_
  split
  · exact sound_pure ⟨Or.inl ⟨rfl, rfl⟩, Nat.zero_le _⟩
  · refine sound_mono (items_sound tooMany hi bound hb 0) (Nat.le_refl _) (Nat.zero_le 1) fun as ts h => ?_
    exact ⟨Or.inr h.1, by omega⟩

variable {inClass : Bool}

theorem derives_items {es : List Expr} {ts : List Token} (h : Separated (Spells inClass .assignment) es ts) :
    Derives inClass (.items es) ts := by
  induction h with
  | one h => exact .item h
  | more p h _ ih => exact .moreItems p h ih

theorem derives_args {es : List Expr} {ts : List Token} (h : Listed (Spells inClass .assignment) es ts) :
    Derives inClass (.args es) ts := by
  rcases h.items with ⟨rfl, rfl⟩ | hs
  · exact .noArgs
  · exact .args (derives_items hs)

theorem derives_atom {t : Token} {e : Expr} (h : atom? t = some e) : Spells inClass .primary e [t] := by
  obtain ⟨l, p⟩ := t
  unfold atom? at h
  split at h
  all_goals cases h
  all_goals rename_i hl; cases hl
  · exact .literalFalse p
  · exact .literalTrue p
  · exact .literalNil p
  · exact .literalNumber _ _ p
  · exact .literalString _ p
  · exact .name ⟨_, p⟩

/-- A primary expression takes a token at least, and is one by the rules. -/
theorem primary_sound {n : Nat} {inner : Parser Expr} (hi : Sound (n - 1) 1 inner (Spells inClass .assignment)) :
    Sound n 1 (primary inner inClass) (Spells inClass .primary) := by
  refine sound_take (fun t e ht => sound_pure (derives_atom ht)) ?_
  refine sound_accept (fun p => ?_) ?_
  · cases inClass with
    | true => exact sound_pure (.this p rfl)
    -- an error is reported, so nothing has to be shown about the tree
    | false => exact sound_report _ _ (sound_pure (G := fun _ _ => True) trivial)
  refine sound_accept (fun p => ?_) (sound_fail _)
  refine sound_bind hi fun e => sound_expect fun q => sound_pure fun ts hts => ?_
  exact .group p q hts

/-- Calls and properties go on with the expression that they are given. -/
theorem suffixes_sound {N : Nat} {inner : Parser Expr} (hi : Sound N 1 inner (Spells inClass .assignment))
    (bound : Nat) (hb : bound ≤ N + 1) (e : Expr) :
    Sound bound 0 (suffixes inner bound e) fun e' us =>
      ∀ ts, Spells inClass .call e ts → Spells inClass .call e' (ts ++ us) := by
  induction bound generalizing e with
  | zero => exact sound_exhausted
  | succ bound ih =>
    -- what has been read so far is put in front of what each turn adds
    refine sound_accept (fun p => ?_) (sound_accept (fun p => ?_) (sound_pure fun ts he => ?_))
    · refine sound_bind (list_sound .tooManyArguments hi bound (by omega)) fun es => ?_
      refine sound_expect fun q => sound_mono (ih (by omega) _) (by omega) (Nat.le_refl _) ?_
      intro e' us h vs hes ts he
      have hc := h _ (.call p q he (derives_args hes) hes.length_le)
      simpa only [List.append_assoc, List.cons_append, List.nil_append] using hc
    · refine sound_expectName fun x => sound_mono (ih (by omega) _) (by omega) (Nat.le_refl _) ?_
      intro e' us h ts he
      simpa only [List.append_assoc, List.cons_append, List.nil_append] using h _ (.get p x he)
    · rwa [List.append_nil]

/-- An operand with its calls and properties. -/
theorem call_sound {bound : Nat} {inner : Parser Expr}
    (hi : Sound (bound - 1) 1 inner (Spells inClass .assignment)) :
    Sound bound 1 (do suffixes inner bound (← primary inner inClass)) (Spells inClass .call) := by
  refine sound_bind (primary_sound hi) fun e => ?_
  refine sound_mono (suffixes_sound hi bound (by omega) e) (by omega) (Nat.le_refl _) ?_
  intro e' us h ts he
  exact h ts (.tighter he)

theorem unary_sound {N : Nat} {operand : Parser Expr} (ho : Sound N 1 operand (Spells inClass .call))
    (bound : Nat) (hb : bound ≤ N) : Sound bound 1 (unary operand bound) (Spells inClass .unary) := by
  induction bound with
  | zero => exact sound_exhausted
  | succ bound ih =>
    refine sound_take (fun t r ht => ?_) (sound_mono ho hb (Nat.le_refl _) fun e ts h => .tighter h)
    obtain ⟨op, p⟩ := r
    have hop : t = op.punct.token p := by
      obtain ⟨l, q⟩ := t
      unfold prefixOp? at ht
      split at ht
      all_goals cases ht
      all_goals rename_i hl; cases hl; rfl
    subst hop
    refine sound_bind (sound_weaken (ih (by omega)) (Nat.le_refl _) (Nat.zero_le 1)) fun e => ?_
    refine sound_pure fun ts he => ?_
    rw [List.append_nil]
    exact .unary op p he

/-- What an operator makes of its operands is an expression of its level by the rules. -/
theorem spells_node {level : Level} {t : Token} {node : Expr → Expr → Expr} (h : level.node? t = some node)
    {l r : Expr} {ts us : List Token} (hl : Spells inClass (.operator level) l ts)
    (hr : Spells inClass (Rank.operator level).tighter r us) :
    Spells inClass (.operator level) (node l r) (ts ++ t :: us) := by
  obtain ⟨lexeme, p⟩ := t
  unfold Level.node? at h
  split at h
  all_goals cases h
  all_goals rename_i hlexeme; cases hlexeme
  · exact .logical .or p hl hr
  · exact .logical .and p hl hr
  · exact .binary .equal p hl hr
  · exact .binary .notEqual p hl hr
  · exact .binary .greater p hl hr
  · exact .binary .greaterEqual p hl hr
  · exact .binary .less p hl hr
  · exact .binary .lessEqual p hl hr
  · exact .binary .add p hl hr
  · exact .binary .subtract p hl hr
  · exact .binary .divide p hl hr
  · exact .binary .multiply p hl hr

/-- Operands go on with the expression that they are given, to the left. -/
theorem operands_sound {N : Nat} {level : Level} {operand : Parser Expr}
    (ho : Sound N 1 operand (Spells inClass (Rank.operator level).tighter)) (bound : Nat) (hb : bound ≤ N + 1)
    (left : Expr) :
    Sound bound 0 (operands level operand bound left) fun e us =>
      ∀ ts, Spells inClass (.operator level) left ts → Spells inClass (.operator level) e (ts ++ us) := by
  induction bound generalizing left with
  | zero => exact sound_exhausted
  | succ bound ih =>
    refine sound_take (fun t node ht => ?_) (sound_pure fun ts hl => by rwa [List.append_nil])
    refine sound_bind (sound_weaken ho (by omega) (Nat.le_refl _)) fun r => ?_
    refine sound_mono (ih (by omega) _) (by omega) (Nat.le_refl _) ?_
    intro e us h vs hr ts hl
    have hn := h _ (spells_node ht hl hr)
    simpa only [List.append_assoc, List.cons_append] using hn

def rankOf : List Level → Rank
  | [] => .unary
  | level :: _ => .operator level

/-- The levels stand in the order of the ranks. -/
theorem tighter_eq_rankOf {level : Level} {levels : List Level} (h : level :: levels <:+ Level.all) :
    (Rank.operator level).tighter = rankOf levels := by
  simp only [Level.all, List.suffix_cons_iff, List.suffix_nil, List.cons.injEq, reduceCtorEq, or_false] at h
  rcases h with ⟨rfl, rfl⟩ | ⟨rfl, rfl⟩ | ⟨rfl, rfl⟩ | ⟨rfl, rfl⟩ | ⟨rfl, rfl⟩ | ⟨rfl, rfl⟩ <;> rfl

theorem binary_sound {N : Nat} {operand : Parser Expr} (ho : Sound N 1 operand (Spells inClass .unary))
    {bound : Nat} (hb : bound ≤ N) (levels : List Level) (hl : levels <:+ Level.all) :
    Sound bound 1 (binary operand bound levels) (Spells inClass (rankOf levels)) := by
  induction levels with
  | nil => exact sound_weaken ho hb (Nat.le_refl _)
  | cons level levels ih =>
    have hi := ih ((List.suffix_cons level levels).trans hl)
    rw [← tighter_eq_rankOf hl] at hi
    refine sound_bind hi fun left => ?_
    refine sound_mono (operands_sound hi bound (by omega) left) (by omega) (Nat.le_refl _) ?_
    intro e us h ts hleft
    exact h ts (.tighter hleft)

theorem operation_sound {bound : Nat} {inner : Parser Expr}
    (hi : Sound (bound - 1) 1 inner (Spells inClass .assignment)) :
    Sound bound 1 (operation inner inClass bound) (Spells inClass (.operator .or)) :=
  binary_sound (unary_sound (call_sound hi) bound (Nat.le_refl _)) (Nat.le_refl _) Level.all (List.suffix_refl _)

theorem spells_variable {rank : Rank} {x : Name} {ts : List Token} (h : Spells inClass rank (.variable x) ts) :
    ts = [x.token] := by
  -- the rank is free in the induction, since a variable is derived at every rank from the tightest one
  unfold Spells at h
  generalize hp : Phrase.expr rank (.variable x) = p at h
  induction h generalizing rank with
  | name y =>
    cases hp
    rfl
  | tighter h ih =>
    cases hp
    exact ih rfl
  | _ => cases hp

theorem spells_get {rank : Rank} {o : Expr} {x : Name} {ts : List Token}
    (h : Spells inClass rank (.get o x) ts) :
    ∃ us p, ts = us ++ [Punct.dot.token p, x.token] ∧ Spells inClass .call o us := by
  unfold Spells at h
  generalize hp : Phrase.expr rank (.get o x) = p at h
  induction h generalizing rank with
  | get p y h =>
    cases hp
    exact ⟨_, p, rfl, h⟩
  | tighter h ih =>
    cases hp
    exact ih rfl
  | _ => cases hp

/-- What the parser takes for an assignment is one by the rules. -/
theorem spells_assignment {target value e : Expr} {ts us : List Token} (p : Pos)
    (ht : Spells inClass (.operator .or) target ts) (hv : Spells inClass .assignment value us)
    (h : assignment? target value = some e) :
    Spells inClass .assignment e (ts ++ Punct.equal.token p :: us) := by
  unfold assignment? at h
  split at h
  · cases h
    rw [spells_variable ht]
    exact .assign _ p hv
  · cases h
    obtain ⟨vs, q, rfl, ho⟩ := spells_get ht
    simpa only [List.append_assoc, List.cons_append, List.nil_append] using Derives.set _ q p ho hv
  · cases h

/-- What cannot be assigned to is an error, so there is nothing to show of it. -/
theorem assignment_sound {bound : Nat} {inner : Parser Expr}
    (hi : Sound (bound - 1) 1 inner (Spells inClass .assignment)) :
    Sound bound 1 (assignment inner inClass bound) (Spells inClass .assignment) := by
  refine sound_bind (operation_sound hi) fun target => ?_
  refine sound_accept (fun p => ?_) (sound_pure fun ts ht => ?_)
  · refine sound_bind (sound_weaken hi (by omega) (Nat.zero_le 1)) fun value => ?_
    split
    · rename_i e he
      refine sound_pure fun us hv ts ht => ?_
      rw [List.append_nil]
      exact spells_assignment p ht hv he
    · exact sound_report _ _ (sound_pure (G := fun _ _ => True) trivial)
  · rw [List.append_nil]
    exact .tighter ht

/-- An expression takes at least one token, and its bound is enough if it is larger than the number of tokens
left by at least two. -/
theorem expression_sound (inClass : Bool) (bound : Nat) :
    Sound (bound - 1) 1 (expression inClass bound) (Spells inClass .assignment) := by
  induction bound with
  | zero => exact sound_exhausted
  | succ bound ih => exact assignment_sound ih

end Lox.Parser
