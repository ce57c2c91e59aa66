import Lox.Proofs.Grammar.Expr

/-! Which tokens an expression can start with, and which can go on with it. -/
namespace Lox.Grammar

def Rank.tightness : Rank → Nat
  | assignment => 0
  | operator .or => 1
  | operator .and => 2
  | operator .equality => 3
  | operator .comparison => 4
  | operator .sum => 5
  | operator .product => 6
  | unary => 7
  | call => 8
  | primary => 9

theorem tightness_le_tighter (rank : Rank) : rank.tightness ≤ rank.tighter.tightness := by
  rcases rank with _ | level | _ | _ | _
  case operator => cases level <;> decide
  all_goals decide

/-- An operator asks its right operand to bind tighter than itself. -/
theorem tightness_lt_tighter (level : Parser.Level) :
    (Rank.operator level).tightness < (Rank.operator level).tighter.tightness := by
  cases level <;> decide

/-- The rank at which a lexeme can go on with an expression that stands before it. -/
def joins? : Lexeme → Option Rank
  | .punct .equal => some .assignment
  | .keyword .kwOr => some (.operator .or)
  | .keyword .kwAnd => some (.operator .and)
  | .punct .equalEqual | .punct .bangEqual => some (.operator .equality)
  | .punct .greater | .punct .greaterEqual | .punct .less | .punct .lessEqual => some (.operator .comparison)
  | .punct .plus | .punct .minus => some (.operator .sum)
  | .punct .star | .punct .slash => some (.operator .product)
  | .punct .leftParen | .punct .dot => some .call
  | _ => none

/-- What follows cannot go on with an expression of this rank. -/
def Stops (rank : Rank) (rest : List Token) : Prop :=
  ∀ t, rest.head? = some t → ∀ r, joins? t.lexeme = some r → r.tightness < rank.tightness

/-- What cannot go on with a loose expression cannot go on with a tight one. -/
theorem stops_mono {rank rank' : Rank} {rest : List Token} (h : Stops rank rest)
    (hr : rank.tightness ≤ rank'.tightness) : Stops rank' rest :=
  fun t ht r hj => Nat.lt_of_lt_of_le (h t ht r hj) hr

theorem stops_tighter {rank : Rank} {rest : List Token} (h : Stops rank rest) : Stops rank.tighter rest :=
  stops_mono h (tightness_le_tighter rank)

theorem stops_cons {rank : Rank} {t : Token} {rest : List Token}
    (h : ∀ r, joins? t.lexeme = some r → r.tightness < rank.tightness) : Stops rank (t :: rest) := by
  intro u hu
  cases hu
  exact h

/-- A token that goes on with no expression at all stops every rank. -/
theorem stops_of_joins {rank : Rank} {t : Token} {rest : List Token} (h : joins? t.lexeme = none) :
    Stops rank (t :: rest) :=
  stops_cons fun r hr => by rw [h] at hr; cases hr

def NotNext (l : Lexeme) (ts : List Token) : Prop := ∀ t, ts.head? = some t → t.lexeme ≠ l

theorem notNext_nil (l : Lexeme) : NotNext l [] := fun _ h => nomatch h

theorem notNext_cons {l : Lexeme} {t : Token} {ts : List Token} (h : t.lexeme ≠ l) : NotNext l (t :: ts) := by
  intro u hu
  cases hu
  exact h

/-- What cannot go on with an expression starts with none of its operators. -/
theorem notNext_of_stops {rank r : Rank} {l : Lexeme} {rest : List Token} (h : Stops rank rest)
    (hl : joins? l = some r) (hr : rank.tightness ≤ r.tightness) : NotNext l rest := by
  intro t ht he
  subst he
  exact absurd (h t ht r hl) (Nat.not_lt.mpr hr)

def StartsWith (f : Lexeme → Bool) (ts : List Token) : Prop := ∃ t us, ts = t :: us ∧ f t.lexeme = true

theorem notNext_of_startsWith {f : Lexeme → Bool} {l : Lexeme} {ts : List Token} (h : StartsWith f ts)
    (hl : f l = false) (us : List Token) : NotNext l (ts ++ us) := by
  obtain ⟨t, vs, rfl, ht⟩ := h
  refine notNext_cons fun he => ?_
  rw [he, hl] at ht
  cases ht

def startsPrimary : Lexeme → Bool
  | .keyword .kwNil | .keyword .kwTrue | .keyword .kwFalse | .keyword .kwThis => true
  | .punct .leftParen | .identifier _ | .string _ | .number _ _ => true
  | _ => false

def startsExpr (l : Lexeme) : Bool := startsPrimary l || l = .punct .bang || l = .punct .minus

def Starts : Phrase → List Token → Prop
  | .expr rank _, ts => ∃ t us, ts = t :: us ∧ startsExpr t.lexeme = true ∧
    (Rank.call.tightness ≤ rank.tightness → startsPrimary t.lexeme = true)
  | .items _, ts => ∃ t us, ts = t :: us ∧ startsExpr t.lexeme = true
  | .args es, ts => es = [] ∧ ts = [] ∨ ∃ t us, ts = t :: us ∧ startsExpr t.lexeme = true

/-- A phrase whose tokens start an expression goes on with more tokens. -/
theorem starts_append {rank rank' : Rank} {e e' : Expr} {ts : List Token} (us : List Token)
    (h : Starts (.expr rank e) ts) (hr : rank'.tightness ≤ rank.tightness) :
    Starts (.expr rank' e') (ts ++ us) := by
  obtain ⟨t, vs, rfl, hs, hp⟩ := h
  exact ⟨t, vs ++ us, rfl, hs, fun hc => hp (Nat.le_trans hc hr)⟩

/-- A phrase starts as its rules say, by induction on the derivation. -/
theorem starts_of_derives {inClass : Bool} {phrase : Phrase} {ts : List Token} (h : Derives inClass phrase ts) :
    Starts phrase ts := by
  induction h with
  | literalNil | literalTrue | literalFalse | literalNumber | literalString | name | this =>
    exact ⟨_, [], rfl, rfl, fun _ => rfl⟩
  | group p q _ _ => exact ⟨_, _, rfl, rfl, fun _ => rfl⟩
  | call p paren _ _ _ ih _ =>
    rw [List.append_assoc]
    exact starts_append _ ih (Nat.le_refl _)
  | get p x _ ih => exact starts_append _ ih (Nat.le_refl _)
  | unary op p _ _ => exact ⟨_, _, rfl, by cases op <;> rfl, fun h => absurd h (by decide)⟩
  | binary op p _ _ ih _ => exact starts_append _ ih (Nat.le_refl _)
  | logical op p _ _ ih _ => exact starts_append _ ih (Nat.le_refl _)
  | assign x p _ _ => exact ⟨_, _, rfl, rfl, fun h => absurd h (by decide)⟩
  | set x p q _ _ ih _ => exact starts_append _ ih (by decide)
  | tighter _ ih =>
    obtain ⟨t, us, rfl, hs, hp⟩ := ih
    exact ⟨t, us, rfl, hs, fun hc => hp (Nat.le_trans hc (tightness_le_tighter _))⟩
  | noArgs => exact Or.inl ⟨rfl, rfl⟩
  | args _ ih => exact Or.inr ih
  | item _ ih =>
    obtain ⟨t, us, rfl, hs, -⟩ := ih
    exact ⟨t, us, rfl, hs⟩
  | moreItems p _ _ ih _ =>
    obtain ⟨t, us, rfl, hs, -⟩ := ih
    exact ⟨t, _, rfl, hs⟩

end Lox.Grammar
