import Lox.Proofs.Grammar.Follow
import Mathlib.Data.List.Forall2

/-! Trees and their tokens without the rules of the grammar. A tree is stratified if each of its operands binds as
tightly as its place asks for; then the rules derive the tokens that are read off the tree from left to right, and they
derive no others. -/
namespace Lox

open Grammar

/-- A token that a tree stands for. The place is left open where the tree does not keep it. -/
structure Mark where
  lexeme : Lexeme
  pos : Option Pos
deriving DecidableEq

def Lexeme.unspelled : Lexeme → Lexeme
  | .number _ x => .number "" x
  | l => l

def Mark.Fits (m : Mark) (t : Token) : Prop :=
  t.lexeme.unspelled = m.lexeme ∧ (m.pos = none ∨ m.pos = some t.pos)

instance (m : Mark) (t : Token) : Decidable (m.Fits t) := inferInstanceAs (Decidable (_ ∧ _))

def Literal.lexeme : Literal → Lexeme
  | .nil => .keyword .kwNil
  | .bool true => .keyword .kwTrue
  | .bool false => .keyword .kwFalse
  | .number x => .number "" x
  | .string s => .string s

def Name.mark (x : Name) : Mark := ⟨.identifier x.text, some x.pos⟩

namespace Expr

def rank : Expr → Rank
  | .literal _ | .group _ | .variable _ | .this _ => .primary
  | .call _ _ _ | .get _ _ => .call
  | .unary _ _ _ => .unary
  | .binary op _ _ _ => .operator op.level
  | .logical op _ _ => .operator op.level
  | .assign _ _ | .set _ _ _ => .assignment

/-- The tree may stand where an expression of the given rank is asked for. -/
def SitsAt (e : Expr) (rank : Rank) : Prop := rank.tightness ≤ e.rank.tightness

instance (e : Expr) (rank : Rank) : Decidable (e.SitsAt rank) := inferInstanceAs (Decidable (_ ≤ _))

mutual

/-- Each operand binds as tightly as its place asks for, and no call has too many arguments. -/
def Stratified : Expr → Prop
  | .literal _ | .variable _ | .this _ => True
  | .group e => e.Stratified
  | .unary _ _ e => e.Stratified ∧ e.SitsAt .unary
  | .binary op _ l r =>
    l.Stratified ∧ r.Stratified ∧ l.SitsAt (.operator op.level) ∧ r.SitsAt (Rank.operator op.level).tighter
  | .logical op l r =>
    l.Stratified ∧ r.Stratified ∧ l.SitsAt (.operator op.level) ∧ r.SitsAt (Rank.operator op.level).tighter
  | .assign _ v => v.Stratified
  | .call f es _ => f.Stratified ∧ f.SitsAt .call ∧ StratifiedAll es ∧ es.length ≤ maxListLength
  | .get o _ => o.Stratified ∧ o.SitsAt .call
  | .set o _ v => o.Stratified ∧ o.SitsAt .call ∧ v.Stratified

def StratifiedAll : List Expr → Prop
  | [] => True
  | e :: es => e.Stratified ∧ StratifiedAll es

end

mutual

/-- The tokens of a tree from left to right. -/
def yield : Expr → List Mark
  | .literal v => [⟨v.lexeme, none⟩]
  | .group e => ⟨.punct .leftParen, none⟩ :: e.yield ++ [⟨.punct .rightParen, none⟩]
  | .unary op p e => ⟨.punct op.punct, some p⟩ :: e.yield
  | .binary op p l r => l.yield ++ ⟨.punct op.punct, some p⟩ :: r.yield
  | .logical op l r => l.yield ++ ⟨.keyword op.keyword, none⟩ :: r.yield
  | .variable x => [x.mark]
  | .assign x v => x.mark :: ⟨.punct .equal, none⟩ :: v.yield
  | .call f es paren =>
    f.yield ++ ⟨.punct .leftParen, none⟩ :: yieldAll es ++ [⟨.punct .rightParen, some paren⟩]
  | .get o x => o.yield ++ [⟨.punct .dot, none⟩, x.mark]
  | .set o x v => o.yield ++ ⟨.punct .dot, none⟩ :: x.mark :: ⟨.punct .equal, none⟩ :: v.yield
  | .this p => [⟨.keyword .kwThis, some p⟩]

def yieldAll : List Expr → List Mark
  | [] => []
  | [e] => e.yield
  | e :: e' :: es => e.yield ++ ⟨.punct .comma, none⟩ :: yieldAll (e' :: es)

end

end Expr

namespace Grammar

/-- The tokens are those that the marks stand for, one by one. -/
abbrev Fit (ms : List Mark) (ts : List Token) : Prop := List.Forall₂ Mark.Fits ms ts

theorem fit_append {ms ns : List Mark} {ts us : List Token} (h : Fit ms ts) (h' : Fit ns us) :
    Fit (ms ++ ns) (ts ++ us) :=
  List.rel_append h h'

theorem fit_append_left {ms ns : List Mark} {ts : List Token} (h : Fit (ms ++ ns) ts) :
    ∃ us vs, ts = us ++ vs ∧ Fit ms us ∧ Fit ns vs := by
  have hf : List.Forall₂ (flip Mark.Fits) ts (ms ++ ns) := h.flip
  have htake := List.forall₂_take_append ts ms ns hf
  have hdrop := List.forall₂_drop_append ts ms ns hf
  exact ⟨_, _, (List.take_append_drop _ ts).symm, htake.flip, hdrop.flip⟩

theorem fit_cons_left {m : Mark} {ms : List Mark} {ts : List Token} (h : Fit (m :: ms) ts) :
    ∃ t us, ts = t :: us ∧ m.Fits t ∧ Fit ms us := by
  obtain ⟨t, us, ht, hus, rfl⟩ := List.forall₂_cons_left_iff.mp h
  exact ⟨t, us, rfl, ht, hus⟩

def Sits : Phrase → List Token → Prop
  | .expr rank e, ts => e.Stratified ∧ e.SitsAt rank ∧ Fit e.yield ts
  | .args es, ts => Expr.StratifiedAll es ∧ Fit (Expr.yieldAll es) ts
  | .items es, ts => es ≠ [] ∧ Expr.StratifiedAll es ∧ Fit (Expr.yieldAll es) ts

theorem fit_single {m : Mark} {t : Token} (h : m.Fits t) : Fit [m] [t] := .cons h .nil

/-- The rules derive stratified trees only, and only from the tokens that these stand for. -/
theorem sits_of_derives {inClass : Bool} {phrase : Phrase} {ts : List Token} (h : Derives inClass phrase ts) :
    Sits phrase ts := by
  induction h with
  | literalNil | literalTrue | literalFalse | literalNumber | literalString =>
    exact ⟨trivial, Nat.le_refl _, fit_single ⟨rfl, .inl rfl⟩⟩
  | name | this => exact ⟨trivial, Nat.le_refl _, fit_single ⟨rfl, .inr rfl⟩⟩
  | group p q _ ih =>
    obtain ⟨hs, -, hf⟩ := ih
    exact ⟨hs, Nat.le_refl _, .cons ⟨rfl, .inl rfl⟩ (fit_append hf (fit_single ⟨rfl, .inl rfl⟩))⟩
  | call p paren _ _ hlen ihf ihes =>
    obtain ⟨hs, hr, hf⟩ := ihf
    obtain ⟨hss, hfs⟩ := ihes
    refine ⟨⟨hs, hr, hss, hlen⟩, Nat.le_refl _, ?_⟩
    exact fit_append (fit_append hf (.cons ⟨rfl, .inl rfl⟩ hfs)) (fit_single ⟨rfl, .inr rfl⟩)
  | get p x _ ih =>
    obtain ⟨hs, hr, hf⟩ := ih
    exact ⟨⟨hs, hr⟩, Nat.le_refl _, fit_append hf (.cons ⟨rfl, .inl rfl⟩ (fit_single ⟨rfl, .inr rfl⟩))⟩
  | unary op p _ ih =>
    obtain ⟨hs, hr, hf⟩ := ih
    exact ⟨⟨hs, hr⟩, Nat.le_refl _, .cons ⟨rfl, .inr rfl⟩ hf⟩
  | binary op p _ _ ihl ihr =>
    obtain ⟨hsl, hrl, hfl⟩ := ihl
    obtain ⟨hsr, hrr, hfr⟩ := ihr
    exact ⟨⟨hsl, hsr, hrl, hrr⟩, Nat.le_refl _, fit_append hfl (.cons ⟨rfl, .inr rfl⟩ hfr)⟩
  | logical op p _ _ ihl ihr =>
    obtain ⟨hsl, hrl, hfl⟩ := ihl
    obtain ⟨hsr, hrr, hfr⟩ := ihr
    exact ⟨⟨hsl, hsr, hrl, hrr⟩, Nat.le_refl _, fit_append hfl (.cons ⟨rfl, .inl rfl⟩ hfr)⟩
  | assign x p _ ih =>
    obtain ⟨hs, -, hf⟩ := ih
    exact ⟨hs, Nat.le_refl _, .cons ⟨rfl, .inr rfl⟩ (.cons ⟨rfl, .inl rfl⟩ hf)⟩
  | set x p q _ _ iho ihv =>
    obtain ⟨hso, hro, hfo⟩ := iho
    obtain ⟨hsv, -, hfv⟩ := ihv
    refine ⟨⟨hso, hro, hsv⟩, Nat.le_refl _, fit_append hfo ?_⟩
    exact .cons ⟨rfl, .inl rfl⟩ (.cons ⟨rfl, .inr rfl⟩ (.cons ⟨rfl, .inl rfl⟩ hfv))
  | @tighter rank _ _ _ ih =>
    obtain ⟨hs, hr, hf⟩ := ih
    exact ⟨hs, Nat.le_trans (tightness_le_tighter rank) hr, hf⟩
  | noArgs => exact ⟨trivial, .nil⟩
  | args _ ih => exact ih.2
  | item _ ih =>
    obtain ⟨hs, -, hf⟩ := ih
    exact ⟨List.cons_ne_nil _ _, ⟨hs, trivial⟩, hf⟩
  | @moreItems e es _ _ p _ _ ihe ihes =>
    obtain ⟨hs, -, hf⟩ := ihe
    obtain ⟨hne, hss, hfs⟩ := ihes
    refine ⟨List.cons_ne_nil _ _, ⟨hs, hss⟩, ?_⟩
    -- only between two arguments is there a comma
    obtain ⟨e', es, rfl⟩ := List.exists_cons_of_ne_nil hne
    exact fit_append hf (.cons ⟨rfl, .inl rfl⟩ hfs)

theorem lexeme_of_unspelled {l k : Lexeme} (hl : ∀ x, l ≠ .number "" x) (h : k.unspelled = l) : k = l := by
  cases k with
  | number digits x => exact absurd h.symm (hl x)
  | punct | keyword | identifier | string => exact h

/-- The first token is known but for its place. -/
theorem fit_unplaced {l : Lexeme} {ms : List Mark} {ts : List Token} (h : Fit (⟨l, none⟩ :: ms) ts)
    (hl : ∀ x, l ≠ .number "" x) : ∃ p us, ts = ⟨l, p⟩ :: us ∧ Fit ms us := by
  obtain ⟨⟨k, p⟩, us, rfl, ⟨hk, -⟩, hus⟩ := fit_cons_left h
  obtain rfl : k = l := lexeme_of_unspelled hl hk
  exact ⟨p, us, rfl, hus⟩

theorem fit_placed {l : Lexeme} {p : Pos} {ms : List Mark} {ts : List Token} (h : Fit (⟨l, some p⟩ :: ms) ts)
    (hl : ∀ x, l ≠ .number "" x) : ∃ us, ts = ⟨l, p⟩ :: us ∧ Fit ms us := by
  obtain ⟨⟨k, q⟩, us, rfl, ⟨hk, hp⟩, hus⟩ := fit_cons_left h
  obtain rfl : k = l := lexeme_of_unspelled hl hk
  rcases hp with hp | hp
  · cases hp
  · cases hp
    exact ⟨us, rfl, hus⟩

theorem tightness_tighter {rank : Rank} (h : rank ≠ .primary) : rank.tighter.tightness = rank.tightness + 1 := by
  rcases rank with _ | level | _ | _ | _
  case operator => cases level <;> rfl
  case primary => exact absurd rfl h
  all_goals rfl

/-- No two ranks bind equally tightly. -/
theorem eq_of_tightness_eq {r r' : Rank} (h : r.tightness = r'.tightness) : r = r' := by
  rcases r with _ | level | _ | _ | _ <;> rcases r' with _ | level' | _ | _ | _ <;>
    try cases level
  all_goals
    try cases level'
  all_goals first | rfl | cases h

/-- An expression may stand where a looser one is asked for. -/
theorem derives_loosen {inClass : Bool} {r r' : Rank} {e : Expr} {ts : List Token}
    (h : Derives inClass (.expr r e) ts) (hr : r'.tightness ≤ r.tightness) : Derives inClass (.expr r' e) ts := by
  by_cases he : r' = r
  · rw [he]
    exact h
  · have hne : r'.tightness ≠ r.tightness := fun heq => he (eq_of_tightness_eq heq)
    have hlast : r' ≠ .primary := by
      rintro rfl
      have hmax : r.tightness ≤ 9 := by
        rcases r with _ | level | _ | _ | _
        case operator => cases level <;> decide
        all_goals decide
      exact hne (Nat.le_antisymm hr hmax)
    -- one rule loosens by one rank, and the distance that is left shrinks
    have hstep := tightness_tighter hlast
    exact .tighter (derives_loosen h (by omega))
termination_by r.tightness - r'.tightness

/-- Where an expression of the given rank is asked for, the rules derive the tree from all tokens that it stands for. -/
def Spelled (rank : Rank) (e : Expr) : Prop := ∀ {ts : List Token}, Fit e.yield ts → Spells true rank e ts

def ArgsSpelled (es : List Expr) : Prop := ∀ {ts : List Token}, Fit (Expr.yieldAll es) ts → Derives true (.args es) ts

theorem spelled_loosen {e : Expr} {rank : Rank} (h : Spelled e.rank e) (hr : e.SitsAt rank) : Spelled rank e :=
  fun hf => derives_loosen (h hf) hr

section constructors

variable {e l r f o v : Expr} {es : List Expr}

theorem spelled_literal (v : Literal) : Spelled .primary (.literal v) := by
  intro ts hf
  cases v with
  | nil =>
    obtain ⟨p, us, rfl, hnil⟩ := fit_unplaced hf (by simp [Literal.lexeme])
    cases hnil
    exact .literalNil p
  | bool b =>
    cases b with
    | true =>
      obtain ⟨p, us, rfl, hnil⟩ := fit_unplaced hf (by simp [Literal.lexeme])
      cases hnil
      exact .literalTrue p
    | false =>
      obtain ⟨p, us, rfl, hnil⟩ := fit_unplaced hf (by simp [Literal.lexeme])
      cases hnil
      exact .literalFalse p
  | string s =>
    obtain ⟨p, us, rfl, hnil⟩ := fit_unplaced hf (by simp [Literal.lexeme])
    cases hnil
    exact .literalString s p
  | number x =>
    -- the tree has the number but not its spelling, so any spelling of it will do
    obtain ⟨⟨k, p⟩, us, rfl, ⟨hk, -⟩, hnil⟩ := fit_cons_left hf
    cases hnil
    cases k with
    | number digits y =>
      cases hk
      exact .literalNumber digits x p
    | punct | keyword | identifier | string => cases hk

theorem spelled_variable (x : Name) : Spelled .primary (.variable x) := by
  intro ts hf
  obtain ⟨us, rfl, hnil⟩ := fit_placed hf (by simp)
  cases hnil
  exact .name x

theorem spelled_this (p : Pos) : Spelled .primary (.this p) := by
  intro ts hf
  obtain ⟨us, rfl, hnil⟩ := fit_placed hf (by simp)
  cases hnil
  exact .this p rfl

theorem spelled_group (he : Spelled .assignment e) : Spelled .primary (.group e) := by
  intro ts hf
  obtain ⟨p, us, rfl, hus⟩ := fit_unplaced hf (by simp)
  obtain ⟨vs, ws, rfl, hvs, hws⟩ := fit_append_left hus
  obtain ⟨q, xs, rfl, hnil⟩ := fit_unplaced hws (by simp)
  cases hnil
  exact .group p q (he hvs)

theorem spelled_unary (op : UnaryOp) (p : Pos) (he : Spelled .unary e) : Spelled .unary (.unary op p e) := by
  intro ts hf
  obtain ⟨us, rfl, hus⟩ := fit_placed hf (by simp)
  exact .unary op p (he hus)

/-- The left operand may be of the same level, the right one may not: operators associate to the left. -/
theorem spelled_binary (op : BinaryOp) (p : Pos) (hl : Spelled (.operator op.level) l)
    (hr : Spelled (Rank.operator op.level).tighter r) : Spelled (.operator op.level) (.binary op p l r) := by
  intro ts hf
  obtain ⟨us, vs, rfl, hus, hvs⟩ := fit_append_left hf
  obtain ⟨ws, rfl, hws⟩ := fit_placed hvs (by simp)
  exact .binary op p (hl hus) (hr hws)

theorem spelled_logical (op : LogicalOp) (hl : Spelled (.operator op.level) l)
    (hr : Spelled (Rank.operator op.level).tighter r) : Spelled (.operator op.level) (.logical op l r) := by
  intro ts hf
  obtain ⟨us, vs, rfl, hus, hvs⟩ := fit_append_left hf
  obtain ⟨p, ws, rfl, hws⟩ := fit_unplaced hvs (by simp)
  exact .logical op p (hl hus) (hr hws)

theorem spelled_assign (x : Name) (hv : Spelled .assignment v) : Spelled .assignment (.assign x v) := by
  intro ts hf
  obtain ⟨us, rfl, hus⟩ := fit_placed hf (by simp)
  obtain ⟨p, vs, rfl, hvs⟩ := fit_unplaced hus (by simp)
  exact .assign x p (hv hvs)

theorem spelled_call (paren : Pos) (hcallee : Spelled .call f) (hes : ArgsSpelled es)
    (hlen : es.length ≤ maxListLength) : Spelled .call (.call f es paren) := by
  intro ts hf
  obtain ⟨us, vs, rfl, hus, hvs⟩ := fit_append_left hf
  obtain ⟨ws, xs, rfl, hws, hxs⟩ := fit_append_left hus
  obtain ⟨p, ys, rfl, hys⟩ := fit_unplaced hxs (by simp)
  obtain ⟨zs, rfl, hnil⟩ := fit_placed hvs (by simp)
  cases hnil
  exact .call p paren (hcallee hws) (hes hys) hlen

theorem spelled_get (x : Name) (ho : Spelled .call o) : Spelled .call (.get o x) := by
  intro ts hf
  obtain ⟨us, vs, rfl, hus, hvs⟩ := fit_append_left hf
  obtain ⟨p, ws, rfl, hws⟩ := fit_unplaced hvs (by simp)
  obtain ⟨xs, rfl, hnil⟩ := fit_placed hws (by simp)
  cases hnil
  exact .get p x (ho hus)

theorem spelled_set (x : Name) (ho : Spelled .call o) (hv : Spelled .assignment v) :
    Spelled .assignment (.set o x v) := by
  intro ts hf
  obtain ⟨us, vs, rfl, hus, hvs⟩ := fit_append_left hf
  obtain ⟨p, ws, rfl, hws⟩ := fit_unplaced hvs (by simp)
  obtain ⟨xs, rfl, hxs⟩ := fit_placed hws (by simp)
  obtain ⟨q, ys, rfl, hys⟩ := fit_unplaced hxs (by simp)
  exact .set x p q (ho hus) (hv hys)

theorem argsSpelled_nil : ArgsSpelled [] := by
  intro ts hf
  cases hf
  exact .noArgs

theorem argsSpelled_cons (he : Spelled .assignment e) (hes : ArgsSpelled es) : ArgsSpelled (e :: es) := by
  intro ts hf
  cases es with
  | nil => exact .args (.item (he hf))
  | cons e' es =>
    obtain ⟨us, vs, rfl, hus, hvs⟩ := fit_append_left hf
    obtain ⟨p, ws, rfl, hws⟩ := fit_unplaced hvs (by simp)
    cases hes hws with
    | args hitems => exact .args (.moreItems p (he hus) hitems)

end constructors

mutual

/-- The rules derive the tokens that a stratified tree stands for. -/
theorem spelled_of_stratified : (e : Expr) → e.Stratified → Spelled e.rank e
  | .literal v, _ => spelled_literal v
  | .variable x, _ => spelled_variable x
  | .this p, _ => spelled_this p
  | .group e, hs => spelled_group (spelled_loosen (spelled_of_stratified e hs) (Nat.zero_le _))
  | .unary op p e, ⟨hs, hr⟩ => spelled_unary op p (spelled_loosen (spelled_of_stratified e hs) hr)
  | .binary op p l r, ⟨hsl, hsr, hrl, hrr⟩ =>
    spelled_binary op p (spelled_loosen (spelled_of_stratified l hsl) hrl)
      (spelled_loosen (spelled_of_stratified r hsr) hrr)
  | .logical op l r, ⟨hsl, hsr, hrl, hrr⟩ =>
    spelled_logical op (spelled_loosen (spelled_of_stratified l hsl) hrl)
      (spelled_loosen (spelled_of_stratified r hsr) hrr)
  | .assign x v, hs => spelled_assign x (spelled_loosen (spelled_of_stratified v hs) (Nat.zero_le _))
  | .call f es paren, ⟨hs, hr, hss, hlen⟩ =>
    spelled_call paren (spelled_loosen (spelled_of_stratified f hs) hr) (argsSpelled_of_stratified es hss) hlen
  | .get o x, ⟨hs, hr⟩ => spelled_get x (spelled_loosen (spelled_of_stratified o hs) hr)
  | .set o x v, ⟨hs, hr, hv⟩ =>
    spelled_set x (spelled_loosen (spelled_of_stratified o hs) hr)
      (spelled_loosen (spelled_of_stratified v hv) (Nat.zero_le _))

theorem argsSpelled_of_stratified : (es : List Expr) → Expr.StratifiedAll es → ArgsSpelled es
  | [], _ => argsSpelled_nil
  | e :: es, ⟨hs, hss⟩ =>
    argsSpelled_cons (spelled_loosen (spelled_of_stratified e hs) (Nat.zero_le _)) (argsSpelled_of_stratified es hss)

end

end Grammar
end Lox
