import Lox.Proofs.Parser.ExprJoins

/-! Tokens that spell an expression are read as that expression, if no token follows that could go on with it. An
expression outside of any class is read all the same if it has `this` in it, with an error for each of them. -/
namespace Lox.Parser

open Grammar

variable {inClass : Bool}

/-- An operand alone is an expression of its level. -/
theorem joins_operator_of_tighter {level : Level} {ts : List Token} {e : Expr}
    (h : Joins inClass ts e (Rank.operator level).tighter) : Joins inClass ts e (.operator level) := by
  intro rest b levels hsuf hb hs
  rw [tighter_eq_rankOf hsuf] at h hs
  have hread := reads_binary h ((List.suffix_cons level levels).trans hsuf) hb hs
  exact ⟨b, by omega, leads_bind_last hread (leads_refl _ rest)⟩

/-- An expression without assignment is read before any token that cannot go on with it but for `=`. -/
theorem reads_operation {ts rest : List Token} {e : Expr} {b : Nat} (h : Joins inClass ts e (.operator .or))
    (hb : ts.length + rest.length + 1 ≤ b) (hs : Stops (.operator .or) rest) :
    Reads (operation (expression inClass b) inClass b) ts rest (strayThis inClass ts) e := by
  have hall : Joins inClass ts e (rankOf Level.all) := h
  exact reads_binary hall (List.suffix_refl _) hb hs

/-- An expression that is no assignment stands for itself. -/
theorem joins_assignment_of_operator {ts : List Token} {e : Expr} (h : Joins inClass ts e (.operator .or)) :
    Joins inClass ts e .assignment := by
  intro rest b hb hs
  obtain ⟨b, rfl⟩ : ∃ j, b = j + 1 := ⟨b - 1, by omega⟩
  have hread := reads_operation h (show ts.length + rest.length + 1 ≤ b by omega) (stops_tighter hs)
  refine leads_bind_last hread (leads_decline ?_ (leads_refl _ rest))
  exact notNext_of_stops (l := .punct .equal) hs rfl (Nat.le_refl _)

/-- What binds tighter can stand where a looser rank is asked for. -/
theorem joins_of_tighter {rank : Rank} {ts : List Token} {e : Expr} (h : Joins inClass ts e rank.tighter)
    (hs : Starts (.expr rank.tighter e) ts) : Joins inClass ts e rank := by
  rcases rank with _ | level | _ | _ | _
  case assignment => exact joins_assignment_of_operator h
  case operator => exact joins_operator_of_tighter h
  case unary => exact joins_unary_of_call h hs
  case call => exact joins_call_of_primary h
  case primary => exact h

/-- A call or a property as the left side of an assignment. -/
theorem joins_operator_of_call {ts : List Token} {e : Expr} (h : Joins inClass ts e .call)
    (hs : Starts (.expr .call e) ts) : Joins inClass ts e (.operator .or) := by
  have hproduct : Joins inClass ts e (.operator .product) := joins_operator_of_tighter (joins_unary_of_call h hs)
  have hsum : Joins inClass ts e (.operator .sum) := joins_operator_of_tighter hproduct
  have hcomparison : Joins inClass ts e (.operator .comparison) := joins_operator_of_tighter hsum
  have hequality : Joins inClass ts e (.operator .equality) := joins_operator_of_tighter hcomparison
  have hand : Joins inClass ts e (.operator .and) := joins_operator_of_tighter hequality
  exact joins_operator_of_tighter hand

/-- An assignment, whose left side has been read as a call or a property. -/
theorem joins_assignment {ts us : List Token} {target value e : Expr} (p : Pos)
    (ht : Joins inClass ts target .call) (hs : Starts (.expr .call target) ts)
    (hv : Joins inClass us value .assignment) (he : assignment? target value = some e) :
    Joins inClass (ts ++ Punct.equal.token p :: us) e .assignment := by
  intro rest b hb hstop
  simp only [List.length_append, List.length_cons] at hb
  obtain ⟨b, rfl⟩ : ∃ j, b = j + 1 := ⟨b - 1, by omega⟩
  -- the left side is read as an operation first: it becomes a target only when `=` is seen
  have htarget := reads_operation (joins_operator_of_call ht hs)
    (show ts.length + (Punct.equal.token p :: us ++ rest).length + 1 ≤ b by
      simp only [List.length_append, List.length_cons]
      omega)
    (stops_cons fun r hr => by
      cases hr
      decide)
  have hvalue := hv rest b (by omega) hstop
  rw [strayThis_append, strayThis_cons (by simp)]
  refine leads_bind htarget (leads_accept (leads_bind_last hvalue ?_))
  simp only [he]
  exact leads_refl _ rest

def JoinsItems (inClass : Bool) (before : Nat) (ts : List Token) (es : List Expr) : Prop :=
  ∀ rest b k p, ts.length + rest.length + 3 ≤ b → ts.length + rest.length < k →
    Reads (items .tooManyArguments (expression inClass b) k before) ts (Punct.rightParen.token p :: rest)
      (strayThis inClass ts) es

theorem joins_item {ts : List Token} {e : Expr} {before : Nat} (hb : before + 1 ≤ maxListLength)
    (h : Joins inClass ts e .assignment) : JoinsItems inClass before ts [e] := by
  intro rest b k p hlen hk
  obtain ⟨k, rfl⟩ : ∃ j, k = j + 1 := ⟨k - 1, by omega⟩
  have hread := h (Punct.rightParen.token p :: rest) b (by rw [List.length_cons]; omega) (stops_of_joins rfl)
  unfold items
  rw [if_neg (by omega)]
  exact leads_bind_last hread (leads_decline (notNext_cons (by simp)) (leads_refl _ _))

theorem joins_moreItems {ts us : List Token} {e : Expr} {es : List Expr} {before : Nat} (p : Pos)
    (hb : before + 1 ≤ maxListLength) (h : Joins inClass ts e .assignment)
    (hes : JoinsItems inClass (before + 1) us es) :
    JoinsItems inClass before (ts ++ Punct.comma.token p :: us) (e :: es) := by
  intro rest b k q hlen hk
  simp only [List.length_append, List.length_cons] at hlen hk
  obtain ⟨k, rfl⟩ : ∃ j, k = j + 1 := ⟨k - 1, by omega⟩
  have hread := h (Punct.comma.token p :: us ++ Punct.rightParen.token q :: rest) b
    (by simp only [List.length_append, List.length_cons]; omega) (stops_of_joins rfl)
  have hmore := hes rest b k q (by omega) (by omega)
  unfold items
  rw [if_neg (by omega), strayThis_append, strayThis_cons (by simp)]
  exact leads_bind hread (leads_accept (leads_bind_last hmore (leads_refl _ _)))

theorem joinsArgs_nil : JoinsArgs inClass [] [] := by
  intro rest b k p _ _
  rw [strayThis_nil]
  exact leads_nextIs_true (leads_refl _ _)

theorem joinsArgs_of_items {ts : List Token} {es : List Expr} (h : JoinsItems inClass 0 ts es)
    (hs : Starts (.items es) ts) : JoinsArgs inClass ts es := by
  intro rest b k p hlen hk
  obtain ⟨t, us, rfl, ht⟩ := hs
  refine leads_nextIs (notNext_cons fun hl => ?_) (h rest b k p hlen hk)
  rw [hl] at ht
  cases ht

def Complete (inClass : Bool) : Phrase → List Token → Prop
  | .expr rank e, ts => Joins inClass ts e rank
  | .args es, ts => es.length ≤ maxListLength → JoinsArgs inClass ts es
  | .items es, ts => ∀ before, before + es.length ≤ maxListLength → JoinsItems inClass before ts es

/-- Whatever the rules derive is read, by induction on the derivation. -/
theorem complete_of_derives (inClass : Bool) {inClass' : Bool} {phrase : Phrase} {ts : List Token}
    (h : Derives inClass' phrase ts) : Complete inClass phrase ts := by
  induction h with
  | literalNil | literalTrue | literalFalse | literalNumber | literalString | name => exact joins_atom rfl
  | this p _ => exact joins_this p
  | group p q _ ih => exact joins_group p q ih
  | call p paren _ _ hlen ihf ihes => exact joins_call p paren ihf (ihes hlen)
  | get p x _ ih => exact joins_get p x ih
  | unary op p _ ih => exact joins_unary op p ih
  | binary op p _ _ ihl ihr => exact joins_node (by cases op <;> rfl) (by cases op <;> rfl) ihl ihr
  | logical op p _ _ ihl ihr => exact joins_node (by cases op <;> rfl) (by cases op <;> rfl) ihl ihr
  | assign x p _ ih =>
    -- the name has been read as an expression of its own before it is assigned to
    have hx : Derives inClass (.expr .call (.variable x)) [x.token] := .tighter (.name x)
    exact joins_assignment p (joins_call_of_primary (joins_atom rfl)) (starts_of_derives hx) ih rfl
  | set x p q ho _ iho ihv =>
    have hget := joins_assignment q (joins_get p x iho) (starts_of_derives (ho.get p x)) ihv rfl
    rwa [List.append_assoc] at hget
  | tighter h ih => exact joins_of_tighter ih (starts_of_derives h)
  | noArgs => exact fun _ => joinsArgs_nil
  | args h ih => exact fun hlen => joinsArgs_of_items (ih 0 (by omega)) (starts_of_derives h)
  | item _ ih => exact fun before hb => joins_item hb ih
  | moreItems p _ _ ihe ihes =>
    intro before hb
    rw [List.length_cons] at hb
    exact joins_moreItems p (by omega) ihe (ihes (before + 1) (by omega))

/-- Tokens that spell an expression are read as that expression. -/
theorem reads_expression (inClass : Bool) {inClass' : Bool} {e : Expr} {ts rest : List Token} {bound : Nat}
    (h : Spells inClass' .assignment e ts) (hb : ts.length + rest.length + 2 ≤ bound)
    (hs : Stops .assignment rest) : Reads (expression inClass bound) ts rest (strayThis inClass ts) e :=
  complete_of_derives inClass h rest bound hb hs

/-- By the rules, `this` is not astray. -/
theorem strayThis_of_derives {phrase : Phrase} {ts : List Token} (h : Derives inClass phrase ts) :
    strayThis inClass ts = [] := by
  induction h with
  | this p h =>
    rw [h]
    rfl
  | logical op p _ _ ihl ihr =>
    have hop : op.keyword ≠ .kwThis := by cases op <;> decide
    rw [strayThis_append, strayThis_cons (by simpa using hop), ihl, ihr]
    rfl
  -- no other rule adds a `this` of its own
  | _ => simp_all [strayThis_append, strayThis_cons]

end Lox.Parser
