import Lox.Parser.Stmt
import Lox.Proofs.Parser.Logic

/-! Properties that follow the structure of parsers. They are relations of two parsers, which may differ in their bounds
and in what surrounds them. If such a relation passes from two parsers to the one after the other and holds of each
thing that a parser does, it holds of every parser of which those inside have it. -/
namespace Lox

def SyntaxError.Cause.isFatal : SyntaxError.Cause → Bool
  | unexpectedCharacter | unterminatedString | invalidNumber => false
  | tooManyParameters | tooManyArguments | invalidAssignment => false
  | breakOutsideLoop | returnOutsideFunction | thisOutsideClass => false
  | _ => true

def Lexeme.braces : Lexeme → Int
  | .punct .leftBrace => 1
  | .punct .rightBrace => -1
  | _ => 0

def Lexeme.IsEnd (l : Lexeme) : Prop := l = .punct .semicolon ∨ l = .punct .rightBrace

namespace Parser

/-- A relation that follows the structure of parsers. `T ends n p p'` is about parsers that change the number of open
braces by `n`, and that end with the last token of a declaration if `ends` is true. Of the tokens that are taken `K` is
known. If the relation is `free`, it holds as well if only one of the parsers makes a remark: that is, reports an error
that it can go on from. -/
structure Compositional (K : Token → Prop) (free : Prop)
    (T : Bool → Int → {α : Type} → Parser α → Parser α → Prop) : Prop where
  opens {n : Int} {α : Type} {p p' : Parser α} : T true n p p' → T false n p p'
  done {α : Type} (a : α) : T false 0 (pure a) (pure a)
  finish {ends : Bool} {n : Int} {α β : Type} {p p' : Parser α} (f : α → β) :
    T ends n p p' → T ends n (p >>= fun a => pure (f a)) (p' >>= fun a => pure (f a))
  seq {ends : Bool} {n : Int} {α β : Type} {p p' : Parser α} {k k' : α → Parser β} :
    T false 0 p p' → (∀ a, T ends n (k a) (k' a)) → T ends n (p >>= k) (p' >>= k')
  fails {ends : Bool} {n : Int} {α : Type} {cause : SyntaxError.Cause} :
    cause.isFatal = true → T ends n (fail cause : Parser α) (fail cause)
  exhausts {ends : Bool} {n : Int} {α : Type} (p : Parser α) : T ends n exhausted p
  take {ends : Bool} {n : Int} {α β : Type} {f : Token → Option β} {k k' : Option β → Parser α} :
    (∀ t b, f t = some b → K t → T ends (n - t.lexeme.braces) (k (some b)) (k' (some b))) →
      T ends n (k none) (k' none) → T ends n (take? f >>= k) (take? f >>= k')
  last {l : Lexeme} {cause : SyntaxError.Cause} : l.IsEnd → cause.isFatal = true →
    T true l.braces (expect l cause) (expect l cause)
  orElse {α β : Type} {p p' : Parser α} {k k' : α → Option Pos → Parser β} :
    T true 0 p p' → (∀ a q, T true 0 (k a (some q)) (k' a (some q))) →
      (∀ a, ∃ b, k a none = pure b ∧ k' a none = pure b) →
      T true 0 (p >>= fun a => accept? (.keyword .kwElse) >>= k a)
        (p' >>= fun a => accept? (.keyword .kwElse) >>= k' a)
  looks {ends : Bool} {n : Int} {α : Type} {l : Lexeme} {k k' : Bool → Parser α} :
    (∀ b, T ends n (k b) (k' b)) → T ends n (nextIs l >>= k) (nextIs l >>= k')
  looksForEnd {ends : Bool} {n : Int} {α : Type} {k k' : Bool → Parser α} :
    (∀ b, T ends n (k b) (k' b)) → T ends n (atEnd >>= k) (atEnd >>= k')
  remarksHere {ends : Bool} {n : Int} {α : Type} {cause : SyntaxError.Cause} {k k' : Unit → Parser α} :
    cause.isFatal = false → T ends n (k ()) (k' ()) →
      T ends n (reportHere cause >>= k) (reportHere cause >>= k')
  remarks {ends : Bool} {n : Int} {α : Type} {cause : SyntaxError.Cause} {t : Token} {k k' : Unit → Parser α} :
    cause.isFatal = false → K t → T ends n (k ()) (k' ()) →
      T ends n (report cause (.token t) >>= k) (report cause (.token t) >>= k')
  remarksOnce {ends : Bool} {n : Int} {α : Type} {cause : SyntaxError.Cause} {t : Token} {k : Unit → Parser α}
    {p : Parser α} : free → cause.isFatal = false → K t → T ends n (k ()) p →
      T ends n (report cause (.token t) >>= k) p
  remarksOther {ends : Bool} {n : Int} {α : Type} {cause : SyntaxError.Cause} {t : Token} {k : Unit → Parser α}
    {p : Parser α} : free → cause.isFatal = false → K t → T ends n p (k ()) →
      T ends n p (report cause (.token t) >>= k)

namespace Compositional

variable {K : Token → Prop} {free : Prop} {T : Bool → Int → {α : Type} → Parser α → Parser α → Prop}
variable {α β : Type} {ends : Bool} {n : Int} {bound bound' : Nat}

section tokens

variable (hT : Compositional K free @T)
include hT

theorem maps {p p' : Parser α} (f : α → β) (hp : T ends n p p') : T ends n (f <$> p) (f <$> p') := by
  rw [map_eq_pure_bind, map_eq_pure_bind]
  exact hT.finish f hp

/-- A token that is no brace. -/
theorem takes {f : Token → Option β} {k k' : Option β → Parser α}
    (hf : ∀ t b, f t = some b → t.lexeme.braces = 0)
    (hsome : ∀ t b, f t = some b → K t → T ends n (k (some b)) (k' (some b)))
    (hnone : T ends n (k none) (k' none)) : T ends n (take? f >>= k) (take? f >>= k') := by
  apply hT.take _ hnone
  intro t b hb hK
  rw [hf t b hb, Int.sub_zero]
  exact hsome t b hb hK

theorem accepts_brace {l : Lexeme} {k k' : Option Pos → Parser α}
    (hsome : ∀ q, K ⟨l, q⟩ → T ends (n - l.braces) (k (some q)) (k' (some q)))
    (hnone : T ends n (k none) (k' none)) : T ends n (accept? l >>= k) (accept? l >>= k') := by
  refine hT.take (fun t q hq hK => ?_) hnone
  split at hq
  · rename_i hl
    cases hq
    subst hl
    exact hsome t.pos hK
  · cases hq

theorem accepts {l : Lexeme} {k k' : Option Pos → Parser α} (hl : l.braces = 0)
    (hsome : ∀ q, K ⟨l, q⟩ → T ends n (k (some q)) (k' (some q))) (hnone : T ends n (k none) (k' none)) :
    T ends n (accept? l >>= k) (accept? l >>= k') := by
  refine hT.accepts_brace (fun q hK => ?_) hnone
  rw [hl, Int.sub_zero]
  exact hsome q hK

theorem expects_brace {l : Lexeme} {cause : SyntaxError.Cause} {k k' : Pos → Parser α} (hc : cause.isFatal = true)
    (h : ∀ q, K ⟨l, q⟩ → T ends (n - l.braces) (k q) (k' q)) :
    T ends n (expect l cause >>= k) (expect l cause >>= k') := by
  unfold expect
  rw [bind_assoc, bind_assoc]
  exact hT.accepts_brace h (hT.fails hc)

theorem expects {l : Lexeme} {cause : SyntaxError.Cause} {k k' : Pos → Parser α} (hl : l.braces = 0)
    (hc : cause.isFatal = true) (h : ∀ q, T ends n (k q) (k' q)) :
    T ends n (expect l cause >>= k) (expect l cause >>= k') := by
  refine hT.expects_brace hc fun q _ => ?_
  rw [hl, Int.sub_zero]
  exact h q

/-- The last token of a declaration, which gives the result. -/
theorem lasts {l : Lexeme} {cause : SyntaxError.Cause} {f : Pos → α} (hl : l.IsEnd) (hc : cause.isFatal = true)
    (hn : l.braces = n) : T true n (expect l cause >>= fun q => pure (f q)) (expect l cause >>= fun q => pure (f q)) := by
  rw [← hn]
  exact hT.finish f (hT.last hl hc)

theorem expectsName {cause : SyntaxError.Cause} {k k' : Name → Parser α} (hc : cause.isFatal = true)
    (h : ∀ x, T ends n (k x) (k' x)) : T ends n (expectName cause >>= k) (expectName cause >>= k') := by
  unfold expectName
  rw [bind_assoc, bind_assoc]
  refine hT.takes (fun t x hx => ?_) (fun t x _ _ => h x) (hT.fails hc)
  cases hl : t.lexeme with
  | identifier text => rfl
  | punct | keyword | string | number => simp [hl] at hx

/-- A remark that the one parser makes if `b` holds and the other if `b'` does. -/
theorem remarksIf {b b' : Bool} {cause : SyntaxError.Cause} {t : Token} {k k' : Unit → Parser α}
    (hb : b = b' ∨ free) (hc : cause.isFatal = false) (ht : K t) (h : T ends n (k ()) (k' ())) :
    T ends n (if b = true then report cause (.token t) >>= k else k ())
      (if b' = true then report cause (.token t) >>= k' else k' ()) := by
  rcases hb with rfl | hfree
  · cases b with
    | true => exact hT.remarks hc ht h
    | false => exact h
  · cases b with
    | true =>
      cases b' with
      | true => exact hT.remarks hc ht h
      | false => exact hT.remarksOnce hfree hc ht h
    | false =>
      cases b' with
      | true => exact hT.remarksOther hfree hc ht h
      | false => exact h

end tokens

section expressions

variable (hT : Compositional K free @T)
include hT

theorem items {item item' : Parser α} {tooMany : SyntaxError.Cause} (hc : tooMany.isFatal = false)
    (hi : T false 0 item item') (hb : bound ≤ bound') (before : Nat) :
    T false 0 (Parser.items tooMany item bound before) (Parser.items tooMany item' bound' before) := by
  induction bound generalizing bound' before with
  | zero => exact hT.exhausts _
  | succ bound ih =>
    obtain ⟨bound', rfl⟩ : ∃ j, bound' = j + 1 := ⟨bound' - 1, by omega⟩
    unfold Parser.items
    extract_lets rest rest'
    have hrest : T false 0 (rest ⟨⟩) (rest' ⟨⟩) := by
      refine hT.seq hi fun a => hT.accepts rfl (fun q _ => ?_) (hT.done _)
      exact hT.finish _ (ih (Nat.le_of_succ_le_succ hb) (before + 1))
    split
    · exact hT.remarksHere hc hrest
    · exact hrest

theorem list {item item' : Parser α} {tooMany : SyntaxError.Cause} (hc : tooMany.isFatal = false)
    (hi : T false 0 item item') (hb : bound ≤ bound') :
    T false 0 (Parser.list tooMany item bound) (Parser.list tooMany item' bound') := by
  refine hT.looks fun b => ?_
  split
  · exact hT.done _
  · exact hT.items hc hi hb 0

omit hT in
theorem braces_of_atom {t : Token} {e : Expr} (h : atom? t = some e) : t.lexeme.braces = 0 := by
  unfold atom? at h
  cases hl : t.lexeme with
  | punct x => simp [hl] at h
  | keyword | identifier | string | number => rfl

omit hT in
theorem braces_of_prefixOp {t : Token} {a : UnaryOp × Pos} (h : prefixOp? t = some a) : t.lexeme.braces = 0 := by
  unfold prefixOp? at h
  split at h <;> simp_all [Lexeme.braces]

omit hT in
theorem braces_of_node {level : Level} {t : Token} {node : Expr → Expr → Expr} (h : level.node? t = some node) :
    t.lexeme.braces = 0 := by
  unfold Level.node? at h
  split at h <;> simp_all [Lexeme.braces]

variable {inner inner' operand operand' : Parser Expr} {inClass inClass' : Bool}

/-- Where only one of the parsers is inside of a class, it makes no remark about `this`. -/
theorem primary (hi : T false 0 inner inner') (hc : inClass = inClass' ∨ free) :
    T false 0 (Parser.primary inner inClass) (Parser.primary inner' inClass') := by
  refine hT.takes (fun t e => braces_of_atom) (fun t e _ _ => hT.done e) ?_
  refine hT.accepts rfl (fun q hq => ?_) ?_
  · have hnot : (!inClass) = !inClass' ∨ free := hc.imp_left (congrArg _)
    exact hT.remarksIf hnot rfl hq (hT.done (Expr.this q))
  refine hT.accepts rfl (fun q _ => ?_) (hT.fails rfl)
  exact hT.seq hi fun e => hT.expects rfl rfl fun r => hT.done _

theorem suffixes (hi : T false 0 inner inner') (hb : bound ≤ bound') (e : Expr) :
    T false 0 (Parser.suffixes inner bound e) (Parser.suffixes inner' bound' e) := by
  induction bound generalizing bound' e with
  | zero => exact hT.exhausts _
  | succ bound ih =>
    obtain ⟨bound', rfl⟩ : ∃ j, bound' = j + 1 := ⟨bound' - 1, by omega⟩
    have hb' := Nat.le_of_succ_le_succ hb
    refine hT.accepts rfl (fun q _ => ?_) (hT.accepts rfl (fun q _ => ?_) (hT.done e))
    · exact hT.seq (hT.list rfl hi hb') fun args => hT.expects rfl rfl fun r => ih hb' _
    · exact hT.expectsName rfl fun x => ih hb' _

theorem unary (ho : T false 0 operand operand') (hb : bound ≤ bound') :
    T false 0 (Parser.unary operand bound) (Parser.unary operand' bound') := by
  induction bound generalizing bound' with
  | zero => exact hT.exhausts _
  | succ bound ih =>
    obtain ⟨bound', rfl⟩ : ∃ j, bound' = j + 1 := ⟨bound' - 1, by omega⟩
    refine hT.takes (fun t a => braces_of_prefixOp) (fun t a _ _ => ?_) ho
    exact hT.finish _ (ih (Nat.le_of_succ_le_succ hb))

theorem operands {level : Level} (ho : T false 0 operand operand') (hb : bound ≤ bound') (left : Expr) :
    T false 0 (Parser.operands level operand bound left) (Parser.operands level operand' bound' left) := by
  induction bound generalizing bound' left with
  | zero => exact hT.exhausts _
  | succ bound ih =>
    obtain ⟨bound', rfl⟩ : ∃ j, bound' = j + 1 := ⟨bound' - 1, by omega⟩
    refine hT.takes (fun t node => braces_of_node) (fun t node _ _ => ?_) (hT.done left)
    exact hT.seq ho fun right => ih (Nat.le_of_succ_le_succ hb) _

theorem binary (ho : T false 0 operand operand') (hb : bound ≤ bound') (levels : List Level) :
    T false 0 (Parser.binary operand bound levels) (Parser.binary operand' bound' levels) := by
  induction levels with
  | nil => exact ho
  | cons level levels ih => exact hT.seq ih fun left => hT.operands ih hb left

/-- What cannot be assigned to is remarked upon. -/
theorem assignment (hi : T false 0 inner inner') (hc : inClass = inClass' ∨ free) (hb : bound ≤ bound') :
    T false 0 (Parser.assignment inner inClass bound) (Parser.assignment inner' inClass' bound') := by
  have hcall : T false 0 (do Parser.suffixes inner bound (← Parser.primary inner inClass))
      (do Parser.suffixes inner' bound' (← Parser.primary inner' inClass')) :=
    hT.seq (hT.primary hi hc) fun e => hT.suffixes hi hb e
  have hoperation : T false 0 (Parser.operation inner inClass bound) (Parser.operation inner' inClass' bound') :=
    hT.binary (hT.unary hcall hb) hb Level.all
  refine hT.seq hoperation fun target => hT.accepts rfl (fun q hq => ?_) (hT.done target)
  refine hT.seq hi fun value => ?_
  -- both parsers have the same target, so both can assign to it or neither
  cases assignment? target value with
  | some e => exact hT.done e
  | none => exact hT.remarks rfl hq (hT.done target)

/-- Expressions are related at every bound that is not smaller. -/
theorem expression (hc : inClass = inClass' ∨ free) (hb : bound ≤ bound') :
    T false 0 (Parser.expression inClass bound) (Parser.expression inClass' bound') := by
  induction bound generalizing bound' with
  | zero => exact hT.exhausts _
  | succ bound ih =>
    obtain ⟨bound', rfl⟩ : ∃ j, bound' = j + 1 := ⟨bound' - 1, by omega⟩
    have hb' := Nat.le_of_succ_le_succ hb
    exact hT.assignment (ih hb') hc hb'

end expressions

end Compositional

def Context.Matches (free : Prop) (c c' : Context) : Prop := c = c' ∨ free

namespace Context

variable {free : Prop} {c c' : Context}

theorem Matches.enter (h : c.Matches free c') (f : Context → Context) : (f c).Matches free (f c') :=
  h.imp_left (congrArg f)

theorem Matches.field (h : c.Matches free c') (f : Context → Bool) : f c = f c' ∨ free :=
  h.imp_left (congrArg f)

end Context

/-- The parsers inside a statement are related. Those of declarations are used only behind an opening brace. -/
structure Inner.Related (K : Token → Prop) (free : Prop)
    (T : Bool → Int → {α : Type} → Parser α → Parser α → Prop) (p p' : Inner) : Prop where
  bound : p.bound ≤ p'.bound
  statement {c c' : Context} : c.Matches free c' → T true 0 (p.statement c) (p'.statement c')
  declaration {c c' : Context} (q : Pos) : K ⟨.punct .leftBrace, q⟩ → c.Matches free c' →
    T false 0 (p.declaration c) (p'.declaration c')

namespace Inner.Related

variable {K : Token → Prop} {free : Prop} {T : Bool → Int → {α : Type} → Parser α → Parser α → Prop}
variable {p p' : Inner} {c c' : Context} (hT : Compositional K free @T) (hp : p.Related K free @T p')
  (hc : c.Matches free c')
include hT hp hc

theorem expression : T false 0 (p.expression c) (p'.expression c') :=
  hT.expression (hc.field Context.inClass) hp.bound

theorem expressionUnless (ending : Lexeme) :
    T false 0 (p.expressionUnless c ending) (p'.expressionUnless c' ending) := by
  refine hT.looks fun b => ?_
  split
  · exact hT.done _
  · exact hT.maps _ (hp.expression hT hc)

/-- Declarations stand behind an opening brace. -/
theorem declarations {q : Pos} (hq : K ⟨.punct .leftBrace, q⟩) {k k' : Nat} (hk : k ≤ k') :
    T false 0 (p.declarations c k) (p'.declarations c' k') := by
  induction k generalizing k' with
  | zero => exact hT.exhausts _
  | succ k ih =>
    obtain ⟨k', rfl⟩ : ∃ j, k' = j + 1 := ⟨k' - 1, by omega⟩
    refine hT.looks fun b => hT.looksForEnd fun b' => ?_
    split
    · exact hT.done _
    · exact hT.seq (hp.declaration q hq hc) fun first => hT.finish _ (ih (Nat.le_of_succ_le_succ hk))

/-- A block closes the brace that was opened before it. -/
theorem block {q : Pos} (hq : K ⟨.punct .leftBrace, q⟩) : T true (-1) (p.block c) (p'.block c') :=
  hT.seq (hp.declarations hT hc hq hp.bound) fun _ => hT.lasts (.inr rfl) rfl rfl

/-- A function opens and closes the braces of its body. -/
theorem function {noName : SyntaxError.Cause} (hn : noName.isFatal = true) :
    T true 0 (p.function c noName) (p'.function c' noName) := by
  have hname : T false 0 (expectName .expectParameterName) (expectName .expectParameterName) := by
    have h : T false 0 (expectName .expectParameterName >>= pure) (expectName .expectParameterName >>= pure) :=
      hT.expectsName rfl hT.done
    rwa [bind_pure] at h
  refine hT.expectsName hn fun x => hT.expects rfl rfl fun q => ?_
  refine hT.seq (hT.list rfl hname hp.bound) fun params => hT.expects rfl rfl fun r => ?_
  refine hT.expects_brace rfl fun w hw => ?_
  exact hT.finish _ (hp.block hT (hc.enter Context.enterFunction) hw)

theorem methods {k k' : Nat} (hk : k ≤ k') : T false 0 (p.methods c k) (p'.methods c' k') := by
  induction k generalizing k' with
  | zero => exact hT.exhausts _
  | succ k ih =>
    obtain ⟨k', rfl⟩ : ∃ j, k' = j + 1 := ⟨k' - 1, by omega⟩
    refine hT.looks fun b => hT.looksForEnd fun b' => ?_
    split
    · exact hT.done _
    · exact hT.seq (hT.opens (hp.function hT hc rfl)) fun first => hT.finish _ (ih (Nat.le_of_succ_le_succ hk))

theorem classDecl : T true 0 (p.classDecl c) (p'.classDecl c') := by
  refine hT.expectsName rfl fun x => hT.expects_brace rfl fun q _ => ?_
  exact hT.seq (hp.methods hT (hc.enter Context.enterClass) hp.bound) fun ds => hT.lasts (.inr rfl) rfl rfl

theorem varDecl : T true 0 (p.varDecl c) (p'.varDecl c') := by
  refine hT.expectsName rfl fun x => hT.accepts rfl (fun q _ => ?_) ?_
  · exact hT.seq (hT.maps some (hp.expression hT hc)) fun e => hT.lasts (.inl rfl) rfl rfl
  · exact hT.seq (hT.done none) fun e => hT.lasts (.inl rfl) rfl rfl

theorem exprStmt : T true 0 (p.exprStmt c) (p'.exprStmt c') :=
  hT.seq (hp.expression hT hc) fun _ => hT.lasts (.inl rfl) rfl rfl

theorem printStmt : T true 0 (p.printStmt c) (p'.printStmt c') :=
  hT.seq (hp.expression hT hc) fun _ => hT.lasts (.inl rfl) rfl rfl

theorem forStmt : T true 0 (p.forStmt c) (p'.forStmt c') := by
  refine hT.expects rfl rfl fun q => ?_
  extract_lets clauses clauses'
  -- what follows the first clause is the same whatever that clause was
  have hclauses (start : Option Stmt) : T true 0 (clauses start) (clauses' start) := by
    refine hT.seq (hp.expressionUnless hT hc _) fun test => hT.expects rfl rfl fun r => ?_
    refine hT.seq (hp.expressionUnless hT hc _) fun step => hT.expects rfl rfl fun w => ?_
    exact hT.finish _ (hp.statement (hc.enter Context.enterLoop))
  clear_value clauses clauses'
  refine hT.accepts rfl (fun r _ => ?_) (hT.accepts rfl (fun r _ => ?_) ?_)
  · exact hT.seq (hT.done none) hclauses
  · exact hT.seq (hT.maps some (hT.opens (hp.varDecl hT hc))) hclauses
  · exact hT.seq (hT.maps some (hT.opens (hp.exprStmt hT hc))) hclauses

theorem ifStmt : T true 0 (p.ifStmt c) (p'.ifStmt c') := by
  refine hT.expects rfl rfl fun q => hT.seq (hp.expression hT hc) fun test => hT.expects rfl rfl fun r => ?_
  refine hT.orElse (hp.statement hc) (fun yes w => ?_) fun yes => ⟨_, rfl, rfl⟩
  exact hT.finish _ (hT.maps some (hp.statement hc))

/-- A return outside of functions is remarked upon. -/
theorem returnStmt {q : Pos} (hq : K ⟨.keyword .kwReturn, q⟩) : T true 0 (p.returnStmt c q) (p'.returnStmt c' q) := by
  unfold Inner.returnStmt
  extract_lets rest rest'
  have hrest : T true 0 (rest ⟨⟩) (rest' ⟨⟩) :=
    hT.seq (hp.expressionUnless hT hc _) fun e => hT.lasts (.inl rfl) rfl rfl
  exact hT.remarksIf ((hc.field Context.inFunction).imp_left (congrArg _)) rfl hq hrest

omit hp in
theorem breakStmt {q : Pos} (hq : K ⟨.keyword .kwBreak, q⟩) : T true 0 (breakStmt c q) (breakStmt c' q) := by
  unfold Inner.breakStmt
  extract_lets rest
  have hrest : T true 0 (rest ⟨⟩) (rest ⟨⟩) := hT.lasts (.inl rfl) rfl rfl
  exact hT.remarksIf ((hc.field Context.inLoop).imp_left (congrArg _)) rfl hq hrest

theorem whileStmt : T true 0 (p.whileStmt c) (p'.whileStmt c') := by
  refine hT.expects rfl rfl fun q => hT.seq (hp.expression hT hc) fun test => hT.expects rfl rfl fun r => ?_
  exact hT.finish _ (hp.statement (hc.enter Context.enterLoop))

theorem anyStatement : T true 0 (p.anyStatement c) (p'.anyStatement c') := by
  unfold Inner.anyStatement
  refine hT.accepts rfl (fun q _ => hp.forStmt hT hc) ?_
  refine hT.accepts rfl (fun q _ => hp.ifStmt hT hc) ?_
  refine hT.accepts rfl (fun q _ => hp.printStmt hT hc) ?_
  refine hT.accepts rfl (fun q hq => hp.returnStmt hT hc hq) ?_
  refine hT.accepts rfl (fun q hq => breakStmt hT hc hq) ?_
  refine hT.accepts rfl (fun q _ => hp.whileStmt hT hc) ?_
  exact hT.accepts_brace (fun q hq => hT.maps _ (hp.block hT hc hq)) (hp.exprStmt hT hc)

theorem strictDeclaration : T true 0 (p.strictDeclaration c) (p'.strictDeclaration c') := by
  unfold Inner.strictDeclaration
  refine hT.accepts rfl (fun q _ => hp.classDecl hT hc) ?_
  refine hT.accepts rfl (fun q _ => hT.maps _ (hp.function hT hc rfl)) ?_
  exact hT.accepts rfl (fun q _ => hp.varDecl hT hc) (hp.anyStatement hT hc)

end Inner.Related
end Parser
end Lox
