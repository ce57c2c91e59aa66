import Lox.Proofs.Parser.Acceptance
import Lox.Proofs.Static.Plain
import Lox.Proofs.Static.Scope

/-! The statements inside a statement. Wherever a statement stands in a valid program, it is a declaration, which binds
the one name that it declares, or it is plain and binds none. -/
namespace Lox

open Grammar
open Lox.Parser (Context)

namespace Stmt

/-- The statement `t` is the given one or stands somewhere inside it, perhaps in the body of a function or a method. -/
inductive Inside (t : Stmt) : Stmt → Prop
  | self : Inside t t
  | block {s : Stmt} {ss : List Stmt} (hs : s ∈ ss) (h : Inside t s) : Inside t (.block ss)
  | yes {e : Expr} {yes : Stmt} {no : Option Stmt} (h : Inside t yes) : Inside t (.ifThen e yes no)
  | no {e : Expr} {yes no : Stmt} (h : Inside t no) : Inside t (.ifThen e yes (some no))
  | loop {e : Expr} {body : Stmt} (h : Inside t body) : Inside t (.whileLoop e body)
  | function {s : Stmt} {d : FunctionDecl} (hs : s ∈ d.body) (h : Inside t s) : Inside t (.function d)
  | method {s : Stmt} {x : Name} {d : FunctionDecl} {ds : List FunctionDecl} (hd : d ∈ ds) (hs : s ∈ d.body)
    (h : Inside t s) : Inside t (.classDecl x ds)

/-- A declaration, or a statement that binds no name in the frame that it is run in. -/
def Direct (s : Stmt) : Prop := s.declared ≠ [] ∨ s.Plain

def Tidy (s : Stmt) : Prop := ∀ t, Inside t s → t.Direct

variable {s : Stmt} {ss : List Stmt}

theorem direct_of_tidy (h : s.Tidy) : s.Direct := h s .self

/-- A statement that has no statements inside it. -/
theorem tidy_of_leaf (hs : s.Direct) (hleaf : ∀ t, Inside t s → t = s) : s.Tidy := by
  intro t ht
  rw [hleaf t ht]
  exact hs

theorem expr_tidy (e : Expr) : (Stmt.expr e).Tidy := by
  refine tidy_of_leaf (.inr trivial) fun t ht => ?_
  cases ht
  rfl

theorem block_tidy (h : ∀ s ∈ ss, s.Tidy) : (Stmt.block ss).Tidy := by
  intro t ht
  cases ht with
  | self => exact .inr trivial
  | block hs ht => exact h _ hs t ht

/-- A conditional is tidy if its branches are no declarations, and tidy. -/
theorem ifThen_tidy {e : Expr} {yes : Stmt} {no : Option Stmt} (hp : yes.Plain) (hq : PlainOption no)
    (hyes : yes.Tidy) (hno : ∀ s, no = some s → s.Tidy) : (Stmt.ifThen e yes no).Tidy := by
  intro t ht
  cases ht with
  | self => exact .inr ⟨hp, hq⟩
  | yes ht => exact hyes t ht
  | no ht => exact hno _ rfl t ht

theorem whileLoop_tidy {e : Expr} {body : Stmt} (hp : body.Plain) (hb : body.Tidy) : (Stmt.whileLoop e body).Tidy := by
  intro t ht
  cases ht with
  | self => exact .inr hp
  | loop ht => exact hb t ht

/-- The statements that a loop with clauses is made of are plain, but for the variable at its start. -/
theorem forLoop_tidy {start : Option Stmt} {test step : Option Expr} {body : Stmt} (hs : ∀ s, start = some s → s.Tidy)
    (hp : body.Plain) (hb : body.Tidy) : (forLoop start test step body).Tidy := by
  have hturn (e : Expr) : (Stmt.block [body, .expr e]).Tidy := by
    exact block_tidy (List.forall_mem_cons.mpr ⟨hb, List.forall_mem_singleton.mpr (expr_tidy e)⟩)
  have hloop : (forLoop none test step body).Tidy := by
    cases step with
    | none => exact whileLoop_tidy hp hb
    | some e => exact whileLoop_tidy trivial (hturn e)
  cases start with
  | none => exact hloop
  | some first =>
    -- the start stands beside the loop, in a block of its own
    exact block_tidy (List.forall_mem_cons.mpr ⟨hs first rfl, List.forall_mem_singleton.mpr hloop⟩)

end Stmt

def Grammar.Construct.Tidy : Construct → Prop
  | .exprStmt s | .varDecl s | .simple s | .stmt s | .decl s => s.Tidy
  | .start s => ∀ t, s = some t → t.Tidy
  | .decls ss => ∀ s ∈ ss, s.Tidy
  | .function d => ∀ s ∈ d.body, s.Tidy
  | .methods ds => ∀ d ∈ ds, ∀ s ∈ d.body, s.Tidy

/-- Whatever the rules form is tidy, by induction on the derivation. -/
theorem tidy_of_forms {c : Context} {construct : Construct} {ts : List Token} (h : Forms c construct ts) :
    construct.Tidy := by
  induction h with
  | exprStmt => exact Stmt.expr_tidy _
  | varBare | varValue =>
    refine Stmt.tidy_of_leaf (.inl nofun) fun t ht => ?_
    cases ht
    rfl
  | print | returnValue | breakLoop =>
    refine Stmt.tidy_of_leaf (.inr trivial) fun t ht => ?_
    cases ht
    rfl
  | expr _ ih | simple _ ih | stmt _ ih | varDecl _ ih => exact ih
  | block p q _ ih => exact Stmt.block_tidy ih
  | noStart => exact fun t ht => nomatch ht
  | startVar _ ih | startExpr _ ih =>
    intro t ht
    cases ht
    exact ih
  -- branches and bodies are statements of the grammar, and these are plain
  | ifThen p q r _ hy ih =>
    exact Stmt.ifThen_tidy (plain_of_forms hy) trivial ih fun s hs => nomatch hs
  | ifElse p q r w _ hy hn ihy ihn =>
    refine Stmt.ifThen_tidy (plain_of_forms hy) (plain_of_forms hn) ihy fun s hs => ?_
    cases hs
    exact ihn
  | whileLoop p q r _ hb ih => exact Stmt.whileLoop_tidy (plain_of_forms hb) ih
  | forLoop p q r w _ _ _ hb ihs ihb => exact Stmt.forLoop_tidy ihs (plain_of_forms hb) ihb
  | function p _ ih =>
    intro t ht
    cases ht with
    | self => exact .inl nofun
    | function hs ht => exact ih _ hs t ht
  | classDecl x p q r _ ih =>
    intro t ht
    cases ht with
    | self => exact .inl nofun
    | method hd hs ht => exact ih _ hd _ hs t ht
  | noDecls => exact fun s hs => nomatch hs
  | moreDecls _ _ ih ihs => exact List.forall_mem_cons.mpr ⟨ih, ihs⟩
  | routine x p q r w _ _ ih => exact ih
  | noMethods => exact fun d hd => nomatch hd
  | moreMethods _ _ ih ihs => exact List.forall_mem_cons.mpr ⟨ih, ihs⟩

/-- Wherever a statement stands in a valid program, it is direct. -/
theorem tidy_of_isValid {source : Text} (h : (Program.ofSource source).isValid = true) {s : Stmt}
    (hs : s ∈ (Program.ofSource source).stmts) : s.Tidy :=
  tidy_of_forms (Program.forms_ofSource h) s hs

end Lox
