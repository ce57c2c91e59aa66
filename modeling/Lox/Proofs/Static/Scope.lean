import Lox.Program

/-! Names and where they are declared. A program is well scoped if each name that it reads or assigns to has been
declared before, in the same block or in one around it. -/
namespace Lox

namespace Expr

mutual

/-- All names that an expression reads or assigns to have the property `P`, and `Q` holds if it uses `this`. -/
def Names (P : Text → Prop) (Q : Prop) : Expr → Prop
  | .literal _ => True
  | .group e => e.Names P Q
  | .unary _ _ e => e.Names P Q
  | .binary _ _ l r => l.Names P Q ∧ r.Names P Q
  | .logical _ l r => l.Names P Q ∧ r.Names P Q
  | .variable x => P x.text
  | .assign x v => P x.text ∧ v.Names P Q
  | .call f es _ => f.Names P Q ∧ NamesAll P Q es
  | .get o _ => o.Names P Q
  | .set o _ v => o.Names P Q ∧ v.Names P Q
  | .this _ => Q

def NamesAll (P : Text → Prop) (Q : Prop) : List Expr → Prop
  | [] => True
  | e :: es => e.Names P Q ∧ NamesAll P Q es

end

def NamesOption (P : Text → Prop) (Q : Prop) : Option Expr → Prop
  | none => True
  | some e => e.Names P Q

section decidable

variable (P : Text → Prop) (Q : Prop) [DecidablePred P] [Decidable Q]

mutual

def decideNames : (e : Expr) → Decidable (e.Names P Q)
  | .literal _ => isTrue trivial
  | .group e => decideNames e
  | .unary _ _ e => decideNames e
  | .binary _ _ l r => @instDecidableAnd _ _ (decideNames l) (decideNames r)
  | .logical _ l r => @instDecidableAnd _ _ (decideNames l) (decideNames r)
  | .variable x => inferInstanceAs (Decidable (P x.text))
  | .assign x v => @instDecidableAnd (P x.text) _ _ (decideNames v)
  | .call f es _ => @instDecidableAnd _ _ (decideNames f) (decideNamesAll es)
  | .get o _ => decideNames o
  | .set o _ v => @instDecidableAnd _ _ (decideNames o) (decideNames v)
  | .this _ => inferInstanceAs (Decidable Q)

def decideNamesAll : (es : List Expr) → Decidable (NamesAll P Q es)
  | [] => isTrue trivial
  | e :: es => @instDecidableAnd _ _ (decideNames e) (decideNamesAll es)

end

instance (e : Expr) : Decidable (e.Names P Q) := decideNames P Q e

instance : (e : Option Expr) → Decidable (NamesOption P Q e)
  | none => isTrue trivial
  | some e => decideNames P Q e

end decidable

end Expr

namespace Stmt

/-- The names that a statement adds to the block it stands in. -/
def declared : Stmt → List Text
  | .var x _ => [x.text]
  | .function d => [d.name.text]
  | .classDecl x _ => [x.text]
  | _ => []

mutual

/-- All names that a statement uses are declared where it uses them, given the names `Γ` that are declared before
it. The name of a function or a class is declared in its own bodies, that of a variable not in its value. -/
def Scoped (Γ : List Text) : Stmt → Prop
  | .expr e => e.Names (· ∈ Γ) True
  | .print e => e.Names (· ∈ Γ) True
  | .var _ v => Expr.NamesOption (· ∈ Γ) True v
  | .block ss => ScopedAll Γ ss
  | .ifThen test yes no => test.Names (· ∈ Γ) True ∧ yes.Scoped Γ ∧ ScopedOption Γ no
  | .whileLoop test body => test.Names (· ∈ Γ) True ∧ body.Scoped Γ
  | .function d => ScopedBody (d.name.text :: Γ) d
  | .returnValue _ v => Expr.NamesOption (· ∈ Γ) True v
  | .breakLoop _ => True
  | .classDecl x ds => ScopedBodies (x.text :: Γ) ds

def ScopedAll (Γ : List Text) : List Stmt → Prop
  | [] => True
  | s :: ss => s.Scoped Γ ∧ ScopedAll (s.declared ++ Γ) ss

def ScopedOption (Γ : List Text) : Option Stmt → Prop
  | none => True
  | some s => s.Scoped Γ

def ScopedBody (Γ : List Text) : FunctionDecl → Prop
  | ⟨_, params, body⟩ => ScopedAll (params.map Name.text ++ Γ) body

def ScopedBodies (Γ : List Text) : List FunctionDecl → Prop
  | [] => True
  | d :: ds => ScopedBody Γ d ∧ ScopedBodies Γ ds

end

mutual

def decideScoped (Γ : List Text) : (s : Stmt) → Decidable (s.Scoped Γ)
  | .expr e => inferInstanceAs (Decidable (e.Names (· ∈ Γ) True))
  | .print e => inferInstanceAs (Decidable (e.Names (· ∈ Γ) True))
  | .var _ v => inferInstanceAs (Decidable (Expr.NamesOption (· ∈ Γ) True v))
  | .block ss => decideScopedAll Γ ss
  | .ifThen test yes no =>
    @instDecidableAnd (test.Names (· ∈ Γ) True) _ _
      (@instDecidableAnd _ _ (decideScoped Γ yes) (decideScopedOption Γ no))
  | .whileLoop test body => @instDecidableAnd (test.Names (· ∈ Γ) True) _ _ (decideScoped Γ body)
  | .function d => decideScopedBody (d.name.text :: Γ) d
  | .returnValue _ v => inferInstanceAs (Decidable (Expr.NamesOption (· ∈ Γ) True v))
  | .breakLoop _ => isTrue trivial
  | .classDecl x ds => decideScopedBodies (x.text :: Γ) ds

def decideScopedAll (Γ : List Text) : (ss : List Stmt) → Decidable (ScopedAll Γ ss)
  | [] => isTrue trivial
  | s :: ss => @instDecidableAnd _ _ (decideScoped Γ s) (decideScopedAll (s.declared ++ Γ) ss)

def decideScopedOption (Γ : List Text) : (s : Option Stmt) → Decidable (ScopedOption Γ s)
  | none => isTrue trivial
  | some s => decideScoped Γ s

def decideScopedBody (Γ : List Text) : (d : FunctionDecl) → Decidable (ScopedBody Γ d)
  | ⟨_, params, body⟩ => decideScopedAll (params.map Name.text ++ Γ) body

def decideScopedBodies (Γ : List Text) : (ds : List FunctionDecl) → Decidable (ScopedBodies Γ ds)
  | [] => isTrue trivial
  | d :: ds => @instDecidableAnd _ _ (decideScopedBody Γ d) (decideScopedBodies Γ ds)

end

theorem scopedBody_iff {Γ : List Text} {d : FunctionDecl} :
    ScopedBody Γ d ↔ ScopedAll (d.params.map Name.text ++ Γ) d.body := by
  cases d
  exact Iff.rfl

theorem scopedBody_of_mem {Γ : List Text} {d : FunctionDecl} {ds : List FunctionDecl} (h : ScopedBodies Γ ds)
    (hd : d ∈ ds) : ScopedBody Γ d := by
  induction ds with
  | nil => cases hd
  | cons d' ds ih =>
    rcases List.mem_cons.mp hd with rfl | hd
    · exact h.1
    · exact ih h.2 hd

end Stmt

/-- Each name is declared before it is used, where nothing is declared at the start. -/
structure Program.WellScoped (p : Program) : Prop where
  stmts : Stmt.ScopedAll [] p.stmts

instance (p : Program) : Decidable p.WellScoped :=
  @decidable_of_iff _ (Stmt.ScopedAll [] p.stmts) ⟨.mk, (·.stmts)⟩ (Stmt.decideScopedAll [] p.stmts)

end Lox
