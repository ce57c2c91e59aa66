import Lox.Syntax.Stmt

/-! A tree whose tokens have been put elsewhere. A function on places tells where each of them goes. -/
namespace Lox

variable (φ : Pos → Pos)

def Name.relocate (x : Name) : Name := ⟨x.text, φ x.pos⟩

namespace Expr

mutual

def relocate : Expr → Expr
  | .literal a => .literal a
  | .group a => .group a.relocate
  | .unary op p a => .unary op (φ p) a.relocate
  | .binary op p l r => .binary op (φ p) l.relocate r.relocate
  | .logical op l r => .logical op l.relocate r.relocate
  | .variable x => .variable (x.relocate φ)
  | .assign x a => .assign (x.relocate φ) a.relocate
  | .call f es p => .call f.relocate (relocateAll es) (φ p)
  | .get o x => .get o.relocate (x.relocate φ)
  | .set o x a => .set o.relocate (x.relocate φ) a.relocate
  | .this p => .this (φ p)

def relocateAll : List Expr → List Expr
  | [] => []
  | e :: es => e.relocate :: relocateAll es

end

end Expr

namespace Stmt

mutual

def relocate : Stmt → Stmt
  | .expr e => .expr (e.relocate φ)
  | .print e => .print (e.relocate φ)
  | .var x e => .var (x.relocate φ) (e.map (Expr.relocate φ))
  | .block ss => .block (relocateAll ss)
  | .ifThen e yes no => .ifThen (e.relocate φ) yes.relocate (relocateOption no)
  | .whileLoop e body => .whileLoop (e.relocate φ) body.relocate
  | .function d => .function (relocateDecl d)
  | .returnValue p e => .returnValue (φ p) (e.map (Expr.relocate φ))
  | .breakLoop p => .breakLoop (φ p)
  | .classDecl x ds => .classDecl (x.relocate φ) (relocateDecls ds)
termination_by structural s => s

def relocateAll : List Stmt → List Stmt
  | [] => []
  | s :: ss => s.relocate :: relocateAll ss
termination_by structural ss => ss

def relocateOption : Option Stmt → Option Stmt
  | none => none
  | some s => some s.relocate
termination_by structural s => s

def relocateDecl : FunctionDecl → FunctionDecl
  | ⟨x, ps, body⟩ => ⟨x.relocate φ, ps.map (Name.relocate φ), relocateAll body⟩
termination_by structural d => d

def relocateDecls : List FunctionDecl → List FunctionDecl
  | [] => []
  | d :: ds => relocateDecl d :: relocateDecls ds
termination_by structural ds => ds

end

end Stmt

/-! What stays where it is is not changed. -/

theorem map_relocate_id (xs : List Name) : xs.map (Name.relocate id) = xs := List.map_id xs

mutual

/-- An expression that is not moved stays the same. -/
theorem relocate_expr_id : (e : Expr) → e.relocate id = e
  | .literal _ => rfl
  | .group a => by rw [Expr.relocate, relocate_expr_id a]
  | .unary _ _ a => by rw [Expr.relocate, relocate_expr_id a, id]
  | .binary _ _ l r => by rw [Expr.relocate, relocate_expr_id l, relocate_expr_id r, id]
  | .logical _ l r => by rw [Expr.relocate, relocate_expr_id l, relocate_expr_id r]
  | .variable _ => rfl
  | .assign x a => by rw [Expr.relocate, relocate_expr_id a]; rfl
  | .call f es _ => by rw [Expr.relocate, relocate_expr_id f, relocate_exprs_id es, id]
  | .get o _ => by rw [Expr.relocate, relocate_expr_id o]; rfl
  | .set o _ a => by rw [Expr.relocate, relocate_expr_id o, relocate_expr_id a]; rfl
  | .this _ => rfl

theorem relocate_exprs_id : (es : List Expr) → Expr.relocateAll id es = es
  | [] => rfl
  | e :: es => by rw [Expr.relocateAll, relocate_expr_id e, relocate_exprs_id es]

end

theorem map_relocate_expr_id (e : Option Expr) : e.map (Expr.relocate id) = e := by
  cases e with
  | none => rfl
  | some e => rw [Option.map_some, relocate_expr_id]

mutual

/-- A statement that is not moved stays the same. -/
theorem relocate_stmt_id : (s : Stmt) → s.relocate id = s
  | .expr e => by rw [Stmt.relocate, relocate_expr_id]
  | .print e => by rw [Stmt.relocate, relocate_expr_id]
  | .var _ e => by rw [Stmt.relocate, map_relocate_expr_id]; rfl
  | .block ss => by rw [Stmt.relocate, relocate_stmts_id ss]
  | .ifThen e yes no => by
    rw [Stmt.relocate, relocate_expr_id, relocate_stmt_id yes, relocate_stmtOption_id no]
  | .whileLoop e body => by rw [Stmt.relocate, relocate_expr_id, relocate_stmt_id body]
  | .function d => by rw [Stmt.relocate, relocate_decl_id d]
  | .returnValue _ e => by rw [Stmt.relocate, map_relocate_expr_id, id]
  | .breakLoop _ => rfl
  | .classDecl _ ds => by rw [Stmt.relocate, relocate_decls_id ds]; rfl

theorem relocate_stmts_id : (ss : List Stmt) → Stmt.relocateAll id ss = ss
  | [] => rfl
  | s :: ss => by rw [Stmt.relocateAll, relocate_stmt_id s, relocate_stmts_id ss]

theorem relocate_stmtOption_id : (s : Option Stmt) → Stmt.relocateOption id s = s
  | none => rfl
  | some s => by rw [Stmt.relocateOption, relocate_stmt_id s]

theorem relocate_decl_id : (d : FunctionDecl) → Stmt.relocateDecl id d = d
  | ⟨_, ps, body⟩ => by rw [Stmt.relocateDecl, relocate_stmts_id body, map_relocate_id]; rfl

theorem relocate_decls_id : (ds : List FunctionDecl) → Stmt.relocateDecls id ds = ds
  | [] => rfl
  | d :: ds => by rw [Stmt.relocateDecls, relocate_decl_id d, relocate_decls_id ds]

end

end Lox
