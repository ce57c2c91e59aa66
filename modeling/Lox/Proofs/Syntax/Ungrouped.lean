import Lox.Syntax.Stmt

/-! Trees without parentheses: each group is replaced by what it holds, wherever it stands. -/
namespace Lox

namespace Expr

mutual

def ungroup : Expr → Expr
  | .literal a => .literal a
  | .group e => e.ungroup
  | .unary op p e => .unary op p e.ungroup
  | .binary op p l r => .binary op p l.ungroup r.ungroup
  | .logical op l r => .logical op l.ungroup r.ungroup
  | .variable x => .variable x
  | .assign x v => .assign x v.ungroup
  | .call f es p => .call f.ungroup (ungroupAll es) p
  | .get o x => .get o.ungroup x
  | .set o x v => .set o.ungroup x v.ungroup
  | .this p => .this p

def ungroupAll : List Expr → List Expr
  | [] => []
  | e :: es => e.ungroup :: ungroupAll es

end

end Expr

namespace Stmt

mutual

def ungroup : Stmt → Stmt
  | .expr e => .expr e.ungroup
  | .print e => .print e.ungroup
  | .var x e => .var x (e.map Expr.ungroup)
  | .block ss => .block (ungroupAll ss)
  | .ifThen e yes no => .ifThen e.ungroup yes.ungroup (ungroupOption no)
  | .whileLoop e body => .whileLoop e.ungroup body.ungroup
  | .function d => .function (ungroupDecl d)
  | .returnValue p e => .returnValue p (e.map Expr.ungroup)
  | .breakLoop p => .breakLoop p
  | .classDecl x ds => .classDecl x (ungroupDecls ds)
termination_by structural s => s

def ungroupAll : List Stmt → List Stmt
  | [] => []
  | s :: ss => s.ungroup :: ungroupAll ss
termination_by structural ss => ss

def ungroupOption : Option Stmt → Option Stmt
  | none => none
  | some s => some s.ungroup
termination_by structural s => s

def ungroupDecl : FunctionDecl → FunctionDecl
  | ⟨x, ps, body⟩ => ⟨x, ps, ungroupAll body⟩
termination_by structural d => d

def ungroupDecls : List FunctionDecl → List FunctionDecl
  | [] => []
  | d :: ds => ungroupDecl d :: ungroupDecls ds
termination_by structural ds => ds

end

end Stmt

/-! A second time nothing is left to replace. -/

mutual

/-- An expression without parentheses has none to take out. -/
theorem ungroup_ungroup_expr : (e : Expr) → e.ungroup.ungroup = e.ungroup
  | .literal _ | .variable _ | .this _ => rfl
  | .group e => by rw [Expr.ungroup, ungroup_ungroup_expr e]
  | .unary _ _ e => by rw [Expr.ungroup, Expr.ungroup, ungroup_ungroup_expr e]
  | .binary _ _ l r => by rw [Expr.ungroup, Expr.ungroup, ungroup_ungroup_expr l, ungroup_ungroup_expr r]
  | .logical _ l r => by rw [Expr.ungroup, Expr.ungroup, ungroup_ungroup_expr l, ungroup_ungroup_expr r]
  | .assign _ v => by rw [Expr.ungroup, Expr.ungroup, ungroup_ungroup_expr v]
  | .call f es _ => by rw [Expr.ungroup, Expr.ungroup, ungroup_ungroup_expr f, ungroup_ungroup_exprs es]
  | .get o _ => by rw [Expr.ungroup, Expr.ungroup, ungroup_ungroup_expr o]
  | .set o _ v => by rw [Expr.ungroup, Expr.ungroup, ungroup_ungroup_expr o, ungroup_ungroup_expr v]

theorem ungroup_ungroup_exprs : (es : List Expr) → Expr.ungroupAll (Expr.ungroupAll es) = Expr.ungroupAll es
  | [] => rfl
  | e :: es => by rw [Expr.ungroupAll, Expr.ungroupAll, ungroup_ungroup_expr e, ungroup_ungroup_exprs es]

end

theorem map_ungroup_ungroup_expr (e : Option Expr) :
    (e.map Expr.ungroup).map Expr.ungroup = e.map Expr.ungroup := by
  cases e with
  | none => rfl
  | some e => rw [Option.map_some, Option.map_some, ungroup_ungroup_expr]

mutual

/-- A statement without parentheses has none to take out. -/
theorem ungroup_ungroup_stmt : (s : Stmt) → s.ungroup.ungroup = s.ungroup
  | .expr e => by rw [Stmt.ungroup, Stmt.ungroup, ungroup_ungroup_expr]
  | .print e => by rw [Stmt.ungroup, Stmt.ungroup, ungroup_ungroup_expr]
  | .var _ e => by rw [Stmt.ungroup, Stmt.ungroup, map_ungroup_ungroup_expr]
  | .block ss => by rw [Stmt.ungroup, Stmt.ungroup, ungroup_ungroup_stmts ss]
  | .ifThen e yes no => by
    rw [Stmt.ungroup, Stmt.ungroup, ungroup_ungroup_expr, ungroup_ungroup_stmt yes, ungroup_ungroup_stmtOption no]
  | .whileLoop e body => by rw [Stmt.ungroup, Stmt.ungroup, ungroup_ungroup_expr, ungroup_ungroup_stmt body]
  | .function d => by rw [Stmt.ungroup, Stmt.ungroup, ungroup_ungroup_decl d]
  | .returnValue _ e => by rw [Stmt.ungroup, Stmt.ungroup, map_ungroup_ungroup_expr]
  | .breakLoop _ => rfl
  | .classDecl _ ds => by rw [Stmt.ungroup, Stmt.ungroup, ungroup_ungroup_decls ds]

theorem ungroup_ungroup_stmts : (ss : List Stmt) → Stmt.ungroupAll (Stmt.ungroupAll ss) = Stmt.ungroupAll ss
  | [] => rfl
  | s :: ss => by rw [Stmt.ungroupAll, Stmt.ungroupAll, ungroup_ungroup_stmt s, ungroup_ungroup_stmts ss]

theorem ungroup_ungroup_stmtOption : (s : Option Stmt) →
    Stmt.ungroupOption (Stmt.ungroupOption s) = Stmt.ungroupOption s
  | none => rfl
  | some s => by rw [Stmt.ungroupOption, Stmt.ungroupOption, ungroup_ungroup_stmt s]

theorem ungroup_ungroup_decl : (d : FunctionDecl) → Stmt.ungroupDecl (Stmt.ungroupDecl d) = Stmt.ungroupDecl d
  | ⟨_, _, body⟩ => by rw [Stmt.ungroupDecl, Stmt.ungroupDecl, ungroup_ungroup_stmts body]

theorem ungroup_ungroup_decls : (ds : List FunctionDecl) →
    Stmt.ungroupDecls (Stmt.ungroupDecls ds) = Stmt.ungroupDecls ds
  | [] => rfl
  | d :: ds => by rw [Stmt.ungroupDecls, Stmt.ungroupDecls, ungroup_ungroup_decl d, ungroup_ungroup_decls ds]

end

end Lox
