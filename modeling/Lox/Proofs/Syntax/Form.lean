import Lox.Parser.Expr
import Lox.Proofs.Syntax.Relocation
import Lox.Syntax.Render

/-! What a printed tree shows. The form of a tree has its words and operators but not their places, and the tree can be
told from it. -/
namespace Lox

inductive Form where
  | word (l : Lexeme)
  | node (name : Lexeme) (operands : List Form)

/-! ### Words for nodes that no token names -/

def groupWord : Lexeme := .identifier "group"

def callWord : Lexeme := .identifier "call"

def paramsWord : Lexeme := .identifier "params"

def blockWord : Lexeme := .identifier "block"

def Name.word (x : Name) : Lexeme := .identifier x.text

/-- A number is written with as few digits as tell it apart. -/
def Literal.word : Literal → Lexeme
  | .nil => .keyword .kwNil
  | .bool true => .keyword .kwTrue
  | .bool false => .keyword .kwFalse
  | .number x => .number x.toText x
  | .string s => .string s

/-! ### The form of a tree -/

namespace Expr

mutual

def form : Expr → Form
  | .literal a => .word a.word
  | .group e => .node groupWord [e.form]
  | .unary op _ e => .node (.punct op.punct) [e.form]
  | .binary op _ l r => .node (.punct op.punct) [l.form, r.form]
  | .logical op l r => .node (.keyword op.keyword) [l.form, r.form]
  | .variable x => .word x.word
  | .assign x v => .node (.punct .equal) [.word x.word, v.form]
  | .call f es _ => .node callWord (f.form :: formAll es)
  | .get o x => .node (.punct .dot) [o.form, .word x.word]
  | .set o x v => .node (.punct .equal) [.node (.punct .dot) [o.form, .word x.word], v.form]
  | .this _ => .word (.keyword .kwThis)

def formAll : List Expr → List Form
  | [] => []
  | e :: es => e.form :: formAll es

end

def formOption : Option Expr → List Form
  | none => []
  | some e => [e.form]

/-- The tree with all its tokens put at one place. -/
def unplaced (e : Expr) : Expr := e.relocate fun _ => default

end Expr

namespace Stmt

mutual

def form : Stmt → Form
  | .expr e => e.form
  | .print e => .node (.keyword .kwPrint) [e.form]
  | .var x e => .node (.keyword .kwVar) (.word x.word :: Expr.formOption e)
  | .block ss => .node blockWord (formAll ss)
  | .ifThen e yes no => .node (.keyword .kwIf) (e.form :: yes.form :: formOption no)
  | .whileLoop e body => .node (.keyword .kwWhile) [e.form, body.form]
  | .function d => .node (.keyword .kwFun) (formRoutine d)
  | .returnValue _ e => .node (.keyword .kwReturn) (Expr.formOption e)
  | .breakLoop _ => .node (.keyword .kwBreak) []
  | .classDecl x ds => .node (.keyword .kwClass) (.word x.word :: formRoutines ds)
termination_by structural s => s

def formAll : List Stmt → List Form
  | [] => []
  | s :: ss => s.form :: formAll ss
termination_by structural ss => ss

def formOption : Option Stmt → List Form
  | none => []
  | some s => [s.form]
termination_by structural s => s

def formRoutine : FunctionDecl → List Form
  | ⟨x, ps, body⟩ => .word x.word :: .node paramsWord (ps.map fun p => .word p.word) :: formAll body
termination_by structural d => d

def formRoutines : List FunctionDecl → List Form
  | [] => []
  | d :: ds => .node (.keyword .kwFun) (formRoutine d) :: formRoutines ds
termination_by structural ds => ds

end

def unplaced (s : Stmt) : Stmt := s.relocate fun _ => default

end Stmt

/-! ### Places do not show -/

section places

variable (φ : Pos → Pos)

mutual

/-- The form of an expression does not depend on its places. -/
theorem form_relocate_expr : (e : Expr) → (e.relocate φ).form = e.form
  | .literal _ | .variable _ | .this _ => rfl
  | .group e => by rw [Expr.relocate, Expr.form, Expr.form, form_relocate_expr e]
  | .unary _ _ e => by rw [Expr.relocate, Expr.form, Expr.form, form_relocate_expr e]
  | .binary _ _ l r => by rw [Expr.relocate, Expr.form, Expr.form, form_relocate_expr l, form_relocate_expr r]
  | .logical _ l r => by rw [Expr.relocate, Expr.form, Expr.form, form_relocate_expr l, form_relocate_expr r]
  | .assign _ v => by rw [Expr.relocate, Expr.form, Expr.form, form_relocate_expr v]; rfl
  | .call f es _ => by rw [Expr.relocate, Expr.form, Expr.form, form_relocate_expr f, form_relocate_exprs es]
  | .get o _ => by rw [Expr.relocate, Expr.form, Expr.form, form_relocate_expr o]; rfl
  | .set o _ v => by rw [Expr.relocate, Expr.form, Expr.form, form_relocate_expr o, form_relocate_expr v]; rfl

theorem form_relocate_exprs : (es : List Expr) → Expr.formAll (Expr.relocateAll φ es) = Expr.formAll es
  | [] => rfl
  | e :: es => by rw [Expr.relocateAll, Expr.formAll, Expr.formAll, form_relocate_expr e, form_relocate_exprs es]

end

theorem form_relocate_exprOption (e : Option Expr) :
    Expr.formOption (e.map (Expr.relocate φ)) = Expr.formOption e := by
  cases e with
  | none => rfl
  | some e => rw [Option.map_some, Expr.formOption, Expr.formOption, form_relocate_expr]

theorem form_relocate_names (xs : List Name) :
    ((xs.map (Name.relocate φ)).map fun x => Form.word x.word) = xs.map fun x => Form.word x.word := by
  rw [List.map_map]
  rfl

mutual

/-- The form of a statement does not depend on its places. -/
theorem form_relocate_stmt : (s : Stmt) → (s.relocate φ).form = s.form
  | .expr e => by rw [Stmt.relocate, Stmt.form, Stmt.form, form_relocate_expr]
  | .print e => by rw [Stmt.relocate, Stmt.form, Stmt.form, form_relocate_expr]
  | .var _ e => by rw [Stmt.relocate, Stmt.form, Stmt.form, form_relocate_exprOption]; rfl
  | .block ss => by rw [Stmt.relocate, Stmt.form, Stmt.form, form_relocate_stmts ss]
  | .ifThen e yes no => by
    rw [Stmt.relocate, Stmt.form, Stmt.form, form_relocate_expr, form_relocate_stmt yes, form_relocate_stmtOption no]
  | .whileLoop e body => by
    rw [Stmt.relocate, Stmt.form, Stmt.form, form_relocate_expr, form_relocate_stmt body]
  | .function d => by rw [Stmt.relocate, Stmt.form, Stmt.form, form_relocate_routine d]
  | .returnValue _ e => by rw [Stmt.relocate, Stmt.form, Stmt.form, form_relocate_exprOption]
  | .breakLoop _ => rfl
  | .classDecl _ ds => by rw [Stmt.relocate, Stmt.form, Stmt.form, form_relocate_routines ds]; rfl

theorem form_relocate_stmts : (ss : List Stmt) → Stmt.formAll (Stmt.relocateAll φ ss) = Stmt.formAll ss
  | [] => rfl
  | s :: ss => by rw [Stmt.relocateAll, Stmt.formAll, Stmt.formAll, form_relocate_stmt s, form_relocate_stmts ss]

theorem form_relocate_stmtOption : (s : Option Stmt) →
    Stmt.formOption (Stmt.relocateOption φ s) = Stmt.formOption s
  | none => rfl
  | some s => by rw [Stmt.relocateOption, Stmt.formOption, Stmt.formOption, form_relocate_stmt s]

theorem form_relocate_routine : (d : FunctionDecl) →
    Stmt.formRoutine (Stmt.relocateDecl φ d) = Stmt.formRoutine d
  | ⟨_, ps, body⟩ => by
    rw [Stmt.relocateDecl, Stmt.formRoutine, Stmt.formRoutine, form_relocate_names, form_relocate_stmts body]
    rfl

theorem form_relocate_routines : (ds : List FunctionDecl) →
    Stmt.formRoutines (Stmt.relocateDecls φ ds) = Stmt.formRoutines ds
  | [] => rfl
  | d :: ds => by
    rw [Stmt.relocateDecls, Stmt.formRoutines, Stmt.formRoutines, form_relocate_routine d, form_relocate_routines ds]

end

end places

/-! ### The tree of a form -/

namespace Expr

def ofWord? (l : Lexeme) : Option Expr :=
  if l = .keyword .kwThis then some (.this default) else Parser.atom? ⟨l, default⟩

def property? (object name : Expr) : Option Expr :=
  match name with
  | .variable x => some (.get object x)
  | _ => none

def ofNode? (name : Lexeme) (operands : List Expr) : Option Expr :=
  match operands with
  | [] => none
  | e :: es =>
    if name = callWord then some (.call e es default)
    else match es with
      | [] =>
        if name = groupWord then some (.group e)
        else (Parser.prefixOp? ⟨name, default⟩).map fun op => .unary op.1 op.2 e
      | [a] =>
        if name = .punct .equal then Parser.assignment? e a
        else if name = .punct .dot then property? e a
        else (Parser.Level.all.findSome? fun level => level.node? ⟨name, default⟩).map fun node => node e a
      | _ => none

end Expr

namespace Form

mutual

def expr? : Form → Option Expr
  | .word l => Expr.ofWord? l
  | .node l fs => (exprAll? fs).bind (Expr.ofNode? l)

def exprAll? : List Form → Option (List Expr)
  | [] => some []
  | f :: fs => f.expr?.bind fun e => (exprAll? fs).map (e :: ·)

end

def exprOption? : List Form → Option (Option Expr)
  | [] => some none
  | [f] => f.expr?.map some
  | _ => none

def name? : Form → Option Name
  | .word (.identifier x) => some ⟨x, default⟩
  | _ => none

mutual

def stmt? : Form → Option Stmt
  | .word l => (Expr.ofWord? l).map .expr
  | .node l fs => match l, fs with
    | .keyword .kwPrint, [f] => f.expr?.map .print
    | .keyword .kwVar, f :: fs => f.name?.bind fun x => (exprOption? fs).map (.var x)
    | .keyword .kwIf, f :: g :: fs =>
      f.expr?.bind fun e => g.stmt?.bind fun yes => (stmtOption? fs).map (.ifThen e yes)
    | .keyword .kwWhile, [f, g] => f.expr?.bind fun e => g.stmt?.map (.whileLoop e)
    | .keyword .kwFun, fs => (routine? fs).map .function
    | .keyword .kwReturn, fs => (exprOption? fs).map (.returnValue default)
    | .keyword .kwBreak, [] => some (.breakLoop default)
    | .keyword .kwClass, f :: fs => f.name?.bind fun x => (routineAll? fs).map (.classDecl x)
    -- a block has a name of its own, and all other operators are those of expressions
    | l, fs =>
      if l = blockWord then (stmtAll? fs).map .block else (Form.node l fs).expr?.map .expr

def stmtAll? : List Form → Option (List Stmt)
  | [] => some []
  | f :: fs => f.stmt?.bind fun s => (stmtAll? fs).map (s :: ·)

def stmtOption? : List Form → Option (Option Stmt)
  | [] => some none
  | [f] => f.stmt?.map some
  | _ => none

def routine? : List Form → Option FunctionDecl
  | f :: .node _ gs :: fs => f.name?.bind fun x => (gs.mapM name?).bind fun ps => (stmtAll? fs).map (⟨x, ps, ·⟩)
  | _ => none

def routineAll? : List Form → Option (List FunctionDecl)
  | [] => some []
  | .node _ fs :: gs => (routine? fs).bind fun d => (routineAll? gs).map (d :: ·)
  | _ => none

end

end Form

section readBack

variable {e a : Expr}

theorem ofWord?_word (a : Literal) : Expr.ofWord? a.word = some (.literal a) := by
  cases a with
  | nil | number | string => rfl
  | bool b =>
    cases b with
    | true => rfl
    | false => rfl

theorem ofNode?_unary (op : UnaryOp) : Expr.ofNode? (.punct op.punct) [e] = some (.unary op default e) := by
  cases op with
  | not | negate => rfl

/-- An operator with two operands is read back as a binary one, also a minus sign. -/
theorem ofNode?_binary (op : BinaryOp) : Expr.ofNode? (.punct op.punct) [e, a] = some (.binary op default e a) := by
  cases op <;> rfl

theorem ofNode?_logical (op : LogicalOp) : Expr.ofNode? (.keyword op.keyword) [e, a] = some (.logical op e a) := by
  cases op with
  | and | or => rfl

end readBack

namespace Form

mutual

/-- An expression is read back from its form but for its places, by induction on the expression. -/
theorem expr?_form : (e : Expr) → e.form.expr? = some e.unplaced
  | .literal a => ofWord?_word a
  | .group e => by
    rw [Expr.form, expr?, exprAll?, expr?_form e]
    rfl
  | .unary op _ e => by
    rw [Expr.form, expr?, exprAll?, expr?_form e]
    exact ofNode?_unary op
  | .binary op _ l r => by
    rw [Expr.form, expr?, exprAll?, expr?_form l, exprAll?, expr?_form r]
    exact ofNode?_binary op
  | .logical op l r => by
    rw [Expr.form, expr?, exprAll?, expr?_form l, exprAll?, expr?_form r]
    exact ofNode?_logical op
  | .variable x => rfl
  | .assign x v => by
    rw [Expr.form, expr?, exprAll?, exprAll?, expr?_form v]
    rfl
  | .call f es _ => by
    rw [Expr.form, expr?, exprAll?, expr?_form f, exprAll?_formAll es]
    rfl
  | .get o x => by
    rw [Expr.form, expr?, exprAll?, expr?_form o]
    rfl
  | .set o x v => by
    -- the target is read as a property first, and becomes what is assigned to with the value
    have htarget : (Form.node (.punct .dot) [o.form, .word x.word]).expr? = some (Expr.get o x).unplaced := by
      rw [expr?, exprAll?, expr?_form o]
      rfl
    rw [Expr.form, expr?, exprAll?, htarget, exprAll?, expr?_form v]
    rfl
  | .this _ => rfl

theorem exprAll?_formAll : (es : List Expr) →
    exprAll? (Expr.formAll es) = some (Expr.relocateAll (fun _ => default) es)
  | [] => rfl
  | e :: es => by
    rw [Expr.formAll, exprAll?, expr?_form e, exprAll?_formAll es]
    rfl

end

theorem exprOption?_formOption (e : Option Expr) :
    exprOption? (Expr.formOption e) = some (e.map Expr.unplaced) := by
  cases e with
  | none => rfl
  | some e =>
    rw [Expr.formOption, exprOption?, expr?_form]
    rfl

theorem mapM_name? (xs : List Name) :
    (xs.map fun x => Form.word x.word).mapM name? = some (xs.map (Name.relocate fun _ => default)) := by
  induction xs with
  | nil => rfl
  | cons x xs ih =>
    rw [List.map_cons, List.mapM_cons, ih]
    rfl

/-- No statement but an expression is printed as an expression. -/
theorem stmt?_of_expr (e : Expr) : e.form.stmt? = e.form.expr?.map .expr := by
  cases e with
  | logical op =>
    cases op with
    | and => rfl
    | or => rfl
  | _ => rfl

mutual

/-- A statement is read back from its form but for its places, by induction on the statement. -/
theorem stmt?_form : (s : Stmt) → s.form.stmt? = some s.unplaced
  | .expr e => by
    rw [Stmt.form, stmt?_of_expr, expr?_form]
    rfl
  | .print e => by
    rw [Stmt.form, stmt?, expr?_form]
    rfl
  | .var x e => by
    rw [Stmt.form, stmt?, exprOption?_formOption]
    rfl
  | .block ss => by
    change (stmtAll? (Stmt.formAll ss)).map Stmt.block = _
    rw [stmtAll?_formAll ss]
    rfl
  | .ifThen e yes no => by
    rw [Stmt.form, stmt?, expr?_form, stmt?_form yes, stmtOption?_formOption no]
    rfl
  | .whileLoop e body => by
    rw [Stmt.form, stmt?, expr?_form, stmt?_form body]
    rfl
  | .function d => by
    rw [Stmt.form, stmt?, routine?_formRoutine d]
    rfl
  | .returnValue _ e => by
    rw [Stmt.form, stmt?, exprOption?_formOption]
    rfl
  | .breakLoop _ => rfl
  | .classDecl x ds => by
    rw [Stmt.form, stmt?, routineAll?_formRoutines ds]
    rfl

theorem stmtAll?_formAll : (ss : List Stmt) →
    stmtAll? (Stmt.formAll ss) = some (Stmt.relocateAll (fun _ => default) ss)
  | [] => rfl
  | s :: ss => by
    rw [Stmt.formAll, stmtAll?, stmt?_form s, stmtAll?_formAll ss]
    rfl

theorem stmtOption?_formOption : (s : Option Stmt) →
    stmtOption? (Stmt.formOption s) = some (Stmt.relocateOption (fun _ => default) s)
  | none => rfl
  | some s => by
    rw [Stmt.formOption, stmtOption?, stmt?_form s]
    rfl

theorem routine?_formRoutine : (d : FunctionDecl) →
    routine? (Stmt.formRoutine d) = some (Stmt.relocateDecl (fun _ => default) d)
  | ⟨x, ps, body⟩ => by
    rw [Stmt.formRoutine, routine?, mapM_name?, stmtAll?_formAll body]
    rfl

theorem routineAll?_formRoutines : (ds : List FunctionDecl) →
    routineAll? (Stmt.formRoutines ds) = some (Stmt.relocateDecls (fun _ => default) ds)
  | [] => rfl
  | d :: ds => by
    rw [Stmt.formRoutines, routineAll?, routine?_formRoutine d, routineAll?_formRoutines ds]
    rfl

end

end Form

/-- The form of an expression is all of it but its places. -/
theorem Expr.unplaced_eq_iff {e e' : Expr} : e.unplaced = e'.unplaced ↔ e.form = e'.form := by
  constructor
  · intro h
    calc e.form = e.unplaced.form := (form_relocate_expr _ e).symm
      _ = e'.unplaced.form := by rw [h]
      _ = e'.form := form_relocate_expr _ e'
  · intro h
    have hread := Form.expr?_form e
    rw [h, Form.expr?_form e'] at hread
    exact (Option.some.inj hread).symm

/-- The form of a statement is all of it but its places. -/
theorem Stmt.unplaced_eq_iff {s s' : Stmt} : s.unplaced = s'.unplaced ↔ s.form = s'.form := by
  constructor
  · intro h
    calc s.form = s.unplaced.form := (form_relocate_stmt _ s).symm
      _ = s'.unplaced.form := by rw [h]
      _ = s'.form := form_relocate_stmt _ s'
  · intro h
    have hread := Form.stmt?_form s
    rw [h, Form.stmt?_form s'] at hread
    exact (Option.some.inj hread).symm

end Lox
