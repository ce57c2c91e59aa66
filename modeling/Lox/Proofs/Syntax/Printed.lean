import Lox.Proofs.Syntax.Form
import Lox.Proofs.Syntax.Ungrouped
import Lox.Proofs.Token.Respacing
import Mathlib.Data.List.Forall2

/-! Printed trees as sources. A form is written with blanks and parentheses, and what is written is cut into the words
of the form again; if operators come first, the parentheses tell the form. -/
namespace Lox

open Text

def Text.lexemes (source : Text) : List Lexeme := (Piece.split source).filterMap Piece.lexeme?

/-- Wherever the text is not gone on with, it is read as the lexemes. -/
def Text.Reads (text : Text) (lexemes : List Lexeme) : Prop :=
  ∀ after, (∀ c ∈ after.head?, Stops c) → (text ++ after).lexemes = lexemes ++ after.lexemes

section reads

variable {p : Piece} {l : Lexeme} {after text : Text} {lexemes : List Lexeme}

theorem lexemes_of_cut (h : p.Cut after) : (p.bytes ++ after).lexemes = p.lexeme?.toList ++ after.lexemes := by
  have hsplit : p :: Piece.split after = Piece.split (p.bytes ++ after) :=
    partition_iff.mp (.cons h (partition_split after))
  rw [Text.lexemes, ← hsplit]
  cases hl : p.lexeme? with
  | none => exact List.filterMap_cons_none hl
  | some l => exact List.filterMap_cons_some hl

theorem lexemes_blank (after : Text) : Text.lexemes (" " ++ after) = after.lexemes :=
  lexemes_of_cut (.blank (by decide) after)

/-- A parenthesis is cut off whatever follows it. -/
theorem lexemes_single {p : Punct} {b : UInt8} (hp : ofString p.spelling = [b]) (hb : b ∉ ofString "!=<>/")
    (after : Text) : Text.lexemes (p.spelling ++ after) = .punct p :: after.lexemes := by
  have hfirst : (Piece.ofPunct p).CutFrom (b :: after) := Piece.ofPunct_cutFrom hp hb
  obtain ⟨left, htext, hcut⟩ := hfirst
  have hleft : left = after := by
    change ofString p.spelling ++ left = [b] ++ after at htext
    rw [hp] at htext
    exact List.append_cancel_left htext
  rw [hleft] at hcut
  exact lexemes_of_cut hcut

theorem reads_spelling (hl : l.Lawful) : l.spelling.Reads [l] := by
  intro after hafter
  exact lexemes_of_cut (Piece.cut_of_stop hl hafter)

/-- Texts with blanks between them are read one after the other. -/
theorem reads_join {texts : List Text} {parts : List (List Lexeme)} (h : List.Forall₂ Reads texts parts) :
    Reads (join " " texts) parts.flatten := by
  intro after hafter
  induction h with
  | nil => rfl
  | @cons text ls texts parts hfirst hrest ih =>
    cases hrest with
    | nil =>
      rw [join, List.flatten_cons, List.flatten_nil, List.append_nil]
      exact hfirst after hafter
    | cons hnext hmore =>
      -- the blank between two items ends the first one
      have hblank (rest : Text) : ∀ c ∈ (ofString " " ++ rest).head?, Stops c := by
        intro c hc
        cases hc
        decide
      rw [join, List.flatten_cons, List.append_assoc, List.append_assoc, hfirst _ (hblank _), lexemes_blank, ih,
        List.append_assoc]
      nofun

end reads

def Lexeme.Legible (l : Lexeme) : Prop := l.Lawful ∧ l ≠ .punct .leftParen ∧ l ≠ .punct .rightParen

def Order.arrange (order : Order) (l : Lexeme) (operands : List Lexeme) : List Lexeme :=
  match order with
  | operatorFirst => .punct .leftParen :: l :: (operands ++ [.punct .rightParen])
  | operatorLast => operands ++ [l]

/-- An operator with its operands is read in the order in which it is written. -/
theorem reads_apply {order : Order} {l : Lexeme} {texts : List Text} {parts : List (List Lexeme)} (hl : l.Lawful)
    (h : List.Forall₂ Reads texts parts) :
    Reads (order.apply l.spelling texts) (order.arrange l parts.flatten) := by
  cases order with
  | operatorFirst =>
    intro after hafter
    have hopen (rest : Text) : Text.lexemes ("(" ++ rest) = .punct .leftParen :: rest.lexemes :=
      lexemes_single (p := .leftParen) rfl (by decide) rest
    have hclose (rest : Text) : Text.lexemes (")" ++ rest) = .punct .rightParen :: rest.lexemes :=
      lexemes_single (p := .rightParen) rfl (by decide) rest
    have hstops : ∀ c ∈ (ofString ")" ++ after).head?, Stops c := by
      intro c hc
      cases hc
      decide
    have hinside := reads_join (.cons (reads_spelling hl) h)
    rw [Order.apply, List.append_assoc, List.append_assoc, hopen, hinside _ hstops, hclose, Order.arrange]
    simp
  | operatorLast =>
    have hall : List.Forall₂ Reads (texts ++ [l.spelling]) (parts ++ [[l]]) :=
      List.rel_append h (.cons (reads_spelling hl) .nil)
    have hinside := reads_join hall
    rw [List.flatten_append, List.flatten_singleton] at hinside
    exact hinside

namespace Form

/-! ### The text of a form -/

mutual

def write (order : Order) : Form → Text
  | .word l => l.spelling
  | .node l fs => order.apply l.spelling (writeAll order fs)

def writeAll (order : Order) : List Form → List Text
  | [] => []
  | f :: fs => f.write order :: writeAll order fs

end

mutual

def lexemes (order : Order) : Form → List Lexeme
  | .word l => [l]
  | .node l fs => order.arrange l (lexemesEach order fs).flatten

def lexemesEach (order : Order) : List Form → List (List Lexeme)
  | [] => []
  | f :: fs => f.lexemes order :: lexemesEach order fs

end

mutual

def Legible : Form → Prop
  | .word l => l.Legible
  | .node l fs => l.Legible ∧ LegibleAll fs

def LegibleAll : List Form → Prop
  | [] => True
  | f :: fs => f.Legible ∧ LegibleAll fs

end

mutual

/-- The text of a form is read as its lexemes, by induction on the form. -/
theorem reads_write {order : Order} : (f : Form) → f.Legible → (f.write order).Reads (f.lexemes order)
  | .word _, h => reads_spelling h.1
  | .node _ fs, h => by
    rw [write, lexemes]
    exact reads_apply h.1.1 (reads_writeAll fs h.2)

theorem reads_writeAll {order : Order} : (fs : List Form) → LegibleAll fs →
    List.Forall₂ Reads (writeAll order fs) (lexemesEach order fs)
  | [], _ => .nil
  | f :: fs, h => .cons (reads_write f h.1) (reads_writeAll fs h.2)

end

variable {f g : Form}

theorem lexemes_write {order : Order} (hf : f.Legible) : (f.write order).lexemes = f.lexemes order := by
  have hread : (f.write order ++ []).lexemes = f.lexemes order ++ Text.lexemes [] := reads_write f hf [] (by simp)
  rw [List.append_nil] at hread
  exact hread.trans (List.append_nil _)

/-! ### The parentheses tell the form -/

/-- No form starts with a closing parenthesis, so it is seen where operands end. -/
theorem rightParen_ne_lexemes (hf : f.Legible) {rest rest' : List Lexeme} :
    .punct .rightParen :: rest ≠ f.lexemes .operatorFirst ++ rest' := by
  intro h
  cases f with
  | word l => exact hf.2.2 (List.cons.inj h).1.symm
  | node l fs => exact absurd (List.cons.inj h).1 (by decide)

mutual

/-- A form ends where its lexemes end, whatever follows them. -/
theorem eq_of_lexemes_append : (f g : Form) → f.Legible → g.Legible → {rest rest' : List Lexeme} →
    f.lexemes .operatorFirst ++ rest = g.lexemes .operatorFirst ++ rest' → f = g ∧ rest = rest'
  | .word l, .word l', _, _, rest, rest', h => by
    obtain ⟨rfl, rfl⟩ := List.cons.inj h
    exact ⟨rfl, rfl⟩
  -- a word is no parenthesis, so it does not start a node
  | .word l, .node _ _, hf, _, rest, rest', h => absurd (List.cons.inj h).1 hf.2.1
  | .node _ _, .word l, _, hg, rest, rest', h => absurd (List.cons.inj h).1.symm hg.2.1
  | .node l fs, .node l' gs, hf, hg, rest, rest', h => by
    simp only [lexemes, Order.arrange, List.cons_append, List.append_assoc, List.cons.injEq, true_and] at h
    obtain ⟨rfl, hrest⟩ := h
    obtain ⟨rfl, rfl⟩ := eq_of_lexemesEach_append fs gs hf.2 hg.2 hrest
    exact ⟨rfl, rfl⟩

/-- Operands up to the closing parenthesis are told by their lexemes. -/
theorem eq_of_lexemesEach_append : (fs gs : List Form) → LegibleAll fs → LegibleAll gs → {rest rest' : List Lexeme} →
    (lexemesEach .operatorFirst fs).flatten ++ .punct .rightParen :: rest =
      (lexemesEach .operatorFirst gs).flatten ++ .punct .rightParen :: rest' → fs = gs ∧ rest = rest'
  | [], [], _, _, rest, rest', h => ⟨rfl, (List.cons.inj h).2⟩
  -- where the operands end there is a closing parenthesis, and no form starts with one
  | [], g :: gs, _, hgs, rest, rest', h => by
    simp only [lexemesEach, List.flatten_nil, List.nil_append, List.flatten_cons, List.append_assoc] at h
    exact absurd h (rightParen_ne_lexemes hgs.1)
  | f :: fs, [], hfs, _, rest, rest', h => by
    simp only [lexemesEach, List.flatten_nil, List.nil_append, List.flatten_cons, List.append_assoc] at h
    exact absurd h.symm (rightParen_ne_lexemes hfs.1)
  | f :: fs, g :: gs, hfs, hgs, rest, rest', h => by
    simp only [lexemesEach, List.flatten_cons, List.append_assoc] at h
    obtain ⟨rfl, hrest⟩ := eq_of_lexemes_append f g hfs.1 hgs.1 h
    obtain ⟨rfl, rfl⟩ := eq_of_lexemesEach_append fs gs hfs.2 hgs.2 hrest
    exact ⟨rfl, rfl⟩

end

/-- With operators first no two forms have the same text. -/
theorem eq_of_write (hf : f.Legible) (hg : g.Legible) (h : f.write .operatorFirst = g.write .operatorFirst) : f = g := by
  have hlexemes : f.lexemes .operatorFirst = g.lexemes .operatorFirst := by
    rw [← lexemes_write hf, ← lexemes_write hg, h]
  exact (eq_of_lexemes_append f g hf hg (congrArg (· ++ []) hlexemes)).1

end Form

/-! ### The text of a tree is that of its form -/

open Form (write writeAll)

theorem Literal.render_eq (a : Literal) : a.render = a.word.spelling := by
  cases a with
  | nil | number | string => rfl
  | bool b =>
    cases b with
    | true => rfl
    | false => rfl

mutual

/-- With operators first an expression is printed as its form. -/
theorem render_first_expr : (e : Expr) → e.render .operatorFirst = e.form.write .operatorFirst
  | .literal a => a.render_eq
  | .group e => by rw [Expr.render, render_first_expr e]; rfl
  | .unary _ _ e => by rw [Expr.render, render_first_expr e]; rfl
  | .binary _ _ l r => by rw [Expr.render, render_first_expr l, render_first_expr r]; rfl
  | .logical _ l r => by rw [Expr.render, render_first_expr l, render_first_expr r]; rfl
  | .variable _ => rfl
  | .assign _ v => by rw [Expr.render, render_first_expr v]; rfl
  | .call f es _ => by rw [Expr.render, render_first_expr f, render_first_exprs es]; rfl
  | .get o _ => by rw [Expr.render, render_first_expr o]; rfl
  | .set o _ v => by rw [Expr.render, render_first_expr o, render_first_expr v]; rfl
  | .this _ => rfl

theorem render_first_exprs : (es : List Expr) →
    Expr.renderAll .operatorFirst es = writeAll .operatorFirst (Expr.formAll es)
  | [] => rfl
  | e :: es => by rw [Expr.renderAll, render_first_expr e, render_first_exprs es]; rfl

end

theorem render_first_exprOption (e : Option Expr) :
    Expr.renderOption .operatorFirst e = writeAll .operatorFirst (Expr.formOption e) := by
  cases e with
  | none => rfl
  | some e =>
    rw [Expr.renderOption, render_first_expr]
    rfl

theorem writeAll_names (order : Order) (xs : List Name) :
    xs.map Name.text = writeAll order (xs.map fun x => Form.word x.word) := by
  induction xs with
  | nil => rfl
  | cons x xs ih =>
    rw [List.map_cons, ih]
    rfl

mutual

/-- With operators first a statement is printed as its form. -/
theorem render_first_stmt : (s : Stmt) → s.render .operatorFirst = s.form.write .operatorFirst
  | .expr e => render_first_expr e
  | .print e => by rw [Stmt.render, render_first_expr]; rfl
  | .var _ e => by rw [Stmt.render, render_first_exprOption]; rfl
  | .block ss => by rw [Stmt.render, render_first_stmts ss]; rfl
  | .ifThen e yes no => by
    rw [Stmt.render, render_first_expr, render_first_stmt yes, render_first_stmtOption no]
    rfl
  | .whileLoop e body => by rw [Stmt.render, render_first_expr, render_first_stmt body]; rfl
  | .function d => render_first_routine d
  | .returnValue _ e => by rw [Stmt.render, render_first_exprOption]; rfl
  | .breakLoop _ => rfl
  | .classDecl _ ds => by rw [Stmt.render, render_first_routines ds]; rfl

theorem render_first_stmts : (ss : List Stmt) →
    Stmt.renderAll .operatorFirst ss = writeAll .operatorFirst (Stmt.formAll ss)
  | [] => rfl
  | s :: ss => by rw [Stmt.renderAll, render_first_stmt s, render_first_stmts ss]; rfl

theorem render_first_stmtOption : (s : Option Stmt) →
    Stmt.renderOption .operatorFirst s = writeAll .operatorFirst (Stmt.formOption s)
  | none => rfl
  | some s => by rw [Stmt.renderOption, render_first_stmt s]; rfl

theorem render_first_routine : (d : FunctionDecl) →
    Stmt.renderFunction .operatorFirst d = (Form.node (.keyword .kwFun) (Stmt.formRoutine d)).write .operatorFirst
  | ⟨_, ps, body⟩ => by rw [Stmt.renderFunction, render_first_stmts body, writeAll_names .operatorFirst ps]; rfl

theorem render_first_routines : (ds : List FunctionDecl) →
    Stmt.renderFunctions .operatorFirst ds = writeAll .operatorFirst (Stmt.formRoutines ds)
  | [] => rfl
  | d :: ds => by rw [Stmt.renderFunctions, render_first_routine d, render_first_routines ds]; rfl

end

mutual

/-- With operators last parentheses are not written. -/
theorem render_last_expr : (e : Expr) → e.render .operatorLast = e.ungroup.form.write .operatorLast
  | .literal a => a.render_eq
  | .group e => render_last_expr e
  | .unary _ _ e => by rw [Expr.render, render_last_expr e]; rfl
  | .binary _ _ l r => by rw [Expr.render, render_last_expr l, render_last_expr r]; rfl
  | .logical _ l r => by rw [Expr.render, render_last_expr l, render_last_expr r]; rfl
  | .variable _ => rfl
  | .assign _ v => by rw [Expr.render, render_last_expr v]; rfl
  | .call f es _ => by rw [Expr.render, render_last_expr f, render_last_exprs es]; rfl
  | .get o _ => by rw [Expr.render, render_last_expr o]; rfl
  | .set o _ v => by rw [Expr.render, render_last_expr o, render_last_expr v]; rfl
  | .this _ => rfl

theorem render_last_exprs : (es : List Expr) →
    Expr.renderAll .operatorLast es = writeAll .operatorLast (Expr.formAll (Expr.ungroupAll es))
  | [] => rfl
  | e :: es => by rw [Expr.renderAll, render_last_expr e, render_last_exprs es]; rfl

end

end Lox
