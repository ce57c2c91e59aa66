import Lox.Proofs.Syntax.Relocation
import Mathlib.Data.List.Forall2

/-! Trees that say the same at other places. A relation `P` on places tells which place of the one tree may stand for
which place of the other; all else has to be equal. -/
namespace Lox

variable {P Q : Pos → Pos → Prop} {φ ψ : Pos → Pos}

def Name.Alike (P : Pos → Pos → Prop) (x x' : Name) : Prop := x'.text = x.text ∧ P x.pos x'.pos

namespace Expr

mutual

def Alike (P : Pos → Pos → Prop) : Expr → Expr → Prop
  | .literal a, e' => e' = .literal a
  | .group a, e' => ∃ a', e' = .group a' ∧ a.Alike P a'
  | .unary op p a, e' => ∃ p' a', e' = .unary op p' a' ∧ P p p' ∧ a.Alike P a'
  | .binary op p l r, e' => ∃ p' l' r', e' = .binary op p' l' r' ∧ P p p' ∧ l.Alike P l' ∧ r.Alike P r'
  | .logical op l r, e' => ∃ l' r', e' = .logical op l' r' ∧ l.Alike P l' ∧ r.Alike P r'
  | .variable x, e' => ∃ x', e' = .variable x' ∧ x.Alike P x'
  | .assign x a, e' => ∃ x' a', e' = .assign x' a' ∧ x.Alike P x' ∧ a.Alike P a'
  | .call f es p, e' => ∃ f' es' p', e' = .call f' es' p' ∧ P p p' ∧ f.Alike P f' ∧ AlikeAll P es es'
  | .get o x, e' => ∃ o' x', e' = .get o' x' ∧ x.Alike P x' ∧ o.Alike P o'
  | .set o x a, e' => ∃ o' x' a', e' = .set o' x' a' ∧ x.Alike P x' ∧ o.Alike P o' ∧ a.Alike P a'
  | .this p, e' => ∃ p', e' = .this p' ∧ P p p'

def AlikeAll (P : Pos → Pos → Prop) : List Expr → List Expr → Prop
  | [], es' => es' = []
  | e :: es, es' => ∃ e' rest, es' = e' :: rest ∧ e.Alike P e' ∧ AlikeAll P es rest

end

def AlikeOption (P : Pos → Pos → Prop) : Option Expr → Option Expr → Prop
  | none, e' => e' = none
  | some e, e' => ∃ a, e' = some a ∧ e.Alike P a

end Expr

namespace Stmt

mutual

def Alike (P : Pos → Pos → Prop) : Stmt → Stmt → Prop
  | .expr e, s' => ∃ e', s' = .expr e' ∧ e.Alike P e'
  | .print e, s' => ∃ e', s' = .print e' ∧ e.Alike P e'
  | .var x e, s' => ∃ x' e', s' = .var x' e' ∧ x.Alike P x' ∧ Expr.AlikeOption P e e'
  | .block ss, s' => ∃ ss', s' = .block ss' ∧ AlikeAll P ss ss'
  | .ifThen e yes no, s' =>
    ∃ e' yes' no', s' = .ifThen e' yes' no' ∧ e.Alike P e' ∧ yes.Alike P yes' ∧ AlikeOption P no no'
  | .whileLoop e body, s' => ∃ e' body', s' = .whileLoop e' body' ∧ e.Alike P e' ∧ body.Alike P body'
  | .function d, s' => ∃ d', s' = .function d' ∧ AlikeDecl P d d'
  | .returnValue p e, s' => ∃ p' e', s' = .returnValue p' e' ∧ P p p' ∧ Expr.AlikeOption P e e'
  | .breakLoop p, s' => ∃ p', s' = .breakLoop p' ∧ P p p'
  | .classDecl x ds, s' => ∃ x' ds', s' = .classDecl x' ds' ∧ x.Alike P x' ∧ AlikeDecls P ds ds'
termination_by structural s => s

def AlikeAll (P : Pos → Pos → Prop) : List Stmt → List Stmt → Prop
  | [], ss' => ss' = []
  | s :: ss, ss' => ∃ s' rest, ss' = s' :: rest ∧ s.Alike P s' ∧ AlikeAll P ss rest
termination_by structural ss => ss

def AlikeOption (P : Pos → Pos → Prop) : Option Stmt → Option Stmt → Prop
  | none, s' => s' = none
  | some s, s' => ∃ a, s' = some a ∧ s.Alike P a
termination_by structural s => s

def AlikeDecl (P : Pos → Pos → Prop) : FunctionDecl → FunctionDecl → Prop
  | ⟨x, ps, body⟩, d' =>
    x.Alike P d'.name ∧ List.Forall₂ (Name.Alike P) ps d'.params ∧ AlikeAll P body d'.body
termination_by structural d => d

def AlikeDecls (P : Pos → Pos → Prop) : List FunctionDecl → List FunctionDecl → Prop
  | [], ds' => ds' = []
  | d :: ds, ds' => ∃ d' rest, ds' = d' :: rest ∧ AlikeDecl P d d' ∧ AlikeDecls P ds rest
termination_by structural ds => ds

end

theorem alikeDecl_iff {d d' : FunctionDecl} : AlikeDecl P d d' ↔
    d.name.Alike P d'.name ∧ List.Forall₂ (Name.Alike P) d.params d'.params ∧ AlikeAll P d.body d'.body := by
  cases d
  exact Iff.rfl

theorem alikeDecls_iff {ds ds' : List FunctionDecl} : AlikeDecls P ds ds' ↔ List.Forall₂ (AlikeDecl P) ds ds' := by
  induction ds generalizing ds' with
  | nil => exact List.forall₂_nil_left_iff.symm
  | cons d ds ih =>
    constructor
    · rintro ⟨d', rest, rfl, hd, hrest⟩
      exact .cons hd (ih.mp hrest)
    · intro h
      cases h with
      | cons hd hrest => exact ⟨_, _, rfl, hd, ih.mpr hrest⟩

end Stmt

/-! A tree that is put to two places, if the places are related. -/

theorem name_alike (hP : ∀ p, P (φ p) (ψ p)) (x : Name) : (x.relocate φ).Alike P (x.relocate ψ) := ⟨rfl, hP x.pos⟩

theorem names_alike (hP : ∀ p, P (φ p) (ψ p)) (xs : List Name) :
    List.Forall₂ (Name.Alike P) (xs.map (Name.relocate φ)) (xs.map (Name.relocate ψ)) := by
  rw [List.forall₂_map_left_iff, List.forall₂_map_right_iff]
  exact List.forall₂_same.mpr fun x _ => name_alike hP x

mutual

/-- An expression that has been moved to two places is alike at both. -/
theorem expr_alike (hP : ∀ p, P (φ p) (ψ p)) : (e : Expr) → (e.relocate φ).Alike P (e.relocate ψ)
  | .literal _ => rfl
  | .group a => ⟨_, rfl, expr_alike hP a⟩
  | .unary _ p a => ⟨_, _, rfl, hP p, expr_alike hP a⟩
  | .binary _ p l r => ⟨_, _, _, rfl, hP p, expr_alike hP l, expr_alike hP r⟩
  | .logical _ l r => ⟨_, _, rfl, expr_alike hP l, expr_alike hP r⟩
  | .variable x => ⟨_, rfl, name_alike hP x⟩
  | .assign x a => ⟨_, _, rfl, name_alike hP x, expr_alike hP a⟩
  | .call f es p => ⟨_, _, _, rfl, hP p, expr_alike hP f, exprs_alike hP es⟩
  | .get o x => ⟨_, _, rfl, name_alike hP x, expr_alike hP o⟩
  | .set o x a => ⟨_, _, _, rfl, name_alike hP x, expr_alike hP o, expr_alike hP a⟩
  | .this p => ⟨_, rfl, hP p⟩

theorem exprs_alike (hP : ∀ p, P (φ p) (ψ p)) :
    (es : List Expr) → Expr.AlikeAll P (Expr.relocateAll φ es) (Expr.relocateAll ψ es)
  | [] => rfl
  | e :: es => ⟨_, _, rfl, expr_alike hP e, exprs_alike hP es⟩

end

theorem exprOption_alike (hP : ∀ p, P (φ p) (ψ p)) (e : Option Expr) :
    Expr.AlikeOption P (e.map (Expr.relocate φ)) (e.map (Expr.relocate ψ)) := by
  cases e with
  | none => rfl
  | some e => exact ⟨_, rfl, expr_alike hP e⟩

mutual

/-- A statement that has been moved to two places is alike at both. -/
theorem stmt_alike (hP : ∀ p, P (φ p) (ψ p)) : (s : Stmt) → (s.relocate φ).Alike P (s.relocate ψ)
  | .expr e => ⟨_, rfl, expr_alike hP e⟩
  | .print e => ⟨_, rfl, expr_alike hP e⟩
  | .var x e => ⟨_, _, rfl, name_alike hP x, exprOption_alike hP e⟩
  | .block ss => ⟨_, rfl, stmts_alike hP ss⟩
  | .ifThen e yes no => ⟨_, _, _, rfl, expr_alike hP e, stmt_alike hP yes, stmtOption_alike hP no⟩
  | .whileLoop e body => ⟨_, _, rfl, expr_alike hP e, stmt_alike hP body⟩
  | .function d => ⟨_, rfl, decl_alike hP d⟩
  | .returnValue p e => ⟨_, _, rfl, hP p, exprOption_alike hP e⟩
  | .breakLoop p => ⟨_, rfl, hP p⟩
  | .classDecl x ds => ⟨_, _, rfl, name_alike hP x, decls_alike hP ds⟩

theorem stmts_alike (hP : ∀ p, P (φ p) (ψ p)) :
    (ss : List Stmt) → Stmt.AlikeAll P (Stmt.relocateAll φ ss) (Stmt.relocateAll ψ ss)
  | [] => rfl
  | s :: ss => ⟨_, _, rfl, stmt_alike hP s, stmts_alike hP ss⟩

theorem stmtOption_alike (hP : ∀ p, P (φ p) (ψ p)) :
    (s : Option Stmt) → Stmt.AlikeOption P (Stmt.relocateOption φ s) (Stmt.relocateOption ψ s)
  | none => rfl
  | some s => ⟨_, rfl, stmt_alike hP s⟩

theorem decl_alike (hP : ∀ p, P (φ p) (ψ p)) :
    (d : FunctionDecl) → Stmt.AlikeDecl P (Stmt.relocateDecl φ d) (Stmt.relocateDecl ψ d)
  | ⟨x, ps, body⟩ => ⟨name_alike hP x, names_alike hP ps, stmts_alike hP body⟩

theorem decls_alike (hP : ∀ p, P (φ p) (ψ p)) :
    (ds : List FunctionDecl) → Stmt.AlikeDecls P (Stmt.relocateDecls φ ds) (Stmt.relocateDecls ψ ds)
  | [] => rfl
  | d :: ds => ⟨_, _, rfl, decl_alike hP d, decls_alike hP ds⟩

end

/-! A tree that is put nowhere else. -/

theorem expr_alike_refl (hP : ∀ p, P p p) (e : Expr) : e.Alike P e := by
  have h := expr_alike (φ := id) (ψ := id) hP e
  rwa [relocate_expr_id] at h

theorem stmt_alike_refl (hP : ∀ p, P p p) (s : Stmt) : s.Alike P s := by
  have h := stmt_alike (φ := id) (ψ := id) hP s
  rwa [relocate_stmt_id] at h

theorem stmts_alike_refl (hP : ∀ p, P p p) (ss : List Stmt) : Stmt.AlikeAll P ss ss := by
  have h := stmts_alike (φ := id) (ψ := id) hP ss
  rwa [relocate_stmts_id] at h

theorem decl_alike_refl (hP : ∀ p, P p p) (d : FunctionDecl) : Stmt.AlikeDecl P d d := by
  have h := decl_alike (φ := id) (ψ := id) hP d
  rwa [relocate_decl_id] at h

theorem name_alike_mono (hP : ∀ p q, P p q → Q p q) {x x' : Name} (h : x.Alike P x') : x.Alike Q x' :=
  ⟨h.1, hP _ _ h.2⟩

mutual

theorem expr_alike_mono (hP : ∀ p q, P p q → Q p q) : (e : Expr) → ∀ {e' : Expr}, e.Alike P e' → e.Alike Q e'
  | .literal _, _, h => h
  | .group a, _, ⟨a', he, ha⟩ => ⟨a', he, expr_alike_mono hP a ha⟩
  | .unary _ _ a, _, ⟨p', a', he, hp, ha⟩ => ⟨p', a', he, hP _ _ hp, expr_alike_mono hP a ha⟩
  | .binary _ _ l r, _, ⟨p', l', r', he, hp, hl, hr⟩ =>
    ⟨p', l', r', he, hP _ _ hp, expr_alike_mono hP l hl, expr_alike_mono hP r hr⟩
  | .logical _ l r, _, ⟨l', r', he, hl, hr⟩ => ⟨l', r', he, expr_alike_mono hP l hl, expr_alike_mono hP r hr⟩
  | .variable _, _, ⟨x', he, hx⟩ => ⟨x', he, name_alike_mono hP hx⟩
  | .assign _ a, _, ⟨x', a', he, hx, ha⟩ => ⟨x', a', he, name_alike_mono hP hx, expr_alike_mono hP a ha⟩
  | .call f es _, _, ⟨f', es', p', he, hp, hf, hes⟩ =>
    ⟨f', es', p', he, hP _ _ hp, expr_alike_mono hP f hf, exprs_alike_mono hP es hes⟩
  | .get o _, _, ⟨o', x', he, hx, ho⟩ => ⟨o', x', he, name_alike_mono hP hx, expr_alike_mono hP o ho⟩
  | .set o _ a, _, ⟨o', x', a', he, hx, ho, ha⟩ =>
    ⟨o', x', a', he, name_alike_mono hP hx, expr_alike_mono hP o ho, expr_alike_mono hP a ha⟩
  | .this _, _, ⟨p', he, hp⟩ => ⟨p', he, hP _ _ hp⟩

theorem exprs_alike_mono (hP : ∀ p q, P p q → Q p q) :
    (es : List Expr) → ∀ {es' : List Expr}, Expr.AlikeAll P es es' → Expr.AlikeAll Q es es'
  | [], _, h => h
  | e :: es, _, ⟨e', rest, hr, he, hes⟩ => ⟨e', rest, hr, expr_alike_mono hP e he, exprs_alike_mono hP es hes⟩

end

theorem exprOption_alike_mono (hP : ∀ p q, P p q → Q p q) {e e' : Option Expr} (h : Expr.AlikeOption P e e') :
    Expr.AlikeOption Q e e' := by
  cases e with
  | none => exact h
  | some e =>
    obtain ⟨a, ha, he⟩ := h
    exact ⟨a, ha, expr_alike_mono hP e he⟩

mutual

theorem stmt_alike_mono (hP : ∀ p q, P p q → Q p q) : (s : Stmt) → ∀ {s' : Stmt}, s.Alike P s' → s.Alike Q s'
  | .expr e, _, ⟨e', hs, he⟩ => ⟨e', hs, expr_alike_mono hP e he⟩
  | .print e, _, ⟨e', hs, he⟩ => ⟨e', hs, expr_alike_mono hP e he⟩
  | .var _ _, _, ⟨x', e', hs, hx, he⟩ => ⟨x', e', hs, name_alike_mono hP hx, exprOption_alike_mono hP he⟩
  | .block ss, _, ⟨ss', hs, hss⟩ => ⟨ss', hs, stmts_alike_mono hP ss hss⟩
  | .ifThen e yes no, _, ⟨e', yes', no', hs, he, hy, hn⟩ =>
    ⟨e', yes', no', hs, expr_alike_mono hP e he, stmt_alike_mono hP yes hy, stmtOption_alike_mono hP no hn⟩
  | .whileLoop e body, _, ⟨e', body', hs, he, hb⟩ =>
    ⟨e', body', hs, expr_alike_mono hP e he, stmt_alike_mono hP body hb⟩
  | .function d, _, ⟨d', hs, hd⟩ => ⟨d', hs, decl_alike_mono hP d hd⟩
  | .returnValue _ _, _, ⟨p', e', hs, hp, he⟩ => ⟨p', e', hs, hP _ _ hp, exprOption_alike_mono hP he⟩
  | .breakLoop _, _, ⟨p', hs, hp⟩ => ⟨p', hs, hP _ _ hp⟩
  | .classDecl _ ds, _, ⟨x', ds', hs, hx, hds⟩ => ⟨x', ds', hs, name_alike_mono hP hx, decls_alike_mono hP ds hds⟩

theorem stmts_alike_mono (hP : ∀ p q, P p q → Q p q) :
    (ss : List Stmt) → ∀ {ss' : List Stmt}, Stmt.AlikeAll P ss ss' → Stmt.AlikeAll Q ss ss'
  | [], _, h => h
  | s :: ss, _, ⟨s', rest, hr, hs, hss⟩ => ⟨s', rest, hr, stmt_alike_mono hP s hs, stmts_alike_mono hP ss hss⟩

theorem stmtOption_alike_mono (hP : ∀ p q, P p q → Q p q) :
    (s : Option Stmt) → ∀ {s' : Option Stmt}, Stmt.AlikeOption P s s' → Stmt.AlikeOption Q s s'
  | none, _, h => h
  | some s, _, ⟨a, ha, hs⟩ => ⟨a, ha, stmt_alike_mono hP s hs⟩

theorem decl_alike_mono (hP : ∀ p q, P p q → Q p q) :
    (d : FunctionDecl) → ∀ {d' : FunctionDecl}, Stmt.AlikeDecl P d d' → Stmt.AlikeDecl Q d d'
  | ⟨_, _, body⟩, _, ⟨hx, hps, hb⟩ =>
    ⟨name_alike_mono hP hx, hps.imp fun _ _ => name_alike_mono hP, stmts_alike_mono hP body hb⟩

theorem decls_alike_mono (hP : ∀ p q, P p q → Q p q) :
    (ds : List FunctionDecl) → ∀ {ds' : List FunctionDecl}, Stmt.AlikeDecls P ds ds' → Stmt.AlikeDecls Q ds ds'
  | [], _, h => h
  | d :: ds, _, ⟨d', rest, hr, hd, hds⟩ => ⟨d', rest, hr, decl_alike_mono hP d hd, decls_alike_mono hP ds hds⟩

end

/-! Where a place is related to one place only, the second tree is known. -/

theorem relocate_of_name_alike (hP : ∀ p q, P p q → q = φ p) {x x' : Name} (h : x.Alike P x') : x' = x.relocate φ := by
  cases x'
  obtain ⟨ht, hp⟩ := h
  cases ht
  cases hP _ _ hp
  rfl

theorem relocate_of_names_alike (hP : ∀ p q, P p q → q = φ p) {xs xs' : List Name}
    (h : List.Forall₂ (Name.Alike P) xs xs') : xs' = xs.map (Name.relocate φ) := by
  induction h with
  | nil => rfl
  | cons hx _ ih => rw [relocate_of_name_alike hP hx, ih, List.map_cons]

mutual

/-- If each place stands for one other place, an expression is alike only to the expression moved there. -/
theorem relocate_of_expr_alike (hP : ∀ p q, P p q → q = φ p) :
    (e : Expr) → ∀ {e' : Expr}, e.Alike P e' → e' = e.relocate φ
  | .literal _, _, h => h
  | .group a, _, ⟨a', he, ha⟩ => by rw [he, relocate_of_expr_alike hP a ha]; rfl
  | .unary _ _ a, _, ⟨p', a', he, hp, ha⟩ => by rw [he, hP _ _ hp, relocate_of_expr_alike hP a ha]; rfl
  | .binary _ _ l r, _, ⟨p', l', r', he, hp, hl, hr⟩ => by
    rw [he, hP _ _ hp, relocate_of_expr_alike hP l hl, relocate_of_expr_alike hP r hr]
    rfl
  | .logical _ l r, _, ⟨l', r', he, hl, hr⟩ => by
    rw [he, relocate_of_expr_alike hP l hl, relocate_of_expr_alike hP r hr]
    rfl
  | .variable _, _, ⟨x', he, hx⟩ => by rw [he, relocate_of_name_alike hP hx]; rfl
  | .assign _ a, _, ⟨x', a', he, hx, ha⟩ => by
    rw [he, relocate_of_name_alike hP hx, relocate_of_expr_alike hP a ha]
    rfl
  | .call f es _, _, ⟨f', es', p', he, hp, hf, hes⟩ => by
    rw [he, hP _ _ hp, relocate_of_expr_alike hP f hf, relocate_of_exprs_alike hP es hes]
    rfl
  | .get o _, _, ⟨o', x', he, hx, ho⟩ => by
    rw [he, relocate_of_name_alike hP hx, relocate_of_expr_alike hP o ho]
    rfl
  | .set o _ a, _, ⟨o', x', a', he, hx, ho, ha⟩ => by
    rw [he, relocate_of_name_alike hP hx, relocate_of_expr_alike hP o ho, relocate_of_expr_alike hP a ha]
    rfl
  | .this _, _, ⟨p', he, hp⟩ => by rw [he, hP _ _ hp]; rfl

theorem relocate_of_exprs_alike (hP : ∀ p q, P p q → q = φ p) :
    (es : List Expr) → ∀ {es' : List Expr}, Expr.AlikeAll P es es' → es' = Expr.relocateAll φ es
  | [], _, h => h
  | e :: es, _, ⟨e', rest, hr, he, hes⟩ => by
    rw [hr, relocate_of_expr_alike hP e he, relocate_of_exprs_alike hP es hes]
    rfl

end

theorem relocate_of_exprOption_alike (hP : ∀ p q, P p q → q = φ p) {e e' : Option Expr}
    (h : Expr.AlikeOption P e e') : e' = e.map (Expr.relocate φ) := by
  cases e with
  | none => exact h
  | some e =>
    obtain ⟨a, ha, he⟩ := h
    rw [ha, relocate_of_expr_alike hP e he, Option.map_some]

mutual

/-- If each place stands for one other place, a statement is alike only to the statement moved there. -/
theorem relocate_of_stmt_alike (hP : ∀ p q, P p q → q = φ p) :
    (s : Stmt) → ∀ {s' : Stmt}, s.Alike P s' → s' = s.relocate φ
  | .expr e, _, ⟨e', hs, he⟩ => by rw [hs, relocate_of_expr_alike hP e he]; rfl
  | .print e, _, ⟨e', hs, he⟩ => by rw [hs, relocate_of_expr_alike hP e he]; rfl
  | .var _ _, _, ⟨x', e', hs, hx, he⟩ => by
    rw [hs, relocate_of_name_alike hP hx, relocate_of_exprOption_alike hP he]
    rfl
  | .block ss, _, ⟨ss', hs, hss⟩ => by rw [hs, relocate_of_stmts_alike hP ss hss]; rfl
  | .ifThen e yes no, _, ⟨e', yes', no', hs, he, hy, hn⟩ => by
    rw [hs, relocate_of_expr_alike hP e he, relocate_of_stmt_alike hP yes hy, relocate_of_stmtOption_alike hP no hn]
    rfl
  | .whileLoop e body, _, ⟨e', body', hs, he, hb⟩ => by
    rw [hs, relocate_of_expr_alike hP e he, relocate_of_stmt_alike hP body hb]
    rfl
  | .function d, _, ⟨d', hs, hd⟩ => by rw [hs, relocate_of_decl_alike hP d hd]; rfl
  | .returnValue _ _, _, ⟨p', e', hs, hp, he⟩ => by rw [hs, hP _ _ hp, relocate_of_exprOption_alike hP he]; rfl
  | .breakLoop _, _, ⟨p', hs, hp⟩ => by rw [hs, hP _ _ hp]; rfl
  | .classDecl _ ds, _, ⟨x', ds', hs, hx, hds⟩ => by
    rw [hs, relocate_of_name_alike hP hx, relocate_of_decls_alike hP ds hds]
    rfl

theorem relocate_of_stmts_alike (hP : ∀ p q, P p q → q = φ p) :
    (ss : List Stmt) → ∀ {ss' : List Stmt}, Stmt.AlikeAll P ss ss' → ss' = Stmt.relocateAll φ ss
  | [], _, h => h
  | s :: ss, _, ⟨s', rest, hr, hs, hss⟩ => by
    rw [hr, relocate_of_stmt_alike hP s hs, relocate_of_stmts_alike hP ss hss]
    rfl

theorem relocate_of_stmtOption_alike (hP : ∀ p q, P p q → q = φ p) :
    (s : Option Stmt) → ∀ {s' : Option Stmt}, Stmt.AlikeOption P s s' → s' = Stmt.relocateOption φ s
  | none, _, h => h
  | some s, _, ⟨a, ha, hs⟩ => by rw [ha, relocate_of_stmt_alike hP s hs]; rfl

theorem relocate_of_decl_alike (hP : ∀ p q, P p q → q = φ p) :
    (d : FunctionDecl) → ∀ {d' : FunctionDecl}, Stmt.AlikeDecl P d d' → d' = Stmt.relocateDecl φ d
  | ⟨_, _, body⟩, ⟨_, _, body'⟩, ⟨hx, hps, hb⟩ => by
    have hbody : body' = Stmt.relocateAll φ body := relocate_of_stmts_alike hP body hb
    rw [Stmt.relocateDecl, ← hbody, ← relocate_of_name_alike hP hx, ← relocate_of_names_alike hP hps]

theorem relocate_of_decls_alike (hP : ∀ p q, P p q → q = φ p) :
    (ds : List FunctionDecl) → ∀ {ds' : List FunctionDecl}, Stmt.AlikeDecls P ds ds' →
      ds' = Stmt.relocateDecls φ ds
  | [], _, h => h
  | d :: ds, _, ⟨d', rest, hr, hd, hds⟩ => by
    rw [hr, relocate_of_decl_alike hP d hd, relocate_of_decls_alike hP ds hds]
    rfl

end

/-- If each place stands for itself, statements are alike only to themselves. -/
theorem eq_of_stmts_alike (hP : ∀ p q, P p q → q = p) {ss ss' : List Stmt} (h : Stmt.AlikeAll P ss ss') :
    ss' = ss := by
  rw [relocate_of_stmts_alike (φ := id) hP ss h, relocate_stmts_id]

theorem eq_of_decl_alike (hP : ∀ p q, P p q → q = p) {d d' : FunctionDecl} (h : Stmt.AlikeDecl P d d') : d' = d := by
  rw [relocate_of_decl_alike (φ := id) hP d h, relocate_decl_id]

theorem eq_of_decls_alike (hP : ∀ p q, P p q → q = p) {ds ds' : List FunctionDecl} (h : Stmt.AlikeDecls P ds ds') :
    ds' = ds := by
  rw [relocate_of_decls_alike (φ := id) hP ds h, relocate_decls_id]

end Lox
