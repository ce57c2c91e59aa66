import Lox.Proofs.Number.Written
import Lox.Proofs.Static.Inside
import Lox.Proofs.Syntax.Printed

/-! Printed programs are unambiguous. The words of a tree that comes from a valid source can stand in a source again, so
that with operators first its text tells the tree. -/
namespace Lox

open Grammar Form
open Lox.Parser (Context)

/-! ### Words -/

def TokensLawful (ts : List Token) : Prop := ∀ t ∈ ts, t.lexeme.Lawful

theorem tokensLawful_append {ts us : List Token} : TokensLawful (ts ++ us) ↔ TokensLawful ts ∧ TokensLawful us :=
  List.forall_mem_append

theorem tokensLawful_cons {t : Token} {ts : List Token} :
    TokensLawful (t :: ts) ↔ t.lexeme.Lawful ∧ TokensLawful ts :=
  List.forall_mem_cons

/-- All tokens of a source are lawful. -/
theorem tokensLawful_ofSource (source : Text) : TokensLawful (Scan.ofSource source).tokens := by
  intro t ht
  have hmem : t.lexeme ∈ (Scan.ofSource source).tokens.map Token.lexeme := List.mem_map_of_mem ht
  rw [Scan.ofSource, Scan.lexemes_ofPieces] at hmem
  exact lawful_of_partition (partition_split source) _ hmem

theorem legible_keyword (k : Keyword) : (Lexeme.keyword k).Legible := ⟨trivial, nofun, nofun⟩

theorem legible_name {x : Name} (h : x.word.Lawful) : x.word.Legible := ⟨h, nofun, nofun⟩

theorem legible_unary (op : UnaryOp) : (Lexeme.punct op.punct).Legible := by
  refine ⟨trivial, ?_, ?_⟩ <;> cases op <;> decide

theorem legible_binary (op : BinaryOp) : (Lexeme.punct op.punct).Legible := by
  refine ⟨trivial, ?_, ?_⟩ <;> cases op <;> decide

theorem legible_equal : (Lexeme.punct .equal).Legible := ⟨trivial, by decide, by decide⟩

theorem legible_dot : (Lexeme.punct .dot).Legible := ⟨trivial, by decide, by decide⟩

/-- The words for nodes that no token names are names and not keywords. -/
theorem legible_nodeWord {l : Lexeme} (h : l ∈ [groupWord, callWord, paramsWord, blockWord]) : l.Legible := by
  have hread : ∀ l ∈ [groupWord, callWord, paramsWord, blockWord], l ∈ Text.lexemes "group call params block" ∧
      l ≠ .punct .leftParen ∧ l ≠ .punct .rightParen := by
    decide +kernel
  obtain ⟨hmem, hparens⟩ := hread l h
  exact ⟨lawful_of_partition (partition_split _) l hmem, hparens⟩

theorem legible_group : groupWord.Legible := legible_nodeWord (by decide)

theorem legible_call : callWord.Legible := legible_nodeWord (by decide)

theorem legible_params : paramsWord.Legible := legible_nodeWord (by decide)

theorem legible_block : blockWord.Legible := legible_nodeWord (by decide)

/-! ### The grammar -/

def Grammar.Phrase.Legible : Phrase → Prop
  | .expr _ e => e.form.Legible
  | .args es | .items es => LegibleAll (Expr.formAll es)

/-- Forms of phrases are legible if their tokens are lawful, by induction on the derivation. -/
theorem phrase_legible {inClass : Bool} {phrase : Phrase} {ts : List Token} (h : Derives inClass phrase ts)
    (ht : TokensLawful ts) : phrase.Legible := by
  induction h with
  | literalNil | literalTrue | literalFalse | this => exact legible_keyword _
  | literalNumber digits x p =>
    -- the tree does not keep the digits, but the text of the number has the same value
    have hnumber := (tokensLawful_cons.mp ht).1
    exact ⟨Lexeme.lawful_toText hnumber, nofun, nofun⟩
  | literalString s p => exact ⟨(tokensLawful_cons.mp ht).1, nofun, nofun⟩
  | name x => exact legible_name (tokensLawful_cons.mp ht).1
  | group p q _ ih =>
    simp only [tokensLawful_append, tokensLawful_cons] at ht
    exact ⟨legible_group, ih ht.1.2, trivial⟩
  | call p paren _ _ _ ihf ihes =>
    simp only [tokensLawful_append, tokensLawful_cons] at ht
    exact ⟨legible_call, ihf ht.1.1, ihes ht.1.2.2⟩
  | get p x _ ih =>
    simp only [tokensLawful_append, tokensLawful_cons] at ht
    exact ⟨legible_dot, ih ht.1, legible_name ht.2.2.1, trivial⟩
  | unary op p _ ih => exact ⟨legible_unary op, ih (tokensLawful_cons.mp ht).2, trivial⟩
  | binary op p _ _ ihl ihr =>
    simp only [tokensLawful_append, tokensLawful_cons] at ht
    exact ⟨legible_binary op, ihl ht.1, ihr ht.2.2, trivial⟩
  | logical op p _ _ ihl ihr =>
    simp only [tokensLawful_append, tokensLawful_cons] at ht
    exact ⟨legible_keyword _, ihl ht.1, ihr ht.2.2, trivial⟩
  | assign x p _ ih =>
    simp only [tokensLawful_cons] at ht
    exact ⟨legible_equal, legible_name ht.1, ih ht.2.2, trivial⟩
  | set x p q _ _ iho ihv =>
    simp only [tokensLawful_append, tokensLawful_cons] at ht
    exact ⟨legible_equal, ⟨legible_dot, iho ht.1, legible_name ht.2.2.1, trivial⟩, ihv ht.2.2.2.2, trivial⟩
  | tighter _ ih => exact ih ht
  | noArgs => trivial
  | args _ ih => exact ih ht
  | item _ ih => exact ⟨ih ht, trivial⟩
  | moreItems p _ _ ihe ihes =>
    simp only [tokensLawful_append, tokensLawful_cons] at ht
    exact ⟨ihe ht.1, ihes ht.2.2⟩

theorem optional_legible {c : Context} {e : Option Expr} {ts : List Token} (h : Optional c e ts)
    (ht : TokensLawful ts) : LegibleAll (Expr.formOption e) := by
  cases e with
  | none => trivial
  | some e => exact ⟨phrase_legible h ht, trivial⟩

theorem listed_legible {xs : List Name} {ts : List Token} (h : Listed Named xs ts) (ht : TokensLawful ts) :
    LegibleAll (xs.map fun x => .word x.word) := by
  have hone {x : Name} {ts : List Token} (hx : Named x ts) (ht : TokensLawful ts) : x.word.Legible := by
    rw [hx] at ht
    exact legible_name (tokensLawful_cons.mp ht).1
  rcases h.items with ⟨rfl, -⟩ | hs
  · trivial
  · clear h
    induction hs with
    | one hx => exact ⟨hone hx ht, trivial⟩
    | more p hx _ ih =>
      simp only [tokensLawful_append, tokensLawful_cons] at ht
      exact ⟨hone hx ht.1, ih ht.2.2⟩

theorem forLoop_legible {start : Option Stmt} {test step : Option Expr} {body : Stmt}
    (hs : LegibleAll (Stmt.formOption start)) (ht : LegibleAll (Expr.formOption test))
    (he : LegibleAll (Expr.formOption step)) (hb : body.form.Legible) :
    (Stmt.forLoop start test step body).form.Legible := by
  have htest : (test.getD (.literal (.bool true))).form.Legible := by
    cases test with
    | none => exact legible_keyword _
    | some e => exact ht.1
  have hloop : (Stmt.forLoop none test step body).form.Legible := by
    cases step with
    | none => exact ⟨legible_keyword _, htest, hb, trivial⟩
    | some e => exact ⟨legible_keyword _, htest, ⟨legible_block, hb, he⟩, trivial⟩
  cases start with
  | none => exact hloop
  | some s => exact ⟨legible_block, hs.1, hloop, trivial⟩

def Grammar.Construct.Legible : Construct → Prop
  | .exprStmt s | .varDecl s | .simple s | .stmt s | .decl s => s.form.Legible
  | .start s => LegibleAll (Stmt.formOption s)
  | .decls ss => LegibleAll (Stmt.formAll ss)
  | .function d => LegibleAll (Stmt.formRoutine d)
  | .methods ds => LegibleAll (Stmt.formRoutines ds)

/-- Forms of constructs are legible if their tokens are lawful, by induction on the derivation. -/
theorem legible_of_forms {c : Context} {construct : Construct} {ts : List Token} (h : Forms c construct ts)
    (ht : TokensLawful ts) : construct.Legible := by
  -- a word of a construct is a keyword, a word for its kind of node, or the word of one of its tokens
  induction h with
  | exprStmt p he => exact phrase_legible he (tokensLawful_append.mp ht).1
  | varBare x p q =>
    simp only [tokensLawful_cons] at ht
    exact ⟨legible_keyword _, legible_name ht.2.1, trivial⟩
  | varValue x p q r he =>
    simp only [tokensLawful_append, tokensLawful_cons] at ht
    exact ⟨legible_keyword _, legible_name ht.1.2.1, phrase_legible he ht.1.2.2.2, trivial⟩
  | print p q he =>
    simp only [tokensLawful_append, tokensLawful_cons] at ht
    exact ⟨legible_keyword _, phrase_legible he ht.1.2, trivial⟩
  | returnValue p q hc he =>
    simp only [tokensLawful_append, tokensLawful_cons] at ht
    exact ⟨legible_keyword _, optional_legible he ht.1.2⟩
  | breakLoop p q hc => exact ⟨legible_keyword _, trivial⟩
  | expr _ ih | simple _ ih | stmt _ ih | varDecl _ ih => exact ih ht
  | startVar _ ih | startExpr _ ih => exact ⟨ih ht, trivial⟩
  | block p q _ ih =>
    simp only [tokensLawful_append, tokensLawful_cons] at ht
    exact ⟨legible_block, ih ht.1.2⟩
  | noStart | noDecls | noMethods => trivial
  | ifThen p q r he _ ih =>
    simp only [tokensLawful_append, tokensLawful_cons] at ht
    exact ⟨legible_keyword _, phrase_legible he ht.1.2.2, ih ht.2.2, trivial⟩
  | ifElse p q r w he _ _ ihy ihn =>
    simp only [tokensLawful_append, tokensLawful_cons] at ht
    exact ⟨legible_keyword _, phrase_legible he ht.1.1.2.2, ihy ht.1.2.2, ihn ht.2.2, trivial⟩
  | whileLoop p q r he _ ih =>
    simp only [tokensLawful_append, tokensLawful_cons] at ht
    exact ⟨legible_keyword _, phrase_legible he ht.1.2.2, ih ht.2.2, trivial⟩
  | forLoop p q r w _ htest hstep _ ihs ihb =>
    simp only [tokensLawful_append, tokensLawful_cons] at ht
    obtain ⟨⟨⟨⟨-, -, hstart⟩, huse⟩, -, hvs⟩, -, hbody⟩ := ht
    exact forLoop_legible (ihs hstart) (optional_legible htest huse) (optional_legible hstep hvs) (ihb hbody)
  | function p _ ih => exact ⟨legible_keyword _, ih (tokensLawful_cons.mp ht).2⟩
  | classDecl x p q r _ ih =>
    simp only [tokensLawful_append, tokensLawful_cons] at ht
    exact ⟨legible_keyword _, legible_name ht.1.2.1, ih ht.1.2.2.2⟩
  | moreDecls _ _ ih ihs =>
    obtain ⟨hts, hus⟩ := tokensLawful_append.mp ht
    exact ⟨ih hts, ihs hus⟩
  | routine x p q r w hp _ ih =>
    simp only [tokensLawful_append, tokensLawful_cons] at ht
    exact ⟨legible_name ht.1.1.1, ⟨legible_params, listed_legible hp ht.1.1.2.2⟩, ih ht.1.2.2.2⟩
  | moreMethods _ _ ih ihs =>
    obtain ⟨hts, hus⟩ := tokensLawful_append.mp ht
    exact ⟨⟨legible_keyword _, ih hts⟩, ihs hus⟩

/-! ### Parsed trees -/

theorem formAll_exprs (es : List Expr) : Expr.formAll es = es.map Expr.form := by
  induction es with
  | nil => rfl
  | cons e es ih => rw [Expr.formAll, ih, List.map_cons]

theorem formAll_stmts (ss : List Stmt) : Stmt.formAll ss = ss.map Stmt.form := by
  induction ss with
  | nil => rfl
  | cons s ss ih => rw [Stmt.formAll, ih, List.map_cons]

theorem legible_of_mem {f : Form} {fs : List Form} (h : LegibleAll fs) (hf : f ∈ fs) : f.Legible := by
  induction fs with
  | nil => cases hf
  | cons g fs ih =>
    rcases List.mem_cons.mp hf with rfl | hf
    · exact h.1
    · exact ih h.2 hf

/-- The body of a routine is a part of its form. -/
theorem legible_of_body {d : FunctionDecl} {s : Stmt} (h : LegibleAll (Stmt.formRoutine d)) (hs : s ∈ d.body) :
    s.form.Legible := by
  obtain ⟨x, ps, body⟩ := d
  apply legible_of_mem h.2.2
  rw [formAll_stmts]
  exact List.mem_map_of_mem hs

theorem legible_of_routines {d : FunctionDecl} {ds : List FunctionDecl} (h : LegibleAll (Stmt.formRoutines ds))
    (hd : d ∈ ds) : LegibleAll (Stmt.formRoutine d) := by
  induction ds with
  | nil => cases hd
  | cons d' ds ih =>
    rcases List.mem_cons.mp hd with rfl | hd
    · exact h.1.2
    · exact ih h.2 hd

/-- What stands inside a statement is as legible as the statement. -/
theorem legible_of_inside {s t : Stmt} (h : t.Inside s) (hs : s.form.Legible) : t.form.Legible := by
  induction h with
  | self => exact hs
  | block hmem _ ih =>
    apply ih
    apply legible_of_mem hs.2
    rw [formAll_stmts]
    exact List.mem_map_of_mem hmem
  | yes _ ih => exact ih hs.2.2.1
  | no _ ih => exact ih hs.2.2.2.1
  | loop _ ih => exact ih hs.2.2.1
  | function hmem _ ih => exact ih (legible_of_body hs.2 hmem)
  | method hd hmem _ ih => exact ih (legible_of_body (legible_of_routines hs.2.2 hd) hmem)

namespace Stmt

/-- The statement stands in a source that is valid. -/
def Parsed (t : Stmt) : Prop :=
  ∃ source s, (Program.ofSource source).isValid = true ∧ s ∈ (Program.ofSource source).stmts ∧ t.Inside s

variable {s t : Stmt}

theorem legible_of_parsed (h : s.Parsed) : s.form.Legible := by
  obtain ⟨source, whole, hvalid, hwhole, hinside⟩ := h
  have hall : LegibleAll (formAll (Program.ofSource source).stmts) :=
    legible_of_forms (Program.forms_ofSource hvalid) (tokensLawful_ofSource source)
  apply legible_of_inside hinside
  apply legible_of_mem hall
  rw [formAll_stmts]
  exact List.mem_map_of_mem hwhole

/-- With operators first two parsed statements have the same text if and only if they are the same but for places. -/
theorem render_unambiguous (hs : s.Parsed) (ht : t.Parsed) :
    s.render .operatorFirst = t.render .operatorFirst ↔ s.unplaced = t.unplaced := by
  rw [unplaced_eq_iff, render_first_stmt, render_first_stmt]
  constructor
  · exact eq_of_write (legible_of_parsed hs) (legible_of_parsed ht)
  · intro h
    rw [h]

/-- A loop with clauses and the loop that it stands for, where numbers and lines are written in other ways. -/
theorem render_unambiguous_loops :
    (Program.ofSource "for (;a.b < 1.50;)\n print -f(\"x\");").stmts.length = 1 ∧
    (Program.ofSource "while (a.b < 001.5) print - f ( \"x\" );").stmts.length = 1 ∧
    ∀ s ∈ (Program.ofSource "for (;a.b < 1.50;)\n print -f(\"x\");").stmts,
      ∀ t ∈ (Program.ofSource "while (a.b < 001.5) print - f ( \"x\" );").stmts,
        s.render .operatorFirst = "(while (< (. a b) 1.5) (print (- (call f \"x\"))))" ∧ s.unplaced = t.unplaced := by
  have hs : (Program.ofSource "for (;a.b < 1.50;)\n print -f(\"x\");").isValid = true := by decide +kernel
  have ht : (Program.ofSource "while (a.b < 001.5) print - f ( \"x\" );").isValid = true := by decide +kernel
  have htext : ∀ s ∈ (Program.ofSource "for (;a.b < 1.50;)\n print -f(\"x\");").stmts,
      s.render .operatorFirst = "(while (< (. a b) 1.5) (print (- (call f \"x\"))))" := by
    decide +kernel
  have htext' : ∀ t ∈ (Program.ofSource "while (a.b < 001.5) print - f ( \"x\" );").stmts,
      t.render .operatorFirst = "(while (< (. a b) 1.5) (print (- (call f \"x\"))))" := by
    decide +kernel
  refine ⟨by decide +kernel, by decide +kernel, ?_⟩
  intro s hmem t hmem'
  refine ⟨htext s hmem, ?_⟩
  apply (render_unambiguous ⟨_, s, hs, hmem, .self⟩ ⟨_, t, ht, hmem', .self⟩).mp
  rw [htext s hmem, htext' t hmem']

end Stmt

end Lox
