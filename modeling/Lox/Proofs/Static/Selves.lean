import Lox.Proofs.Static.Placement
import Lox.Proofs.Token.Pieces
import Lox.Value

/-! Where `this` stands. The places of `this` in a statement are those that no class inside the statement encloses more
closely, so the places in the body of a method are those for which this method is the closest one around. At the top
level of a valid program there are none, and no name in a valid program is spelled `this`. -/
namespace Lox

open Grammar
open Lox.Parser (Context)

namespace Expr

mutual

def selves : Expr → List Pos
  | .literal _ | .variable _ => []
  | .group e => e.selves
  | .unary _ _ e => e.selves
  | .binary _ _ l r => l.selves ++ r.selves
  | .logical _ l r => l.selves ++ r.selves
  | .assign _ e => e.selves
  | .call f es _ => f.selves ++ selvesAll es
  | .get o _ => o.selves
  | .set o _ e => o.selves ++ e.selves
  | .this p => [p]

def selvesAll : List Expr → List Pos
  | [] => []
  | e :: es => e.selves ++ selvesAll es

end

def selvesOption : Option Expr → List Pos
  | none => []
  | some e => e.selves

end Expr

mutual

/-- The places of `this` in a statement, those in methods apart. -/
def Stmt.selves : Stmt → List Pos
  | .expr e => e.selves
  | .print e => e.selves
  | .var _ e => Expr.selvesOption e
  | .block ss => Stmt.selvesAll ss
  | .ifThen test yes no => test.selves ++ (yes.selves ++ Stmt.selvesOption no)
  | .whileLoop test body => test.selves ++ body.selves
  | .function d => Routine.selves d
  | .returnValue _ e => Expr.selvesOption e
  | .breakLoop _ => []
  | .classDecl _ _ => []

def Stmt.selvesAll : List Stmt → List Pos
  | [] => []
  | s :: ss => s.selves ++ Stmt.selvesAll ss

def Stmt.selvesOption : Option Stmt → List Pos
  | none => []
  | some s => s.selves

def Routine.selves : FunctionDecl → List Pos
  | ⟨_, _, body⟩ => Stmt.selvesAll body

end

theorem Routine.selves_eq (d : FunctionDecl) : d.selves = Stmt.selvesAll d.body := by
  cases d
  rfl

namespace Stmt

variable {P : Text → Prop}

mutual

def Names (P : Text → Prop) : Stmt → Prop
  | .expr e => e.Names P True
  | .print e => e.Names P True
  | .var x e => P x.text ∧ Expr.NamesOption P True e
  | .block ss => NamesAll P ss
  | .ifThen test yes no => test.Names P True ∧ yes.Names P ∧ NamesOption P no
  | .whileLoop test body => test.Names P True ∧ body.Names P
  | .function d => NamesIn P d
  | .returnValue _ e => Expr.NamesOption P True e
  | .breakLoop _ => True
  | .classDecl x ds => P x.text ∧ NamesInAll P ds

def NamesAll (P : Text → Prop) : List Stmt → Prop
  | [] => True
  | s :: ss => s.Names P ∧ NamesAll P ss

def NamesOption (P : Text → Prop) : Option Stmt → Prop
  | none => True
  | some s => s.Names P

def NamesIn (P : Text → Prop) : FunctionDecl → Prop
  | ⟨x, params, body⟩ => P x.text ∧ (∀ p ∈ params, P p.text) ∧ NamesAll P body

def NamesInAll (P : Text → Prop) : List FunctionDecl → Prop
  | [] => True
  | d :: ds => NamesIn P d ∧ NamesInAll P ds

end

theorem namesIn_iff {d : FunctionDecl} :
    NamesIn P d ↔ P d.name.text ∧ (∀ p ∈ d.params, P p.text) ∧ NamesAll P d.body := by
  cases d
  exact Iff.rfl

theorem namesIn_of_mem {d : FunctionDecl} {ds : List FunctionDecl} (h : NamesInAll P ds) (hd : d ∈ ds) :
    NamesIn P d := by
  induction ds with
  | nil => cases hd
  | cons d' ds ih =>
    rcases List.mem_cons.mp hd with rfl | hd
    · exact h.1
    · exact ih h.2 hd

end Stmt

section placed

variable {Q : Prop}

mutual

/-- Where `this` is not allowed there is none. -/
theorem selves_of_names (hQ : ¬ Q) : (e : Expr) → e.Names (fun _ => True) Q → e.selves = []
  | .literal _, _ | .variable _, _ => rfl
  | .group e, h => selves_of_names hQ e h
  | .unary _ _ e, h => selves_of_names hQ e h
  | .binary _ _ l r, h => List.append_eq_nil_iff.mpr ⟨selves_of_names hQ l h.1, selves_of_names hQ r h.2⟩
  | .logical _ l r, h => List.append_eq_nil_iff.mpr ⟨selves_of_names hQ l h.1, selves_of_names hQ r h.2⟩
  | .assign _ e, h => selves_of_names hQ e h.2
  | .call f es _, h => List.append_eq_nil_iff.mpr ⟨selves_of_names hQ f h.1, selvesAll_of_names hQ es h.2⟩
  | .get o _, h => selves_of_names hQ o h
  | .set o _ e, h => List.append_eq_nil_iff.mpr ⟨selves_of_names hQ o h.1, selves_of_names hQ e h.2⟩
  | .this _, h => absurd h hQ

theorem selvesAll_of_names (hQ : ¬ Q) : (es : List Expr) → Expr.NamesAll (fun _ => True) Q es → Expr.selvesAll es = []
  | [], _ => rfl
  | e :: es, h => List.append_eq_nil_iff.mpr ⟨selves_of_names hQ e h.1, selvesAll_of_names hQ es h.2⟩

end

theorem selvesOption_of_names (hQ : ¬ Q) (e : Option Expr) (h : Expr.NamesOption (fun _ => True) Q e) :
    Expr.selvesOption e = [] := by
  cases e with
  | none => rfl
  | some e => exact selves_of_names hQ e h

mutual

/-- Where no class is around there is no `this`. -/
theorem selves_of_placed : (s : Stmt) → ∀ {c : Context}, ¬ c.inClass = true → s.Placed c → s.selves = []
  | .expr e, _, hc, h => selves_of_names hc e h
  | .print e, _, hc, h => selves_of_names hc e h
  | .var _ e, _, hc, h => selvesOption_of_names hc e h
  | .block ss, _, hc, h => selvesAll_of_placed ss hc h
  | .ifThen test yes no, _, hc, ⟨ht, hy, hn⟩ => by
    rw [Stmt.selves, selves_of_names hc test ht, selves_of_placed yes hc hy, selvesOption_of_placed no hc hn]
    rfl
  | .whileLoop test body, c, hc, ⟨ht, hb⟩ => by
    rw [Stmt.selves, selves_of_names hc test ht, selves_of_placed body (c := c.enterLoop) hc hb]
    rfl
  | .function ⟨_, _, body⟩, c, hc, h => selvesAll_of_placed body (c := c.enterFunction) hc h
  | .returnValue _ e, _, hc, h => selvesOption_of_names hc e h.2
  | .breakLoop _, _, _, _ => rfl
  -- the methods of a class have places of their own
  | .classDecl _ _, _, _, _ => rfl

theorem selvesAll_of_placed : (ss : List Stmt) → ∀ {c : Context}, ¬ c.inClass = true → Stmt.PlacedAll c ss →
    Stmt.selvesAll ss = []
  | [], _, _, _ => rfl
  | s :: ss, _, hc, h => List.append_eq_nil_iff.mpr ⟨selves_of_placed s hc h.1, selvesAll_of_placed ss hc h.2⟩

theorem selvesOption_of_placed : (s : Option Stmt) → ∀ {c : Context}, ¬ c.inClass = true → Stmt.PlacedOption c s →
    Stmt.selvesOption s = []
  | none, _, _, _ => rfl
  | some s, _, hc, h => selves_of_placed s hc h

end

end placed

section names

variable {P : Text → Prop}

def TokensName (P : Text → Prop) (ts : List Token) : Prop := ∀ t ∈ ts, ∀ x, t.lexeme = .identifier x → P x

theorem tokensName_append {ts us : List Token} : TokensName P (ts ++ us) ↔ TokensName P ts ∧ TokensName P us :=
  List.forall_mem_append

theorem tokensName_cons {t : Token} {ts : List Token} :
    TokensName P (t :: ts) ↔ (∀ x, t.lexeme = .identifier x → P x) ∧ TokensName P ts :=
  List.forall_mem_cons

def Grammar.Phrase.Names (P : Text → Prop) : Phrase → Prop
  | .expr _ e => e.Names P True
  | .args es => Expr.NamesAll P True es
  | .items es => Expr.NamesAll P True es

/-- Names of a phrase are spelled by its tokens, by induction on the derivation. -/
theorem phrase_names {inClass : Bool} {phrase : Phrase} {ts : List Token} (h : Derives inClass phrase ts)
    (ht : TokensName P ts) : phrase.Names P := by
  -- every name of a phrase is the spelling of one of its tokens
  induction h with
  | literalNil | literalTrue | literalFalse | literalNumber | literalString | this | noArgs => trivial
  | name x => exact (tokensName_cons.mp ht).1 x.text rfl
  | group p q _ ih =>
    simp only [tokensName_append, tokensName_cons] at ht
    exact ih ht.1.2
  | call p paren _ _ _ ihf ihes =>
    simp only [tokensName_append, tokensName_cons] at ht
    exact ⟨ihf ht.1.1, ihes ht.1.2.2⟩
  | get p x _ ih =>
    simp only [tokensName_append] at ht
    exact ih ht.1
  | unary op p _ ih => exact ih (tokensName_cons.mp ht).2
  | binary op p _ _ ihl ihr =>
    simp only [tokensName_append, tokensName_cons] at ht
    exact ⟨ihl ht.1, ihr ht.2.2⟩
  | logical op p _ _ ihl ihr =>
    simp only [tokensName_append, tokensName_cons] at ht
    exact ⟨ihl ht.1, ihr ht.2.2⟩
  | assign x p _ ih =>
    simp only [tokensName_cons] at ht
    exact ⟨ht.1 x.text rfl, ih ht.2.2⟩
  | set x p q _ _ iho ihv =>
    simp only [tokensName_append, tokensName_cons] at ht
    exact ⟨iho ht.1, ihv ht.2.2.2.2⟩
  | tighter _ ih => exact ih ht
  | args _ ih => exact ih ht
  | item _ ih => exact ⟨ih ht, trivial⟩
  | moreItems p _ _ ihe ihes =>
    simp only [tokensName_append, tokensName_cons] at ht
    exact ⟨ihe ht.1, ihes ht.2.2⟩

theorem optional_names {c : Context} {e : Option Expr} {ts : List Token} (h : Optional c e ts)
    (ht : TokensName P ts) : Expr.NamesOption P True e := by
  cases e with
  | none => trivial
  | some e => exact phrase_names h ht

theorem listed_names {xs : List Name} {ts : List Token} (h : Listed Named xs ts) (ht : TokensName P ts) :
    ∀ x ∈ xs, P x.text := by
  have hone {x : Name} {ts : List Token} (hx : Named x ts) (ht : TokensName P ts) : P x.text := by
    rw [hx] at ht
    exact (tokensName_cons.mp ht).1 x.text rfl
  rcases h.items with ⟨rfl, -⟩ | hs
  · exact List.forall_mem_nil _
  · clear h
    induction hs with
    | one hx => exact List.forall_mem_singleton.mpr (hone hx ht)
    | more p hx _ ih =>
      simp only [tokensName_append, tokensName_cons] at ht
      exact List.forall_mem_cons.mpr ⟨hone hx ht.1, ih ht.2.2⟩

theorem forLoop_names {start : Option Stmt} {test step : Option Expr} {body : Stmt} (hs : Stmt.NamesOption P start)
    (ht : Expr.NamesOption P True test) (he : Expr.NamesOption P True step) (hb : body.Names P) :
    (Stmt.forLoop start test step body).Names P := by
  have htest : (test.getD (.literal (.bool true))).Names P True := by
    cases test with
    | none => trivial
    | some e => exact ht
  cases start with
  | none =>
    cases step with
    | none => exact ⟨htest, hb⟩
    | some e => exact ⟨htest, hb, he, trivial⟩
  | some s =>
    cases step with
    | none => exact ⟨hs, ⟨htest, hb⟩, trivial⟩
    | some e => exact ⟨hs, ⟨htest, hb, he, trivial⟩, trivial⟩

def Grammar.Construct.Names (P : Text → Prop) : Construct → Prop
  | .exprStmt s | .varDecl s | .simple s | .stmt s | .decl s => s.Names P
  | .start s => Stmt.NamesOption P s
  | .decls ss => Stmt.NamesAll P ss
  | .function d => Stmt.NamesIn P d
  | .methods ds => Stmt.NamesInAll P ds

/-- Names of a construct are spelled by its tokens, by induction on the derivation. -/
theorem names_of_forms {c : Context} {construct : Construct} {ts : List Token} (h : Forms c construct ts)
    (ht : TokensName P ts) : construct.Names P := by
  -- the tokens of a construct are split as its rule puts them together
  induction h with
  | exprStmt p he => exact phrase_names he (tokensName_append.mp ht).1
  | varBare x p q =>
    simp only [tokensName_cons] at ht
    exact ⟨ht.2.1 x.text rfl, trivial⟩
  | varValue x p q r he =>
    simp only [tokensName_append, tokensName_cons] at ht
    exact ⟨ht.1.2.1 x.text rfl, phrase_names he ht.1.2.2.2⟩
  | print p q he =>
    simp only [tokensName_append, tokensName_cons] at ht
    exact phrase_names he ht.1.2
  | returnValue p q hc he =>
    simp only [tokensName_append, tokensName_cons] at ht
    exact optional_names he ht.1.2
  | breakLoop p q hc => trivial
  | expr _ ih | startVar _ ih | startExpr _ ih | simple _ ih | stmt _ ih | varDecl _ ih => exact ih ht
  | block p q _ ih =>
    simp only [tokensName_append, tokensName_cons] at ht
    exact ih ht.1.2
  | noStart | noDecls | noMethods => trivial
  | ifThen p q r he _ ih =>
    simp only [tokensName_append, tokensName_cons] at ht
    exact ⟨phrase_names he ht.1.2.2, ih ht.2.2, trivial⟩
  | ifElse p q r w he _ _ ihy ihn =>
    simp only [tokensName_append, tokensName_cons] at ht
    exact ⟨phrase_names he ht.1.1.2.2, ihy ht.1.2.2, ihn ht.2.2⟩
  | whileLoop p q r he _ ih =>
    simp only [tokensName_append, tokensName_cons] at ht
    exact ⟨phrase_names he ht.1.2.2, ih ht.2.2⟩
  | forLoop p q r w _ htest hstep _ ihs ihb =>
    simp only [tokensName_append, tokensName_cons] at ht
    obtain ⟨⟨⟨⟨-, -, hstart⟩, huse⟩, -, hvs⟩, -, hbody⟩ := ht
    exact forLoop_names (ihs hstart) (optional_names htest huse) (optional_names hstep hvs) (ihb hbody)
  | function p _ ih => exact ih (tokensName_cons.mp ht).2
  | classDecl x p q r _ ih =>
    simp only [tokensName_append, tokensName_cons] at ht
    exact ⟨ht.1.2.1 x.text rfl, ih ht.1.2.2.2⟩
  | moreDecls _ _ ih ihs =>
    obtain ⟨hts, hus⟩ := tokensName_append.mp ht
    exact ⟨ih hts, ihs hus⟩
  | routine x p q r w hp _ ih =>
    simp only [tokensName_append, tokensName_cons] at ht
    exact ⟨ht.1.1.1 x.text rfl, listed_names hp ht.1.1.2.2, ih ht.1.2.2.2⟩
  | moreMethods _ _ ih ihs =>
    obtain ⟨hts, hus⟩ := tokensName_append.mp ht
    exact ⟨ih hts, ihs hus⟩

end names

/-- In a valid program no name is spelled `this`. -/
theorem names_of_isValid {source : Text} (h : (Program.ofSource source).isValid = true) :
    Stmt.NamesAll (· ≠ thisName) (Program.ofSource source).stmts := by
  have hkeyword : Keyword.ofName? thisName ≠ none := by decide +kernel
  have htokens : TokensName (· ≠ thisName) (Scan.ofSource source).tokens := by
    rintro t ht x hx rfl
    exact hkeyword (Scan.identifier_ofSource ht hx)
  exact names_of_forms (Program.forms_ofSource h) htokens

end Lox
