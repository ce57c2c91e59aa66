import Lox.Proofs.Grammar.Yield
import Lox.Proofs.Parser.Acceptance
import Lox.Proofs.Parser.Blame
import Lox.Proofs.Parser.Insertion
import Lox.Proofs.Parser.StmtExtension

/-! A malformed statement is dropped and nothing else. If it ends with its only semicolon, has no braces and no keyword
that starts another statement, and goes wrong before its end, then it does so wherever it is put; parsing goes on right
behind it, and the program around it is parsed as if it were not there. -/
namespace Lox

open Grammar Lox.Parser

namespace Parser

/-- Tokens with an error that cannot spread. The first fatal error that is found when they are parsed alone must be at
one of them, and not at the end of the input. -/
structure Malformed (ts : List Token) (endPos : Pos) : Prop where
  semicolon : ∃ us p, ts = us ++ [Punct.semicolon.token p] ∧ ∀ t ∈ us, t.lexeme ≠ .punct .semicolon
  unbraced : ∀ t ∈ ts, t.lexeme ≠ .punct .leftBrace ∧ t.lexeme ≠ .punct .rightBrace
  keyword : ∀ t ∈ ts.tail, startsStatement t = false
  noElse : NotNext (.keyword .kwElse) ts
  fatal : ∃ e t, (Program.ofTokens ts endPos).errors.find? (·.cause.isFatal) = some e ∧ e.site = .token t ∧ t ∈ ts

/-- The errors that are found when the tokens are parsed alone, as if they stood in the context `c`. -/
def errorsAlone (c : Context) (ts : List Token) (endPos : Pos) : List SyntaxError :=
  match (innerAt (ts.length + 3)).declarations c (ts.length + 3) ⟨ts, endPos, [], []⟩ with
  | .ok _ s => s.errors.reverse
  | .error _ s => s.errors.reverse

variable {c : Context} {b : Nat} {ts us rest : List Token} {es : List SyntaxError} {endPos : Pos}

/-! ### Where parsing goes on -/

/-- Up to its only semicolon everything is dropped. -/
theorem skipFrom_semicolon {t : Token} {p : Pos} (h : t :: ts = us ++ [Punct.semicolon.token p])
    (hus : ∀ u ∈ us, u.lexeme ≠ .punct .semicolon) (hts : ∀ u ∈ ts, startsStatement u = false) (rest : List Token) :
    skipFrom t (ts ++ rest) = rest := by
  induction ts generalizing t us with
  | nil =>
    -- the last token is the semicolon, and whatever follows is a boundary
    have ht : t = Punct.semicolon.token p := by
      have hlast := congrArg List.getLast? h
      simpa using hlast
    cases rest with
    | nil => rfl
    | cons u rest =>
      rw [List.nil_append, skipFrom, if_pos (.inl (by rw [ht]))]
  | cons u ts ih =>
    cases us with
    | nil => simp at h
    | cons v us =>
      rw [List.cons_append, List.cons.injEq] at h
      obtain ⟨rfl, h⟩ := h
      have hsemicolon : t.lexeme ≠ .punct .semicolon := hus t List.mem_cons_self
      have hkeyword : startsStatement u = false := hts u List.mem_cons_self
      rw [List.cons_append, skipFrom, if_neg (by simp [hsemicolon, hkeyword])]
      exact ih h (fun x hx => hus x (List.mem_cons_of_mem t hx)) fun x hx => hts x (List.mem_cons_of_mem u hx)

/-- From inside of malformed tokens, parsing goes on right behind them. -/
theorem skip_malformed (hm : Malformed ts endPos) (hne : us ≠ []) (hus : us <:+ ts) (rest : List Token) :
    skip (us ++ rest) = rest := by
  obtain ⟨vs, p, hts, hvs⟩ := hm.semicolon
  obtain ⟨first, rfl⟩ := hus
  -- the semicolon is the last one of the tokens that are left, too
  obtain ⟨ws, x, rfl⟩ : ∃ ws x, us = ws ++ [x] := ⟨_, _, (List.dropLast_concat_getLast hne).symm⟩
  rw [← List.append_assoc] at hts
  obtain ⟨rfl, hx⟩ := List.append_inj' hts rfl
  obtain ⟨t, us, hus⟩ := List.exists_cons_of_ne_nil hne
  have hkeyword : ∀ u ∈ us, startsStatement u = false := by
    intro u hu
    apply hm.keyword u
    rw [hus]
    cases first with
    | nil => exact hu
    | cons _ first => exact List.mem_append_right first (List.mem_cons_of_mem t hu)
  have hlast : t :: us = ws ++ [Punct.semicolon.token p] := by rw [← hus, hx]
  rw [hus]
  exact skipFrom_semicolon hlast (fun u hu => hvs u (List.mem_append_right first hu)) hkeyword rest

/-- Malformed tokens start like a declaration, so no sequence of declarations ends before them. -/
theorem startsPiece_of_malformed (hm : Malformed ts endPos) : StartsWith startsPiece ts := by
  obtain ⟨vs, p, hts, -⟩ := hm.semicolon
  obtain ⟨t, us, rfl⟩ := List.exists_cons_of_ne_nil (show ts ≠ [] by simp [hts])
  have hbrace := (hm.unbraced t List.mem_cons_self).2
  have helse := hm.noElse t rfl
  exact ⟨t, us, rfl, by simp [startsPiece, hbrace, helse]⟩

/-! ### How malformed tokens are parsed -/

def Unbraced (t : Token) : Prop := t.lexeme ≠ .punct .leftBrace ∧ t.lexeme ≠ .punct .rightBrace

theorem conducts_strictDeclaration (b : Nat) (c : Context) :
    Conducts Unbraced true 0 ((innerAt b).strictDeclaration c) :=
  (conducts_of_no_brace (fun _ h => h.1 rfl) b).strictDeclaration conducts_compositional
    (.inr trivial : c.Matches True c)

/-- Without braces parsing does not go on after an error inside of a declaration. -/
theorem resumed_eq_nil {t : State} {ls : List Nat} (h : t.Reported Unbraced es ls) : ls = [] := by
  by_contra hne
  obtain ⟨q, hq⟩ := h.brace hne
  exact hq.1 rfl

/-- Without a brace nothing is dropped on the way, so no fatal error is reported on it. -/
theorem fatals_eq_zero {t : State} {ls : List Nat} (h : t.Reported Unbraced es ls) : fatals es = 0 := by
  rw [h.fatal, resumed_eq_nil h, List.length_nil]

theorem find?_fatal_eq_none (h : fatals es = 0) : es.reverse.find? (·.cause.isFatal) = none := by
  rw [fatals, List.countP_eq_zero] at h
  rw [List.find?_eq_none]
  intro e he
  exact h e (List.mem_reverse.mp he)

/-- What remains when the one declaration that there is has been parsed or dropped. -/
theorem ofTokens_of_declaration {first : Option Stmt} {t : State} (hne : ts ≠ [])
    (h : declaration (ts.length + 3) {} ⟨ts, endPos, [], []⟩ = .ok first t) (ht : t.rest = []) :
    (Program.ofTokens ts endPos).stmts = first.toList ∧ (Program.ofTokens ts endPos).errors = t.errors.reverse := by
  have hrun : program (ts.length + 3) (ts.length + 3) ⟨ts, endPos, [], []⟩ = .ok (first.toList ++ []) t := by
    rw [program_cons hne, bind_apply, h]
    change (program (ts.length + 3) (ts.length + 2) >>= _) t = _
    rw [bind_apply, program_nil ht]
    rfl
  rw [Program.ofTokens_ok hrun]
  exact ⟨List.append_nil _, rfl⟩

/-- Malformed tokens have no other end than their last token. -/
theorem rest_of_end {t : Token} (hm : Malformed ts endPos) (hts : ts = us ++ [t] ++ rest) (ht : t.lexeme.IsEnd) :
    rest = [] := by
  obtain ⟨vs, p, hvs, hothers⟩ := hm.semicolon
  have hmem : t ∈ ts := by simp [hts]
  have hsemicolon : t.lexeme = .punct .semicolon := ht.resolve_right (hm.unbraced t hmem).2
  by_contra hne
  obtain ⟨ws, y, rfl⟩ : ∃ ws y, rest = ws ++ [y] := ⟨_, _, (List.dropLast_concat_getLast hne).symm⟩
  rw [hvs, ← List.append_assoc] at hts
  obtain ⟨rfl, -⟩ := List.append_inj' hts rfl
  exact hothers t (by simp) hsemicolon

/-- Malformed tokens go wrong before their end. -/
theorem strictDeclaration_malformed (hm : Malformed ts endPos) : ∃ t,
    (innerAt (ts.length + 2)).strictDeclaration {} ⟨ts, endPos, [], []⟩ = .error .failed t ∧ t.rest ≠ [] := by
  obtain ⟨e, x, hfind, hsite, -⟩ := hm.fatal
  have hts : ts ≠ [] := by
    obtain ⟨_, _, rfl, -⟩ := hm.semicolon
    simp
  have hconducted := conducts_strictDeclaration (ts.length + 2) {} ⟨ts, endPos, [], []⟩ hm.unbraced
  have hsound := (faithful_of_bound ts.length).strictDeclaration {} ⟨ts, endPos, [], []⟩ (Nat.lt_succ_self _)
  change Meets _ 1 _ ((innerAt (ts.length + 2)).strictDeclaration {} _) at hsound
  have hdecl : declaration (ts.length + 3) {} = recovering ((innerAt (ts.length + 2)).strictDeclaration {}) := rfl
  cases hrun : (innerAt (ts.length + 2)).strictDeclaration {} ⟨ts, endPos, [], []⟩ with
  | ok a t =>
    rw [hrun] at hconducted
    obtain ⟨us, es, ls, hmoved, hreported, -, hends⟩ := hconducted
    -- a declaration ends with the only semicolon, so all tokens were taken and no error was fatal
    obtain ⟨vs, y, rfl, hy⟩ := hends rfl
    have hrest : t.rest = [] := rest_of_end hm hmoved.rest hy
    have herrors : t.errors = es := by rw [hmoved.errors, List.append_nil]
    have hparsed : declaration (ts.length + 3) {} ⟨ts, endPos, [], []⟩ = .ok (some a) t := by
      rw [hdecl, recovering, hrun]
    rw [(ofTokens_of_declaration hts hparsed hrest).2, herrors, find?_fatal_eq_none (fatals_eq_zero hreported)] at hfind
    cases hfind
  | error stop t =>
    rw [hrun] at hconducted hsound
    cases stop with
    | exhausted => exact hsound.elim
    | failed =>
      refine ⟨t, rfl, fun hnil => ?_⟩
      obtain ⟨us, cause, es, ls, hmoved, hcause, hreported⟩ := hconducted
      -- the error at the end of the input would be the first fatal one
      have herrors : t.resume.errors = ⟨cause, t.site⟩ :: es := by
        rw [← List.append_nil (_ :: es)]
        exact hmoved.errors
      have hdropped : declaration (ts.length + 3) {} ⟨ts, endPos, [], []⟩ = .ok none t.resume := by
        rw [hdecl, recovering, hrun]
      have hrest : t.resume.rest = [] := by
        change skip t.rest = []
        rw [hnil, skip]
      rw [(ofTokens_of_declaration hts hdropped hrest).2, herrors, List.reverse_cons, List.find?_append,
        find?_fatal_eq_none (fatals_eq_zero hreported), Option.none_or] at hfind
      simp only [List.find?_singleton, hcause, if_true, Option.some.injEq] at hfind
      rw [← hfind, State.site, hnil] at hsite
      cases hsite

/-- Wherever malformed tokens stand, they go wrong before their end and with one fatal error. -/
theorem strictDeclaration_fails (hm : Malformed ts endPos) (c : Context) : ∃ left es, left ≠ [] ∧ left <:+ ts ∧
    fatals es = 1 ∧ (innerAt (ts.length + 2)).strictDeclaration c ⟨ts, endPos, [], []⟩ =
      .error .failed ⟨left, endPos, es, []⟩ := by
  obtain ⟨t, hrun, hne⟩ := strictDeclaration_malformed hm
  -- the context decides about remarks only
  have hlocal := (local_of_le True (notNext_nil _) (Nat.le_refl (ts.length + 2))).strictDeclaration
    (local_compositional True (notNext_nil _)) (.inr trivial : Context.Matches True {} c) ⟨ts, endPos, [], []⟩
  rw [hrun] at hlocal
  obtain ⟨us, es, ls, hmoved, hecho⟩ := hlocal
  obtain ⟨es', -, hrun'⟩ := hecho hne ⟨ts, endPos, [], []⟩ (List.append_nil ts).symm
  have hconducted := conducts_strictDeclaration (ts.length + 2) c ⟨ts, endPos, [], []⟩ hm.unbraced
  rw [hrun'] at hconducted ⊢
  obtain ⟨us', cause, es'', ls', hmoved', hcause, hreported⟩ := hconducted
  have herrors := hmoved'.errors
  change es' ++ [] = (_ :: es'') ++ [] at herrors
  rw [List.append_nil, List.append_nil] at herrors
  have hresumed : ls = [] := by
    have hls : ls = ls' := by simpa [State.after] using hmoved'.resumed
    rw [hls]
    exact resumed_eq_nil hreported
  refine ⟨t.rest, es', hne, ⟨us, hmoved.rest.symm⟩, ?_, by simp [State.after, hresumed]⟩
  rw [herrors, fatals_cons hcause, fatals_eq_zero hreported]

/-- Malformed tokens are dropped wherever a declaration may stand, with one fatal error. -/
theorem dropped_of_malformed (hm : Malformed ts endPos) (c : Context) :
    ∃ es, Dropped c ts es ∧ fatals es = 1 := by
  obtain ⟨left, es, hne, hsuffix, hfatal, hrun⟩ := strictDeclaration_fails hm c
  refine ⟨es, ⟨startsPiece_of_malformed hm, fun b rest hrest hb endPos' errors resumed => ?_⟩, hfatal⟩
  obtain ⟨b, rfl⟩ : ∃ j, b = j + 1 := ⟨b - 1, by omega⟩
  -- the same happens with more tokens behind
  have hlocal := (local_of_le False hrest (show ts.length + 2 ≤ b by omega)).strictDeclaration
    (local_compositional False hrest) (.inl rfl : c.Matches False c) ⟨ts, endPos, [], []⟩
  rw [hrun] at hlocal
  obtain ⟨us, es', ls, hmoved, hecho⟩ := hlocal
  have hes : es' = es := by simpa using hmoved.errors.symm
  obtain ⟨es'', hes', hrun'⟩ := hecho hne ⟨ts ++ rest, endPos', errors, resumed⟩ rfl
  have hdecl : declaration (b + 1) c = recovering ((innerAt b).strictDeclaration c) := rfl
  have hskip : skip (left ++ rest) = rest := skip_malformed hm hne hsuffix rest
  rw [hdecl, recovering, hrun', hes'.resolve_right id, hes]
  refine ⟨(State.mk rest endPos' [] []).site.pos.line :: ls, ?_⟩
  change EStateM.Result.ok none (State.mk (skip (left ++ rest)) endPos' (es ++ errors)
    ((State.mk (skip (left ++ rest)) endPos' [] []).site.pos.line :: (ls ++ resumed))) = _
  rw [hskip]
  rfl

/-! ### Malformed tokens alone and in a program -/

/-- The errors that are reported when the tokens are dropped are those that are found when they are parsed alone. -/
theorem errorsAlone_of_dropped (hd : Dropped c ts es) (endPos : Pos) : errorsAlone c ts endPos = es.reverse := by
  have hmore := (repeats_declarations (ts.length + 3) c default []).more (ts.length + 2) (ts ++ [] ++ [])
    (startsWith_append (startsWith_append hd.starts))
  have hend : Reads ((innerAt (ts.length + 3)).declarations c (ts.length + 2)) [] [] [] [] :=
    leads_nextIs (notNext_nil _) (leads_atEnd (leads_refl _ _))
  have hdrop := mends_map Option.toList (hd.mends (ts.length + 3) [] (notNext_nil _) (Nat.le_refl _))
  have hall : Mends ((innerAt (ts.length + 3)).declarations c (ts.length + 3)) (ts ++ []) [] es [] :=
    mends_start hmore (mends_bind hdrop (leads_bind_last hend (leads_refl _ _)))
  obtain ⟨lines, hrun⟩ := hall endPos [] []
  rw [List.append_nil, List.append_nil] at hrun
  rw [errorsAlone, hrun, List.append_nil]

end Parser

namespace Program

/-- Around a place there is a valid program. -/
theorem isValid_of_place {before after : List Token} {c : Context} (hp : Place {} .decls before after c) (endPos : Pos) :
    (ofTokens (before ++ after) endPos).isValid = true := by
  obtain ⟨_, hforms⟩ := formed_of_place hp
  have hseq : Sequence (Declared {}) (before ++ after) := accepted_of_forms hforms
  obtain ⟨ss, hread⟩ := reads_program hseq (Nat.le_refl _)
    (show (before ++ after).length < (before ++ after).length + 3 by omega)
  have hrun := hread endPos [] []
  rw [List.append_nil] at hrun
  rw [ofTokens_ok hrun]
  rfl

/-- A valid program is parsed as the same at larger bounds. -/
theorem stmts_of_reads {ts : List Token} {endPos : Pos} {b k : Nat} {ss : List Stmt}
    (h : (ofTokens ts endPos).isValid = true) (hb : ts.length + 3 ≤ b) (hk : ts.length + 3 ≤ k)
    (hread : Reads (program b k) ts [] [] ss) : (ofTokens ts endPos).stmts = ss := by
  obtain ⟨t, hrun, ht⟩ := program_of_isValid h
  have hcarries := program_carries (P := Eq) (notNext_nil _) hb hk ⟨ts, endPos, [], []⟩
  rw [hrun] at hcarries
  obtain ⟨_, _, hclean⟩ := hcarries
  have hsame : State.Extended Eq [] ⟨ts, endPos, [], []⟩ ⟨ts ++ [], endPos, [], []⟩ :=
    ⟨⟨ts, List.forall₂_same.mpr fun _ _ => ⟨rfl, rfl⟩, rfl⟩, rfl⟩
  obtain ⟨ss', t', hrun', halike, -⟩ := (hclean ht).2 (fun _ _ => rfl) _ hsame
  rw [hread endPos [] []] at hrun'
  cases hrun'
  exact (eq_of_stmts_alike (fun _ _ h => h.symm) halike).symm

/-- Malformed tokens between two declarations of a valid program, however deep inside of blocks and bodies, change
nothing else: its statements are parsed as without them, and the errors are those of the malformed tokens alone. -/
theorem stmts_insert_malformed {before after ts : List Token} {c : Context} {endPos' : Pos}
    (hp : Place {} .decls before after c) (hm : Malformed ts endPos') (endPos : Pos) :
    (ofTokens (before ++ after) endPos).isValid = true ∧
    (ofTokens (before ++ ts ++ after) endPos).stmts = (ofTokens (before ++ after) endPos).stmts ∧
    (ofTokens (before ++ ts ++ after) endPos).errors = errorsAlone c ts endPos' ∧
    (ofTokens (before ++ ts ++ after) endPos).errors.countP (·.cause.isFatal) = 1 := by
  obtain ⟨es, hd, hfatal⟩ := dropped_of_malformed hm c
  have hvalid := isValid_of_place hp endPos
  have hlen : (before ++ ts ++ after).length = before.length + ts.length + after.length := by
    simp only [List.length_append]
  have hbound : before.length + ts.length + after.length + ([] : List Token).length + 3 =
      (before ++ ts ++ after).length + 3 := by
    simp only [hlen, List.length_nil, Nat.add_zero]
  obtain ⟨ss, hagrees⟩ := heals_of_place hp hd ((before ++ ts ++ after).length + 3) _ []
    ((before ++ ts ++ after).length + 3) (repeats_program _) (notNext_nil _) (Nat.le_of_eq hbound) (by omega)
  have hclean : (ofTokens (before ++ after) endPos).stmts = ss :=
    stmts_of_reads hvalid (by simp) (by simp) hagrees.reads
  obtain ⟨lines, hrun⟩ := hagrees.mends endPos [] []
  rw [List.append_nil, ← List.append_assoc] at hrun
  have hdirty := ofTokens_ok hrun
  rw [List.append_nil] at hdirty
  have herrors : (ofTokens (before ++ ts ++ after) endPos).errors = es.reverse := by rw [hdirty]
  refine ⟨hvalid, ?_, ?_, ?_⟩
  · rw [hdirty, hclean]
  · rw [herrors, errorsAlone_of_dropped hd]
  · rw [herrors, List.countP_reverse]
    exact hfatal

def strayNil : List Token :=
  -- `break nil;`, on the second line
  [Keyword.kwBreak.token ⟨2, 0⟩, Keyword.kwNil.token ⟨2, 6⟩, Punct.semicolon.token ⟨2, 9⟩]

theorem malformed_strayNil : Malformed strayNil ⟨2, 10⟩ where
  semicolon := ⟨[Keyword.kwBreak.token ⟨2, 0⟩, Keyword.kwNil.token ⟨2, 6⟩], ⟨2, 9⟩, rfl, by decide⟩
  unbraced := by decide
  keyword := by decide
  noElse := notNext_cons (by simp)
  fatal := ⟨⟨.expectSemicolonAfterBreak, .token (Keyword.kwNil.token ⟨2, 6⟩)⟩, _, by decide +kernel, rfl, by decide⟩

def loopHead (f : Name) (p : Pos) : List Token :=
  -- `fun f() { while (true) {`
  [Keyword.kwFun.token p, f.token, Punct.leftParen.token p, Punct.rightParen.token p, Punct.leftBrace.token p,
    Keyword.kwWhile.token p, Punct.leftParen.token p, Keyword.kwTrue.token p, Punct.rightParen.token p,
    Punct.leftBrace.token p]

def loopTail (p : Pos) : List Token :=
  -- `} print nil; }`
  [Punct.rightBrace.token p, Keyword.kwPrint.token p, Keyword.kwNil.token p, Punct.semicolon.token p,
    Punct.rightBrace.token p]

/-- Between head and tail there is a place in a loop, in a function. -/
theorem place_loop (f : Name) (p : Pos) :
    Place {} .decls (loopHead f p) (loopTail p) { inFunction := true, inLoop := true } := by
  have hnone {c : Context} : Formed c .decls [] := ⟨[], .noDecls⟩
  have htrue {c : Context} : Spells c.inClass .assignment (.literal (.bool true)) [Keyword.kwTrue.token p] :=
    derives_loosen (.literalTrue p) (Nat.zero_le _)
  have hnil {c : Context} : Spells c.inClass .assignment (.literal .nil) [Keyword.kwNil.token p] :=
    derives_loosen (.literalNil p) (Nat.zero_le _)
  have hprint {c : Context} : Formed c .decls
      [Keyword.kwPrint.token p, Keyword.kwNil.token p, Punct.semicolon.token p] :=
    ⟨_, .moreDecls (.stmt (.simple (.print p p hnil))) .noDecls⟩
  have hbody : Place (Context.enterFunction {}) .decls
      [Keyword.kwWhile.token p, Punct.leftParen.token p, Keyword.kwTrue.token p, Punct.rightParen.token p,
        Punct.leftBrace.token p]
      [Punct.rightBrace.token p, Keyword.kwPrint.token p, Keyword.kwNil.token p, Punct.semicolon.token p]
      { inFunction := true, inLoop := true } :=
    .amid hnone (.stmt (.whileLoop p p p htrue (.block p p (.here hnone hnone)))) hprint
  have hparams : Listed Named [] [] := ⟨.inl ⟨rfl, rfl⟩, by decide⟩
  exact .amid hnone (.function p (.routine f p p p p hparams hbody)) hnone

/-- In the loop of a function `break nil;` has one error, although alone it would have two. -/
theorem stmts_insert_malformed_break :
    Place {} .decls (loopHead ⟨"f", ⟨1, 4⟩⟩ ⟨1, 0⟩) (loopTail ⟨1, 0⟩) { inFunction := true, inLoop := true } ∧
    Malformed strayNil ⟨2, 10⟩ ∧
    (ofTokens (loopHead ⟨"f", ⟨1, 4⟩⟩ ⟨1, 0⟩ ++ strayNil ++ loopTail ⟨1, 0⟩) ⟨3, 0⟩).stmts =
      (ofTokens (loopHead ⟨"f", ⟨1, 4⟩⟩ ⟨1, 0⟩ ++ loopTail ⟨1, 0⟩) ⟨3, 0⟩).stmts ∧
    (ofTokens (loopHead ⟨"f", ⟨1, 4⟩⟩ ⟨1, 0⟩ ++ strayNil ++ loopTail ⟨1, 0⟩) ⟨3, 0⟩).errors =
      [⟨.expectSemicolonAfterBreak, .token (Keyword.kwNil.token ⟨2, 6⟩)⟩] ∧
    (ofTokens strayNil ⟨2, 10⟩).errors.length = 2 := by
  have hplace := place_loop ⟨"f", ⟨1, 4⟩⟩ ⟨1, 0⟩
  obtain ⟨-, hstmts, herrors, -⟩ := stmts_insert_malformed hplace malformed_strayNil ⟨3, 0⟩
  have halone : errorsAlone { inFunction := true, inLoop := true } strayNil ⟨2, 10⟩ =
      [⟨.expectSemicolonAfterBreak, .token (Keyword.kwNil.token ⟨2, 6⟩)⟩] := by decide +kernel
  exact ⟨hplace, malformed_strayNil, hstmts, herrors.trans halone, by decide +kernel⟩

end Program

end Lox
