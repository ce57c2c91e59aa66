import Mathlib.Data.List.Infix
import Lox.Proofs.Parser.Concatenation
import Lox.Proofs.Parser.Recovery

/-! Errors inside of a block. Parsing goes on after an error without regard to braces, so that the brace that closes the
block may be dropped with a malformed statement. Where each malformed declaration is dropped with as many closing as
opening braces, this cannot happen: the block ends with its own brace, and nothing around it is touched. -/
namespace Lox

open Grammar Lox.Parser

namespace Parser

variable {α : Type} {K : Token → Prop} {c : Context} {b k : Nat} {ts us q rest : List Token}

/-- Each closing brace has an opening one before it, and none is left open. -/
structure Balanced (ts : List Token) : Prop where
  open_le : ∀ us, us <+: ts → 0 ≤ bracesOf us
  closed : bracesOf ts = 0

/-- Tokens are balanced if none of their beginnings closes more braces than it opens, and all of them as many. -/
theorem balanced_iff : Balanced ts ↔ (∀ us ∈ ts.inits, 0 ≤ bracesOf us) ∧ bracesOf ts = 0 := by
  simp only [List.mem_inits]
  exact ⟨fun h => ⟨h.open_le, h.closed⟩, fun h => ⟨h.1, h.2⟩⟩

instance : Decidable (Balanced ts) := decidable_of_iff _ balanced_iff.symm

/-! ### Parsers that mind the braces -/

def State.passed (s t : State) : List Token := s.rest.take (s.rest.length - t.rest.length)

/-- Goes on behind what `p` could not parse, but only if no brace is dropped without its counterpart. -/
def recoveringBalanced (p : Parser α) : Parser (Option α) := fun s =>
  match p s with
  | .ok a t => .ok (some a) t
  | .error .failed t => if bracesOf (s.passed t.resume) = 0 then .ok none t.resume else .error .exhausted t
  | .error .exhausted t => .error .exhausted t

mutual

def balancedStatement : (bound : Nat) → Context → Parser Stmt
  | 0, _ => exhausted
  | bound + 1, c => Inner.anyStatement ⟨bound, balancedStatement bound, balancedDeclaration bound⟩ c

def balancedDeclaration : (bound : Nat) → Context → Parser (Option Stmt)
  | 0, _ => exhausted
  | bound + 1, c =>
    recoveringBalanced (Inner.strictDeclaration ⟨bound, balancedStatement bound, balancedDeclaration bound⟩ c)

end

def balancedAt (b : Nat) : Inner := ⟨b, balancedStatement b, balancedDeclaration b⟩

/-- Whether each declaration that is dropped when the tokens are parsed has as many closing as opening braces. -/
def dropsBalanced (ts : List Token) (endPos : Pos) : Bool :=
  match balancedDeclaration (ts.length + 3) {} ⟨ts, endPos, [], []⟩ with
  | .ok _ _ => true
  | .error _ _ => false

theorem passed_of_moved {s t : State} {es : List SyntaxError} {ls : List Nat} (h : s.Moved t ts es ls) :
    s.passed t = ts := by
  have hlen : s.rest.length - t.rest.length = ts.length := by
    rw [h.rest, List.length_append]
    omega
  rw [State.passed, hlen, h.rest, List.take_left]

/-- Either they do what the others do, or they stop. -/
theorem recoveringBalanced_cases (p : Parser α) (s : State) :
    recoveringBalanced p s = recovering p s ∨ ∃ t, recoveringBalanced p s = .error .exhausted t := by
  unfold recoveringBalanced recovering
  cases p s with
  | ok a t => exact .inl rfl
  | error stop t =>
    cases stop with
    | exhausted => exact .inl rfl
    | failed =>
      by_cases hzero : bracesOf (s.passed t.resume) = 0
      · exact .inl (if_pos hzero)
      · exact .inr ⟨t, if_neg hzero⟩

/-- With other tokens behind them balanced parsers do the same. -/
theorem local_balanced (hus : NotNext (.keyword .kwElse) us) {bound bound' : Nat} (hb : bound ≤ bound') :
    (balancedAt bound).Related (fun _ => True) False (fun ends _ {_} => Local False us ends) (innerAt bound') := by
  induction bound generalizing bound' with
  | zero => exact ⟨hb, fun _ => local_exhausted, fun _ _ _ => local_exhausted⟩
  | succ bound ih =>
    obtain ⟨bound', rfl⟩ : ∃ j, bound' = j + 1 := ⟨bound' - 1, by omega⟩
    have hp := ih (Nat.le_of_succ_le_succ hb)
    have hT := local_compositional False hus
    refine ⟨hb, fun hc => hp.anyStatement hT hc, fun _ _ hc => ?_⟩
    exact local_recovering (recoveringBalanced_cases _) (hp.strictDeclaration hT hc)

/-- What has been reported when parsing goes on after a fatal error. -/
theorem reported_resume {t : State} {pos : Pos} {cause : SyntaxError.Cause} {es : List SyntaxError} {ls : List Nat}
    (hpos : K ⟨.punct .leftBrace, pos⟩) (hcause : cause.isFatal = true) (h : t.Reported K es ls)
    (hsite : (∃ x, t.site = .token x ∧ K x) ∨ t.rest = []) :
    t.resume.Reported K (⟨cause, t.site⟩ :: es) (t.resume.site.pos.line :: ls) := by
  have hend : t.rest = [] → t.resume.rest = [] := by
    intro hnil
    change skip t.rest = []
    rw [hnil, skip]
  refine ⟨fun e he => ?_, ?_, fun _ => ⟨pos, hpos⟩⟩
  · rcases List.mem_cons.mp he with rfl | he
    · exact hsite.imp id hend
    · exact (h.blamed e he).imp id hend
  · rw [fatals_cons hcause, h.fatal, List.length_cons]

/-- A declaration that is dropped with all its braces leaves the number of open braces as it is. -/
theorem conducts_recoveringBalanced {p : Parser α} {pos : Pos} (hpos : K ⟨.punct .leftBrace, pos⟩)
    (h : Conducts K true 0 p) : Conducts K false 0 (recoveringBalanced p) := by
  intro s hK
  have hs := h s hK
  unfold recoveringBalanced
  match p s, hs with
  | .ok a t, ⟨ts, es, ls, hmoved, hreported, hn, _⟩ => exact ⟨ts, es, ls, hmoved, hreported, hn, nofun⟩
  | .error .exhausted t, _ => trivial
  | .error .failed t, ⟨ts, cause, es, ls, hmoved, hcause, hreported⟩ =>
    obtain ⟨vs, hresume⟩ := moved_resume t
    have hall := moved_trans hmoved hresume
    by_cases hzero : bracesOf (s.passed t.resume) = 0
    · have hreported' := reported_resume hpos hcause hreported (site_blamed (known_of_moved hmoved hK))
      rw [passed_of_moved hall] at hzero
      simp only [passed_of_moved hall, hzero, if_true]
      exact ⟨ts ++ vs, _, _, hall, hreported', hzero, nofun⟩
    · simp only [hzero, if_false]
      trivial

theorem conducts_balanced (bound : Nat) :
    (balancedAt bound).Related K True (fun ends n {_} p _ => Conducts K ends n p) (balancedAt bound) := by
  induction bound with
  | zero => exact ⟨Nat.le_refl _, fun _ _ _ => trivial, fun _ _ _ _ _ => trivial⟩
  | succ bound ih =>
    refine ⟨Nat.le_refl _, fun hc => ih.anyStatement conducts_compositional hc, fun pos hpos hc => ?_⟩
    exact conducts_recoveringBalanced hpos (ih.strictDeclaration conducts_compositional hc)

/-! ### The end of a block -/

theorem declarations_succ (p : Inner) (c : Context) (k : Nat) (s : State) :
    p.declarations c (k + 1) s =
      if (s.rest.head?.any (·.lexeme = .punct .rightBrace) || s.rest.isEmpty) = true then .ok [] s
      else (do return (← p.declaration c).toList ++ (← p.declarations c k) : Parser _) s := by
  conv_lhs => rw [Inner.declarations, bind_apply]
  change (if (_ || s.rest.isEmpty) = true then pure [] else _ : Parser (List Stmt)) s = _
  split <;> rfl

/-- Where a sequence of declarations ends: at a closing brace or at the end of the input. -/
theorem end_of_declarations {s : State}
    (h : (s.rest.head?.any (·.lexeme = .punct .rightBrace) || s.rest.isEmpty) = true) :
    s.rest = [] ∨ ∃ pos us, s.rest = Punct.rightBrace.token pos :: us := by
  cases hr : s.rest with
  | nil => exact .inl rfl
  | cons t us =>
    have ht : t.lexeme = .punct .rightBrace := by simpa [hr] using h
    exact .inr ⟨t.pos, us, by rw [Punct.token, ← ht]⟩

/-- A balanced declaration fails in no other way than by its bound. -/
theorem declaration_cases (b : Nat) (c : Context) (s : State) :
    (∃ t, (balancedAt b).declaration c s = .error .exhausted t) ∨
      ∃ first t, (balancedAt b).declaration c s = .ok first t := by
  cases b with
  | zero => exact .inl ⟨s, rfl⟩
  | succ b =>
    have hdecl : (balancedAt (b + 1)).declaration c = recoveringBalanced ((balancedAt b).strictDeclaration c) := rfl
    rw [hdecl, recoveringBalanced]
    split
    · exact .inr ⟨_, _, rfl⟩
    · split
      · exact .inr ⟨_, _, rfl⟩
      · exact .inl ⟨_, rfl⟩
    · exact .inl ⟨_, rfl⟩

/-- A parser of declarations does not give up, and it comes to a closing brace or to the end of the input. -/
theorem declarations_ends (b : Nat) (c : Context) (k : Nat) (s : State) :
    (∃ t, (balancedAt b).declarations c k s = .error .exhausted t) ∨ ∃ ss t,
      (balancedAt b).declarations c k s = .ok ss t ∧
      (t.rest = [] ∨ ∃ pos us, t.rest = Punct.rightBrace.token pos :: us) := by
  induction k generalizing s with
  | zero => exact .inl ⟨s, rfl⟩
  | succ k ih =>
    rw [declarations_succ]
    split
    · rename_i hend
      exact .inr ⟨[], s, rfl, end_of_declarations hend⟩
    · rw [bind_apply]
      rcases declaration_cases b c s with ⟨t, hfirst⟩ | ⟨first, t, hfirst⟩
      · rw [hfirst]
        exact .inl ⟨t, rfl⟩
      · simp only [hfirst]
        rw [bind_apply]
        rcases ih t with ⟨u, hothers⟩ | ⟨others, u, hothers, hend⟩
        · rw [hothers]
          exact .inl ⟨u, rfl⟩
        · rw [hothers]
          exact .inr ⟨first.toList ++ others, u, rfl, hend⟩

/-- Behind balanced tokens only the last brace can close a block. -/
theorem rest_of_brace {pos : Pos} (hq : Balanced q) (h : q ++ [Punct.rightBrace.token pos] = ts ++ rest)
    (hts : bracesOf ts = 0) (hend : rest = [] ∨ ∃ pos' us, rest = Punct.rightBrace.token pos' :: us) :
    rest = [Punct.rightBrace.token pos] := by
  have hbrace (pos : Pos) : bracesOf [Punct.rightBrace.token pos] = -1 := rfl
  rcases hend with rfl | ⟨pos', us, rfl⟩
  · -- all tokens together close one brace more than they open
    have hall := congrArg bracesOf h
    rw [bracesOf_append, hq.closed, hbrace, List.append_nil, hts] at hall
    omega
  · by_cases hus : us = []
    · rw [hus] at h ⊢
      exact (List.append_inj' h rfl).2.symm
    · -- an earlier brace would close more than is open there
      obtain ⟨ws, x, rfl⟩ : ∃ ws x, us = ws ++ [x] := ⟨_, _, (List.dropLast_concat_getLast hus).symm⟩
      have hsplit : q ++ [Punct.rightBrace.token pos] =
          (ts ++ [Punct.rightBrace.token pos'] ++ ws) ++ [x] := by simpa using h
      obtain ⟨rfl, -⟩ := List.append_inj' hsplit rfl
      have hopen := hq.open_le _ (List.prefix_append _ ws)
      rw [bracesOf_append, hts, hbrace] at hopen
      omega

/-- A block of balanced tokens ends with its own brace. No error in it is found at the end of the input. -/
theorem block_ends {s : State} {pos pos' : Pos} (hq : Balanced q) (hs : s.rest = q ++ [Punct.rightBrace.token pos])
    (hK : ∀ t ∈ s.rest, K t) (hpos : K (Punct.leftBrace.token pos')) :
    (∃ t, (balancedAt b).block c s = .error .exhausted t) ∨ ∃ body t es ls, (balancedAt b).block c s = .ok body t ∧
      s.Moved t s.rest es ls ∧ ∀ e ∈ es, ∃ x, e.site = .token x ∧ K x := by
  have hbound : (balancedAt b).bound = b := rfl
  rw [Inner.block, bind_apply, hbound]
  rcases declarations_ends b c b s with ⟨t, hrun⟩ | ⟨body, t, hrun, hend⟩
  · rw [hrun]
    exact .inl ⟨t, rfl⟩
  · have hconducts : Conducts K false 0 ((balancedAt b).declarations c b) :=
      (conducts_balanced b).declarations conducts_compositional (.inr trivial : c.Matches True c) hpos (Nat.le_refl b)
    have hconducted := hconducts s hK
    rw [hrun] at hconducted ⊢
    obtain ⟨ts, es, ls, hmoved, hreported, hzero, -⟩ := hconducted
    have hrest : t.rest = [Punct.rightBrace.token pos] := rest_of_brace hq (hs.symm.trans hmoved.rest) hzero hend
    -- there is a token left, so that no error was found at the end of the input
    have hne : t.rest ≠ [] := by simp [hrest]
    have hbrace : t.Moved { t with rest := [] } [Punct.rightBrace.token pos] [] [] := moved_take hrest
    have hall := moved_trans hmoved hbrace
    refine .inr ⟨body, { t with rest := [] }, es, ls, ?_, ?_, fun e he => (hreported.blamed e he).resolve_right hne⟩
    · have hlast : Reads (expect (.punct .rightBrace) .expectBraceAfterBlock >>= fun _ => pure body)
        [Punct.rightBrace.token pos] [] [] body := leads_expect (leads_refl _ [])
      obtain ⟨_, endPos, errors, resumed⟩ := t
      cases hrest
      exact hlast endPos errors resumed
    · have htokens : ts ++ [Punct.rightBrace.token pos] = s.rest := by rw [hmoved.rest, hrest]
      rw [← htokens]
      exact hall

def braced (p r : Pos) (ts : List Token) : List Token := Punct.leftBrace.token p :: (ts ++ [Punct.rightBrace.token r])

/-- Balanced tokens in braces are parsed as a block, if they are parsed at all. -/
theorem strictDeclaration_braced (p r endPos : Pos) (hq : Balanced q) :
    (∃ t, (balancedAt b).strictDeclaration c ⟨braced p r q, endPos, [], []⟩ = .error .exhausted t) ∨
      ∃ body t es ls, (balancedAt b).strictDeclaration c ⟨braced p r q, endPos, [], []⟩ = .ok (.block body) t ∧
        State.Moved ⟨braced p r q, endPos, [], []⟩ t (braced p r q) es ls ∧
        ∀ e ∈ es, ∃ x ∈ braced p r q, e.site = .token x := by
  have hstarts : StartsWith startsStmt [Punct.leftBrace.token p] := ⟨_, _, rfl, rfl⟩
  have hleads : Leads ((balancedAt b).strictDeclaration c) [Punct.leftBrace.token p] (q ++ [Punct.rightBrace.token r]) []
      (.block <$> (balancedAt b).block c) := leads_trans (leads_stmt hstarts) (leads_block p)
  have hopened : (balancedAt b).strictDeclaration c ⟨braced p r q, endPos, [], []⟩ =
    (Stmt.block <$> (balancedAt b).block c) ⟨q ++ [Punct.rightBrace.token r], endPos, [], []⟩ := hleads endPos [] []
  rw [hopened, map_eq_pure_bind, bind_apply]
  have hmoved : State.Moved ⟨braced p r q, endPos, [], []⟩ ⟨q ++ [Punct.rightBrace.token r], endPos, [], []⟩
    [Punct.leftBrace.token p] [] [] := moved_take rfl
  have hopen : Punct.leftBrace.token p ∈ braced p r q := List.mem_cons_self
  have hblock := block_ends (K := (· ∈ braced p r q)) (b := b) (c := c)
    (s := ⟨q ++ [Punct.rightBrace.token r], endPos, [], []⟩) hq rfl (fun t ht => List.mem_cons_of_mem _ ht) hopen
  rcases hblock with ⟨t, hrun⟩ | ⟨body, t, es, ls, hrun, hmoved', hblamed⟩
  · exact .inl ⟨t, by simp only [hrun]⟩
  · refine .inr ⟨body, t, es ++ [], ls ++ [], ?_, moved_trans hmoved hmoved', fun e he => ?_⟩
    · simp only [hrun]
      rfl
    · obtain ⟨x, hsite, hx⟩ := hblamed e (by simpa using he)
      exact ⟨x, hx, hsite⟩

/-- A block of balanced tokens is parsed as the same whatever follows, with errors in it only. -/
theorem mends_braced {p r endPos : Pos} (hq : Balanced q) (hd : dropsBalanced (braced p r q) endPos = true) :
    ∃ body es, (∀ e ∈ es, ∃ x ∈ braced p r q, e.site = .token x) ∧
      ∀ b rest, NotNext (.keyword .kwElse) rest → (braced p r q).length + 3 ≤ b →
        Mends (declaration b {}) (braced p r q) rest es (some (.block body)) := by
  rcases strictDeclaration_braced (b := (braced p r q).length + 2) (c := {}) p r endPos hq with
    ⟨t, hrun⟩ | ⟨body, t, es, ls, hrun, hmoved, hblamed⟩
  · have hdecl : balancedDeclaration ((braced p r q).length + 3) {} =
      recoveringBalanced ((balancedAt ((braced p r q).length + 2)).strictDeclaration {}) := rfl
    rw [dropsBalanced, hdecl, recoveringBalanced, hrun] at hd
    cases hd
  · refine ⟨body, es, hblamed, fun b rest hrest hb => ?_⟩
    obtain ⟨b, rfl⟩ : ∃ j, b = j + 1 := ⟨b - 1, by omega⟩
    have hlocal := (local_balanced hrest (show (braced p r q).length + 2 ≤ b by omega)).strictDeclaration
      (local_compositional False hrest) (.inl rfl : Context.Matches False {} {}) ⟨braced p r q, endPos, [], []⟩
    rw [hrun] at hlocal
    obtain ⟨ts, es', ls', hmoved', -, hecho⟩ := hlocal
    have hend : t.rest = [] := by simpa using hmoved.rest
    have hes : es' = es := by simpa using hmoved'.errors.symm.trans hmoved.errors
    have hstrict : Mends ((innerAt b).strictDeclaration {}) (braced p r q) rest es (.block body) := by
      intro endPos' errors resumed
      obtain ⟨es'', hes', hrun'⟩ := hecho (.inr rfl) ⟨braced p r q ++ rest, endPos', errors, resumed⟩ rfl
      refine ⟨ls', ?_⟩
      rw [hrun', hend, hes'.resolve_right id, hes]
      rfl
    exact mends_recovering hstrict

end Parser

namespace Program

variable {as bs q : List Token} {p r aEnd bEnd qEnd : Pos}

/-- The tokens of a valid program are declarations, one after the other. -/
theorem declared_of_isValid {ts : List Token} {endPos : Pos} (h : (ofTokens ts endPos).isValid = true) :
    Sequence (Declared {}) ts := accepted_of_forms (forms_of_isValid h)

/-- An error inside of a block is confined by its braces if no malformed declaration in it is dropped with a brace and
without its counterpart. Then the statements before and after the block are parsed as they are alone, and the errors
are those of the block alone, all at its own tokens. -/
theorem stmts_append_braced (ha : (ofTokens as aEnd).isValid = true) (hb : (ofTokens bs bEnd).isValid = true)
    (hq : Balanced q) (hd : dropsBalanced (braced p r q) qEnd = true) (endPos : Pos) :
    ∃ body, (ofTokens (braced p r q) qEnd).stmts = [.block body] ∧
      (ofTokens (as ++ (braced p r q ++ bs)) endPos).stmts =
        (ofTokens as aEnd).stmts ++ .block body :: (ofTokens bs bEnd).stmts ∧
      (ofTokens (as ++ (braced p r q ++ bs)) endPos).errors = (ofTokens (braced p r q) qEnd).errors ∧
      ∀ e ∈ (ofTokens (as ++ (braced p r q ++ bs)) endPos).errors, ∃ t ∈ braced p r q, e.site = .token t := by
  obtain ⟨body, es, hblamed, hmends⟩ := mends_braced hq hd
  -- the block alone
  obtain ⟨lines, halone⟩ := hmends _ [] (notNext_nil _) (Nat.le_refl _) qEnd [] []
  rw [List.append_nil, List.append_nil] at halone
  obtain ⟨hstmts, herrors⟩ := ofTokens_of_declaration (List.cons_ne_nil _ _) halone rfl
  -- the block between the others
  have hlen : (as ++ (braced p r q ++ bs)).length = as.length + ((braced p r q).length + bs.length) := by
    simp only [List.length_append]
  have hbefore := pieces_of_declared (declared_of_isValid ha)
    (show as.length + 3 ≤ (as ++ (braced p r q ++ bs)).length + 3 by omega)
  have hafter := pieces_of_declared (declared_of_isValid hb)
    (show bs.length + 3 ≤ (as ++ (braced p r q ++ bs)).length + 3 by omega)
  have helse : NotNext (.keyword .kwElse) (bs ++ []) := notNext_else_of_pieces hafter (notNext_nil _)
  have hitem := mends_map Option.toList
    (hmends ((as ++ (braced p r q ++ bs)).length + 3) (bs ++ []) helse (by omega))
  obtain ⟨ys, zs, hys, hzs, hrun⟩ := mends_pieces (repeats_program _) hbefore hafter (notNext_nil _)
    ⟨_, _, rfl, rfl⟩ hitem
  obtain ⟨lines', hall⟩ := hrun ((as ++ (braced p r q ++ bs)).length + 3) (by omega) endPos [] []
  rw [List.append_nil, List.append_nil] at hall
  have hprogram := ofTokens_ok hall
  have hsame : (ofTokens (as ++ (braced p r q ++ bs)) endPos).errors = es.reverse := by rw [hprogram]
  refine ⟨body, hstmts, ?_, hsame.trans herrors.symm, fun e he => ?_⟩
  · have hys' := stmts_of_reads ha (by omega) (Nat.le_refl _) (hys (as.length + 3) (by omega))
    have hzs' := stmts_of_reads hb (by omega) (Nat.le_refl _) (hzs (bs.length + 3) (by omega))
    rw [hprogram, hys', hzs']
    rfl
  · rw [hsame, List.mem_reverse] at he
    exact hblamed e he

def printNil : List Token :=
  -- `print nil;`
  [Keyword.kwPrint.token ⟨1, 10⟩, Keyword.kwNil.token ⟨1, 16⟩, Punct.semicolon.token ⟨1, 19⟩]

def twoErrors : List Token :=
  -- `print; { nil nil; }`, with an error in each block
  [Keyword.kwPrint.token ⟨1, 2⟩, Punct.semicolon.token ⟨1, 7⟩, Punct.leftBrace.token ⟨1, 9⟩,
    Keyword.kwNil.token ⟨1, 11⟩, Keyword.kwNil.token ⟨1, 15⟩, Punct.semicolon.token ⟨1, 18⟩,
    Punct.rightBrace.token ⟨1, 20⟩]

/-- A block with an error of its own and one in a block inside of it, between two statements that are kept. -/
theorem stmts_append_braced_nested :
    (ofTokens printNil ⟨1, 20⟩).isValid = true ∧ Balanced twoErrors ∧
      dropsBalanced (braced ⟨1, 0⟩ ⟨1, 22⟩ twoErrors) ⟨1, 23⟩ = true ∧
      (ofTokens (printNil ++ (braced ⟨1, 0⟩ ⟨1, 22⟩ twoErrors ++ printNil)) ⟨1, 50⟩).stmts =
        [.print (.literal .nil), .block [.block []], .print (.literal .nil)] ∧
      (ofTokens (printNil ++ (braced ⟨1, 0⟩ ⟨1, 22⟩ twoErrors ++ printNil)) ⟨1, 50⟩).errors.length = 2 := by
  have hvalid : (ofTokens printNil ⟨1, 20⟩).isValid = true := by decide +kernel
  have hbalanced : Balanced twoErrors := by decide +kernel
  have hdrops : dropsBalanced (braced ⟨1, 0⟩ ⟨1, 22⟩ twoErrors) ⟨1, 23⟩ = true := by decide +kernel
  have halone : (ofTokens (braced ⟨1, 0⟩ ⟨1, 22⟩ twoErrors) ⟨1, 23⟩).stmts = [.block [.block []]] := rfl
  have hprint : (ofTokens printNil ⟨1, 20⟩).stmts = [.print (.literal .nil)] := rfl
  obtain ⟨body, hblock, hstmts, herrors, -⟩ := stmts_append_braced hvalid hvalid hbalanced hdrops ⟨1, 50⟩
  cases halone.symm.trans hblock
  rw [hprint] at hstmts
  refine ⟨hvalid, hbalanced, hdrops, hstmts, ?_⟩
  rw [herrors]
  decide +kernel

/-- In `{ print } print nil;` the brace that closes the block is dropped, and all that follows is lost. -/
theorem stmts_lost_behind_brace :
    (ofTokens printNil ⟨1, 20⟩).isValid = true ∧ (ofTokens printNil ⟨1, 20⟩).stmts = [.print (.literal .nil)] ∧
      Balanced [Keyword.kwPrint.token ⟨1, 2⟩] ∧
      (ofTokens (braced ⟨1, 0⟩ ⟨1, 8⟩ [Keyword.kwPrint.token ⟨1, 2⟩] ++ printNil) ⟨1, 20⟩).stmts = [] ∧
      (ofTokens (braced ⟨1, 0⟩ ⟨1, 8⟩ [Keyword.kwPrint.token ⟨1, 2⟩] ++ printNil) ⟨1, 20⟩).errors =
        [⟨.expectExpression, .token (Punct.rightBrace.token ⟨1, 8⟩)⟩,
          ⟨.expectBraceAfterBlock, .endOfInput ⟨1, 20⟩⟩] := by
  refine ⟨by decide +kernel, ?_, by decide +kernel, ?_, by decide +kernel⟩
  · rfl
  · rfl

end Program

end Lox
