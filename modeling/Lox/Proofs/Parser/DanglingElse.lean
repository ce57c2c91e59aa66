import Lox.Proofs.Parser.StmtReads

/-! To which conditional an `else` belongs. The grammar leaves it open, the parser gives it to the nearest one. A
statement is settled if its parts are put together in the way the parser reads them; an `else` that the grammar puts
behind a settled statement with an open conditional can be moved into it. -/
namespace Lox.Parser

open Grammar

variable {c c' : Context} {ts us vs ws rest : List Token} {o : Bool}

def Closed (c : Context) (ts : List Token) : Prop :=
  ∀ c', c.Widens c' → ∀ rest b, ts.length + rest.length + 2 ≤ b →
    ∃ s, Reads ((innerAt b).anyStatement c') ts rest [] s

def Starting (c : Context) (ts : List Token) : Prop :=
  ∀ c', c.Widens c' → ∀ rest b, ts.length + rest.length + 2 ≤ b → ReadsStart b c' rest ts

/-- The tokens of a statement in which each `else` stands behind a branch that cannot take it. The mark says whether
the statement itself can take one more. -/
inductive Settled : Bool → Context → List Token → Prop where
  | closed {c : Context} {ts : List Token} (h : Closed c ts) : Settled false c ts
  | ifThen {o : Bool} {c : Context} {e : Expr} {ts us : List Token} (p q r : Pos)
    (he : Spells c.inClass .assignment e ts) (hy : Settled o c us) :
    Settled true c (Keyword.kwIf.token p :: Punct.leftParen.token q :: (ts ++ Punct.rightParen.token r :: us))
  | ifElse {o : Bool} {c : Context} {e : Expr} {ts us vs : List Token} (p q r w : Pos)
    (he : Spells c.inClass .assignment e ts) (hy : Settled false c us) (hn : Settled o c vs) :
    Settled o c (Keyword.kwIf.token p :: Punct.leftParen.token q ::
      (ts ++ Punct.rightParen.token r :: (us ++ Keyword.kwElse.token w :: vs)))
  | whileLoop {o : Bool} {c : Context} {e : Expr} {ts us : List Token} (p q r : Pos)
    (he : Spells c.inClass .assignment e ts) (hb : Settled o c.enterLoop us) :
    Settled o c (Keyword.kwWhile.token p :: Punct.leftParen.token q :: (ts ++ Punct.rightParen.token r :: us))
  | forLoop {o : Bool} {c : Context} {test step : Option Expr} {ts us vs ws : List Token} (p q r w : Pos)
    (hs : Starting c ts) (ht : Optional c test us) (he : Optional c step vs) (hb : Settled o c.enterLoop ws) :
    Settled o c (Keyword.kwFor.token p :: Punct.leftParen.token q ::
      (ts ++ (us ++ Punct.semicolon.token r :: (vs ++ Punct.rightParen.token w :: ws))))

theorem optional_widens {e : Option Expr} (hw : c.Widens c') (h : Optional c e ts) : Optional c' e ts := by
  cases e with
  | none => exact h
  | some e =>
    unfold Optional
    rw [hw.inClass]
    exact h

/-- A settled statement may also stand in a loop. -/
theorem settled_widens (h : Settled o c ts) (hw : c.Widens c') : Settled o c' ts := by
  induction h generalizing c' with
  | closed h => exact .closed fun c'' hw' => h c'' (widens_trans hw hw')
  | ifThen p q r he _ ih =>
    rw [← hw.inClass] at he
    exact .ifThen p q r he (ih hw)
  | ifElse p q r w he _ _ ihy ihn =>
    rw [← hw.inClass] at he
    exact .ifElse p q r w he (ihy hw) (ihn hw)
  | whileLoop p q r he _ ih =>
    rw [← hw.inClass] at he
    exact .whileLoop p q r he (ih (widens_enterLoop hw))
  | forLoop p q r w hs ht he _ ih =>
    have hs' : Starting c' _ := fun c'' hw' => hs c'' (widens_trans hw hw')
    exact .forLoop p q r w hs' (optional_widens hw ht) (optional_widens hw he) (ih (widens_enterLoop hw))

/-- Behind a statement with an open conditional, an `else` and its branch become a part of that conditional. -/
theorem settled_else (h : Settled true c ts) (hu : Settled o c us) (w : Pos) :
    ∃ o', Settled o' c (ts ++ Keyword.kwElse.token w :: us) := by
  generalize hm : true = m at h
  induction h with
  | closed => cases hm
  -- the `else` goes to the innermost conditional that is open: this one if its branch is not
  | @ifThen o' c e ts vs p q r he hy ih =>
    cases o' with
    | false =>
      refine ⟨o, ?_⟩
      have hs := Settled.ifElse p q r w he hy hu
      simpa only [List.cons_append, List.append_assoc] using hs
    | true =>
      obtain ⟨o', hs⟩ := ih hu rfl
      have hs' := Settled.ifThen p q r he hs
      exact ⟨true, by simpa only [List.cons_append, List.append_assoc] using hs'⟩
  | ifElse p q r w' he hy _ _ ihn =>
    obtain ⟨o', hs⟩ := ihn hu hm
    have hs' := Settled.ifElse p q r w' he hy hs
    exact ⟨o', by simpa only [List.cons_append, List.append_assoc] using hs'⟩
  -- what could stand behind the loop can stand in it as well
  | whileLoop p q r he _ ih =>
    obtain ⟨o', hs⟩ := ih (settled_widens hu (widens_loop _)) hm
    have hs' := Settled.whileLoop p q r he hs
    exact ⟨o', by simpa only [List.cons_append, List.append_assoc] using hs'⟩
  | forLoop p q r w' hstart ht he _ ih =>
    obtain ⟨o', hs⟩ := ih (settled_widens hu (widens_loop _)) hm
    have hs' := Settled.forLoop p q r w' hstart ht he hs
    exact ⟨o', by simpa only [List.cons_append, List.append_assoc] using hs'⟩

/-- The parser reads a settled statement, unless it is open and an `else` follows. -/
theorem settled_reads {b : Nat} (h : Settled o c ts) (hw : c.Widens c')
    (hn : o = true → NotNext (.keyword .kwElse) rest) (hb : ts.length + rest.length + 2 ≤ b) :
    ∃ s, Reads ((innerAt b).anyStatement c') ts rest [] s := by
  induction h generalizing c' rest b with
  | closed h => exact h c' hw rest b hb
  | @ifThen _ _ e ts us p q r he _ ih =>
    simp only [List.length_cons, List.length_append] at hb
    obtain ⟨b, rfl⟩ : ∃ j, b = j + 1 := ⟨b - 1, by omega⟩
    have hyes : ReadsStatement (b + 1) c' us rest := ih hw (fun _ => hn rfl) (by omega)
    obtain ⟨s, hs⟩ := reads_if q r hw he (by omega) hyes (hn rfl)
    exact ⟨s, anyStatement_if hs⟩
  | @ifElse _ _ e ts us vs p q r w he _ _ ihy ihn =>
    simp only [List.length_cons, List.length_append] at hb
    obtain ⟨b, rfl⟩ : ∃ j, b = j + 1 := ⟨b - 1, by omega⟩
    -- the first branch cannot take the `else` that follows it
    have hyes : ReadsStatement (b + 1) c' us (Keyword.kwElse.token w :: vs ++ rest) :=
      ihy hw (fun ho => nomatch ho) (by simp only [List.length_cons, List.length_append]; omega)
    have hno : ReadsStatement (b + 1) c' vs rest := ihn hw hn (by omega)
    obtain ⟨s, hs⟩ := reads_ifElse q r w hw he (by omega) hyes hno
    exact ⟨s, anyStatement_if hs⟩
  | @whileLoop _ _ e ts us p q r he _ ih =>
    simp only [List.length_cons, List.length_append] at hb
    obtain ⟨b, rfl⟩ : ∃ j, b = j + 1 := ⟨b - 1, by omega⟩
    have hbody : ReadsStatement (b + 1) c'.enterLoop us rest := ih (widens_enterLoop hw) hn (by omega)
    obtain ⟨s, hs⟩ := reads_while q r hw he (by omega) hbody
    exact ⟨s, anyStatement_while hs⟩
  | @forLoop _ _ test step ts us vs ws p q r w hstart ht he _ ih =>
    simp only [List.length_cons, List.length_append] at hb
    obtain ⟨b, rfl⟩ : ∃ j, b = j + 1 := ⟨b - 1, by omega⟩
    have hbody : ReadsStatement (b + 1) c'.enterLoop ws rest := ih (widens_enterLoop hw) hn (by omega)
    have hfirst := hstart c' hw (us ++ Punct.semicolon.token r :: (vs ++ Punct.rightParen.token w :: ws) ++ rest)
      (b + 1) (by simp only [List.length_cons, List.length_append]; omega)
    obtain ⟨s, hs⟩ := reads_for q r w hw hfirst ht he (by omega) hbody
    exact ⟨s, anyStatement_for hs⟩

end Lox.Parser
