import Lox.Proofs.Parser.Locality
import Lox.Proofs.Parser.StmtComplete

/-! Parsing through errors. A parser mends some tokens if it takes them all, with errors, and returns a result. Where it
repeats another parser, what one turn mends does not matter to the turns before and behind it. -/
namespace Lox.Parser

open Grammar

variable {α β : Type} {c : Context} {b k : Nat} {es : List SyntaxError}
variable {ts us vs rest dirty clean stop : List Token}

/-- On the tokens `ts` and then `rest`, the parser `p` takes `ts`, reports the errors `es` and returns `a`. On the way
it may go on after errors. -/
def Mends (p : Parser α) (ts rest : List Token) (es : List SyntaxError) (a : α) : Prop :=
  ∀ endPos errors resumed, ∃ lines,
    p ⟨ts ++ rest, endPos, errors, resumed⟩ = .ok a ⟨rest, endPos, es ++ errors, lines ++ resumed⟩

/-- The parser returns the same on the one tokens, where it reports errors, as on the others, where it reports none. -/
structure Agrees (p : Parser α) (dirty clean rest : List Token) (es : List SyntaxError) (a : α) : Prop where
  mends : Mends p dirty rest es a
  reads : Reads p clean rest [] a

theorem mends_lead {p q : Parser α} {a : α} (hp : Leads p ts (us ++ rest) [] q) (h : Mends q us rest es a) :
    Mends p (ts ++ us) rest es a := by
  intro endPos errors resumed
  rw [List.append_assoc, hp]
  exact h endPos errors resumed

/-- After what was mended, the parser goes on without errors. -/
theorem mends_bind {p : Parser α} {f : α → Parser β} {a : α} {x : β} (h : Mends p ts (us ++ rest) es a)
    (hf : Reads (f a) us rest [] x) : Mends (p >>= f) (ts ++ us) rest es x := by
  intro endPos errors resumed
  obtain ⟨lines, hrun⟩ := h endPos errors resumed
  refine ⟨lines, ?_⟩
  rw [List.append_assoc, bind_apply, hrun]
  exact hf endPos (es ++ errors) (lines ++ resumed)

/-- A step that takes no token. -/
theorem mends_start {p q : Parser α} {a : α} (hp : Leads p [] (ts ++ rest) [] q) (h : Mends q ts rest es a) :
    Mends p ts rest es a :=
  mends_lead hp h

/-- A first part that both have in common. -/
theorem agrees_lead {p q : Parser α} {a : α} (hdirty : Leads p ts (dirty ++ rest) [] q)
    (hclean : Leads p ts (clean ++ rest) [] q) (h : Agrees q dirty clean rest es a) :
    Agrees p (ts ++ dirty) (ts ++ clean) rest es a :=
  ⟨mends_lead hdirty h.mends, leads_trans hclean h.reads⟩

/-- A step that takes no token. -/
theorem agrees_start {p q : Parser α} {a : α} (hdirty : Leads p [] (dirty ++ rest) [] q)
    (hclean : Leads p [] (clean ++ rest) [] q) (h : Agrees q dirty clean rest es a) :
    Agrees p dirty clean rest es a :=
  agrees_lead hdirty hclean h

/-- A last part that both have in common. -/
theorem agrees_bind {p : Parser α} {f : α → Parser β} {a : α} {x : β} (h : Agrees p dirty clean (us ++ rest) es a)
    (hf : Reads (f a) us rest [] x) : Agrees (p >>= f) (dirty ++ us) (clean ++ us) rest es x :=
  ⟨mends_bind h.mends hf, leads_seq h.reads hf⟩

theorem agrees_finish {p : Parser α} {f : α → Parser β} {a : α} {x : β} (h : Agrees p dirty clean rest es a)
    (hf : f a = pure x) : Agrees (p >>= f) dirty clean rest es x := by
  have hlast : Reads (f a) [] rest [] x := by
    rw [hf]
    exact leads_refl _ rest
  have hall : Agrees (p >>= f) (dirty ++ []) (clean ++ []) rest es x := agrees_bind h hlast
  simpa only [List.append_nil] using hall

theorem mends_map {p : Parser α} {a : α} (f : α → β) (h : Mends p ts rest es a) : Mends (f <$> p) ts rest es (f a) := by
  intro endPos errors resumed
  obtain ⟨lines, hrun⟩ := h endPos errors resumed
  refine ⟨lines, ?_⟩
  rw [map_eq_pure_bind, bind_apply, hrun]
  rfl

theorem agrees_map {p : Parser α} {a : α} (f : α → β) (h : Agrees p dirty clean rest es a) :
    Agrees (f <$> p) dirty clean rest es (f a) :=
  ⟨mends_map f h.mends, reads_map f h.reads⟩

/-- What comes back needs no recovery. -/
theorem mends_recovering {p : Parser α} {a : α} (h : Mends p ts rest es a) :
    Mends (recovering p) ts rest es (some a) := by
  intro endPos errors resumed
  obtain ⟨lines, hrun⟩ := h endPos errors resumed
  refine ⟨lines, ?_⟩
  unfold recovering
  rw [hrun]

theorem agrees_recovering {p : Parser α} {a : α} (h : Agrees p dirty clean rest es a) :
    Agrees (recovering p) dirty clean rest es (some a) :=
  ⟨mends_recovering h.mends, reads_recovering h.reads⟩

theorem leads_then {p q : Parser α} {f : α → Parser β} (h : Leads p ts rest es q) :
    Leads (p >>= f) ts rest es (q >>= f) := by
  intro endPos errors resumed
  rw [bind_apply, bind_apply, h endPos errors resumed]

/-! ### Reading the same whatever follows -/

/-- A parser that has read some tokens at the end of the input reads them everywhere. -/
theorem reads_everywhere {p p' : Parser α} {a : α} (hp : Local False rest true p p') (h : Reads p ts [] [] a) :
    Reads p' ts rest [] a := by
  intro endPos errors resumed
  have hrun := hp ⟨ts ++ [], endPos, [], []⟩
  rw [h endPos [] []] at hrun
  obtain ⟨_, es, ls, hmoved, -, hecho⟩ := hrun
  have hes : es = [] := by simpa using hmoved.errors.symm
  have hls : ls = [] := by simpa using hmoved.resumed.symm
  obtain ⟨es', hes', hrun'⟩ := hecho (.inr rfl) ⟨ts ++ rest, endPos, errors, resumed⟩ (by simp)
  rw [hrun', hes'.resolve_right id, hes, hls]
  rfl

/-- A parser that has read some tokens before another one reads them wherever that one follows. -/
theorem reads_before {p p' : Parser α} {a : α} {t : Token} {ends : Bool} (hp : Local False rest ends p p')
    (h : Reads p ts [t] [] a) : Reads p' ts (t :: rest) [] a := by
  intro endPos errors resumed
  have hrun := hp ⟨ts ++ [t], endPos, [], []⟩
  rw [h endPos [] []] at hrun
  obtain ⟨_, es, ls, hmoved, -, hecho⟩ := hrun
  have hes : es = [] := by simpa using hmoved.errors.symm
  have hls : ls = [] := by simpa using hmoved.resumed.symm
  obtain ⟨es', hes', hrun'⟩ := hecho (.inl (List.cons_ne_nil t [])) ⟨ts ++ t :: rest, endPos, errors, resumed⟩
    (by simp)
  rw [hrun', hes'.resolve_right id, hes, hls]
  rfl

/-- A declaration is the same whatever follows. -/
theorem reads_declared (h : Declared c ts) : ∃ s, ∀ b rest, NotNext (.keyword .kwElse) rest → ts.length + 3 ≤ b →
    Reads (declaration b c) ts rest [] (some s) := by
  obtain ⟨s, hs⟩ := h.reads c (widens_refl c) [] (ts.length + 2) (notNext_nil _) (Nat.le_refl _)
  refine ⟨s, fun b rest hrest hb => ?_⟩
  obtain ⟨b, rfl⟩ : ∃ j, b = j + 1 := ⟨b - 1, by omega⟩
  have hlocal := (local_of_le False hrest (show ts.length + 2 ≤ b by omega)).strictDeclaration
    (local_compositional False hrest) (.inl rfl : c.Matches False c)
  exact reads_recovering (reads_everywhere hlocal hs)

/-- A method is the same whatever follows. -/
theorem reads_functionLike (h : FunctionLike c ts) : ∃ d, ∀ b rest, NotNext (.keyword .kwElse) rest →
    ts.length + 2 ≤ b → Reads ((innerAt b).function c .expectMethodName) ts rest [] d := by
  obtain ⟨d, hd⟩ := h.reads c (widens_refl c) .expectMethodName [] (ts.length + 2) (Nat.le_refl _)
  refine ⟨d, fun b rest hrest hb => reads_everywhere ?_ hd⟩
  exact (local_of_le False hrest hb).function (local_compositional False hrest) (.inl rfl) rfl

/-! ### Parsers that repeat another one -/

def startsPiece (l : Lexeme) : Bool := l ≠ .punct .rightBrace && l ≠ .keyword .kwElse

/-- Tokens that a parser reads as the same, whatever follows unless it is an `else`. -/
structure Piece (item : Parser (List α)) (ts : List Token) : Prop where
  starts : StartsWith startsPiece ts
  reads : ∃ xs, ∀ rest, NotNext (.keyword .kwElse) rest → Reads item ts rest [] xs

/-- The parser `loop` puts together what `item` returns again and again, until it comes to the tokens `stop`. -/
structure Repeats (item : Parser (List α)) (stop : List Token) (loop : Nat → Parser (List α)) : Prop where
  done : ∀ k, Reads (loop (k + 1)) [] stop [] []
  more : ∀ k ts, StartsWith startsPiece ts → Leads (loop (k + 1)) [] ts [] (do
    let first ← item
    let others ← loop k
    return first ++ others)

variable {item : Parser (List α)} {loop : Nat → Parser (List α)}

theorem startsWith_append {f : Lexeme → Bool} (h : StartsWith f ts) : StartsWith f (ts ++ us) := by
  obtain ⟨t, vs, rfl, ht⟩ := h
  exact ⟨t, vs ++ us, rfl, ht⟩

theorem startsWith_imp {f g : Lexeme → Bool} (hfg : ∀ {l}, f l = true → g l = true) (h : StartsWith f ts) :
    StartsWith g ts := by
  obtain ⟨t, us, rfl, ht⟩ := h
  exact ⟨t, us, rfl, hfg ht⟩

theorem startsWith_length {f : Lexeme → Bool} (h : StartsWith f ts) : 0 < ts.length := by
  obtain ⟨t, us, rfl, -⟩ := h
  exact Nat.succ_pos _

/-- No piece starts with an `else`. -/
theorem notNext_else_of_pieces (h : Sequence (Piece item) ts) (hr : NotNext (.keyword .kwElse) rest) :
    NotNext (.keyword .kwElse) (ts ++ rest) := by
  cases h with
  | nil => exact hr
  | cons h _ =>
    rw [List.append_assoc]
    exact notNext_of_startsWith h.starts rfl _

/-- The first pieces are read before the loop goes on. -/
theorem leads_pieces (hl : Repeats item stop loop) (h : Sequence (Piece item) ts) : ∃ xs n, n ≤ ts.length ∧
    ∀ rest k, NotNext (.keyword .kwElse) rest → Leads (loop (n + k)) ts rest [] ((xs ++ ·) <$> loop k) := by
  induction h with
  | nil =>
    refine ⟨[], 0, Nat.le_refl _, fun rest k _ => ?_⟩
    simp only [List.nil_append, id_map', Nat.zero_add]
    exact leads_refl _ rest
  | @cons ts us hts hus ih =>
    obtain ⟨xs, n, hn, hmore⟩ := ih
    obtain ⟨ys, hread⟩ := hts.reads
    refine ⟨ys ++ xs, n + 1, ?_, fun rest k hrest => ?_⟩
    · obtain ⟨t, vs, rfl, -⟩ := hts.starts
      simp only [List.length_append, List.length_cons]
      omega
    · have hitem : Reads item ts (us ++ rest) [] ys := hread _ (notNext_else_of_pieces hus hrest)
      have hothers := leads_then (f := fun others => pure (ys ++ others)) (hmore rest k hrest)
      have hjoin : ((xs ++ ·) <$> loop k >>= fun others => pure (ys ++ others)) = (ys ++ xs ++ ·) <$> loop k := by
        simp only [map_eq_pure_bind, bind_assoc, pure_bind, List.append_assoc]
      rw [hjoin] at hothers
      rw [show n + 1 + k = n + k + 1 by omega]
      have hfirst := hl.more (n + k) (ts ++ us ++ rest) (startsWith_append (startsWith_append hts.starts))
      exact leads_trans hfirst (leads_seq hitem hothers)

/-- Pieces are read in the same way before others and up to where the loop stops. -/
theorem reads_pieces (hl : Repeats item stop loop) (h : Sequence (Piece item) ts)
    (hstop : NotNext (.keyword .kwElse) stop) : ∃ xs n, n ≤ ts.length ∧
    (∀ rest k, NotNext (.keyword .kwElse) rest → Leads (loop (n + k)) ts rest [] ((xs ++ ·) <$> loop k)) ∧
    ∀ k, ts.length < k → Reads (loop k) ts stop [] xs := by
  obtain ⟨xs, n, hn, hread⟩ := leads_pieces hl h
  refine ⟨xs, n, hn, hread, fun k hk => ?_⟩
  obtain ⟨j, rfl⟩ : ∃ j, k = n + (j + 1) := ⟨k - n - 1, by omega⟩
  have hlast := reads_map (xs ++ ·) (hl.done j)
  rw [List.append_nil] at hlast
  exact leads_trans_last (hread stop (j + 1) hstop) hlast

/-- What is parsed with errors before other pieces. -/
theorem mends_more {xs ys : List α} (hl : Repeats item stop loop) (hs : StartsWith startsPiece ts)
    (h : Mends item ts (vs ++ stop) es xs) (hv : Reads (loop k) vs stop [] ys) :
    Mends (loop (k + 1)) (ts ++ vs) stop es (xs ++ ys) := by
  refine mends_start (hl.more k _ (startsWith_append (startsWith_append hs))) (mends_bind h ?_)
  exact leads_bind_last hv (leads_refl _ stop)

/-- Something between two pieces is parsed with errors. -/
theorem mends_pieces {xs : List α} (hl : Repeats item stop loop) (hu : Sequence (Piece item) us)
    (hv : Sequence (Piece item) vs) (hstop : NotNext (.keyword .kwElse) stop) (hs : StartsWith startsPiece ts)
    (h : Mends item ts (vs ++ stop) es xs) : ∃ ys zs,
    (∀ k, us.length < k → Reads (loop k) us stop [] ys) ∧ (∀ k, vs.length < k → Reads (loop k) vs stop [] zs) ∧
    ∀ k, us.length + vs.length + 1 < k → Mends (loop k) (us ++ (ts ++ vs)) stop es (ys ++ (xs ++ zs)) := by
  obtain ⟨ys, n, hn, hbefore, hus⟩ := reads_pieces hl hu hstop
  obtain ⟨zs, -, -, -, hvs⟩ := reads_pieces hl hv hstop
  refine ⟨ys, zs, hus, hvs, fun k hk => ?_⟩
  obtain ⟨j, rfl⟩ : ∃ j, k = n + (j + 1) := ⟨k - n - 1, by omega⟩
  have helse : NotNext (.keyword .kwElse) (ts ++ vs ++ stop) :=
    notNext_of_startsWith (startsWith_append hs) rfl stop
  exact mends_lead (hbefore _ (j + 1) helse) (mends_map (ys ++ ·) (mends_more hl hs h (hvs j (by omega))))

/-- Something between two pieces is dropped. -/
theorem agrees_dropped (hl : Repeats item stop loop) (hu : Sequence (Piece item) us) (hv : Sequence (Piece item) vs)
    (hstop : NotNext (.keyword .kwElse) stop) (hs : StartsWith startsPiece ts) (h : Mends item ts (vs ++ stop) es [])
    (hk : us.length + ts.length + vs.length < k) :
    ∃ xs, Agrees (loop k) (us ++ (ts ++ vs)) (us ++ vs) stop es xs := by
  obtain ⟨xs, n, hn, hbefore, -⟩ := reads_pieces hl hu hstop
  obtain ⟨ys, -, -, -, hafter⟩ := reads_pieces hl hv hstop
  have htokens := startsWith_length hs
  obtain ⟨j, rfl⟩ : ∃ j, k = n + (j + 1) := ⟨k - n - 1, by omega⟩
  have hmid : Agrees (loop (j + 1)) (ts ++ vs) vs stop es ys :=
    ⟨mends_more hl hs h (hafter j (by omega)), hafter (j + 1) (by omega)⟩
  refine ⟨xs ++ ys, agrees_lead (hbefore _ _ ?_) (hbefore _ _ ?_) (agrees_map _ hmid)⟩
  · exact notNext_of_startsWith (startsWith_append hs) rfl stop
  · exact notNext_else_of_pieces hv hstop

/-- Something among the pieces is changed. -/
theorem agrees_changed {xs : List α} (hl : Repeats item stop loop) (hu : Sequence (Piece item) us)
    (hv : Sequence (Piece item) vs) (hstop : NotNext (.keyword .kwElse) stop) (hd : StartsWith startsPiece dirty)
    (hc : StartsWith startsPiece clean) (h : Agrees item dirty clean (vs ++ stop) es xs)
    (hk : us.length + vs.length + 1 < k) :
    ∃ xs, Agrees (loop k) (us ++ (dirty ++ vs)) (us ++ (clean ++ vs)) stop es xs := by
  obtain ⟨ys, n, hn, hbefore, -⟩ := reads_pieces hl hu hstop
  obtain ⟨zs, -, -, -, hafter⟩ := reads_pieces hl hv hstop
  obtain ⟨j, rfl⟩ : ∃ j, k = n + (j + 1) := ⟨k - n - 1, by omega⟩
  have hlast : Reads (loop j >>= fun others => pure (xs ++ others)) vs stop [] (xs ++ zs) :=
    leads_bind_last (hafter j (by omega)) (leads_refl _ stop)
  have hmid := agrees_start (hl.more j _ (startsWith_append (startsWith_append hd)))
    (hl.more j _ (startsWith_append (startsWith_append hc))) (agrees_bind h hlast)
  refine ⟨ys ++ (xs ++ zs), agrees_lead (hbefore _ _ ?_) (hbefore _ _ ?_) (agrees_map _ hmid)⟩
  · exact notNext_of_startsWith (startsWith_append hd) rfl stop
  · exact notNext_of_startsWith (startsWith_append hc) rfl stop

/-! ### Declarations and methods are repeated -/

theorem startsPiece_of_startsDecl {l : Lexeme} (h : startsDecl l = true) : startsPiece l = true := by
  simp only [startsPiece, Bool.and_eq_true, decide_eq_true_iff]
  constructor <;> (rintro rfl; exact absurd h (by decide))

/-- A program is a repetition of declarations, up to the end of the input. -/
theorem repeats_program (b : Nat) : Repeats (Option.toList <$> declaration b {}) [] (program b) where
  done _ := leads_atEnd (leads_refl _ _)
  more k ts hs := by
    obtain ⟨t, us, rfl, -⟩ := hs
    rw [bind_map_left]
    exact leads_atEnd (leads_refl _ _)

/-- A block is a repetition of declarations, up to its closing brace. -/
theorem repeats_declarations (b : Nat) (c : Context) (q : Pos) (rest : List Token) :
    Repeats (Option.toList <$> declaration b c) (Punct.rightBrace.token q :: rest) ((innerAt b).declarations c) where
  done _ := leads_nextIs_true (leads_atEnd (leads_refl _ _))
  more k ts hs := by
    have hn := notNext_of_startsWith hs (l := .punct .rightBrace) rfl []
    obtain ⟨t, us, rfl, -⟩ := hs
    rw [List.append_nil] at hn
    rw [bind_map_left]
    exact leads_nextIs hn (leads_atEnd (leads_refl _ _))

/-- A class is a repetition of methods, up to its closing brace. -/
theorem repeats_methods (b : Nat) (c : Context) (q : Pos) (rest : List Token) :
    Repeats ((fun d => [d]) <$> (innerAt b).function c .expectMethodName) (Punct.rightBrace.token q :: rest)
      ((innerAt b).methods c) where
  done _ := leads_nextIs_true (leads_atEnd (leads_refl _ _))
  more k ts hs := by
    have hn := notNext_of_startsWith hs (l := .punct .rightBrace) rfl []
    obtain ⟨t, us, rfl, -⟩ := hs
    rw [List.append_nil] at hn
    rw [bind_map_left]
    exact leads_nextIs hn (leads_atEnd (leads_refl _ _))

theorem pieces_of_declared (h : Sequence (Declared c) ts) (hb : ts.length + 3 ≤ b) :
    Sequence (Piece (Option.toList <$> declaration b c)) ts := by
  induction h with
  | nil => exact .nil
  | @cons ts us hts _ ih =>
    rw [List.length_append] at hb
    obtain ⟨s, hs⟩ := reads_declared hts
    refine .cons ⟨?_, [s], fun rest hrest => ?_⟩ (ih (by omega))
    · exact startsWith_imp startsPiece_of_startsDecl hts.starts
    · exact reads_map Option.toList (hs b rest hrest (by omega))

theorem pieces_of_functionLike (h : Sequence (FunctionLike c) ts) (hb : ts.length + 2 ≤ b) :
    Sequence (Piece ((fun d => [d]) <$> (innerAt b).function c .expectMethodName)) ts := by
  induction h with
  | nil => exact .nil
  | @cons ts us hts _ ih =>
    rw [List.length_append] at hb
    obtain ⟨d, hd⟩ := reads_functionLike hts
    refine .cons ⟨?_, [d], fun rest hrest => ?_⟩ (ih (by omega))
    · obtain ⟨x, t, vs, rfl, ht⟩ := hts.starts
      exact ⟨t, vs, rfl, by simp [startsPiece, of_decide_eq_true ht]⟩
    · exact reads_map _ (hd b rest hrest (by omega))

end Lox.Parser
