import Lox.Proofs.Parser.Printing

/-! Expressions that are printed with operators last. Their text has no parentheses, and it tells the expression as soon
as one knows how many operands its operators have. Two words do not show this: `-` stands between operands or before
one, and a call has as many as it likes. -/
namespace Lox

open Form

/-! ### Items -/

/-- A word, with the number of its operands if it is an operator. -/
structure Item where
  word : Lexeme
  operands : Option Nat
deriving DecidableEq

namespace Form

mutual

def items : Form → List Item
  | .word l => [⟨l, none⟩]
  | .node l fs => itemsAll fs ++ [⟨l, some fs.length⟩]

def itemsAll : List Form → List Item
  | [] => []
  | f :: fs => f.items ++ itemsAll fs

end

mutual

/-- Without the numbers of operands the items are the words that are printed. -/
theorem map_word_items : (f : Form) → f.items.map Item.word = f.lexemes .operatorLast
  | .word _ => rfl
  | .node l fs => by
    rw [items, lexemes, List.map_append, map_word_itemsAll fs]
    rfl

theorem map_word_itemsAll : (fs : List Form) → (itemsAll fs).map Item.word = (lexemesEach .operatorLast fs).flatten
  | [] => rfl
  | f :: fs => by
    rw [itemsAll, lexemesEach, List.map_append, List.flatten_cons, map_word_items f, map_word_itemsAll fs]

end

/-- Items are read from the left. An operator takes its operands off the stack. -/
def read : List Item → List Form → List Form
  | [], stack => stack
  | ⟨l, none⟩ :: rest, stack => read rest (.word l :: stack)
  | ⟨l, some n⟩ :: rest, stack => read rest (.node l (stack.take n).reverse :: stack.drop n)

mutual

/-- Reading the items of a form puts the form on the stack, whatever comes behind. -/
theorem read_items : (f : Form) → (rest : List Item) → (stack : List Form) →
    read (f.items ++ rest) stack = read rest (f :: stack)
  | .word _, _, _ => rfl
  | .node l fs, rest, stack => by
    -- the last operand is on top of the stack
    have htake : (fs.reverse ++ stack).take fs.length = fs.reverse := List.take_left' List.length_reverse
    have hdrop : (fs.reverse ++ stack).drop fs.length = stack := List.drop_left' List.length_reverse
    rw [items, List.append_assoc, read_itemsAll fs, List.singleton_append, read, htake, hdrop, List.reverse_reverse]

/-- Several forms are put on the stack one after the other, the last one on top. -/
theorem read_itemsAll : (fs : List Form) → (rest : List Item) → (stack : List Form) →
    read (itemsAll fs ++ rest) stack = read rest (fs.reverse ++ stack)
  | [], _, _ => rfl
  | f :: fs, rest, stack => by
    rw [itemsAll, List.append_assoc, read_items f, read_itemsAll fs, List.reverse_cons, List.append_assoc]
    rfl

end

/-- The items tell the form. -/
theorem eq_of_items {f g : Form} (h : f.items = g.items) : f = g := by
  have hf := read_items f [] []
  rw [h, read_items g [] []] at hf
  exact (List.cons.inj hf).1.symm

end Form

/-! ### Operators that show how many operands they have -/

namespace Lexeme

/-- The word does not show how many operands it has. -/
def Loose (l : Lexeme) : Prop := l = .punct .minus ∨ l = callWord

instance (l : Lexeme) : Decidable l.Loose := inferInstanceAs (Decidable (_ ∨ _))

def operands : Lexeme → Option Nat
  | .punct .bang => some 1
  | .punct _ | .keyword .kwAnd | .keyword .kwOr => some 2
  | _ => none

end Lexeme

/-- Items with the same words are the same, if those of loose words have the same operands and the others have as many as
they show. -/
theorem eq_of_words {ps qs : List Item} (hwords : ps.map Item.word = qs.map Item.word)
    (hloose : (ps.filter fun i => i.word.Loose).map Item.operands = (qs.filter fun i => i.word.Loose).map Item.operands)
    (hps : ∀ i ∈ ps, i.word.Loose ∨ i.operands = i.word.operands)
    (hqs : ∀ i ∈ qs, i.word.Loose ∨ i.operands = i.word.operands) : ps = qs := by
  induction ps generalizing qs with
  | nil => exact (List.map_eq_nil_iff.mp hwords.symm).symm
  | cons p ps ih =>
    obtain ⟨q, qs, rfl, hword, hrest⟩ := List.map_eq_cons_iff.mp hwords.symm
    obtain ⟨hp, hps⟩ := List.forall_mem_cons.mp hps
    obtain ⟨hq, hqs⟩ := List.forall_mem_cons.mp hqs
    -- the operands of a loose word are the next ones of the list, those of any other word are shown by the word
    by_cases hl : p.word.Loose
    · have hl' : q.word.Loose := hword ▸ hl
      rw [List.filter_cons_of_pos (by simpa using hl), List.filter_cons_of_pos (by simpa using hl'), List.map_cons,
        List.map_cons, List.cons.injEq] at hloose
      have hitem : p = q := by
        cases p
        cases q
        cases hword
        cases hloose.1
        rfl
      rw [hitem, ih hrest.symm hloose.2 hps hqs]
    · have hl' : ¬ q.word.Loose := hword ▸ hl
      rw [List.filter_cons_of_neg (by simpa using hl), List.filter_cons_of_neg (by simpa using hl')] at hloose
      have hitem : p = q := by
        have hp := hp.resolve_left hl
        have hq := hq.resolve_left hl'
        cases p
        cases q
        cases hword
        exact congrArg _ (hp.trans hq.symm)
      rw [hitem, ih hrest.symm hloose hps hqs]

/-! ### Expressions inside an expression -/

namespace Expr

/-- The expression `t` is the given one or stands somewhere inside it. -/
inductive Inside (t : Expr) : Expr → Prop
  | self : Inside t t
  | group {e : Expr} (h : Inside t e) : Inside t (.group e)
  | unary {op : UnaryOp} {p : Pos} {e : Expr} (h : Inside t e) : Inside t (.unary op p e)
  | left {op : BinaryOp} {p : Pos} {l r : Expr} (h : Inside t l) : Inside t (.binary op p l r)
  | right {op : BinaryOp} {p : Pos} {l r : Expr} (h : Inside t r) : Inside t (.binary op p l r)
  | first {op : LogicalOp} {l r : Expr} (h : Inside t l) : Inside t (.logical op l r)
  | second {op : LogicalOp} {l r : Expr} (h : Inside t r) : Inside t (.logical op l r)
  | assigned {x : Name} {v : Expr} (h : Inside t v) : Inside t (.assign x v)
  | callee {f : Expr} {es : List Expr} {p : Pos} (h : Inside t f) : Inside t (.call f es p)
  | argument {f e : Expr} {es : List Expr} {p : Pos} (he : e ∈ es) (h : Inside t e) : Inside t (.call f es p)
  | object {o : Expr} {x : Name} (h : Inside t o) : Inside t (.get o x)
  | target {o v : Expr} {x : Name} (h : Inside t o) : Inside t (.set o x v)
  | value {o v : Expr} {x : Name} (h : Inside t v) : Inside t (.set o x v)

/-- What stands inside an expression is as legible as the expression. -/
theorem legible_of_inside {e t : Expr} (h : Inside t e) (he : e.form.Legible) : t.form.Legible := by
  induction h with
  | self => exact he
  | group _ ih | unary _ ih | left _ ih | first _ ih | callee _ ih | object _ ih => exact ih he.2.1
  | right _ ih | second _ ih | assigned _ ih | value _ ih => exact ih he.2.2.1
  | argument hmem _ ih =>
    apply ih
    apply legible_of_mem he.2.2
    rw [formAll_exprs]
    exact List.mem_map_of_mem hmem
  | target _ ih => exact ih he.2.1.2.1

end Expr

def Stmt.exprs : Stmt → List Expr
  | .expr e | .print e | .ifThen e _ _ | .whileLoop e _ => [e]
  | .var _ e | .returnValue _ e => e.toList
  | .block _ | .function _ | .breakLoop _ | .classDecl _ _ => []

/-- The expression stands in a source that is valid. -/
def Expr.Parsed (t : Expr) : Prop := ∃ s e, Stmt.Parsed s ∧ e ∈ s.exprs ∧ t.Inside e

theorem legible_of_exprs {s : Stmt} {e : Expr} (h : s.form.Legible) (he : e ∈ s.exprs) : e.form.Legible := by
  cases s with
  | expr => exact List.mem_singleton.mp he ▸ h
  | print => exact List.mem_singleton.mp he ▸ h.2.1
  | ifThen | whileLoop => exact List.mem_singleton.mp he ▸ h.2.1
  | var x v =>
    obtain rfl := Option.mem_toList.mp he
    exact h.2.2.1
  | returnValue p v =>
    obtain rfl := Option.mem_toList.mp he
    exact h.2.1
  | block | function | breakLoop | classDecl => cases he

theorem Expr.legible_of_parsed {t : Expr} (h : t.Parsed) : t.form.Legible := by
  obtain ⟨s, e, hs, he, ht⟩ := h
  exact legible_of_inside ht (legible_of_exprs (Stmt.legible_of_parsed hs) he)

theorem Expr.parsed_of_source {source : Text} {e : Expr} (h : (Program.ofSource source).isValid = true)
    (he : e ∈ (Program.ofSource source).stmts.flatMap Stmt.exprs) : e.Parsed := by
  obtain ⟨s, hs, hmem⟩ := List.mem_flatMap.mp he
  exact ⟨s, e, ⟨source, s, h, hs, .self⟩, hmem, .self⟩

mutual

/-- Without parentheses an expression is as legible as with them. -/
theorem legible_ungroup : (e : Expr) → e.form.Legible → e.ungroup.form.Legible
  | .literal _, h | .variable _, h | .this _, h => h
  | .group e, h => legible_ungroup e h.2.1
  | .unary _ _ e, h => ⟨h.1, legible_ungroup e h.2.1, trivial⟩
  | .binary _ _ l r, h => ⟨h.1, legible_ungroup l h.2.1, legible_ungroup r h.2.2.1, trivial⟩
  | .logical _ l r, h => ⟨h.1, legible_ungroup l h.2.1, legible_ungroup r h.2.2.1, trivial⟩
  | .assign _ v, h => ⟨h.1, h.2.1, legible_ungroup v h.2.2.1, trivial⟩
  | .call f es _, h => ⟨h.1, legible_ungroup f h.2.1, legible_ungroupAll es h.2.2⟩
  | .get o _, h => ⟨h.1, legible_ungroup o h.2.1, h.2.2⟩
  | .set o _ v, h => ⟨h.1, ⟨h.2.1.1, legible_ungroup o h.2.1.2.1, h.2.1.2.2⟩, legible_ungroup v h.2.2.1, trivial⟩

theorem legible_ungroupAll : (es : List Expr) → LegibleAll (Expr.formAll es) →
    LegibleAll (Expr.formAll (Expr.ungroupAll es))
  | [], _ => trivial
  | e :: es, h => ⟨legible_ungroup e h.1, legible_ungroupAll es h.2⟩

end

/-! ### The items of an expression -/

namespace Expr

def ownItems : Expr → List Item
  | .literal a => [⟨a.word, none⟩]
  | .group _ => []
  | .unary op _ _ => [⟨.punct op.punct, some 1⟩]
  | .binary op _ _ _ => [⟨.punct op.punct, some 2⟩]
  | .logical op _ _ => [⟨.keyword op.keyword, some 2⟩]
  | .variable x => [⟨x.word, none⟩]
  | .assign x _ => [⟨x.word, none⟩, ⟨.punct .equal, some 2⟩]
  | .call _ es _ => [⟨callWord, some (es.length + 1)⟩]
  | .get _ x => [⟨x.word, none⟩, ⟨.punct .dot, some 2⟩]
  | .set _ x _ => [⟨x.word, none⟩, ⟨.punct .dot, some 2⟩, ⟨.punct .equal, some 2⟩]
  | .this _ => [⟨.keyword .kwThis, none⟩]

def items (e : Expr) : List Item := e.ungroup.form.items

/-- How many operands its loose words have, in order. -/
def looseOperands (e : Expr) : List (Option Nat) := (e.items.filter fun i => i.word.Loose).map Item.operands

/-- A call, or a minus sign before an operand. -/
def IsLoose : Expr → Prop
  | .unary .negate _ _ | .call _ _ _ => True
  | _ => False

theorem length_formAll_ungroupAll (es : List Expr) : (formAll (ungroupAll es)).length = es.length := by
  induction es with
  | nil => rfl
  | cons e es ih => rw [ungroupAll, formAll, List.length_cons, List.length_cons, ih]

mutual

/-- Each item is that of a node inside the expression. -/
theorem exists_of_mem_items : (e : Expr) → {i : Item} → i ∈ e.items → ∃ t : Expr, t.Inside e ∧ i ∈ t.ownItems
  | .literal _, _, h | .variable _, _, h | .this _, _, h => ⟨_, .self, h⟩
  | .group e, _, h => (exists_of_mem_items e h).imp fun _ ht => ⟨.group ht.1, ht.2⟩
  | .unary op p e, i, h => by
    simp only [items, ungroup, form, Form.items, itemsAll, List.append_nil, List.mem_append] at h
    rcases h with h | h
    · exact (exists_of_mem_items e h).imp fun _ ht => ⟨.unary ht.1, ht.2⟩
    · exact ⟨_, .self, h⟩
  | .binary op p l r, i, h => by
    simp only [items, ungroup, form, Form.items, itemsAll, List.append_nil, List.mem_append] at h
    rcases h with (h | h) | h
    · exact (exists_of_mem_items l h).imp fun _ ht => ⟨.left ht.1, ht.2⟩
    · exact (exists_of_mem_items r h).imp fun _ ht => ⟨.right ht.1, ht.2⟩
    · exact ⟨_, .self, h⟩
  | .logical op l r, i, h => by
    simp only [items, ungroup, form, Form.items, itemsAll, List.append_nil, List.mem_append] at h
    rcases h with (h | h) | h
    · exact (exists_of_mem_items l h).imp fun _ ht => ⟨.first ht.1, ht.2⟩
    · exact (exists_of_mem_items r h).imp fun _ ht => ⟨.second ht.1, ht.2⟩
    · exact ⟨_, .self, h⟩
  | .assign x v, i, h => by
    simp only [items, ungroup, form, Form.items, itemsAll, List.append_nil, List.mem_append] at h
    rcases h with (h | h) | h
    · exact ⟨_, .self, List.mem_append_left [_] h⟩
    · exact (exists_of_mem_items v h).imp fun _ ht => ⟨.assigned ht.1, ht.2⟩
    · exact ⟨_, .self, List.mem_append_right [_] h⟩
  | .call f es p, i, h => by
    simp only [items, ungroup, form, Form.items, itemsAll, List.mem_append, List.length_cons,
      length_formAll_ungroupAll] at h
    rcases h with (h | h) | h
    · exact (exists_of_mem_items f h).imp fun _ ht => ⟨.callee ht.1, ht.2⟩
    · obtain ⟨e, he, ht⟩ := exists_of_mem_itemsAll es h
      exact ht.imp fun _ ht => ⟨.argument he ht.1, ht.2⟩
    · exact ⟨_, .self, h⟩
  | .get o x, i, h => by
    simp only [items, ungroup, form, Form.items, itemsAll, List.append_nil, List.mem_append] at h
    rcases h with (h | h) | h
    · exact (exists_of_mem_items o h).imp fun _ ht => ⟨.object ht.1, ht.2⟩
    · exact ⟨_, .self, List.mem_append_left [_] h⟩
    · exact ⟨_, .self, List.mem_append_right [_] h⟩
  | .set o x v, i, h => by
    simp only [items, ungroup, form, Form.items, itemsAll, List.append_nil, List.mem_append] at h
    rcases h with (((h | h) | h) | h) | h
    · exact (exists_of_mem_items o h).imp fun _ ht => ⟨.target ht.1, ht.2⟩
    · exact ⟨_, .self, List.mem_append_left [_, _] h⟩
    · exact ⟨_, .self, List.mem_append_right [_] (List.mem_append_left [_] h)⟩
    · exact (exists_of_mem_items v h).imp fun _ ht => ⟨.value ht.1, ht.2⟩
    · exact ⟨_, .self, List.mem_append_right [_, _] h⟩

theorem exists_of_mem_itemsAll : (es : List Expr) → {i : Item} → i ∈ itemsAll (formAll (ungroupAll es)) →
    ∃ e ∈ es, ∃ t : Expr, t.Inside e ∧ i ∈ t.ownItems
  | [], _, h => nomatch h
  | e :: es, i, h => by
    rcases List.mem_append.mp h with h | h
    · exact ⟨e, List.mem_cons_self, exists_of_mem_items e h⟩
    · obtain ⟨e', he', ht⟩ := exists_of_mem_itemsAll es h
      exact ⟨e', List.mem_cons_of_mem _ he', ht⟩

end

/-- Only calls and minus signs before an operand have operands that their word does not show. -/
theorem operands_of_mem {t : Expr} {i : Item} (h : i ∈ t.ownItems) :
    i.operands = i.word.operands ∨ i.word.Loose ∧ t.IsLoose := by
  cases t with
  | literal a =>
    obtain rfl := List.mem_singleton.mp h
    cases a with
    | nil | number | string => exact .inl rfl
    | bool b => cases b <;> exact .inl rfl
  | group => cases h
  | unary op =>
    obtain rfl := List.mem_singleton.mp h
    cases op with
    | not => exact .inl rfl
    | negate => exact .inr ⟨.inl rfl, trivial⟩
  | binary op =>
    obtain rfl := List.mem_singleton.mp h
    cases op <;> exact .inl rfl
  | logical op =>
    obtain rfl := List.mem_singleton.mp h
    cases op <;> exact .inl rfl
  | call =>
    obtain rfl := List.mem_singleton.mp h
    exact .inr ⟨.inr rfl, trivial⟩
  | «variable» | this =>
    obtain rfl := List.mem_singleton.mp h
    exact .inl rfl
  | assign | get | set =>
    -- a name, and operators that stand nowhere else
    simp only [ownItems, List.mem_cons, List.not_mem_nil, or_false] at h
    rcases h with rfl | rfl | rfl <;> exact .inl rfl

variable {e e' : Expr}

/-- Only loose words leave open how many operands they have. -/
theorem operands_of_mem_items {i : Item} (h : i ∈ e.items) : i.word.Loose ∨ i.operands = i.word.operands := by
  obtain ⟨t, -, hi⟩ := exists_of_mem_items e h
  rcases operands_of_mem hi with hshown | ⟨hloose, -⟩
  · exact .inr hshown
  · exact .inl hloose

/-- The loose words have the operands that they have in any expression without calls and without minus signs before an
operand. -/
theorem looseOperands_eq (h : ∀ t : Expr, t.Inside e → ¬ t.IsLoose) :
    e.looseOperands = ((e.items.map Item.word).filter fun l => l.Loose).map Lexeme.operands := by
  rw [looseOperands, List.filter_map, List.map_map]
  apply List.map_congr_left
  intro i hi
  obtain ⟨t, ht, hown⟩ := exists_of_mem_items e (List.mem_of_mem_filter hi)
  rcases operands_of_mem hown with hshown | ⟨-, hloose⟩
  · exact hshown
  · exact absurd hloose (h t ht)

/-- The words of the printed text are those of the items. -/
theorem words_of_render (he : e.Parsed) : (e.render .operatorLast).lexemes = e.items.map Item.word := by
  rw [render_last_expr, lexemes_write (legible_ungroup e (legible_of_parsed he)), items, map_word_items]

/-- Expressions from valid sources that are printed with operators last. They have the same text and the same numbers of
operands of loose words if and only if they are the same but for parentheses and places. Where there are no calls and no
minus signs before an operand, the text alone decides. -/
theorem render_last_iff (he : e.Parsed) (he' : e'.Parsed) :
    (e.render .operatorLast = e'.render .operatorLast ∧ e.looseOperands = e'.looseOperands ↔
      e.ungroup.unplaced = e'.ungroup.unplaced) ∧
    ((∀ t : Expr, t.Inside e → ¬ t.IsLoose) → (∀ t : Expr, t.Inside e' → ¬ t.IsLoose) →
      (e.render .operatorLast = e'.render .operatorLast ↔ e.ungroup.unplaced = e'.ungroup.unplaced)) := by
  have hwords (h : e.render .operatorLast = e'.render .operatorLast) :
      e.items.map Item.word = e'.items.map Item.word := by
    rw [← words_of_render he, ← words_of_render he', h]
  have hsame : e.render .operatorLast = e'.render .operatorLast ∧ e.looseOperands = e'.looseOperands ↔
      e.ungroup.unplaced = e'.ungroup.unplaced := by
    rw [unplaced_eq_iff]
    constructor
    · rintro ⟨htext, hloose⟩
      apply eq_of_items
      exact eq_of_words (hwords htext) hloose (fun _ => operands_of_mem_items) fun _ => operands_of_mem_items
    · intro h
      rw [render_last_expr, render_last_expr, looseOperands, looseOperands, items, items, h]
      exact ⟨rfl, rfl⟩
  refine ⟨hsame, ?_⟩
  intro hfixed hfixed'
  constructor
  · intro htext
    refine hsame.mp ⟨htext, ?_⟩
    rw [looseOperands_eq hfixed, looseOperands_eq hfixed', hwords htext]
  · intro h
    exact (hsame.mpr h).1

/-- A call of three operands, of which one is a variable with the name `call`, with other parentheses. -/
theorem render_last_iff_call :
    ((Program.ofSource "f(-(a) - 1, (call));").stmts.flatMap Stmt.exprs).length = 1 ∧
    ((Program.ofSource "(f)((-a - 1), call);").stmts.flatMap Stmt.exprs).length = 1 ∧
    ∀ e ∈ (Program.ofSource "f(-(a) - 1, (call));").stmts.flatMap Stmt.exprs,
      ∀ e' ∈ (Program.ofSource "(f)((-a - 1), call);").stmts.flatMap Stmt.exprs,
        e.render .operatorLast = "f a - 1 - call call" ∧ e.looseOperands = [some 1, some 2, none, some 3] ∧
          e.ungroup.unplaced = e'.ungroup.unplaced := by
  have hvalid : (Program.ofSource "f(-(a) - 1, (call));").isValid = true := by decide +kernel
  have hvalid' : (Program.ofSource "(f)((-a - 1), call);").isValid = true := by decide +kernel
  have htext : ∀ e ∈ (Program.ofSource "f(-(a) - 1, (call));").stmts.flatMap Stmt.exprs,
      e.render .operatorLast = "f a - 1 - call call" ∧ e.looseOperands = [some 1, some 2, none, some 3] := by
    decide +kernel
  have htext' : ∀ e ∈ (Program.ofSource "(f)((-a - 1), call);").stmts.flatMap Stmt.exprs,
      e.render .operatorLast = "f a - 1 - call call" ∧ e.looseOperands = [some 1, some 2, none, some 3] := by
    decide +kernel
  refine ⟨by decide +kernel, by decide +kernel, ?_⟩
  intro e he e' he'
  obtain ⟨hprinted, hloose⟩ := htext e he
  obtain ⟨hprinted', hloose'⟩ := htext' e' he'
  have hsame := (render_last_iff (parsed_of_source hvalid he) (parsed_of_source hvalid' he')).1
  exact ⟨hprinted, hloose, hsame.mp ⟨hprinted.trans hprinted'.symm, hloose.trans hloose'.symm⟩⟩

/-- The text alone does not tell a minus sign before an operand from one between two. -/
theorem render_last_ambiguous : ∃ e e' : Expr, e.Parsed ∧ e'.Parsed ∧
    e.render .operatorLast = e'.render .operatorLast ∧ e.ungroup.unplaced ≠ e'.ungroup.unplaced := by
  have hvalid : (Program.ofSource "-(a - b);").isValid = true := by decide +kernel
  have hvalid' : (Program.ofSource "a - -b;").isValid = true := by decide +kernel
  have htext : ∀ e ∈ (Program.ofSource "-(a - b);").stmts.flatMap Stmt.exprs,
      e.render .operatorLast = "a b - -" ∧ e.ungroup.render .operatorFirst = "(- (- a b))" := by
    decide +kernel
  have htext' : ∀ e ∈ (Program.ofSource "a - -b;").stmts.flatMap Stmt.exprs,
      e.render .operatorLast = "a b - -" ∧ e.ungroup.render .operatorFirst = "(- a (- b))" := by
    decide +kernel
  have hsome : 0 < ((Program.ofSource "-(a - b);").stmts.flatMap Stmt.exprs).length := by decide +kernel
  have hsome' : 0 < ((Program.ofSource "a - -b;").stmts.flatMap Stmt.exprs).length := by decide +kernel
  obtain ⟨e, he⟩ := List.exists_mem_of_length_pos hsome
  obtain ⟨e', he'⟩ := List.exists_mem_of_length_pos hsome'
  obtain ⟨hlast, hfirst⟩ := htext e he
  obtain ⟨hlast', hfirst'⟩ := htext' e' he'
  refine ⟨e, e', parsed_of_source hvalid he, parsed_of_source hvalid' he', hlast.trans hlast'.symm, ?_⟩
  intro hsame
  -- the same trees would be printed alike with operators first
  rw [unplaced_eq_iff] at hsame
  rw [render_first_expr, hsame, ← render_first_expr, hfirst'] at hfirst
  exact absurd hfirst (by decide)

end Expr

end Lox
