import Lox.Parser.Expr

/-! The grammar of expressions, as rules that derive sequences of tokens together with the tree that they spell.
Nothing here refers to how expressions are parsed. -/
namespace Lox

abbrev Punct.token (p : Punct) (pos : Pos) : Token := ⟨.punct p, pos⟩

abbrev Keyword.token (k : Keyword) (pos : Pos) : Token := ⟨.keyword k, pos⟩

abbrev Name.token (x : Name) : Token := ⟨.identifier x.text, x.pos⟩

namespace Grammar

open Lox.Parser (Level)

inductive Rank where
  | assignment
  | operator (level : Level)
  | unary
  | call
  | primary
deriving DecidableEq

def Rank.tighter : Rank → Rank
  | assignment => operator .or
  | operator .or => operator .and
  | operator .and => operator .equality
  | operator .equality => operator .comparison
  | operator .comparison => operator .sum
  | operator .sum => operator .product
  | operator .product => unary
  | unary => call
  | call => primary
  | primary => primary

end Grammar

def BinaryOp.level : BinaryOp → Parser.Level
  | equal | notEqual => .equality
  | greater | greaterEqual | less | lessEqual => .comparison
  | add | subtract => .sum
  | multiply | divide => .product

def LogicalOp.level : LogicalOp → Parser.Level
  | and => .and
  | or => .or

namespace Grammar

/-- One or more items with commas between them, where `P` relates an item to the tokens that spell it. -/
inductive Separated {α : Type} (P : α → List Token → Prop) : List α → List Token → Prop where
  | one {a : α} {ts : List Token} (h : P a ts) : Separated P [a] ts
  | more {a : α} {as : List α} {ts us : List Token} (p : Pos) (h : P a ts) (hs : Separated P as us) :
    Separated P (a :: as) (ts ++ Punct.comma.token p :: us)

structure Listed {α : Type} (P : α → List Token → Prop) (as : List α) (ts : List Token) : Prop where
  items : as = [] ∧ ts = [] ∨ Separated P as ts
  length_le : as.length ≤ maxListLength

inductive Phrase where
  | expr (rank : Rank) (e : Expr)
  | args (es : List Expr)
  | items (es : List Expr)

/-- The rules of expressions. Operators between operands associate to the left, assignments to the right; only
a variable or a property can be assigned to, `this` needs a class around it, and a call has at most
`maxListLength` arguments. -/
inductive Derives (inClass : Bool) : Phrase → List Token → Prop where
  | literalNil (p : Pos) : Derives inClass (.expr .primary (.literal .nil)) [Keyword.kwNil.token p]
  | literalTrue (p : Pos) : Derives inClass (.expr .primary (.literal (.bool true))) [Keyword.kwTrue.token p]
  | literalFalse (p : Pos) : Derives inClass (.expr .primary (.literal (.bool false))) [Keyword.kwFalse.token p]
  | literalNumber (digits : Text) (x : Number) (p : Pos) :
    Derives inClass (.expr .primary (.literal (.number x))) [⟨.number digits x, p⟩]
  | literalString (s : Text) (p : Pos) : Derives inClass (.expr .primary (.literal (.string s))) [⟨.string s, p⟩]
  | name (x : Name) : Derives inClass (.expr .primary (.variable x)) [x.token]
  | this (p : Pos) (h : inClass = true) :
    Derives inClass (.expr .primary (.this p)) [Keyword.kwThis.token p]
  | group {e : Expr} {ts : List Token} (p q : Pos) (h : Derives inClass (.expr .assignment e) ts) :
    Derives inClass (.expr .primary (.group e)) (Punct.leftParen.token p :: ts ++ [Punct.rightParen.token q])
  | call {f : Expr} {es : List Expr} {ts us : List Token} (p paren : Pos)
    (hf : Derives inClass (.expr .call f) ts) (hes : Derives inClass (.args es) us)
    (hlen : es.length ≤ maxListLength) :
    Derives inClass (.expr .call (.call f es paren))
      (ts ++ Punct.leftParen.token p :: us ++ [Punct.rightParen.token paren])
  | get {o : Expr} {ts : List Token} (p : Pos) (x : Name) (h : Derives inClass (.expr .call o) ts) :
    Derives inClass (.expr .call (.get o x)) (ts ++ [Punct.dot.token p, x.token])
  | unary {e : Expr} {ts : List Token} (op : UnaryOp) (p : Pos) (h : Derives inClass (.expr .unary e) ts) :
    Derives inClass (.expr .unary (.unary op p e)) (op.punct.token p :: ts)
  | binary {l r : Expr} {ts us : List Token} (op : BinaryOp) (p : Pos)
    (hl : Derives inClass (.expr (.operator op.level) l) ts)
    (hr : Derives inClass (.expr (Rank.operator op.level).tighter r) us) :
    Derives inClass (.expr (.operator op.level) (.binary op p l r)) (ts ++ op.punct.token p :: us)
  | logical {l r : Expr} {ts us : List Token} (op : LogicalOp) (p : Pos)
    (hl : Derives inClass (.expr (.operator op.level) l) ts)
    (hr : Derives inClass (.expr (Rank.operator op.level).tighter r) us) :
    Derives inClass (.expr (.operator op.level) (.logical op l r)) (ts ++ op.keyword.token p :: us)
  | assign {v : Expr} {ts : List Token} (x : Name) (p : Pos) (h : Derives inClass (.expr .assignment v) ts) :
    Derives inClass (.expr .assignment (.assign x v)) (x.token :: Punct.equal.token p :: ts)
  | set {o v : Expr} {ts us : List Token} (x : Name) (p q : Pos)
    (ho : Derives inClass (.expr .call o) ts) (hv : Derives inClass (.expr .assignment v) us) :
    Derives inClass (.expr .assignment (.set o x v))
      (ts ++ Punct.dot.token p :: x.token :: Punct.equal.token q :: us)
  | tighter {rank : Rank} {e : Expr} {ts : List Token} (h : Derives inClass (.expr rank.tighter e) ts) :
    Derives inClass (.expr rank e) ts
  | noArgs : Derives inClass (.args []) []
  | args {es : List Expr} {ts : List Token} (h : Derives inClass (.items es) ts) : Derives inClass (.args es) ts
  | item {e : Expr} {ts : List Token} (h : Derives inClass (.expr .assignment e) ts) :
    Derives inClass (.items [e]) ts
  | moreItems {e : Expr} {es : List Expr} {ts us : List Token} (p : Pos)
    (he : Derives inClass (.expr .assignment e) ts) (hes : Derives inClass (.items es) us) :
    Derives inClass (.items (e :: es)) (ts ++ Punct.comma.token p :: us)

abbrev Spells (inClass : Bool) (rank : Rank) (e : Expr) (ts : List Token) : Prop :=
  Derives inClass (.expr rank e) ts

end Grammar
end Lox
