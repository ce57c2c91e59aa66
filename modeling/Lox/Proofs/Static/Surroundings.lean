import Lox.Proofs.Static.Selves

/-! Keywords that need something around them. A `this` has to stand in a class, a return in a function or a method, and a
break in a loop of the function that it stands in. What is around a keyword can be read off a statement from outside, as
the loops, functions and classes that enclose it, or is kept as a context on the way in; both allow the same keywords. -/
namespace Lox

open Lox.Parser (Context)

/-- A keyword that needs something around it. -/
inductive Restricted where
  | this | returnValue | breakLoop
deriving DecidableEq

/-- What encloses a keyword. A loop with clauses is a loop, and a method is a function in a class. -/
inductive Ring where
  | loop | function | classDecl
deriving DecidableEq

namespace Restricted

def keyword : Restricted → Keyword
  | this => .kwThis
  | returnValue => .kwReturn
  | breakLoop => .kwBreak

def cause : Restricted → SyntaxError.Cause
  | this => .thisOutsideClass
  | returnValue => .returnOutsideFunction
  | breakLoop => .breakOutsideLoop

def token (k : Restricted) (q : Pos) : Token := ⟨.keyword k.keyword, q⟩

def complaint (k : Restricted) (q : Pos) : SyntaxError := ⟨k.cause, .token (k.token q)⟩

/-- The rings around a keyword, the innermost first, allow it. -/
def Allowed : Restricted → List Ring → Prop
  | this, rings => .classDecl ∈ rings
  | returnValue, rings => .function ∈ rings
  | breakLoop, rings => .loop ∈ rings.takeWhile (· ≠ .function)

instance : (k : Restricted) → (rings : List Ring) → Decidable (k.Allowed rings)
  | this, _ | returnValue, _ | breakLoop, _ => inferInstanceAs (Decidable (_ ∈ _))

def allowedIn (c : Context) : Restricted → Bool
  | this => c.inClass
  | returnValue => c.inFunction
  | breakLoop => c.inLoop

end Restricted

def Ring.enter : Ring → Context → Context
  | loop, c => c.enterLoop
  | function, c => c.enterFunction
  | classDecl, c => c.enterClass

/-- The contexts of a parser allow what the rings around allow. -/
theorem allowedIn_iff (k : Restricted) (rings : List Ring) :
    k.allowedIn (rings.foldr Ring.enter {}) = true ↔ k.Allowed rings := by
  induction rings with
  | nil => cases k <;> simp [Restricted.allowedIn, Restricted.Allowed]
  | cons ring rings ih =>
    rw [List.foldr_cons]
    generalize rings.foldr Ring.enter {} = c at ih ⊢
    cases k with
    | this =>
      change c.inClass = true ↔ .classDecl ∈ rings at ih
      change (ring.enter c).inClass = true ↔ .classDecl ∈ ring :: rings
      cases ring <;> simp [Ring.enter, Context.enterLoop, Context.enterFunction, Context.enterClass, ih]
    | returnValue =>
      change c.inFunction = true ↔ .function ∈ rings at ih
      change (ring.enter c).inFunction = true ↔ .function ∈ ring :: rings
      cases ring <;> simp [Ring.enter, Context.enterLoop, Context.enterFunction, Context.enterClass, ih]
    | breakLoop =>
      -- a function hides the loops around it
      change c.inLoop = true ↔ .loop ∈ rings.takeWhile (· ≠ .function) at ih
      change (ring.enter c).inLoop = true ↔ .loop ∈ (ring :: rings).takeWhile (· ≠ .function)
      cases ring <;> simp [Ring.enter, Context.enterLoop, Context.enterFunction, Context.enterClass, ih]

namespace Stmt

def ownSelves : Stmt → List Pos
  | .expr e | .print e => e.selves
  | .var _ e | .returnValue _ e => Expr.selvesOption e
  | .ifThen test _ _ | .whileLoop test _ => test.selves
  | .block _ | .function _ | .breakLoop _ | .classDecl _ _ => []

/-- The keyword stands at a place somewhere in the statement, and the rings are around it there, the innermost first. -/
inductive Holds : Restricted → Pos → List Ring → Stmt → Prop
  | this {q : Pos} {s : Stmt} (hq : q ∈ s.ownSelves) : Holds .this q [] s
  | returnValue (q : Pos) (value : Option Expr) : Holds .returnValue q [] (.returnValue q value)
  | breakLoop (q : Pos) : Holds .breakLoop q [] (.breakLoop q)
  | block {k : Restricted} {q : Pos} {rings : List Ring} {s : Stmt} {ss : List Stmt} (hs : s ∈ ss)
    (h : Holds k q rings s) : Holds k q rings (.block ss)
  | yes {k : Restricted} {q : Pos} {rings : List Ring} {e : Expr} {yes : Stmt} {no : Option Stmt}
    (h : Holds k q rings yes) : Holds k q rings (.ifThen e yes no)
  | no {k : Restricted} {q : Pos} {rings : List Ring} {e : Expr} {yes no : Stmt} (h : Holds k q rings no) :
    Holds k q rings (.ifThen e yes (some no))
  | loop {k : Restricted} {q : Pos} {rings : List Ring} {e : Expr} {body : Stmt} (h : Holds k q rings body) :
    Holds k q (rings ++ [.loop]) (.whileLoop e body)
  | function {k : Restricted} {q : Pos} {rings : List Ring} {s : Stmt} {d : FunctionDecl} (hs : s ∈ d.body)
    (h : Holds k q rings s) : Holds k q (rings ++ [.function]) (.function d)
  | method {k : Restricted} {q : Pos} {rings : List Ring} {s : Stmt} {x : Name} {d : FunctionDecl}
    {ds : List FunctionDecl} (hd : d ∈ ds) (hs : s ∈ d.body) (h : Holds k q rings s) :
    Holds k q (rings ++ [.function, .classDecl]) (.classDecl x ds)

end Stmt

structure Ruling where
  what : Restricted
  pos : Pos
  allowed : Bool

namespace Ruling

def token (r : Ruling) : Token := r.what.token r.pos

end Ruling

namespace Expr

def rulings (inClass : Bool) (e : Expr) : List Ruling := e.selves.map (⟨.this, ·, inClass⟩)

def rulingsOption (inClass : Bool) (e : Option Expr) : List Ruling := (selvesOption e).map (⟨.this, ·, inClass⟩)

end Expr

mutual

def Stmt.rulings (c : Context) : Stmt → List Ruling
  | .expr e => e.rulings c.inClass
  | .print e => e.rulings c.inClass
  | .var _ e => Expr.rulingsOption c.inClass e
  | .block ss => Stmt.rulingsAll c ss
  | .ifThen test yes no => test.rulings c.inClass ++ yes.rulings c ++ Stmt.rulingsOption c no
  | .whileLoop test body => test.rulings c.inClass ++ body.rulings c.enterLoop
  | .function d => Routine.rulings c.enterFunction d
  | .returnValue q e => ⟨.returnValue, q, c.inFunction⟩ :: Expr.rulingsOption c.inClass e
  | .breakLoop q => [⟨.breakLoop, q, c.inLoop⟩]
  | .classDecl _ ds => Routine.rulingsAll c.enterClass.enterFunction ds

def Stmt.rulingsAll (c : Context) : List Stmt → List Ruling
  | [] => []
  | s :: ss => s.rulings c ++ Stmt.rulingsAll c ss

def Stmt.rulingsOption (c : Context) : Option Stmt → List Ruling
  | none => []
  | some s => s.rulings c

def Routine.rulings (c : Context) : FunctionDecl → List Ruling
  | ⟨_, _, body⟩ => Stmt.rulingsAll c body

def Routine.rulingsAll (c : Context) : List FunctionDecl → List Ruling
  | [] => []
  | d :: ds => Routine.rulings c d ++ Routine.rulingsAll c ds

end

namespace Expr

variable {inClass : Bool}

theorem map_selvesAll (es : List Expr) :
    (selvesAll es).map (⟨.this, ·, inClass⟩) = es.flatMap (rulings inClass) := by
  induction es with
  | nil => rfl
  | cons e es ih => rw [selvesAll, List.map_append, ih, List.flatMap_cons, rulings]

theorem rulings_call (f : Expr) (es : List Expr) (q : Pos) :
    (call f es q).rulings inClass = f.rulings inClass ++ es.flatMap (rulings inClass) := by
  rw [rulings, selves, List.map_append, map_selvesAll, rulings]

end Expr

theorem Routine.rulings_eq (c : Context) (d : FunctionDecl) : Routine.rulings c d = Stmt.rulingsAll c d.body := by
  cases d
  rfl

namespace Stmt

variable {c : Context} {r : Ruling}

theorem rulingsAll_toList (first : Option Stmt) (others : List Stmt) :
    rulingsAll c (first.toList ++ others) = rulingsOption c first ++ rulingsAll c others := by
  cases first with
  | none => rfl
  | some s => rfl

theorem mem_rulingsAll {s : Stmt} {ss : List Stmt} (hs : s ∈ ss) (hr : r ∈ s.rulings c) : r ∈ rulingsAll c ss := by
  induction ss with
  | nil => cases hs
  | cons t ss ih =>
    rcases List.mem_cons.mp hs with rfl | hs
    · exact List.mem_append_left _ hr
    · exact List.mem_append_right _ (ih hs)

theorem mem_rulings_method {d : FunctionDecl} {ds : List FunctionDecl} (hd : d ∈ ds)
    (hr : r ∈ rulingsAll c d.body) : r ∈ Routine.rulingsAll c ds := by
  induction ds with
  | nil => cases hd
  | cons d' ds ih =>
    rcases List.mem_cons.mp hd with rfl | hd
    · rw [← Routine.rulings_eq] at hr
      exact List.mem_append_left _ hr
    · exact List.mem_append_right _ (ih hd)

/-- About each `this` in the expressions of a statement there is a ruling. -/
theorem mem_rulings_of_ownSelves {q : Pos} {s : Stmt} (hq : q ∈ s.ownSelves) :
    ⟨.this, q, c.inClass⟩ ∈ s.rulings c := by
  have hmap {ps : List Pos} (h : q ∈ ps) : (⟨.this, q, c.inClass⟩ : Ruling) ∈ ps.map (⟨.this, ·, c.inClass⟩) :=
    List.mem_map_of_mem h
  cases s with
  | expr | print | var => exact hmap hq
  | ifThen => exact List.mem_append_left _ (List.mem_append_left _ (hmap hq))
  | whileLoop => exact List.mem_append_left _ (hmap hq)
  | returnValue => exact List.mem_cons_of_mem _ (hmap hq)
  | block | function | breakLoop | classDecl => cases hq

/-- What is found about a keyword follows from the rings around it. -/
theorem mem_rulings_of_holds {k : Restricted} {q : Pos} {rings : List Ring} {s : Stmt} (h : Holds k q rings s)
    (c : Context) : ⟨k, q, k.allowedIn (rings.foldr Ring.enter c)⟩ ∈ s.rulings c := by
  induction h generalizing c with
  | this hq => exact mem_rulings_of_ownSelves hq
  | returnValue => exact List.mem_cons_self
  | breakLoop => exact List.mem_cons_self
  | block hs _ ih => exact mem_rulingsAll hs (ih c)
  | yes _ ih => exact List.mem_append_left _ (List.mem_append_right _ (ih c))
  | no _ ih => exact List.mem_append_right _ (ih c)
  | loop _ ih =>
    rw [List.foldr_append]
    exact List.mem_append_right _ (ih c.enterLoop)
  | @function _ _ _ _ d hs _ ih =>
    rw [List.foldr_append, rulings, Routine.rulings_eq]
    exact mem_rulingsAll hs (ih c.enterFunction)
  | method hd hs _ ih =>
    rw [List.foldr_append]
    exact mem_rulings_method hd (mem_rulingsAll hs (ih c.enterClass.enterFunction))

end Stmt
end Lox
