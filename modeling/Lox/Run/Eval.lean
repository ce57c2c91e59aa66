import Lox.Run.Machine
import Lox.Run.Operator

/-! Running programs. Expressions and statements are run along their structure; only calls and the turns of a
loop can go on without end, and they alone are bounded by fuel. -/
namespace Lox

inductive Flow where
  | next
  | broke
  | returned (value : Value)

/-- How a call is carried out: with what is called, the arguments, and the place of the closing parenthesis. -/
abbrev Caller := Value → List Value → Pos → Run Value

namespace Run

def lookup (scope : FrameId) (name : Text) (pos : Pos) : Run Value := do
  match (← heap).get? scope name with
  | some value => return value
  | none => fault (.undefinedVariable name) name pos

def assign (scope : FrameId) (name : Name) (value : Value) : Run Unit := do
  match (← heap).resolve? name.text scope with
  | some (frame, _) => modifyHeap (·.define frame name.text value)
  | none => fault (.undefinedVariable name.text) name.text name.pos

/-- A method as a function of its own, which knows the instance as `this`. -/
def bind (decl : FunctionDecl) (c : Class) (self : Value) : Run Closure := do
  let scope ← alloc (·.pushFrame c.scope [(thisName, self)])
  let serial ← alloc Heap.nextSerial
  return ⟨serial, decl, scope, decl.name.text = initName⟩

def getProperty (object : Value) (name : Name) : Run Value := do
  match object with
  | .object c id =>
    match ((← heap).fields id).get? name.text with
    | some value => return value
    | none =>
      match c.method? name.text with
      | some decl => .function <$> bind decl c object
      | none => fault (.undefinedProperty name.text) name.text name.pos
  | _ => fault .noProperties name.text name.pos

def result (token : Text) (pos : Pos) : Except Fault.Cause Value → Run Value
  | .ok value => return value
  | .error cause => fault cause token pos

end Run

mutual

def Expr.eval (call : Caller) (scope : FrameId) : Expr → Run Value
  | .literal value => return .ofLiteral value
  | .group inner => inner.eval call scope
  | .unary op pos operand => do
    let value ← operand.eval call scope
    Run.result op.spelling pos (op.apply value)
  | .binary op pos left right => do
    let l ← left.eval call scope
    let r ← right.eval call scope
    Run.result op.spelling pos (op.apply l r)
  | .logical op left right => do
    let l ← left.eval call scope
    if op.isDecidedBy l then return l else right.eval call scope
  | .variable name => Run.lookup scope name.text name.pos
  | .assign name value => do
    let v ← value.eval call scope
    Run.assign scope name v
    return v
  | .call callee args paren => do
    let f ← callee.eval call scope
    let values ← Expr.evalAll call scope args
    call f values paren
  | .get object name => do
    let o ← object.eval call scope
    Run.getProperty o name
  | .set object name value => do
    match ← object.eval call scope with
    | .object _ id =>
      let v ← value.eval call scope
      Run.modifyHeap (·.setField id name.text v)
      return v
    | _ => Run.fault .noFields name.text name.pos
  | .this pos => Run.lookup scope thisName pos

def Expr.evalAll (call : Caller) (scope : FrameId) : List Expr → Run (List Value)
  | [] => return []
  | e :: es => do
    let v ← e.eval call scope
    return v :: (← Expr.evalAll call scope es)

end

def Expr.evalOption (call : Caller) (scope : FrameId) : Option Expr → Run Value
  | none => return .nil
  | some e => e.eval call scope

namespace Run

def iterate (test : Run Value) (body : Run Flow) : (fuel : Nat) → Run Flow
  | 0 => exhausted
  | fuel + 1 => do
    if (← test).truthy then
      match ← body with
      | .next => iterate test body fuel
      | .broke => return .next
      | .returned value => return .returned value
    else return .next

def logBlock (policy : Policy) (scope : FrameId) : Run Unit :=
  log policy .trace fun h => ⟨.trace, "enter block", [("depth", Text.ofNat (h.depth scope))]⟩

end Run

mutual

/-- Runs a statement in a frame. The fuel bounds the turns of each loop. -/
def Stmt.exec (policy : Policy) (call : Caller) (fuel : Nat) (scope : FrameId) : Stmt → Run Flow
  | .expr e => do
    let _ ← e.eval call scope
    return .next
  | .print e => do
    let v ← e.eval call scope
    Run.print v.toText
    return .next
  | .var name value => do
    let v ← Expr.evalOption call scope value
    Run.modifyHeap (·.define scope name.text v)
    return .next
  | .block body => do
    let inner ← Run.alloc (·.pushFrame scope [])
    Run.logBlock policy inner
    Stmt.execAll policy call fuel inner body
  | .ifThen test yes no => do
    if (← test.eval call scope).truthy then yes.exec policy call fuel scope
    else Stmt.execOption policy call fuel scope no
  | .whileLoop test body =>
    Run.iterate (test.eval call scope) (body.exec policy call fuel scope) fuel
  | .function decl => do
    let serial ← Run.alloc Heap.nextSerial
    Run.modifyHeap (·.define scope decl.name.text (.function ⟨serial, decl, scope, false⟩))
    return .next
  | .returnValue _ value => do
    let v ← Expr.evalOption call scope value
    return .returned v
  | .breakLoop _ => return .broke
  | .classDecl name methods => do
    let serial ← Run.alloc Heap.nextSerial
    Run.modifyHeap (·.define scope name.text (.classValue ⟨serial, name.text, scope, methods⟩))
    return .next

def Stmt.execAll (policy : Policy) (call : Caller) (fuel : Nat) (scope : FrameId) :
    List Stmt → Run Flow
  | [] => return .next
  | s :: ss => do
    match ← s.exec policy call fuel scope with
    | .next => Stmt.execAll policy call fuel scope ss
    | flow => return flow

def Stmt.execOption (policy : Policy) (call : Caller) (fuel : Nat) (scope : FrameId) :
    Option Stmt → Run Flow
  | none => return .next
  | some s => s.exec policy call fuel scope

end

namespace Run

def bindParams : List Name → List Value → Bindings Value → Option (Bindings Value)
  | [], _, vars => some vars
  | p :: ps, a :: args, vars => bindParams ps args (vars.insert p.text a)
  | _ :: _, [], _ => none

/-- Runs the body of a function with its arguments. A function that does not return a value yields nil, and an
initializer its instance. -/
def enter (body : FrameId → List Stmt → Run Flow) (policy : Policy) (f : Closure) (args : List Value) :
    Run Value := do
  let some vars := bindParams f.decl.params args [] | stuck
  let scope ← alloc (·.pushFrame f.scope vars)
  logBlock policy scope
  let value ← match ← body scope f.decl.body with
    | .next => pure .nil
    | .returned value => pure value
    | .broke => stuck
  if f.isInit then
    match ((← heap).vars f.scope).get? thisName with
    | some self => return self
    | none => stuck
  else return value

def construct (body : FrameId → List Stmt → Run Flow) (policy : Policy) (c : Class) (args : List Value) :
    Run Value := do
  let id ← alloc Heap.pushInstance
  let self := Value.object c id
  match c.method? initName with
  | some decl =>
    let init ← bind decl c self
    let _ ← enter body policy init args
    return self
  | none => return self

def logCall (policy : Policy) (callee : Callable) (depth : Nat) (paren : Pos) : Run Unit :=
  log policy .trace fun _ => ⟨.trace, "call",
    [("callee", callee.toValue.toText), ("depth", Text.ofNat depth), ("line", Text.ofNat paren.line)]⟩

/-- Carries out a call from within `depth` open calls. The fuel bounds the calls inside it. -/
def call (policy : Policy) : (fuel : Nat) → (depth : Nat) → Caller
  | fuel, depth, value, args, paren => do
    let closing : Text := Punct.rightParen.spelling
    match value.callable? with
    | none => fault .notCallable closing paren
    | some callee =>
      if args.length ≠ callee.arity then
        fault (.wrongArity callee.arity args.length) closing paren
      else if !policy.allowsDepth (depth + 1) then
        fault .stackOverflow closing paren
      else
        logCall policy callee (depth + 1) paren
        match fuel with
        | 0 => exhausted
        | fuel + 1 =>
          let body := Stmt.execAll policy (call policy fuel (depth + 1)) fuel
          match callee with
          | .function f => enter body policy f args
          | .classValue c => construct body policy c args

end Run
end Lox
