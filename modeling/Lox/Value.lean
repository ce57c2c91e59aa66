import Lox.Bindings
import Lox.Number.Layout
import Lox.Syntax.Stmt

/-! Values. Functions and classes carry a serial number, by which two of them can be told apart even if they were
made from the same declaration. -/
namespace Lox

abbrev FrameId := Nat

abbrev InstanceId := Nat

structure Closure where
  serial : Nat
  decl : FunctionDecl
  scope : FrameId
  /-- A call of an initializer always yields the instance. -/
  isInit : Bool

structure Class where
  serial : Nat
  name : Text
  scope : FrameId
  methods : List FunctionDecl

def initName : Text := "init"

def thisName : Text := "this"

namespace Class

def method? (c : Class) (name : Text) : Option FunctionDecl :=
  -- of two methods with the same name the later counts
  c.methods.reverse.find? (·.name.text = name)

def arity (c : Class) : Nat := (c.method? initName).elim 0 (·.params.length)

def methodNames (c : Class) : List Text :=
  (c.methods.map fun m => m.name.text).eraseDups.mergeSort fun x y => decide (x ≤ y)

end Class

inductive Value where
  | nil
  | bool (b : Bool)
  | number (x : Number)
  | string (s : Text)
  | function (f : Closure)
  | classValue (c : Class)
  | object (c : Class) (id : InstanceId)

namespace Value

instance : Inhabited Value := ⟨nil⟩

def ofLiteral : Literal → Value
  | .nil => nil
  | .bool b => bool b
  | .number x => number x
  | .string s => string s

def toText : Value → Text
  | nil => "nil"
  | bool b => if b then "true" else "false"
  | number x => x.toText
  | string s => s
  | function f => "<fn " ++ f.decl.name.text ++ ">"
  | classValue c => c.name
  | object c _ => c.name ++ Text.ofString " instance"

def typeName : Value → String
  | nil => "nil"
  | bool _ => "bool"
  | number _ => "number"
  | string _ => "string"
  | function _ => "function"
  | classValue _ => "class"
  | object _ _ => "instance"

def truthy : Value → Bool
  | nil => false
  | bool b => b
  | _ => true

/-- Values of different types differ. Functions, classes and instances are equal to themselves only. -/
def equal : Value → Value → Bool
  | nil, nil => true
  | bool a, bool b => a == b
  | number x, number y => x.equal y
  | string s, string t => s == t
  | function f, function g => f.serial == g.serial
  | classValue c, classValue d => c.serial == d.serial
  | object _ i, object _ j => i == j
  | _, _ => false

end Value

inductive Callable where
  | function (f : Closure)
  | classValue (c : Class)

namespace Callable

def arity : Callable → Nat
  | function f => f.decl.params.length
  | classValue c => c.arity

def toValue : Callable → Value
  | function f => .function f
  | classValue c => .classValue c

end Callable

def Value.callable? : Value → Option Callable
  | .function f => some (.function f)
  | .classValue c => some (.classValue c)
  | _ => none

end Lox
