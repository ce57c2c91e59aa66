import Lox.Token.Basic

/-! Faults: what stops a run. -/
namespace Lox

inductive Fault.Cause where
  | operandNotNumber
  | operandsNotNumbers
  | operandsNotAlike
  | undefinedVariable (name : Text)
  | undefinedProperty (name : Text)
  | notCallable
  | wrongArity (expected got : Nat)
  | noProperties
  | noFields
  | stackOverflow
deriving DecidableEq

def Fault.Cause.message : Fault.Cause → Text
  | operandNotNumber => "Operand must be a number."
  | operandsNotNumbers => "Operands must be numbers."
  | operandsNotAlike => "Operands must be two numbers or two strings."
  | undefinedVariable name => "Undefined variable '" ++ name ++ "'."
  | undefinedProperty name => "Undefined property '" ++ name ++ "'."
  | notCallable => "Can only call functions and classes."
  | wrongArity expected got =>
    "Wrong number of arguments: expected " ++ Text.ofNat expected ++ " but got " ++ Text.ofNat got ++ "."
  | noProperties => "Only instances have properties."
  | noFields => "Only instances have fields."
  | stackOverflow => "Stack overflow."

structure Fault where
  cause : Fault.Cause
  token : Text
  pos : Pos
deriving DecidableEq

def Fault.toText (f : Fault) : Text := f.cause.message ++ "\n[line " ++ Text.ofNat f.pos.line ++ "]"

end Lox
