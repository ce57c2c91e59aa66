import Lox.Run.Fault
import Lox.Value

/-! What operators do to values. -/
namespace Lox

namespace UnaryOp

def apply : UnaryOp → Value → Except Fault.Cause Value
  | not, v => .ok (.bool !v.truthy)
  | negate, .number x => .ok (.number (-x))
  | negate, _ => .error .operandNotNumber

end UnaryOp

namespace BinaryOp

def onNumbers? : BinaryOp → Option (Number → Number → Value)
  | equal | notEqual => none
  | greater => some fun x y => .bool (y.less x)
  | greaterEqual => some fun x y => .bool (y.lessEqual x)
  | less => some fun x y => .bool (x.less y)
  | lessEqual => some fun x y => .bool (x.lessEqual y)
  | add => some fun x y => .number (x + y)
  | subtract => some fun x y => .number (x - y)
  | multiply => some fun x y => .number (x * y)
  | divide => some fun x y => .number (x / y)

def onStrings? : BinaryOp → Option (Text → Text → Value)
  -- strings are ordered byte by byte
  | greater => some fun s t => .bool (decide (t < s))
  | greaterEqual => some fun s t => .bool (decide (t ≤ s))
  | less => some fun s t => .bool (decide (s < t))
  | lessEqual => some fun s t => .bool (decide (s ≤ t))
  | add => some fun s t => .string (s ++ t)
  | _ => none

def operandsCause : BinaryOp → Fault.Cause
  | greater | greaterEqual | less | lessEqual | add => .operandsNotAlike
  | _ => .operandsNotNumbers

def apply (op : BinaryOp) (left right : Value) : Except Fault.Cause Value :=
  match op with
  | equal => .ok (.bool (left.equal right))
  | notEqual => .ok (.bool !(left.equal right))
  | _ =>
    let result? : Option Value := match left, right with
      | .number x, .number y => op.onNumbers?.map (· x y)
      | .string s, .string t => op.onStrings?.map (· s t)
      | _, _ => none
    match result? with
    | some v => .ok v
    | none => .error op.operandsCause

end BinaryOp

def LogicalOp.isDecidedBy : LogicalOp → Value → Bool
  | .or, left => left.truthy
  | .and, left => !left.truthy

end Lox
