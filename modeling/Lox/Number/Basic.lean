/-! Numbers are IEEE 754 doubles, held by their bit patterns. A finite number is a whole significand times a
power of two, which is what reading and printing work with. -/
namespace Lox

def twoPow (n : Nat) : Nat := Nat.pow 2 n

def tenPow (n : Nat) : Nat := Nat.pow 10 n

/-- A double-precision number. -/
structure Number where
  bits : UInt64
deriving DecidableEq

namespace Number

def toFloat (x : Number) : Float := Float.ofBits x.bits

def ofFloat (x : Float) : Number := ⟨x.toBits⟩

instance : Add Number := ⟨fun x y => ofFloat (x.toFloat + y.toFloat)⟩
instance : Sub Number := ⟨fun x y => ofFloat (x.toFloat - y.toFloat)⟩
instance : Mul Number := ⟨fun x y => ofFloat (x.toFloat * y.toFloat)⟩
instance : Div Number := ⟨fun x y => ofFloat (x.toFloat / y.toFloat)⟩

def signBit : UInt64 := 0x8000000000000000

/-- Negation flips the sign, also of zero. -/
instance : Neg Number := ⟨fun x => ⟨x.bits ^^^ signBit⟩⟩

/-- Numeric equality: a NaN differs from itself, and the two zeros are equal. -/
def equal (x y : Number) : Bool := x.toFloat == y.toFloat

def less (x y : Number) : Bool := decide (x.toFloat < y.toFloat)

def lessEqual (x y : Number) : Bool := decide (x.toFloat ≤ y.toFloat)

def isNegative (x : Number) : Bool := x.bits &&& signBit != 0

/-- The bits without the sign, as a natural number: it grows with the magnitude. -/
def magnitude (x : Number) : Nat := (x.bits &&& ~~~signBit).toNat

def infinity : Nat := 0x7FF * twoPow 52

def isNaN (x : Number) : Bool := decide (infinity < x.magnitude)

def isInfinite (x : Number) : Bool := decide (x.magnitude = infinity)

def isFinite (x : Number) : Bool := decide (x.magnitude < infinity)

def ofMagnitude (m : Nat) : Number := ⟨m.toUInt64⟩

def zero : Number := ofMagnitude 0

/-- A finite number is `significand * 2 ^ scale / 2 ^ 1074`, up to its sign. -/
def significand (x : Number) : Nat :=
  if x.magnitude < twoPow 52 then x.magnitude else twoPow 52 + x.magnitude % twoPow 52

def scale (x : Number) : Nat := x.magnitude / twoPow 52 - 1

/-- The magnitude of a finite number is `numerator / denominator`. -/
def numerator (x : Number) : Nat := x.significand * twoPow (x.scale - 1074)

def denominator (x : Number) : Nat := twoPow (1074 - x.scale)

end Number
end Lox
