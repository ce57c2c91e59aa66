import Lox.Text.Quoted

/-! The log: entries with a severity, of which a level lets through those that are at least as severe. -/
namespace Lox

inductive Severity where
  | panic | fatal | error | warning | info | debug | trace
deriving DecidableEq, Inhabited

namespace Severity

def rank : Severity → Nat
  | panic => 0
  | fatal => 1
  | error => 2
  | warning => 3
  | info => 4
  | debug => 5
  | trace => 6

def allows (level severity : Severity) : Bool := severity.rank ≤ level.rank

def name : Severity → String
  | panic => "panic"
  | fatal => "fatal"
  | error => "error"
  | warning => "warning"
  | info => "info"
  | debug => "debug"
  | trace => "trace"

/-- The code point in lower case, as far as that can make a difference to the name of a level: the capital
letters, and the capital I with a dot. -/
def lowerCodePoint (c : Nat) : Nat :=
  if 65 ≤ c ∧ c ≤ 90 then c + 32 else if c = 0x130 then 'i'.toNat else c

def lowerFrom : (skip : Nat) → Text → List Nat
  | _, [] => []
  | skip + 1, _ :: bs => lowerFrom skip bs
  | 0, b :: bs =>
    match Text.codePoint? (b :: bs) with
    | some (c, n) => lowerCodePoint c :: lowerFrom (n - 1) bs
    | none => 0xFFFD :: lowerFrom 0 bs

def ofName? (text : Text) : Option Severity :=
  -- in any case; a warning may be cut short
  let names : List (String × Severity) :=
    [("panic", panic), ("fatal", fatal), ("error", error), ("warn", warning), ("warning", warning),
      ("info", info), ("debug", debug), ("trace", trace)]
  (names.find? fun entry => entry.1.toList.map Char.toNat == lowerFrom 0 text).map Prod.snd

end Severity

structure LogEntry where
  severity : Severity
  message : Text
  fields : List (Text × Text)
deriving DecidableEq

namespace LogEntry

def isBare (b : UInt8) : Bool :=
  let c := Char.ofUInt8 b
  c.isAlphanum || c ∈ ['-', '.', '_', '/', '@', '^', '+']

def value (t : Text) : Text := if t.all isBare then t else t.quoted

def pair (key t : Text) : Text := key ++ "=" ++ value t

/-- The entry as a line: severity, message if there is one, and the fields in the order of their names. -/
def toText (e : LogEntry) : Text :=
  let message := if e.message.isEmpty then [] else [pair "msg" e.message]
  let fields := (e.fields.mergeSort fun x y => decide (x.1 ≤ y.1)).map fun f => pair f.1 f.2
  Text.join " " (pair "level" e.severity.name :: message ++ fields) ++ "\n"

end LogEntry
end Lox
