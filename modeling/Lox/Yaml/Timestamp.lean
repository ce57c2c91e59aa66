import Lox.Text.Basic

/-! Dates, and dates with a time of day. -/
namespace Lox.Yaml.Timestamp

def number? (t : Text) : Option (Nat × Text) :=
  match (t.take 2).takeWhile Text.isDigit with
  | [] => none
  | digits => some (Text.digitsValue digits, t.drop digits.length)

def after? (c : Char) (t : Text) : Option Text := if t.head? = some c.toUInt8 then some (t.drop 1) else none

def afterNumber? (limit : Nat) (t : Text) : Option Text := do
  let (n, rest) ← number? t
  if n < limit then some rest else none

def isLeap (year : Nat) : Bool := year % 4 = 0 && (year % 100 ≠ 0 || year % 400 = 0)

def daysIn (year month : Nat) : Nat :=
  if month = 2 then (if isLeap year then 29 else 28)
  else if month ∈ [4, 6, 9, 11] then 30
  else 31

/-- What follows a date: a year of four digits, a month, and a day, which exists in that month. -/
def afterDate? (t : Text) : Option Text := do
  let year := t.takeWhile Text.isDigit
  let (month, rest) ← number? (← after? '-' (t.drop year.length))
  let (day, rest) ← number? (← after? '-' rest)
  let isDay := 1 ≤ month && month ≤ 12 && 1 ≤ day && day ≤ daysIn (Text.digitsValue year) month
  if year.length = 4 && isDay then some rest else none

def afterFraction (t : Text) : Text :=
  match t with
  | b :: digit :: rest =>
    if (b = '.'.toUInt8 || b = ','.toUInt8) && Text.isDigit digit then rest.dropWhile Text.isDigit else t
  | _ => t

def afterTime? (t : Text) : Option Text := do
  let minutes ← after? ':' (← afterNumber? 24 t)
  let seconds ← after? ':' (← afterNumber? 60 minutes)
  return afterFraction (← afterNumber? 60 seconds)

/-- Whether a text is a difference to universal time in hours and minutes of two digits each, or none. A full day
and a full hour are in range. -/
def isZone (t : Text) : Bool :=
  match t.map Char.ofUInt8 with
  | ['Z'] => true
  | [sign, a, b, ':', c, d] =>
    let value (x y : Char) : Nat := 10 * (x.toNat - '0'.toNat) + (y.toNat - '0'.toNat)
    (sign = '+' || sign = '-') && [a, b, c, d].all Char.isDigit && value a b ≤ 24 && value c d ≤ 60
  | _ => false

/-- Whether a text is a date, or a date and a time. Behind a letter the time has a zone, and behind blanks none. -/
def isValid (t : Text) : Bool :=
  match afterDate? t with
  | none => false
  | some [] => true
  | some (b :: rest) =>
    let c := Char.ofUInt8 b
    if c = 'T' || c = 't' then (afterTime? rest).any isZone
    else if c = ' ' then (afterTime? (rest.dropWhile (· = ' '.toUInt8))).any List.isEmpty
    else false

end Lox.Yaml.Timestamp
