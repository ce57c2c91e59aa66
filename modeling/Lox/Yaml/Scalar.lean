import Lox.Number.Decimal
import Lox.Text.Base64
import Lox.Text.Integer
import Lox.Yaml.Timestamp

/-! What scalars stand for: nothing, truth values, numbers, dates, and otherwise texts. Tags and quotes decide it, and
else the text itself. -/
namespace Lox.Yaml

inductive Scalar where
  | null
  | bool (b : Bool)
  | int (n : Int)
  | float (x : Number)
  | timestamp
  | string (t : Text)

namespace Scalar

def tag : Scalar → String
  | null => "!!null"
  | bool _ => "!!bool"
  | int _ => "!!int"
  | float _ => "!!float"
  | timestamp => "!!timestamp"
  | string _ => "!!str"

def words : List (String × Scalar) :=
  let infinite := Number.ofMagnitude Number.infinity
  [("", null), ("~", null), ("null", null), ("Null", null), ("NULL", null),
    ("true", bool true), ("True", bool true), ("TRUE", bool true),
    ("false", bool false), ("False", bool false), ("FALSE", bool false),
    (".nan", float (.ofMagnitude (Number.infinity + 1))), (".NaN", float (.ofMagnitude (Number.infinity + 1))),
    (".NAN", float (.ofMagnitude (Number.infinity + 1))),
    (".inf", float infinite), (".Inf", float infinite), (".INF", float infinite),
    ("+.inf", float infinite), ("+.Inf", float infinite), ("+.INF", float infinite),
    ("-.inf", float (-infinite)), ("-.Inf", float (-infinite)), ("-.INF", float (-infinite))]

def signed (t : Text) : Bool × Text :=
  match t with
  | [] => (false, [])
  | b :: bs => if b = '-'.toUInt8 then (true, bs) else if b = '+'.toUInt8 then (false, bs) else (false, t)

def exponent? (t : Text) : Option Int :=
  match t with
  | [] => some 0
  | mark :: rest =>
    let (negative, digits) := signed rest
    if (mark = 'e'.toUInt8 || mark = 'E'.toUInt8) && !digits.isEmpty && digits.all Text.isDigit then
      let n : Int := Text.digitsValue digits
      some (if negative then -n else n)
    else none

/-- The number nearest to a decimal. Sizes far beyond all numbers are settled without computing them. -/
def nearest? (digits : Text) (exponent : Int) : Option Number :=
  let n := Text.digitsValue digits
  let top := exponent + (Text.ofNat n).length
  if n = 0 || top < -400 then some .zero
  else if 400 < top then none
  else (Decimal.mk n exponent).toNumber?

def float? (t : Text) : Option Number := do
  let (negative, body) := signed t
  let whole := body.takeWhile Text.isDigit
  let after := body.drop whole.length
  let hasPoint := after.head? = some '.'.toUInt8
  let places := if hasPoint then (after.drop 1).takeWhile Text.isDigit else []
  let tail := after.drop (if hasPoint then places.length + 1 else 0)
  if whole.isEmpty && places.isEmpty then none
  else
    let e ← exponent? tail
    let x ← nearest? (whole ++ places) (e - places.length)
    return if negative then -x else x

/-- Whether each underscore stands between two digits; `after` says whether a digit stands before the text. -/
def separatesDigits : (after : Bool) → Text → Bool
  | _, [] => true
  | after, b :: bs =>
    if b = Text.underscore then after && bs.head?.any Text.isDigit && separatesDigits false bs
    else separatesDigits (Text.isDigit b) bs

def withoutUnderscores (t : Text) : Text := t.filter (· ≠ Text.underscore)

def markedInteger? (t : Text) : Option Int := do
  let base ← match (t.take 2).map Char.ofUInt8 with
    | ['0', 'b'] => some 2
    | ['0', 'o'] => some 8
    | _ => none
  let (negative, digits) := signed (t.drop 2)
  match digits, Text.naturalFrom base 0 digits with
  | _ :: _, .ok n =>
    let value : Int := if negative then -n else n
    if Text.minInteger ≤ value ∧ value ≤ Text.maxInteger then some value else none
  | _, _ => none

/-- The number or date that a text spells that starts with a digit or a sign. In numbers underscores do not count. -/
def ofNumeral (t : Text) : Scalar :=
  if Timestamp.isValid t then timestamp
  else
    let bare := withoutUnderscores t
    match Text.integer bare, Text.natural bare, float? bare, markedInteger? bare with
    | .ok n, _, _, _ => int n
    | _, .ok n, _, _ => int n
    | _, _, some x, _ => float x
    | _, _, _, some n => int n
    | _, _, _, _ => string t

def ofFraction (t : Text) : Scalar :=
  if separatesDigits false t then (float? (withoutUnderscores t)).elim (string t) float else string t

def ofPlain (t : Text) : Scalar :=
  match words.find? fun w => Text.ofString w.1 == t with
  | some (_, s) => s
  | none =>
    match t.head?.map Char.ofUInt8 with
    | none => null
    | some c =>
      if c.isDigit || c = '+' || c = '-' then ofNumeral t
      else if c = '.' then ofFraction t
      else string t

def spelledTags : List String := ["!!null", "!!bool", "!!int", "!!float", "!!timestamp"]

def toFloat? (n : Int) : Option Scalar :=
  if Text.minInteger ≤ n ∧ n ≤ Text.maxInteger then
    (nearest? (Text.ofNat n.natAbs) 0).map fun x => float (if n < 0 then -x else x)
  else none

/-- What a scalar with a tag stands for, unless it is not spelled as the tag demands. An integer can be tagged as a
number with a fraction. Scalars with tags that say nothing are texts. -/
def ofTagged? (tag text : Text) : Option Scalar :=
  if tag = Text.ofString "!!binary" then text.ofBase64?.map string
  else if spelledTags.any (Text.ofString · == tag) then
    match ofPlain text with
    | int n =>
      if tag = Text.ofString "!!int" then some (int n)
      else if tag = Text.ofString "!!float" then toFloat? n
      else none
    | s => if tag = Text.ofString s.tag then some s else none
  else some (string text)

def of? (tag : Option Text) (isPlain : Bool) (text : Text) : Option Scalar :=
  match tag with
  | some tag => ofTagged? tag text
  | none => some (if isPlain then ofPlain text else string text)

def mergeKey : Text := "<<"

def shownTag (tag : Option Text) (isPlain : Bool) (text : Text) : Text :=
  match tag with
  | some tag => tag
  | none =>
    if !isPlain then "!!str"
    else if text = mergeKey then "!!merge"
    else (ofPlain text).tag

end Scalar
end Lox.Yaml
