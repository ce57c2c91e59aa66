import Lox.Text.Integer
import Lox.Text.Quoted

/-! The options of the command line. They come first; the first argument that is none, or what follows `--`, is
left to the program. -/
namespace Lox

structure Options where
  config : Text := ""
  ast : Bool := false
  rpn : Bool := false
  verbose : Bool := false
  noColor : Bool := false
  /-- How many inputs of the history to show; none if this is negative. -/
  history : Int := -1
  /-- The arguments behind the options. -/
  args : List Text := []
deriving DecidableEq

namespace Options

inductive Error where
  | help
  | badSyntax (arg : Text)
  | undefined (name : Text)
  | needsValue (name : Text)
  | badBool (name value : Text)
  | badInteger (name value : Text) (reason : Text.IntegerError)
deriving DecidableEq

def usage : String :=
  "Usage of lox:\n" ++
  "  -ast\n    \tprint the syntax tree in prefix form instead of running\n" ++
  "  -config string\n    \tYAML configuration file\n" ++
  "  -history int\n    \tprint the last N prompt inputs (0 for all) and exit (default -1)\n" ++
  "  -no-color\n    \tdisable colored diagnostics\n" ++
  "  -rpn\n    \tprint the syntax tree in reverse polish form instead of running\n" ++
  "  -v\tdebug logging\n"

namespace Error

def reasonText : Text.IntegerError → String
  | .malformed => "parse error"
  | .outOfRange => "value out of range"

def message? : Error → Option Text
  | help => none
  | badSyntax arg => some ("bad flag syntax: " ++ arg)
  | undefined name => some ("flag provided but not defined: -" ++ name)
  | needsValue name => some ("flag needs an argument: -" ++ name)
  | badBool name value =>
    some ("invalid boolean value " ++ value.quoted ++ " for -" ++ name ++ ": parse error")
  | badInteger name value reason =>
    some ("invalid value " ++ value.quoted ++ " for flag -" ++ name ++ ": " ++ reasonText reason)

end Error

def bool? (t : Text) : Option Bool :=
  if ["1", "t", "T", "true", "TRUE", "True"].any (Text.ofString · == t) then some true
  else if ["0", "f", "F", "false", "FALSE", "False"].any (Text.ofString · == t) then some false
  else none

inductive Kind where
  | switch (set : Bool → Options → Options)
  | text (set : Text → Options → Options)
  | integer (set : Int → Options → Options)

def kinds : List (String × Kind) :=
  [("ast", .switch fun b o => { o with ast := b }),
    ("config", .text fun t o => { o with config := t }),
    ("history", .integer fun n o => { o with history := n }),
    ("no-color", .switch fun b o => { o with noColor := b }),
    ("rpn", .switch fun b o => { o with rpn := b }),
    ("v", .switch fun b o => { o with verbose := b })]

def dash : UInt8 := '-'.toUInt8

structure Flag where
  name : Text
  value : Option Text

inductive Arg where
  | flag (f : Flag)
  | terminator
  | other
  | malformed

def Arg.ofText (arg : Text) : Arg :=
  let equals := '='.toUInt8
  match arg with
  | first :: second :: rest =>
    if first ≠ dash then other
    else if second = dash && rest.isEmpty then terminator
    else
      let body := if second = dash then rest else second :: rest
      match body with
      | [] => malformed
      | b :: bs =>
        if b = dash || b = equals then malformed
        else
          let name := b :: bs.takeWhile (· ≠ equals)
          let value := if name.length < body.length then some (body.drop (name.length + 1)) else none
          flag ⟨name, value⟩
  | _ => other

def setSwitch (name : Text) (set : Bool → Options → Options) (value : Option Text) (o : Options) :
    Except Error Options :=
  -- a switch without a value is on
  match value with
  | none => .ok (set true o)
  | some t =>
    match bool? t with
    | some b => .ok (set b o)
    | none => .error (.badBool name t)

def setValue (name : Text) (kind : Kind) (value : Text) (o : Options) : Except Error Options :=
  match kind with
  | .switch set => setSwitch name set (some value) o
  | .text set => .ok (set value o)
  | .integer set =>
    match Text.integer value with
    | .ok n => .ok (set n o)
    | .error reason => .error (.badInteger name value reason)

def parseFrom (o : Options) : List Text → Except Error Options
  | [] => .ok o
  | arg :: rest =>
    match Arg.ofText arg with
    | .other => .ok { o with args := arg :: rest }
    | .terminator => .ok { o with args := rest }
    | .malformed => .error (.badSyntax arg)
    | .flag f =>
      match kinds.find? fun k => Text.ofString k.1 == f.name with
      | none =>
        if f.name = Text.ofString "h" || f.name = Text.ofString "help" then .error .help
        else .error (.undefined f.name)
      | some (_, .switch set) =>
        match setSwitch f.name set f.value o with
        | .ok o => parseFrom o rest
        | .error e => .error e
      | some (_, kind) =>
        match f.value with
        | some value =>
          match setValue f.name kind value o with
          | .ok o => parseFrom o rest
          | .error e => .error e
        | none =>
          match rest with
          | [] => .error (.needsValue f.name)
          | value :: others =>
            match setValue f.name kind value o with
            | .ok o => parseFrom o others
            | .error e => .error e

def parse (args : List Text) : Except Error Options := parseFrom {} args

end Options
end Lox
