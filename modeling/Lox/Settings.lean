import Lox.Run.Machine

/-! Settings, their defaults, and what can be wrong with them. -/
namespace Lox

structure Settings where
  logLevel : Text := "warning"
  color : Bool := true
  /-- How many calls may be open at once; no limit if this is not positive. -/
  maxCallDepth : Int := 1024
  prompt : Text := "> "
  /-- Where inputs of the prompt are kept; nowhere if this is empty. -/
  historyFile : Text := ""
deriving DecidableEq

inductive SettingsError where
  | negativeCallDepth
  | unknownLevel (name : Text)
deriving DecidableEq

def SettingsError.message : SettingsError → Text
  | negativeCallDepth => "max_call_depth must not be negative"
  | unknownLevel name => "not a valid logrus Level: " ++ name.quoted

namespace Settings

def level (s : Settings) : Except SettingsError Severity :=
  match Severity.ofName? s.logLevel with
  | some level => .ok level
  | none => .error (.unknownLevel s.logLevel)

def error? (s : Settings) : Option SettingsError :=
  -- the call depth is checked first
  if s.maxCallDepth < 0 then some .negativeCallDepth
  else match s.level with
    | .ok _ => none
    | .error e => some e

def callLimit (s : Settings) : Option Nat := if 0 < s.maxCallDepth then some s.maxCallDepth.toNat else none

def policy (s : Settings) (level : Severity) : Policy := ⟨s.callLimit, level⟩

end Settings
end Lox
