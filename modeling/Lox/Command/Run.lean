import Lox.Command.Directory
import Lox.Command.Options
import Lox.Command.Prompt
import Lox.Settings.Load

/-! The program as a whole: from arguments, files and input to what it writes and leaves in the files. -/
namespace Lox.Command

inductive Stage where
  | ended (report : Report)
  | prompting (p : Prompt)

def loadSettings (d : Directory) (name : Text) : Except Text Settings :=
  match d.find name with
  | .ok (.file content) =>
    match Settings.ofText content with
    | (s, none) => .ok s
    | (_, some e) => .error (name ++ ": " ++ e.message)
  | .ok (.history _) => .error (name ++ ": " ++ (Settings.LoadError.malformed).message)
  | .error .isDirectory =>
    .error (name ++ ": yaml: input error: read " ++ name ++ ": " ++ FileError.isDirectory.message)
  | .error e => .error ("open " ++ name ++ ": " ++ e.message)

def adjusted (o : Options) (s : Settings) : Settings :=
  let s := if o.verbose then { s with logLevel := "debug" } else s
  if o.noColor then { s with color := false } else s

def settings (d : Directory) (o : Options) : Except Text Settings :=
  (if o.config.isEmpty then .ok {} else loadSettings d o.config).map (adjusted o)

def exitCode? : Verdict → Option Nat
  | .ok => some 0
  | .syntaxError => some 65
  | .runtimeError => some 70
  | .stuck | .exhausted => none

def runScript (d : Directory) (policy : Policy) (fuel : Nat) (o : Options) (name : Text) : Report :=
  let path := (Path.ofText d.cwd name).toText
  match d.find path with
  | .error .isDirectory => .fatal ("read " ++ path ++ ": " ++ FileError.isDirectory.message)
  | .error e => .fatal ("open " ++ path ++ ": " ++ e.message)
  | .ok entry =>
    let source := match entry with
      | .file content => content
      | .history _ => []
    let action := if o.rpn then .tree .operatorLast else if o.ast then .tree .operatorFirst else .run
    let outcome := Session.step policy fuel .empty action path source
    { Streams.ofEvents outcome.events with code? := exitCode? outcome.verdict }

def showHistory (h : History) (n : Int) : Report :=
  .ofStreams 0 (.out (History.listing (Bucket.recent h n)))

def dispatch (d : Directory) (s : Settings) (level : Severity) (fuel : Nat) (o : Options)
    (history : Option History) : Stage :=
  if 0 ≤ o.history then
    match history with
    | some h => .ended (showHistory h o.history)
    | none => .ended (.fatal "history_file is not configured")
  else match o.args with
    | [] => .prompting ⟨s.policy level, s.prompt, .empty, history⟩
    | [name] => .ended (runScript d (s.policy level) fuel o name)
    | _ => .ended (.ofStreams 64 (.out "Usage: lox [flags] [/path/to/script.lox]\n"))

/-- Starts the program: the settings are read, and the history is opened if there is one. The directory that
comes with the stage has the history in it. -/
def start (d : Directory) (fuel : Nat) (o : Options) : Stage × Directory :=
  match settings d o with
  | .error message => (.ended (.fatal message), d)
  | .ok s =>
    match s.level with
    | .error e => (.ended (.fatal e.message), d)
    | .ok level =>
      if s.historyFile.isEmpty then (dispatch d s level fuel o none, d)
      else match d.openHistory s.historyFile with
        | .error e => (.ended (.fatal (e.message s.historyFile)), d)
        | .ok h =>
          let d := d.putHistory s.historyFile h
          (dispatch d s level fuel o (some h), d)

def refuse (e : Options.Error) : Report :=
  match e.message? with
  | none => .ofStreams 0 (.err Options.usage)
  | some message => .ofStreams 2 (.err (message ++ "\n" ++ Options.usage))

def historyFile (d : Directory) (o : Options) : Text :=
  match settings d o with
  | .ok s => s.historyFile
  | .error _ => []

def keep (d : Directory) (o : Options) (p : Prompt) : Directory :=
  match p.history with
  | some h => d.putHistory (historyFile d o) h
  | none => d

/-- A run of the program, as far as it gets: a script or a line of the prompt that needs more fuel has not ended. -/
def run (d : Directory) (fuel : Nat) (args : List Text) (input : Text) : Report × Directory :=
  match Options.parse args with
  | .error e => (refuse e, d)
  | .ok o =>
    match start d fuel o with
    | (.ended report, d) => (report, d)
    | (.prompting p, d) =>
      let (report, p) := p.readAll fuel (inputLines input)
      (report, keep d o p)

end Lox.Command
