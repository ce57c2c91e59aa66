import Lox.Command.Run

/-! The command line: the files that the arguments name are read, and the program runs on them. A prompt writes its
history back after each line that it has recorded, before the line is run. -/
namespace Lox.Command.Line

def nameOfText (t : Text) : String := (String.fromUTF8? ⟨t.toArray⟩).getD ""

def writeStreams (s : Streams) : IO Unit := do
  let out ← IO.getStdout
  out.write ⟨s.stdout.toArray⟩
  out.flush
  let err ← IO.getStderr
  err.write ⟨s.stderr.toArray⟩
  err.flush

def look (d : Directory) (name : Text) (entry : Text → Entry) : IO Directory := do
  let place := (← IO.currentDir) / nameOfText name
  let path := Path.ofText d.cwd name
  if ← place.isDir then return { d with folders := path :: d.folders }
  let around ← match place.parent with
    | some p => p.isDir
    | none => pure false
  let folders := if around then path.dropLast :: d.folders else d.folders
  if ← place.pathExists then
    let content ← IO.FS.readBinFile place
    return { d with folders, entries := (path, entry content.data.toList) :: d.entries }
  else return { d with folders }

def save (d : Directory) (name : Text) : IO Unit := do
  if let .ok (.history h) := d.find name then
    IO.FS.writeBinFile ((← IO.currentDir) / nameOfText name) ⟨h.toText.toArray⟩

/-- Reads lines until the input ends, or one is too long, or one does not come back. What has been recorded is passed on
to `keep` before it is run. -/
partial def converse (input : IO.FS.Stream) (keep : Prompt → IO Unit) (p : Prompt) : IO Report := do
  writeStreams p.invite
  let line ← input.getLine
  match inputLines (Text.ofString line) with
  | [] => return Prompt.ended
  | text :: _ =>
    if text.length < maxLineLength then
      let line := dropReturn text
      let recorded := p.record line
      keep recorded
      let (outcome, next) := recorded.eval Session.ampleFuel line
      writeStreams (.ofEvents outcome.events)
      if outcome.verdict.returns then converse input keep next else return .running {}
    else return Prompt.overlong

def survey (o : Options) : IO (Directory × Text) := do
  let cwd := Path.ofText [] (Text.ofString (← IO.currentDir).toString)
  let named := ([o.config] ++ o.args.take 1).filter (!·.isEmpty)
  let d ← named.foldlM (fun d name => look d name .file) (Directory.mk cwd [] [])
  let file := historyFile d o
  if file.isEmpty then return (d, file)
  else return (← look d file fun content => .history (.ofInputs (inputLines content)), file)

def finish (report : Report) : IO UInt32 := do
  writeStreams report.toStreams
  return report.exit.toUInt32

end Lox.Command.Line

open Lox Lox.Command.Line

def main (arguments : List String) : IO UInt32 := do
  match Options.parse (arguments.map Text.ofString) with
  | .error e => finish (Command.refuse e)
  | .ok o =>
    let (before, file) ← survey o
    match Command.start before Session.ampleFuel o with
    | (.ended report, d) =>
      save d file
      finish report
    | (.prompting p, d) =>
      save d file
      finish (← converse (← IO.getStdin) (fun p => save (Command.keep d o p) file) p)
