import Lox.Command.Report
import Lox.History
import Lox.Session

/-! The prompt: lines are read one after the other, recorded in the history, and then run against the same variables. -/
namespace Lox

def inputLines : Text → List Text
  | [] => []
  | b :: bs =>
    if b = Text.newline then [] :: inputLines bs
    else match inputLines bs with
      | [] => [[b]]
      | line :: lines => (b :: line) :: lines

def dropReturn (line : Text) : Text :=
  if line.getLast? = some '\r'.toUInt8 then line.dropLast else line

def maxLineLength : Nat := 65536

structure Prompt where
  policy : Policy
  text : Text
  heap : Heap
  /-- The history that lines are kept in, if there is one. -/
  history : Option History

namespace Prompt

def record (p : Prompt) (line : Text) : Prompt := { p with history := p.history.map (Bucket.append · line) }

def eval (p : Prompt) (fuel : Nat) (line : Text) : Outcome × Prompt :=
  let outcome := Session.step p.policy fuel p.heap .eval [] line
  (outcome, { p with heap := outcome.heap })

def invite (p : Prompt) : Streams := .out p.text

def ended : Report := .ofStreams 0 (.out [Text.newline])

def overlong : Report :=
  .ofStreams 1 (.out [Text.newline] ++ .err "bufio.Scanner: token too long\n")

/-- Reads lines until there are no more, or one is too long, or one does not come back. Each line is recorded before it
is run, so the last prompt has also recorded a line that does not come back. -/
def readAll (fuel : Nat) : Prompt → List Text → Report × Prompt
  | p, [] => (ended.after p.invite, p)
  | p, line :: lines =>
    if line.length < maxLineLength then
      let line := dropReturn line
      let (outcome, next) := (p.record line).eval fuel line
      let written := p.invite ++ .ofEvents outcome.events
      if outcome.verdict.returns then
        let (report, last) := readAll fuel next lines
        (report.after written, last)
      else (.running written, next)
    else (overlong.after p.invite, p)

end Prompt
end Lox
