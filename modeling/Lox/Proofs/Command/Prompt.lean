import Lox.Command.Prompt
import Lox.Proofs.Session.Safety

/-! Which lines a prompt reads, and what it leaves behind. It reads the lines of its input in order and runs each of them
before it reads the next one, so it gets no further than to the first line that does not come back. All lines that it
reads are recorded, this one too. -/
namespace Lox

namespace Prompt

/-- The lines of an input up to the first one that is too long, without the carriage returns at their ends. -/
def offered (lines : List Text) : List Text := (lines.takeWhile (·.length < maxLineLength)).map dropReturn

/-- The lines that are read of those that are offered: all that come back, and the first that does not. -/
def linesRead (policy : Policy) (fuel : Nat) : Heap → List Text → List Text
  | _, [] => []
  | heap, line :: lines =>
    let outcome := Session.step policy fuel heap .eval [] line
    line :: if outcome.verdict.returns then linesRead policy fuel outcome.heap lines else []

variable {policy : Policy} {fuel : Nat} {heap : Heap} {line : Text} {lines : List Text} {p : Prompt}

def next (p : Prompt) (fuel : Nat) (line : Text) : Prompt := ((p.record line).eval fuel line).2

def written (p : Prompt) (fuel : Nat) (line : Text) : Streams :=
  p.invite ++ .ofEvents ((p.record line).eval fuel line).1.events

end Prompt
end Lox
