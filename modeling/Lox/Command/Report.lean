import Lox.Run.Machine

/-! What a program writes to its two streams, and the code it exits with if it ends. -/
namespace Lox

structure Streams where
  stdout : Text := []
  stderr : Text := []
deriving DecidableEq

namespace Streams

instance : Append Streams := ⟨fun a b => ⟨a.stdout ++ b.stdout, a.stderr ++ b.stderr⟩⟩

def out (t : Text) : Streams := { stdout := t }

def err (t : Text) : Streams := { stderr := t }

def ofEvent : Event → Streams
  | .out line => out (line ++ [Text.newline])
  | .err report => err (report ++ [Text.newline])
  | .log entry => err entry.toText

def ofEvents (events : List Event) : Streams := events.foldr (fun e s => ofEvent e ++ s) {}

end Streams

structure Report extends Streams where
  code? : Option Nat
deriving DecidableEq

namespace Report

def ofStreams (code : Nat) (s : Streams) : Report := { s with code? := some code }

def running (s : Streams) : Report := { s with code? := none }

def after (r : Report) (written : Streams) : Report := { written ++ r.toStreams with code? := r.code? }

def fatal (message : Text) : Report := ofStreams 1 (.err (message ++ [Text.newline]))

/-- The code that others see. A program that has not ended can only be killed. -/
def exit (r : Report) : Nat := r.code?.getD 137

end Report
end Lox
