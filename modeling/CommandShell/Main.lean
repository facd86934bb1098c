/-
The demo as a program.

A session is held over the standard input and output.  Its cycles are held over the input
that has arrived; one that comes to the end of it is held again from its beginning when
more has arrived, which shows nothing twice because a cycle writes the same again.
-/
import CommandShell.Demo.CommandLine

namespace CommandShell.Demo

/-- Writes bytes out at once. -/
def emit (stream : IO.FS.Stream) (bytes : Bytes) : IO Unit := do
  stream.write ⟨bytes.toArray⟩
  stream.flush

/-- Holds a session until it is over or the input ends.  `shown` is how much of what the
session has written is shown already. -/
partial def converse (input output : IO.FS.Stream) (room shown : Nat) (session : Session) :
    IO Unit := do
  let (cycle, next) := session.step
  emit output (next.written.drop shown)
  if next.isStarved then
    let piece ← input.read (USize.ofNat room)
    if piece.isEmpty then return ()
    converse input output room next.written.length (session.push piece.data.toList)
  else if cycle.flow = .goesOn then
    converse input output room next.written.length next

/-- The most bytes that are asked of the standard input at a time. -/
def largestRead : Nat := 65536

/-- Runs the demo with the arguments it is given. -/
def program (arguments : List String) : IO UInt32 := do
  match settingsGrammar.read arguments with
  | .error exit =>
    let outcome := showExit exit
    emit (← IO.getStdout) outcome.stdout
    emit (← IO.getStderr) outcome.stderr
    return UInt32.ofNat outcome.status
  | .ok settings =>
    let room := min (max settings.options.capacity 1) largestRead
    converse (← IO.getStdin) (← IO.getStdout) room 0 (Session.start settings)
    return 0

end CommandShell.Demo

/-- The program. -/
def main (arguments : List String) : IO UInt32 :=
  CommandShell.Demo.program arguments
