/-
The command line of the demo.

The arguments say how a session begins, or there is no session: then help or what is
wrong with the arguments is shown.  No addresses can be served here, so every address is
refused as one that cannot be read.
-/
import CommandShell.Demo.Commands
import CommandShell.Session.Shell
import CommandShell.Stream.Pipe
import CommandShell.Text.Numeral

namespace CommandShell.Demo

/-- The name the program goes by. -/
def programName : String := "ash-demo"

/-- What the arguments amount to. -/
structure Settings where
  /-- The label of the prompt, if it was given. -/
  prompt : Option String := none
  /-- How many bytes to read at a time, if it was given. -/
  chunkSize : Option Nat := none

/-- How the session begins. -/
def Settings.options (s : Settings) : Options where
  prompt := s.prompt.getD ({} : Options).prompt
  capacity := s.chunkSize.getD ({} : Options).capacity

/-- The arguments of the program. -/
def settingsGrammar : Arguments.Grammar Settings where
  flags := [
    { names := ["--prompt"]
      effect := .value (fun s => s.prompt.isSome) fun v s => .ok { s with prompt := some v } },
    { names := ["--listen"]
      effect := .value (fun _ => false) fun _ _ => .error "invalid socket address syntax" },
    { names := ["--chunk-size"]
      effect := .value (fun s => s.chunkSize.isSome) fun v s =>
        match Numeral.parse v with
        | .ok n => .ok { s with chunkSize := some n }
        | .error problem => .error problem.message }]
  positionals := []
  start := {}
  usage := {
    synopsis := "[--prompt <prompt>] [--listen <listen>] [--chunk-size <chunk-size>]"
    about := "Interactive demo of the ash command shell."
    options := [
      ("--prompt", "prompt label"),
      ("--listen", "serve one shell per TCP connection on this address instead of stdin"),
      ("--chunk-size", "read buffer size in bytes")] }

/-- What a run of the program leaves behind. -/
structure Outcome where
  /-- The exit status. -/
  status : Nat
  /-- What was written to the standard output. -/
  stdout : Bytes := []
  /-- What was written to the standard error. -/
  stderr : Bytes := []
  deriving DecidableEq, Repr

/-- What is shown if there is no session. -/
def showExit (exit : Arguments.Exit) : Outcome :=
  let text := exit.message programName settingsGrammar.usage
  match exit with
  | .help => { status := 0, stdout := textBytes (text ++ "\n") }
  | .refused _ =>
    { status := 1
      stderr := textBytes (text ++ "\nRun " ++ programName ++ " --help for more information.\n") }

/-- The demo's session, with the input that has arrived so far. -/
abbrev Session := Shell (Buffered (Duplex InputEnd OutputEnd)) Handler

namespace Session

/-- A session before any input. -/
def start (s : Settings) : Session :=
  Shell.ofTransport s.options tree { reader := {}, writer := {} }

/-- Adds a piece of input that has arrived. -/
def push (input : Bytes) (session : Session) : Session :=
  session.mapSource fun stream =>
    { stream with
      transport := { stream.transport with reader := stream.transport.reader.push input } }

/-- What the session has written. -/
def written (session : Session) : Bytes :=
  session.console.reader.source.transport.writer.written

/-- Whether the session came to the end of the input that has arrived. -/
def isStarved (session : Session) : Bool :=
  !session.console.reader.source.transport.isOpen

/-- One cycle. -/
def step (session : Session) : Cycle Handler Empty × Session :=
  Shell.step perform session

/-- Cycles until the session is over. -/
def run (session : Session) : Session :=
  (Shell.run (ν := Empty) perform session).2

end Session

/-- A run of the program over input that is all there. -/
def runProgram (arguments : List String) (input : Bytes) : Outcome :=
  match settingsGrammar.read arguments with
  | .error exit => showExit exit
  | .ok settings => { status := 0, stdout := ((Session.start settings).push input).run.written }

end CommandShell.Demo
