/-
Handlers that follow a script.

A scripted handler does one action after the other and leaves a note of each that
succeeds, with what came of it.  So a rehearsal shows not only what a session writes but
what its handlers saw.
-/
import CommandShell.Command.Help
import CommandShell.Handler.Invocation
import CommandShell.Text.Numeral

namespace CommandShell.Rehearsal

/-- What a scripted handler can do. -/
inductive Action
  /-- Writes data. -/
  | write (data : Bytes)
  /-- Writes the arguments with a separator between them. -/
  | writeArgs (separator : Bytes)
  /-- Clears the screen. -/
  | clearScreen
  /-- Writes the help that the arguments ask for. -/
  | help
  /-- Looks at the arguments. -/
  | args
  /-- Looks at all tokens. -/
  | fullArgs
  /-- Looks at the arguments as text. -/
  | argWords
  /-- Looks at the statement. -/
  | rawLine
  /-- Looks at the name of its command. -/
  | command
  /-- Looks at the names of the first level. -/
  | roots
  /-- Looks at the prompt. -/
  | prompt
  /-- Changes the prompt. -/
  | setPrompt (label : String)
  /-- Reads a record. -/
  | read (mode : Mode)
  /-- Reads a line. -/
  | readLine
  /-- Reads a statement. -/
  | readStatement
  /-- Reads a block up to a terminator. -/
  | readTerminated (terminator : Bytes)
  /-- Reads a block up to where a test accepts it. -/
  | readAccepted (test : Bytes → Bool)
  /-- Reads its arguments as a word to be repeated. -/
  | parseArguments
  /-- Gives up. -/
  | fail (failure : Failure)

/-- What a word and a count were read as. -/
structure Repeat where
  /-- How many times. -/
  count : Nat
  /-- The word. -/
  word : String
  deriving DecidableEq, Repr

/-- What came of an action. -/
inductive Seen
  /-- It was done. -/
  | done
  /-- These bytes, or the end of the input. -/
  | bytes (bytes : Option Bytes)
  /-- These tokens. -/
  | tokens (tokens : List Bytes)
  /-- This text. -/
  | text (text : String)
  /-- These texts. -/
  | texts (texts : List String)
  /-- This record, or the end of the input. -/
  | record (record : Option Record)
  /-- These arguments, or something else was shown. -/
  | repeated (arguments : Option Repeat)
  deriving DecidableEq, Repr

/-- An action that succeeded, and what came of it. -/
structure Event where
  /-- The action. -/
  action : Action
  /-- What came of it. -/
  seen : Seen

/-- The option of `repeatGrammar`. -/
def countFlag : Arguments.Flag (Option Nat × Option String) where
  names := ["-n", "--count"]
  effect := .value (fun p => p.1.isSome) fun s p =>
    match Numeral.parse s with
    | .ok n => .ok (some n, p.2)
    | .error problem => .error problem.message

/-- A word, and how many times to repeat it. -/
def repeatGrammar : Arguments.Grammar (Option Nat × Option String) where
  flags := [countFlag]
  positionals := [{ name := "word", add := fun s p => (p.1, some s) }]
  start := (none, none)
  usage := {
    synopsis := "[-n <count>] [--] <word>"
    about := "Repeat a word."
    positionals := [("word", "the word")]
    options := [("-n, --count", "how many times")] }

/-- What an action does, and what comes of it. -/
def Action.seen {η ν : Type} (i : Invocation η) : Action → Act ν Seen
  | write data => do Act.write data; return .done
  | writeArgs separator => do Act.write (separator.intercalate i.args); return .done
  | clearScreen => do Act.write CommandShell.clearScreen; return .done
  | help => do Act.writeText (Help.render i.tree i.args); return .done
  | args => return .tokens i.args
  | fullArgs => return .tokens i.fullArgs
  | argWords => return .texts i.argWords
  | rawLine => return .bytes (some i.statement.raw)
  | command => return .text i.command.name
  | roots => return .texts (i.tree.roots.map Command.name)
  | prompt => return .text (← Act.prompt)
  | setPrompt label => do Act.setPrompt label; return .done
  | read mode => return .record (← Act.read mode)
  | readLine => return .bytes (← Act.readLine)
  | readStatement => return .record (← Act.read .statement)
  | readTerminated terminator => return .bytes (← Act.readTerminated terminator)
  | readAccepted test => return .bytes (← Act.readAccepted test)
  | parseArguments => do
    let given ← i.parseArguments repeatGrammar
    return .repeated (given.map fun p => ⟨p.1.getD 1, p.2.getD ""⟩)
  | fail failure => Act.fail failure

/-- Follows a script. -/
def perform {η : Type} : List Action → Invocation η → Act Event Unit
  | [], _ => return ()
  | action :: rest, i => do
    let seen ← action.seen i
    Act.note ⟨action, seen⟩
    perform rest i

end CommandShell.Rehearsal
