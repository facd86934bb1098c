/-
The commands of the demo.

`demo` reads a line, a statement and two blocks and shows each of them, `demo clear`
clears the screen, `echo` prints its arguments, and `prompt` shows or changes the prompt.
-/
import CommandShell.Command.Tree
import CommandShell.Handler.Invocation

namespace CommandShell.Demo

variable {ν : Type}

/-- The handlers of the demo. -/
inductive Handler
  | demo
  | clear
  | echo
  | prompt
  deriving DecidableEq, Repr

/-- A label and the bytes it is for, in single quotes, as a line. -/
def quoted (label : String) (body : Bytes) : Bytes :=
  textBytes (label ++ " '") ++ body ++ textBytes "'\n"

/-- A statement and its tokens, one on a line. -/
def showStatement (statement : Record) : Bytes :=
  quoted "Your raw text" statement.raw ++ textBytes " which gets tokenized to:\n" ++
    statement.tokens.flatMap (quoted " -")

/-- Reads in every mode and shows what was read, until the input ends. -/
def demo : Act ν Unit := do
  Act.writeText "Insert a line of raw text: "
  let some line ← Act.readLine | return ()
  Act.write (quoted "You typed in" line)
  Act.writeText "Insert a line of text to be tokenized: "
  let some statement ← Act.read .statement | return ()
  Act.write (showStatement statement)
  Act.writeText "Insert a multi-line text with terminator 'EOI':\n"
  let some block ← Act.readTerminated (textBytes "EOI") | return ()
  Act.write (quoted "You wrote" block)
  Act.writeText "Insert a multi-line text with a predicate (first char == end char):\n"
  let some block ← Act.readAccepted Bytes.endsAsItBegins | return ()
  Act.write (quoted "You wrote" block)

/-- What `echo` is asked to print. -/
structure Echo where
  /-- Whether the newline at the end is left out. -/
  noNewline : Bool := false
  /-- The words, the last one first. -/
  reversed : List String := []

/-- The arguments of `echo`. -/
def echoGrammar : Arguments.Grammar Echo where
  flags := [{
    names := ["-n", "--no-newline"]
    effect := .switch fun e => { e with noNewline := true } }]
  positionals := [{
    name := "words"
    greedy := true
    add := fun word e => { e with reversed := word :: e.reversed } }]
  start := {}
  usage := {
    synopsis := "[-n] [words...]"
    about := "Print the arguments separated by spaces."
    options := [("-n, --no-newline", "do not print the trailing newline")] }

/-- Prints the arguments. -/
def echo (i : Invocation Handler) : Act ν Unit := do
  let some e ← i.parseArguments echoGrammar | return ()
  let text := " ".intercalate e.reversed.reverse
  Act.writeText (if e.noNewline then text else text ++ "\n")

/-- Shows the prompt, or changes it to the one argument there is. -/
def prompt (i : Invocation Handler) : Act ν Unit := do
  match i.argWords with
  | [] => Act.writeText ((← Act.prompt) ++ "\n")
  | [label] => Act.setPrompt label
  | _ => Act.fail ⟨"expected at most one label", []⟩

/-- What the handlers do. -/
def perform : Handler → Invocation Handler → Act ν Unit
  | .demo, _ => demo
  | .clear, _ => Act.write clearScreen
  | .echo, i => echo i
  | .prompt, i => prompt i

/-- The command that clears the screen. -/
def clearCommand : Command Handler where
  name := "clear"
  aliases := ["cls"]
  help := "this is a nested demo command"
  description := "clear the screen"
  handler := some .clear

/-- The commands of the first level. -/
def roots : List (Command Handler) := [
  { name := "demo"
    help := "this is a demo command"
    description := "Some more description"
    handler := some .demo
    children := [clearCommand] },
  { name := "echo"
    help := "print the arguments"
    description := "echo [-n] words..."
    handler := some .echo },
  { name := "prompt"
    help := "show or change the prompt"
    description := "prompt [label]"
    handler := some .prompt }]

/-- The demo's commands as a tree. -/
def tree : CommandTree Handler :=
  ⟨roots, by decide +kernel⟩

end CommandShell.Demo
