/-
What a handler is invoked with.

A handler sees the statement it was invoked by, the command it was found for and the
whole tree.  The tokens that name the command come first and are its path; the rest are
its arguments, byte for byte.  `parseArguments` reads them as words by a grammar.
-/
import CommandShell.Arguments.Grammar
import CommandShell.Command.Tree
import CommandShell.Handler.Dialogue

namespace CommandShell

/-- One invocation of a command. -/
structure Invocation (η : Type) where
  /-- The statement as it was read. -/
  statement : Record
  /-- How many tokens name the command. -/
  depth : Nat
  /-- The command that is run. -/
  command : Command η
  /-- The tree it was found in. -/
  tree : CommandTree η

/-- What homes the cursor and clears a terminal. -/
def clearScreen : Bytes :=
  textBytes "\x1b[1;1H\x1b[2J"

namespace Invocation

variable {η ν : Type}

/-- The tokens that name the command. -/
def path (i : Invocation η) : List Bytes :=
  i.statement.tokens.take i.depth

/-- The tokens after those that name the command. -/
def args (i : Invocation η) : List Bytes :=
  i.statement.tokens.drop i.depth

/-- All tokens of the statement. -/
def fullArgs (i : Invocation η) : List Bytes :=
  i.statement.tokens

/-- The arguments as text. -/
def argWords (i : Invocation η) : List String :=
  i.args.map Lossy.decode

/-- The path of the command as it was typed. -/
def pathText (i : Invocation η) : String :=
  " ".intercalate (i.path.map Lossy.decode)

/-- Reads the arguments by a grammar.  If that gives no value, what there is to say is
written instead, with a newline at its end. -/
def parseArguments {α : Type} (g : Arguments.Grammar α) (i : Invocation η) :
    Act ν (Option α) := do
  match g.read i.argWords with
  | .ok value => return some value
  | .error exit =>
    let text := exit.message i.pathText g.usage
    Act.writeText text
    if text.endsWith "\n" then return none
    Act.writeText "\n"
    return none

end Invocation

end CommandShell
