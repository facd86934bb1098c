/-
Commands.

A command has a name, other names it answers to, texts for its help, commands below it
and perhaps a handler.  What a handler is, is left open: a command only carries it, so
what is said of commands holds whatever their handlers do.
-/
import CommandShell.Bytes
import CommandShell.Text.Quoted

namespace CommandShell

/-- A command, with the commands below it. -/
structure Command (η : Type) where
  /-- The name it is invoked by. -/
  name : String
  /-- Other names, matched in the same way. -/
  aliases : List String := []
  /-- What to run; a command without it only groups those below it. -/
  handler : Option η := none
  /-- One line for listings. -/
  help : String := ""
  /-- A longer text for its own help. -/
  description : String := ""
  /-- The commands below it, in order. -/
  children : List (Command η) := []

namespace Command

variable {η : Type}

/-- Every name a command answers to, its own first. -/
def names (c : Command η) : List String :=
  c.name :: c.aliases

/-- Whether a token names a command: byte for byte, as UTF-8. -/
def answersTo (token : Bytes) (c : Command η) : Bool :=
  c.names.any fun name => textBytes name == token

theorem answersTo_iff {token : Bytes} {c : Command η} :
    c.answersTo token = true ↔ ∃ name ∈ c.names, textBytes name = token := by
  simp [answersTo]

mutual

/-- A command written out with everything below it; of a handler only that it is there. -/
def describe : Command η → String
  | ⟨name, aliases, handler, help, description, children⟩ =>
    "Command \x7b name: " ++ Quoted.text name ++
      ", aliases: " ++ Quoted.texts aliases ++
      ", handler: " ++ (if handler.isSome then "Some(\"...\")" else "None") ++
      ", help: " ++ Quoted.text help ++
      ", description: " ++ Quoted.text description ++
      ", children: [" ++ ", ".intercalate (describeAll children) ++ "] \x7d"

/-- Commands written out one by one. -/
def describeAll : List (Command η) → List String
  | [] => []
  | c :: cs => c.describe :: describeAll cs

end

end Command

end CommandShell
