/-
Help texts.

The help of one command shows its texts and lists the commands right below it.  The help
of a whole tree lists the built-ins and the first level.  What is asked for is resolved
like a line of tokens, so tokens that name nothing further are passed over.
-/
import CommandShell.Command.Tree

namespace CommandShell.Help

variable {η : Type}

/-- What is said when help is asked for something that is no command. -/
def notFound : String := "cannot find command help was requested for.\n"

/-- The entry of an alias in a listing. -/
def aliasEntry (name : String) : String :=
  "\n        - " ++ name

/-- The entry of a command in a listing. -/
def entry (c : Command η) : String :=
  "\n    - " ++ c.name ++ "\n        " ++ c.help ++
    if c.aliases.isEmpty then "" else "\n      aliases:" ++ String.join (c.aliases.map aliasEntry)

/-- The entries of some commands, in order. -/
def entries (commands : List (Command η)) : String :=
  String.join (commands.map entry)

/-- The help of one command. -/
def ofCommand (c : Command η) : String :=
  c.help ++ "\n   " ++ c.description ++ "\n" ++
    (if c.children.isEmpty then "" else "  subcommands:" ++ entries c.children) ++ "\n"

/-- The listing of the built-ins, which comes before the first level of a tree. -/
def builtins : String :=
  "\nroot commands:" ++
    "\n    - help [cmds...]\n        print this help." ++
    "\n    - exit\n        end this program"

/-- The help of a whole tree. -/
def ofTree (tree : CommandTree η) : String :=
  builtins ++ entries tree.roots ++ "\n"

/-- The help that some tokens ask for; no tokens ask for the whole tree. -/
def render (tree : CommandTree η) (query : List Bytes) : String :=
  if query.isEmpty then ofTree tree
  else
    match tree.resolve query with
    | some (c, _) => ofCommand c
    | none => notFound

end CommandShell.Help
