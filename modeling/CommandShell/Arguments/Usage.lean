/-
Usage texts.

A usage text names the arguments of a command and says what each is for.  The rows of its
lists are laid out in two columns: what to type, indented, and what it does, from column
20 on, in lines of at most 80 characters that break between words.
-/

namespace CommandShell.Arguments

/-- What a usage text is made of. -/
structure Usage where
  /-- The arguments as they are typed, after the path of the command. -/
  synopsis : String
  /-- What the command is for. -/
  about : String
  /-- What to type and what it does, for arguments told by their place. -/
  positionals : List (String × String) := []
  /-- What to type and what it does, for options. -/
  options : List (String × String) := []

namespace Usage

/-- Where the second column begins. -/
def column : Nat := 20

/-- How long a line can get. -/
def width : Nat := 80

/-- A line filled up with spaces to where the second column begins. -/
def pad (line : String) : String :=
  line ++ String.ofList (List.replicate (column - line.length) ' ')

/-- Adds words to a line, and goes on in the second column of a new one when it is full. -/
def fill (line : String) : List String → List String
  | [] => [line]
  | word :: rest =>
    if line.length + 1 + word.length > width then line :: fill (pad "" ++ word) rest
    else fill (line ++ " " ++ word) rest

/-- The lines of a row. -/
def row (label about : String) : List String :=
  let head := "  " ++ label
  match about.splitOn " " with
  | [] => [head]
  | word :: rest =>
    if head.length < column then fill (pad head ++ word) rest
    else head :: fill (pad "" ++ word) rest

/-- A list under its title; without rows there is no list. -/
def listing (title : String) (rows : List (String × String)) : List String :=
  if rows.isEmpty then [] else ["", title] ++ rows.flatMap fun r => row r.1 r.2

/-- The row of the option that asks for the usage text, which is always there. -/
def helpRow : String × String :=
  ("--help, help", "display usage information")

/-- The usage text of the command that is reached by a path. -/
def render (path : String) (u : Usage) : String :=
  let lines := ["Usage: " ++ path ++ " " ++ u.synopsis, "", u.about] ++
    listing "Positional Arguments:" u.positionals ++
    listing "Options:" (u.options ++ [helpRow])
  String.join (lines.map (· ++ "\n"))

end Usage

end CommandShell.Arguments
