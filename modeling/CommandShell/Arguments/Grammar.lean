/-
Reading argument words.

A grammar says which options there are and which arguments are told by their place.
Words are read from left to right onto a value that starts out empty, and the first word
that does not fit ends the reading.  Asking for help ends it too, but only after all
words were read, and no option may follow it.  A bare `--` ends the options, and so does
the first word of an argument that takes all the words there are.
-/
import CommandShell.Arguments.Usage

namespace CommandShell.Arguments

/-! ### Grammars -/

/-- What an option does. -/
inductive Effect (α : Type)
  /-- It says something by being there. -/
  | switch (set : α → α)
  /-- It takes the next word, once.  `given` tells whether it has been there, and `set`
  reads the word or says what is wrong with it. -/
  | value (given : α → Bool) (set : String → α → Except String α)

/-- An option. -/
structure Flag (α : Type) where
  /-- The words it is given by. -/
  names : List String
  /-- What it does. -/
  effect : Effect α

/-- An argument told by its place. -/
structure Positional (α : Type) where
  /-- What it is called when it is missing. -/
  name : String
  /-- Whether it takes all words from its place on, even none. -/
  greedy : Bool := false
  /-- What a word adds. -/
  add : String → α → α

/-- Which arguments there are. -/
structure Grammar (α : Type) where
  /-- The options. -/
  flags : List (Flag α)
  /-- The arguments told by their place, in order. -/
  positionals : List (Positional α)
  /-- The value before any word is read. -/
  start : α
  /-- What the usage text says. -/
  usage : Usage

/-! ### What can come of reading -/

/-- What is wrong with some argument words. -/
inductive ArgumentError
  /-- An option follows the wish for help. -/
  | trailing
  /-- There is no such option, or no place for the word. -/
  | unrecognized (word : String)
  /-- An option that takes a word is the last one. -/
  | noValue (flag : String)
  /-- The word after an option is not what the option takes, for the reason given. -/
  | badValue (flag value reason : String)
  /-- Arguments told by their place are missing. -/
  | missing (names : List String)
  deriving DecidableEq, Repr

/-- What is said of argument words that do not fit. -/
def ArgumentError.message : ArgumentError → String
  | trailing => "Trailing arguments are not allowed after `help`."
  | unrecognized word => "Unrecognized argument: " ++ word ++ "\n"
  | noValue flag => "No value provided for option '" ++ flag ++ "'.\n"
  | badValue flag value reason =>
    "Error parsing option '" ++ flag ++ "' with value '" ++ value ++ "': " ++ reason ++ "\n"
  | missing names =>
    "Required positional arguments not provided:\n" ++
      String.join (names.map fun name => "    " ++ name ++ "\n")

/-- Why reading gives no value. -/
inductive Exit
  /-- Help is wanted. -/
  | help
  /-- The words do not fit. -/
  | refused (error : ArgumentError)
  deriving DecidableEq, Repr

/-- What is shown instead of running the command that is reached by a path. -/
def Exit.message (path : String) (usage : Usage) : Exit → String
  | help => usage.render path
  | refused error => error.message

/-! ### Reading -/

/-- How far reading has come. -/
structure Progress (α : Type) where
  /-- What the words so far amount to. -/
  value : α
  /-- The arguments told by their place that can still take words. -/
  places : List (Positional α)
  /-- Whether help is wanted. -/
  help : Bool := false
  /-- Whether words are options no more. -/
  ended : Bool := false

/-- The words that ask for help. -/
def helpWords : List String := ["--help", "help"]

/-- What a value that is given twice is refused with. -/
def duplicateValue : String := "duplicate values provided"

/-- What reading comes to when no words are left. -/
def Progress.finish {α : Type} (p : Progress α) : Except Exit α :=
  if p.help then .error .help
  else
    let missing := (p.places.filter fun a => !a.greedy).map Positional.name
    if missing.isEmpty then .ok p.value else .error (.refused (.missing missing))

/-- Reads words on from where reading has come. -/
def readOn {α : Type} (flags : List (Flag α)) (p : Progress α) : List String → Except Exit α
  | [] => p.finish
  | word :: rest =>
    if !p.ended && helpWords.contains word then readOn flags { p with help := true } rest
    else if !p.ended && word.startsWith "-" then
      if word = "--" then readOn flags { p with ended := true } rest
      else if p.help then .error (.refused .trailing)
      else
        match flags.find? fun f => f.names.contains word with
        | none => .error (.refused (.unrecognized word))
        | some f =>
          match f.effect with
          | .switch set => readOn flags { p with value := set p.value } rest
          | .value given set =>
            match rest with
            | [] => .error (.refused (.noValue word))
            | v :: rest =>
              if given p.value then .error (.refused (.badValue word v duplicateValue))
              else
                match set v p.value with
                | .error reason => .error (.refused (.badValue word v reason))
                | .ok value => readOn flags { p with value := value } rest
    else
      match p.places with
      | [] => .error (.refused (.unrecognized word))
      | a :: others =>
        readOn flags
          { p with
            value := a.add word p.value
            places := if a.greedy then a :: others else others
            ended := p.ended || a.greedy }
          rest

/-- Reads argument words. -/
def Grammar.read {α : Type} (g : Grammar α) (words : List String) : Except Exit α :=
  readOn g.flags { value := g.start, places := g.positionals } words

end CommandShell.Arguments
