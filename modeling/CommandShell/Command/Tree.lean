/-
Trees of commands.

A forest of commands is accepted as a tree if every name can be told apart where it is
looked up: no name on the first level is a built-in word, and among commands next to
each other no name is empty or occurs twice.  A forest that is not accepted is refused
with the first thing wrong with it: reserved words first, then group by group, a group
before what is below its members.

A line of tokens is resolved to the command at the end of the longest path that its
tokens name.
-/
import CommandShell.Command.Basic
import CommandShell.Command.Builtin

namespace CommandShell

/-! ### What can be wrong with a forest -/

/-- Why a forest is refused. -/
inductive TreeError
  /-- A name occurs twice in the group below `parent`. -/
  | duplicate (parent : Option String) (name : String)
  /-- A name in the group below `parent` is empty. -/
  | emptyName (parent : Option String)
  /-- A name on the first level is a built-in word. -/
  | reserved (name : String)
  deriving DecidableEq, Repr

namespace TreeError

/-- What a group of commands is below: a command, or nothing. -/
def below : Option String → String
  | some name => "`" ++ name ++ "`"
  | none => "the root"

/-- What is said of a refused forest. -/
def message : TreeError → String
  | duplicate parent name => "`" ++ name ++ "` is defined more than once under " ++ below parent
  | emptyName parent => "a command under " ++ below parent ++ " has an empty name or alias"
  | reserved name => "`" ++ name ++ "` is reserved for the built-in command"

end TreeError

namespace CommandTree

variable {η : Type}

/-- The first name that is empty or was seen before. -/
def groupViolation? (parent : Option String) (seen : List String) :
    List String → Option TreeError
  | [] => none
  | name :: rest =>
    if name = "" then some (.emptyName parent)
    else if name ∈ seen then some (.duplicate parent name)
    else groupViolation? parent (name :: seen) rest

mutual

/-- The first thing wrong below a command. -/
def violationBelow? : Command η → Option TreeError
  | ⟨name, _, _, _, _, children⟩ =>
    (groupViolation? (some name) [] (children.flatMap Command.names)).or
      (violationBelowAny? children)

/-- The first thing wrong below any of some commands. -/
def violationBelowAny? : List (Command η) → Option TreeError
  | [] => none
  | c :: cs => (violationBelow? c).or (violationBelowAny? cs)

end

/-- The first name on the first level that is a built-in word. -/
def reserved? (roots : List (Command η)) : Option TreeError :=
  ((roots.flatMap Command.names).find? fun name => (Builtin.ofToken? (textBytes name)).isSome).map
    .reserved

/-- The first thing wrong with a forest. -/
def violation? (roots : List (Command η)) : Option TreeError :=
  (reserved? roots).or
    ((groupViolation? none [] (roots.flatMap Command.names)).or (violationBelowAny? roots))

end CommandTree

/-! ### Trees -/

/-- A forest with nothing wrong with it. -/
structure CommandTree (η : Type) where
  /-- The commands of the first level, in order. -/
  roots : List (Command η)
  /-- Nothing is wrong with them. -/
  accepted : CommandTree.violation? roots = none

namespace CommandTree

variable {η : Type}

/-- Accepts a forest, or tells the first thing wrong with it. -/
def ofRoots (roots : List (Command η)) : Except TreeError (CommandTree η) :=
  match h : violation? roots with
  | some e => .error e
  | none => .ok ⟨roots, h⟩

theorem ofRoots_eq_error_iff {roots : List (Command η)} {e : TreeError} :
    ofRoots roots = .error e ↔ violation? roots = some e := by
  unfold ofRoots
  split <;> simp_all

theorem ofRoots_eq_ok_iff {roots : List (Command η)} {tree : CommandTree η} :
    ofRoots roots = .ok tree ↔ tree.roots = roots := by
  unfold ofRoots
  split
  · next e h =>
    refine ⟨by simp, ?_⟩
    rintro rfl
    rw [tree.accepted] at h
    simp at h
  · obtain ⟨r, _⟩ := tree
    simp only [Except.ok.injEq, CommandTree.mk.injEq]
    exact ⟨Eq.symm, Eq.symm⟩

/-- The tree without commands. -/
def empty : CommandTree η :=
  ⟨[], rfl⟩

/-! ### Looking up -/

/-- The command at the end of the longest path that tokens name among some commands, and
how many tokens name it. -/
def resolveIn (commands : List (Command η)) : List Bytes → Option (Command η × Nat)
  | [] => none
  | token :: rest =>
    match commands.find? (·.answersTo token) with
    | none => none
    | some c =>
      match resolveIn c.children rest with
      | some (nested, depth) => some (nested, depth + 1)
      | none => some (c, 1)

/-- The command that a line of tokens names in a tree, and how many of them name it. -/
def resolve (tree : CommandTree η) (tokens : List Bytes) : Option (Command η × Nat) :=
  resolveIn tree.roots tokens

theorem resolveIn_depth {commands : List (Command η)} {tokens : List Bytes} {c : Command η}
    {depth : Nat} (h : resolveIn commands tokens = some (c, depth)) :
    0 < depth ∧ depth ≤ tokens.length := by
  induction tokens generalizing commands c depth with
  | nil => simp [resolveIn] at h
  | cons token rest ih =>
    simp only [resolveIn] at h
    split at h
    · simp at h
    · split at h
      · next hr =>
        simp only [Option.some.injEq, Prod.mk.injEq] at h
        have := ih hr
        simp only [List.length_cons]
        omega
      · simp only [Option.some.injEq, Prod.mk.injEq] at h
        simp only [List.length_cons]
        omega

end CommandTree

end CommandShell
