/-
What every shell understands.

Two words are taken before any command is looked for, so no command of the first level
can be reached by them.
-/
import CommandShell.Bytes

namespace CommandShell

/-- What a shell does without a command. -/
inductive Builtin
  /-- Shows the help of everything, or of one command. -/
  | help
  /-- Ends the session. -/
  | exit
  deriving DecidableEq, Repr

namespace Builtin

/-- The word that asks for it. -/
def word : Builtin → String
  | help => "help"
  | exit => "exit"

/-- What a token asks for, if it is one of the two words. -/
def ofToken? (token : Bytes) : Option Builtin :=
  if token = textBytes help.word then some help
  else if token = textBytes exit.word then some exit
  else none

theorem ofToken?_eq_some_iff {token : Bytes} {b : Builtin} :
    ofToken? token = some b ↔ token = textBytes b.word := by
  have hne : textBytes help.word ≠ textBytes exit.word := by
    rw [Ne, textBytes_inj]
    decide
  by_cases h : token = textBytes help.word
  · cases b <;> simp [ofToken?, h, hne]
  · by_cases he : token = textBytes exit.word
    · cases b <;> simp [ofToken?, he, hne.symm]
    · cases b <;> simp [ofToken?, h, he]

end Builtin

end CommandShell
