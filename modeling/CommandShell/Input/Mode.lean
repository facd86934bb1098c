/-
What a reader can be asked for.

A request names what counts as one record: a statement split into tokens, a line, or a
block of lines.  A block ends at a newline, and which newline is for the request to
say: the first one that follows a terminator, or the first one at which a test accepts
everything before it.
-/
import CommandShell.Input.Token
import CommandShell.Text.Lossy
import CommandShell.Text.Quoted

namespace CommandShell

/-- What the next record is to be. -/
inductive Mode
  /-- One logical line, split into tokens. -/
  | statement
  /-- Everything up to the next newline. -/
  | line
  /-- Everything up to the first newline that follows these bytes. -/
  | terminated (terminator : Bytes)
  /-- Everything up to the first newline before which the test accepts all there is. -/
  | accepted (test : Bytes → Bool)

namespace Mode

/-- The test that a block has to pass at its newline, for the modes that read blocks. -/
def test? : Mode → Option (Bytes → Bool)
  | statement => none
  | line => some fun _ => true
  | terminated terminator => some terminator.isSuffixOf
  | accepted test => some test

/-- A mode in words, with its terminator as text. -/
def describe : Mode → String
  | statement => "Tokenize"
  | line => "RawLine"
  | terminated terminator =>
    "MultilineTerminator \x7b terminator: " ++ Quoted.text (Lossy.decode terminator) ++ " \x7d"
  | accepted _ => "MultilinePredicate"

end Mode

end CommandShell
