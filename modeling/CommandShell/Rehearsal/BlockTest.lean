/-
Tests for blocks that can be named.

A request for a block can bring any test.  These are the ones a rehearsal can ask for by
name.
-/
import CommandShell.Bytes

namespace CommandShell.Rehearsal

/-- A test that a block can be put to. -/
inductive BlockTest
  /-- It ends with these bytes. -/
  | endsWith (part : Bytes)
  /-- It begins with these bytes. -/
  | startsWith (part : Bytes)
  /-- These bytes occur in it, next to each other. -/
  | contains (part : Bytes)
  /-- It is exactly these bytes. -/
  | equals (whole : Bytes)
  /-- It is not empty, and its first byte is its last. -/
  | endsAsItBegins
  /-- It has at least this many bytes. -/
  | atLeast (count : Nat)
  /-- It has exactly this many newlines. -/
  | newlines (count : Nat)
  /-- It has as many opening as closing braces. -/
  | balanced
  /-- There is nothing to test. -/
  | always
  /-- Nothing passes. -/
  | never
  deriving DecidableEq, Repr

/-- Whether `part` occurs in a block. -/
def occursIn (part : Bytes) : Bytes → Bool
  | [] => part.isEmpty
  | b :: r => part.isPrefixOf (b :: r) || occursIn part r

/-- Whether a block passes a test. -/
def BlockTest.accepts : BlockTest → Bytes → Bool
  | endsWith part, block => part.isSuffixOf block
  | startsWith part, block => part.isPrefixOf block
  | contains part, block => occursIn part block
  | equals whole, block => whole == block
  | endsAsItBegins, block => Bytes.endsAsItBegins block
  | atLeast count, block => count ≤ block.length
  | newlines count, block => block.count Byte.newline == count
  | balanced, block => block.count 0x7b == block.count 0x7d
  | always, _ => true
  | never, _ => false

end CommandShell.Rehearsal
