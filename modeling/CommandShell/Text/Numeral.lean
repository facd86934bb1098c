/-
Unsigned 64-bit numerals.

A numeral is an optional plus sign and decimal digits.  Reading stops at the first
thing wrong from the left, so a numeral that is too large before its first strange
character is reported as too large, and one with a strange character first as strange.
-/

namespace CommandShell.Numeral

/-- Why a text is no numeral. -/
inductive Problem
  /-- There is nothing to read. -/
  | empty
  /-- A character is no digit. -/
  | invalidDigit
  /-- The value does not fit in 64 bits. -/
  | overflow
  deriving DecidableEq, Repr

/-- What is said of a text that is no numeral. -/
def Problem.message : Problem → String
  | .empty => "cannot parse integer from empty string"
  | .invalidDigit => "invalid digit found in string"
  | .overflow => "number too large to fit in target type"

/-- The value of a decimal digit. -/
def digit? (c : Char) : Option Nat :=
  if '0' ≤ c && c ≤ '9' then some (c.toNat - '0'.toNat) else none

/-- Reads digits onto a value read so far. -/
def extend (value : Nat) : List Char → Except Problem Nat
  | [] => .ok value
  | c :: rest =>
    match digit? c with
    | none => .error .invalidDigit
    | some d =>
      if value * 10 + d < UInt64.size then extend (value * 10 + d) rest else .error .overflow

/-- Reads a numeral. -/
def parse (s : String) : Except Problem Nat :=
  match s.toList with
  | [] => .error .empty
  | ['+'] => .error .invalidDigit
  | '+' :: rest => extend 0 rest
  | cs => extend 0 cs

theorem extend_lt {value n : Nat} {cs : List Char} (hv : value < UInt64.size)
    (h : extend value cs = .ok n) : n < UInt64.size := by
  induction cs generalizing value with
  | nil => simp only [extend, Except.ok.injEq] at h; omega
  | cons c rest ih =>
    simp only [extend] at h
    split at h
    · simp at h
    · split at h
      · next hlt => exact ih hlt h
      · simp at h

/-- What is read fits in 64 bits. -/
theorem parse_lt {s : String} {n : Nat} (h : parse s = .ok n) : n < UInt64.size := by
  unfold parse at h
  split at h
  · simp at h
  · simp at h
  · exact extend_lt (by decide) h
  · exact extend_lt (by decide) h

end CommandShell.Numeral
