/-
Reading bytes as text when they may not be text.

Bytes are read as UTF-8 from the left.  Where they are not UTF-8, the longest run
that could have begun a character stands for one replacement character, and
reading goes on at the byte that broke it.  So nothing is refused, every byte is
accounted for, and bytes that are UTF-8 read as exactly the text they encode.
-/
import CommandShell.Bytes

namespace CommandShell.Lossy

/-- What stands for bytes that are not text. -/
def replacement : Char := '\uFFFD'

/-- What the first byte of a character promises: its own share of the code point and
the range of each byte that has to follow. -/
structure Lead where
  /-- The bits of the code point that the first byte holds. -/
  bits : Nat
  /-- The lowest and highest value of each following byte, in order. -/
  follow : List (UInt8 × UInt8)

/-- The range of a following byte that is not narrowed by the first. -/
def anyFollow : UInt8 × UInt8 := (0x80, 0xBF)

/-- The first bytes of characters.  The second byte is narrowed where the full range
would give an overlong form, a surrogate or a value above the last code point. -/
def Lead.ofByte? (b : UInt8) : Option Lead :=
  if b < 0x80 then some ⟨b.toNat, []⟩
  else if b < 0xC2 then none
  else if b < 0xE0 then some ⟨b.toNat % 0x20, [anyFollow]⟩
  else if b = 0xE0 then some ⟨b.toNat % 0x10, [(0xA0, 0xBF), anyFollow]⟩
  else if b = 0xED then some ⟨b.toNat % 0x10, [(0x80, 0x9F), anyFollow]⟩
  else if b < 0xF0 then some ⟨b.toNat % 0x10, [anyFollow, anyFollow]⟩
  else if b = 0xF0 then some ⟨b.toNat % 0x08, [(0x90, 0xBF), anyFollow, anyFollow]⟩
  else if b < 0xF4 then some ⟨b.toNat % 0x08, [anyFollow, anyFollow, anyFollow]⟩
  else if b = 0xF4 then some ⟨b.toNat % 0x08, [(0x80, 0x8F), anyFollow, anyFollow]⟩
  else none

/-- Takes following bytes as long as they are in range.  The result is the code point, if
no byte was missing, and what was not taken. -/
def complete (point : Nat) : List (UInt8 × UInt8) → Bytes → Option Nat × Bytes
  | [], s => (some point, s)
  | _ :: _, [] => (none, [])
  | (low, high) :: ranges, b :: r =>
    if low ≤ b && b ≤ high then complete (point * 0x40 + b.toNat % 0x40) ranges r
    else (none, b :: r)

theorem complete_length_le (point : Nat) (ranges : List (UInt8 × UInt8)) (s : Bytes) :
    (complete point ranges s).2.length ≤ s.length := by
  induction ranges generalizing point s with
  | nil => simp [complete]
  | cons p ranges ih =>
    cases s with
    | nil => simp [complete]
    | cons b r =>
      simp only [complete]
      split
      · exact Nat.le_succ_of_le (ih _ r)
      · simp

/-- The character at the front of `b :: r`, or the replacement for what is not one, and
the bytes after it. -/
def next (b : UInt8) (r : Bytes) : Char × Bytes :=
  match Lead.ofByte? b with
  | none => (replacement, r)
  | some lead =>
    match complete lead.bits lead.follow r with
    | (some point, rest) => (Char.ofNat point, rest)
    | (none, rest) => (replacement, rest)

theorem next_length_le (b : UInt8) (r : Bytes) : (next b r).2.length ≤ r.length := by
  unfold next
  split
  · simp
  · next lead _ =>
    have h := complete_length_le lead.bits lead.follow r
    split <;> simp_all

/-- The characters of some bytes. -/
def chars : Bytes → List Char
  | [] => []
  | b :: r => (next b r).1 :: chars (next b r).2
termination_by s => s.length
decreasing_by exact Nat.lt_succ_of_le (next_length_le b r)

/-- The text of some bytes, with replacements where they are not text. -/
def decode (s : Bytes) : String :=
  String.ofList (chars s)

end CommandShell.Lossy
