/-
Bytes, and the few of them that mean something to the shell.

Input is bytes and stays bytes: nothing is decoded before a handler asks for it.
What the lexical rules need to know of a byte is which of five classes it falls
in, and what a reader needs to know of a record is where it lies in the bytes it
was found in, which is an `Extent`.
-/

namespace CommandShell

/-- What a stream carries: bytes in order, with no encoding assumed. -/
abbrev Bytes := List UInt8

/-! ### Bytes with a meaning -/

namespace Byte

/-- The newline, which ends a line and a physical line of a block. -/
abbrev newline : UInt8 := 0x0a

/-- The semicolon, which ends a statement. -/
abbrev semicolon : UInt8 := 0x3b

/-- The hash, which opens a comment. -/
abbrev hash : UInt8 := 0x23

/-- The backslash, which escapes inside quotes and continues a line outside. -/
abbrev backslash : UInt8 := 0x5c

/-- Tab, newline, vertical tab, form feed, carriage return and space. -/
def isBlank (b : UInt8) : Bool :=
  b == 0x20 || (0x09 ≤ b && b ≤ 0x0d)

/-- The two bytes that can end a statement. -/
def isTerminator (b : UInt8) : Bool :=
  b == semicolon || b == newline

@[simp] theorem isTerminator_newline : isTerminator newline = true := rfl

@[simp] theorem isTerminator_semicolon : isTerminator semicolon = true := rfl

theorem isTerminator_iff {b : UInt8} : isTerminator b = true ↔ b = semicolon ∨ b = newline := by
  simp [isTerminator]

end Byte

/-! ### Cutting bytes -/

namespace Bytes

/-- The bytes before the first `b` and those after it, if there is a `b`. -/
def splitFirst? (b : UInt8) : Bytes → Option (Bytes × Bytes)
  | [] => none
  | x :: r => if x = b then some ([], r) else (splitFirst? b r).map fun p => (x :: p.1, p.2)

/-- The bytes through the last `b` and those after it, if there is a `b`. -/
def splitLast? (b : UInt8) : Bytes → Option (Bytes × Bytes)
  | [] => none
  | x :: r =>
    match splitLast? b r with
    | some p => some (x :: p.1, p.2)
    | none => if x = b then some ([x], r) else none

/-- Whether there are bytes and the last is the first. -/
def endsAsItBegins (s : Bytes) : Bool :=
  !s.isEmpty && s.head? == s.getLast?

theorem splitFirst?_append {b : UInt8} {s u v : Bytes} (h : splitFirst? b s = some (u, v)) :
    s = u ++ b :: v ∧ b ∉ u := by
  induction s generalizing u with
  | nil => simp [splitFirst?] at h
  | cons x r ih =>
    by_cases hx : x = b
    · simp only [splitFirst?, hx, ↓reduceIte, Option.some.injEq, Prod.mk.injEq] at h
      obtain ⟨rfl, rfl⟩ := h
      simp [hx]
    · simp only [splitFirst?, hx, ↓reduceIte, Option.map_eq_some_iff] at h
      obtain ⟨⟨u', v'⟩, hr, he⟩ := h
      simp only [Prod.mk.injEq] at he
      obtain ⟨rfl, rfl⟩ := he
      obtain ⟨rfl, hn⟩ := ih hr
      exact ⟨rfl, by simpa [Ne.symm hx] using hn⟩

theorem splitFirst?_eq_none {b : UInt8} {s : Bytes} : splitFirst? b s = none ↔ b ∉ s := by
  induction s with
  | nil => simp [splitFirst?]
  | cons x r ih =>
    by_cases hx : x = b
    · simp [splitFirst?, hx]
    · simp [splitFirst?, hx, ih, Ne.symm hx]

theorem splitFirst?_eq_some {b : UInt8} {u : Bytes} (hu : b ∉ u) (v : Bytes) :
    splitFirst? b (u ++ b :: v) = some (u, v) := by
  induction u with
  | nil => simp [splitFirst?]
  | cons x u ih =>
    have hx : x ≠ b := fun hc => hu (by simp [hc])
    have hrest : b ∉ u := fun hc => hu (by simp [hc])
    simp [splitFirst?, hx, ih hrest]

theorem splitLast?_eq_none {b : UInt8} {s : Bytes} : splitLast? b s = none ↔ b ∉ s := by
  induction s with
  | nil => simp [splitLast?]
  | cons x r ih =>
    cases hr : splitLast? b r with
    | none =>
      have hn := ih.mp hr
      by_cases hx : x = b
      · simp [splitLast?, hr, hx]
      · simp [splitLast?, hr, hx, hn, Ne.symm hx]
    | some p =>
      have hb : b ∈ r := Classical.byContradiction fun h => by simp [ih.mpr h] at hr
      simp [splitLast?, hr, hb]

theorem splitLast?_append {b : UInt8} {s u v : Bytes} (h : splitLast? b s = some (u, v)) :
    s = u ++ v ∧ b ∉ v ∧ ∃ w, u = w ++ [b] := by
  induction s generalizing u with
  | nil => simp [splitLast?] at h
  | cons x r ih =>
    cases hr : splitLast? b r with
    | some p =>
      simp only [splitLast?, hr, Option.some.injEq, Prod.mk.injEq] at h
      obtain ⟨rfl, rfl⟩ := h
      obtain ⟨he, hv, w, hw⟩ := ih hr
      exact ⟨by rw [he]; rfl, hv, x :: w, by rw [hw]; rfl⟩
    | none =>
      have hn := splitLast?_eq_none.mp hr
      by_cases hx : x = b
      · simp only [splitLast?, hr, hx, ↓reduceIte, Option.some.injEq, Prod.mk.injEq] at h
        obtain ⟨rfl, rfl⟩ := h
        exact ⟨by simp [hx], hn, [], rfl⟩
      · simp [splitLast?, hr, hx] at h

theorem splitLast?_length {b : UInt8} {s u v : Bytes} (h : splitLast? b s = some (u, v)) :
    0 < u.length ∧ u.length + v.length = s.length := by
  obtain ⟨rfl, _, w, rfl⟩ := splitLast?_append h
  exact ⟨by simp, (List.length_append).symm⟩

end Bytes

/-! ### Places -/

/-- A place in some bytes: from `start` up to, not including, `stop`. -/
structure Extent where
  /-- Where the first byte lies. -/
  start : Nat
  /-- Where the byte after the last one lies. -/
  stop : Nat
  deriving DecidableEq, Repr

/-- The bytes that lie at a place of `s`. -/
def Extent.cut (e : Extent) (s : Bytes) : Bytes :=
  (s.take e.stop).drop e.start

theorem Extent.cut_append (u v w : Bytes) :
    Extent.cut ⟨u.length, u.length + v.length⟩ (u ++ v ++ w) = v := by
  simp [Extent.cut, List.take_append]

/-! ### Text as bytes -/

/-- The UTF-8 form of a text, which is how names are compared and labels written. -/
def textBytes (s : String) : Bytes :=
  s.toUTF8.data.toList

theorem textBytes_inj {s t : String} : textBytes s = textBytes t ↔ s = t := by
  constructor
  · intro h
    have hd : s.toUTF8.data = t.toUTF8.data := Array.toList_inj.mp h
    exact String.toByteArray_inj.mp (ByteArray.ext hd)
  · rintro rfl; rfl

end CommandShell
