/-
Looking for a record in bytes that have arrived.

Nothing is taken out here: a scan says where a complete record lies, or that empty
statements can be dropped first, or that more bytes are needed.  Places count from the
front of the buffer, so a record can be cut out of it whatever else is in it.

A scan that needed more bytes can be resumed when they have come.  A block is only looked
for in the new bytes then, because its test says the same of the old ones as before; so a
block that arrives in small pieces is not read over and over.  `resume_eq` says that
nothing is missed by that.

What a scan finds uses up at least one byte and no byte that is not there; every loop
over scans ends because of that.
-/
import CommandShell.Input.Line
import CommandShell.Input.Mode

namespace CommandShell

/-- Where a complete record lies in a buffer. -/
structure Found where
  /-- Where its bytes lie. -/
  raw : Extent
  /-- Where the texts of its tokens lie. -/
  tokens : List Extent
  /-- How many bytes of the buffer it uses up. -/
  consumed : Nat
  deriving DecidableEq, Repr

/-- The record that lies at a place of a buffer. -/
def Found.record (f : Found) (buffer : Bytes) : Record :=
  ⟨f.raw.cut buffer, f.tokens.map fun e => e.cut buffer⟩

/-- What looking at a buffer comes to. -/
inductive Scan
  /-- A record is complete. -/
  | complete (found : Found)
  /-- Empty statements take up this many bytes. -/
  | skip (count : Nat)
  /-- More bytes are needed. -/
  | incomplete
  deriving DecidableEq, Repr

namespace Scan

/-- Where the counted texts of tokens lie that were read one after the other from
`start` on. -/
def extents (start : Nat) : List Token → List Extent
  | [] => []
  | t :: ts =>
    let rest := extents (start + t.render.length) ts
    if t.isSeparator then rest else t.extent start :: rest

/-- A line that was found behind `start` bytes.  What could not be split stays, with the
terminator behind it; a line that could not be split at all goes as a whole. -/
def ofLine (start : Nat) (line : Bytes) : Found :=
  let ts := tokens line
  let used := line.length - ts.2.length
  if used = 0 then ⟨⟨start, start + line.length⟩, [], start + line.length + 1⟩
  else
    ⟨⟨start, start + used⟩, extents start ts.1,
      if ts.2.isEmpty then start + line.length + 1 else start + used⟩

/-- Looks for a statement. -/
def statement (buffer : Bytes) : Scan :=
  match Line.front buffer with
  | .empty skipped _ => .skip skipped.length
  | .line blanks line _ _ => .complete (ofLine blanks.length line)
  | .unfinished => .incomplete

/-- Where the first newline lies before which `test` accepts the block so far; `before`
are the bytes already passed, last one first. -/
def blockEnd? (test : Bytes → Bool) (before : Bytes) : Bytes → Option Nat
  | [] => none
  | b :: r =>
    if b = Byte.newline && test before.reverse then some before.length
    else blockEnd? test (b :: before) r

/-- Looks for a block that ends where `test` says, behind the first `seen` bytes. -/
def block (test : Bytes → Bool) (seen : Nat) (buffer : Bytes) : Scan :=
  match blockEnd? test (buffer.take seen).reverse (buffer.drop seen) with
  | some stop => .complete ⟨⟨0, stop⟩, [], stop + 1⟩
  | none => .incomplete

/-- Looks on for the record that a mode asks for, in a buffer whose first `seen` bytes were
not enough. -/
def resume (mode : Mode) (seen : Nat) (buffer : Bytes) : Scan :=
  match mode.test? with
  | none => statement buffer
  | some test => block test seen buffer

/-- Looks for the record that a mode asks for. -/
def ofMode (mode : Mode) (buffer : Bytes) : Scan :=
  resume mode 0 buffer

/-! ### Resuming a scan -/

/-- Behind bytes in which no block ends the search goes on as if it had begun there. -/
theorem blockEnd?_append {test : Bytes → Bool} {before u : Bytes}
    (h : blockEnd? test before u = none) (v : Bytes) :
    blockEnd? test before (u ++ v) = blockEnd? test (u.reverse ++ before) v := by
  induction u generalizing before with
  | nil => rfl
  | cons b r ih =>
    simp only [blockEnd?] at h
    split at h
    · simp at h
    · next hb => simp [blockEnd?, hb, ih h]

theorem block_incomplete {test : Bytes → Bool} {buffer : Bytes}
    (h : block test 0 buffer = .incomplete) : blockEnd? test [] buffer = none := by
  unfold block at h
  split at h
  · simp at h
  · next he => simpa using he

/-- A scan that is resumed finds what a scan from the front finds. -/
theorem resume_eq {mode : Mode} {seen : Nat} {buffer : Bytes}
    (h : ofMode mode (buffer.take seen) = .incomplete) :
    resume mode seen buffer = ofMode mode buffer := by
  unfold ofMode at h ⊢
  unfold resume at h ⊢
  cases ht : mode.test? with
  | none => rfl
  | some test =>
    rw [ht] at h
    have ha := blockEnd?_append (block_incomplete h) (buffer.drop seen)
    rw [List.take_append_drop, List.append_nil] at ha
    simp [block, ha]

/-! ### What a scan finds is there -/

theorem blockEnd?_bounds {test : Bytes → Bool} {before s : Bytes} {stop : Nat}
    (h : blockEnd? test before s = some stop) : stop < before.length + s.length := by
  induction s generalizing before with
  | nil => simp [blockEnd?] at h
  | cons b r ih =>
    simp only [blockEnd?] at h
    split at h
    · simp only [Option.some.injEq] at h
      simp only [List.length_cons]
      omega
    · have := ih h
      simp only [List.length_cons] at this ⊢
      omega

theorem ofLine_bounds (start : Nat) {line : Bytes} (h : line ≠ []) :
    0 < (ofLine start line).consumed ∧
      (ofLine start line).consumed ≤ start + line.length + 1 := by
  have hp := List.length_pos_iff.mpr h
  unfold ofLine
  simp only
  split
  · simp
  · split
    · simp
    · refine ⟨?_, ?_⟩ <;> simp only <;> omega

theorem statement_bounds {buffer : Bytes} :
    (∀ found, statement buffer = .complete found →
      0 < found.consumed ∧ found.consumed ≤ buffer.length) ∧
    (∀ count, statement buffer = .skip count → 0 < count ∧ count ≤ buffer.length) := by
  unfold statement
  split
  · next skipped rest h =>
    obtain ⟨he, hs⟩ := Line.front_eq_empty h
    have hp := List.length_pos_iff.mpr hs
    refine ⟨by simp, ?_⟩
    rintro count hc
    simp only [skip.injEq] at hc
    rw [he, List.length_append]
    omega
  · next blanks line t rest h =>
    obtain ⟨he, hl⟩ := Line.front_eq_line h
    obtain ⟨h0, h1⟩ := ofLine_bounds blanks.length hl
    refine ⟨?_, by simp⟩
    rintro found hf
    simp only [complete.injEq] at hf
    subst hf
    refine ⟨h0, Nat.le_trans h1 ?_⟩
    rw [he]
    simp only [List.length_append, List.length_cons]
    omega
  · exact ⟨by simp, by simp⟩

/-- A complete record uses up bytes of the buffer, at least one. -/
theorem resume_complete {mode : Mode} {seen : Nat} {buffer : Bytes} {found : Found}
    (h : resume mode seen buffer = .complete found) :
    0 < found.consumed ∧ found.consumed ≤ buffer.length := by
  unfold resume at h
  split at h
  · exact statement_bounds.1 found h
  · next test _ =>
    unfold block at h
    split at h
    · next stop hs =>
      have hb := blockEnd?_bounds hs
      simp only [complete.injEq] at h
      subst h
      simp only [List.length_reverse, List.length_take, List.length_drop] at hb ⊢
      omega
    · simp at h

/-- Dropped statements are bytes of the buffer, at least one. -/
theorem resume_skip {mode : Mode} {seen : Nat} {buffer : Bytes} {count : Nat}
    (h : resume mode seen buffer = .skip count) : 0 < count ∧ count ≤ buffer.length := by
  unfold resume at h
  split at h
  · exact statement_bounds.2 count h
  · unfold block at h
    split at h <;> simp at h

end Scan

end CommandShell
