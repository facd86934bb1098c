/-
Ends in memory.

An input end reads bytes that are there already, in the pieces in which they arrived and
as many at a time as fit the buffer.  An output end keeps what it is given.  Together
they make a duplex transport for a session whose input is known, or known as far as it
has arrived.
-/
import CommandShell.Stream.Duplex

namespace CommandShell

/-- An end to read from. -/
structure InputEnd where
  /-- What is still to be read, piece by piece. -/
  pieces : List Bytes := []
  deriving DecidableEq, Repr

namespace InputEnd

/-- Reads as much of the first piece as fits. -/
def read (room : Nat) (i : InputEnd) : Except StreamError Bytes × InputEnd :=
  match i.pieces with
  | [] => (.ok [], i)
  | piece :: rest =>
    if piece.length ≤ room then (.ok piece, ⟨rest⟩)
    else (.ok (piece.take room), ⟨piece.drop room :: rest⟩)

/-- Adds a piece that has arrived. -/
def push (piece : Bytes) (i : InputEnd) : InputEnd :=
  if piece.isEmpty then i else ⟨i.pieces ++ [piece]⟩

/-- What is still to come.  Bytes count twice, so that a part of a piece is always less
than the whole of it. -/
def supply (i : InputEnd) : Nat :=
  i.pieces.foldr (fun piece rest => 2 * piece.length + rest) 0

instance : ReadEnd InputEnd where
  read := read
  supply := supply
  length_read := by
    rintro room ⟨pieces⟩ i' bytes h
    unfold read at h
    split at h
    · simp only [Prod.mk.injEq, Except.ok.injEq] at h
      simp [← h.1]
    · split at h <;> simp only [Prod.mk.injEq, Except.ok.injEq] at h <;> rw [← h.1]
      · assumption
      · rw [List.length_take]
        exact Nat.min_le_left _ _
  supply_read := by
    rintro room ⟨pieces⟩ i' bytes pos h hb
    have hp := List.length_pos_iff.mpr hb
    unfold read at h
    split at h
    · simp only [Prod.mk.injEq, Except.ok.injEq] at h
      exact absurd h.1.symm hb
    · next piece rest hr =>
      simp only at hr
      subst hr
      split at h
      all_goals
        simp only [Prod.mk.injEq, Except.ok.injEq] at h
        obtain ⟨rfl, rfl⟩ := h
        simp only [List.length_take, List.length_drop, supply, List.foldr_cons] at hp ⊢
        omega
  supply_read_le := by
    rintro room ⟨pieces⟩
    unfold read
    split
    · exact Nat.le_refl _
    · next piece rest hr =>
      simp only at hr
      subst hr
      split
      all_goals
        simp only [List.length_drop, supply, List.foldr_cons]
        omega
  supply_interrupted := by
    rintro room ⟨pieces⟩ i' h
    unfold read at h
    split at h
    · simp at h
    · split at h <;> simp at h

end InputEnd

/-- An end to write to. -/
structure OutputEnd where
  /-- Everything written. -/
  written : Bytes := []
  deriving DecidableEq, Repr

instance : WriteEnd OutputEnd where
  take data o := (.ok data.length, ⟨o.written ++ data⟩)
  flush o := (.ok (), o)

end CommandShell
