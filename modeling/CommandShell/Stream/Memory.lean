/-
A stream in memory.

It delivers the chunks it was given, each exactly as it is, and keeps what is written.
Writing always succeeds, and the end is not final: chunks can be added at any time.
-/
import CommandShell.Stream.Basic

namespace CommandShell

/-- Chunks to deliver, and the data written so far. -/
structure Memory where
  /-- The chunks still to come, in order. -/
  queue : List Bytes
  /-- Everything written. -/
  written : Bytes := []
  deriving DecidableEq, Repr

namespace Memory

/-- Adds a chunk behind the others. -/
def push (chunk : Bytes) (m : Memory) : Memory :=
  { m with queue := m.queue ++ [chunk] }

/-- Takes the first chunk out. -/
def next (m : Memory) : Option Bytes × Memory :=
  match m.queue with
  | [] => (none, m)
  | chunk :: rest => (some chunk, { m with queue := rest })

/-- The bytes still to come, and one for each chunk. -/
def supply (m : Memory) : Nat :=
  m.queue.foldr (fun chunk rest => chunk.length + 1 + rest) 0

instance : ByteStream Memory where
  next := next
  write data m := (.ok (), { m with written := m.written ++ data })
  supply := supply
  supply_chunk := by
    rintro ⟨queue, written⟩ m' chunk h
    cases queue with
    | nil => simp [next] at h
    | cons c rest =>
      simp only [next, Prod.mk.injEq, Option.some.injEq] at h
      obtain ⟨rfl, rfl⟩ := h
      simp only [supply, List.foldr_cons]
      omega
  supply_end := by
    rintro ⟨queue, written⟩ m' h
    cases queue with
    | nil =>
      simp only [next, Prod.mk.injEq] at h
      obtain ⟨_, rfl⟩ := h
      exact Nat.le_refl _
    | cons c rest => simp [next] at h
  supply_write _ _ := Nat.le_refl _

end Memory

end CommandShell
