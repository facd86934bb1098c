/-
A transport made of something to read from and something to write to.

The two ends know nothing of each other, but they close together: the transport is
closed for good at the end of the input, at the first read that fails, and at the first
write or flush that fails.  A read that was merely interrupted is tried again at once and
is never seen.  Everything written is flushed.

The two ends are not taken at the same place.  A `ReadEnd` is a blocking reader as it
answers by itself, and asking it again belongs to the transport.  A `WriteEnd` is a writer
as its calls come out in the end: if it is one that is asked again when it is interrupted,
that is within the call, and what a call answers is final.
-/
import CommandShell.Stream.Transport

namespace CommandShell

/-- Something to read from, with answers of its own: a read that was interrupted shows as one,
until `readThrough` has asked again. -/
class ReadEnd (ρ : Type) where
  /-- Reads at most `room` bytes; no bytes mean the end of the input. -/
  read : (room : Nat) → ρ → Except StreamError Bytes × ρ
  /-- A bound on what is still to come. -/
  supply : ρ → Nat
  /-- A read fits in the buffer. -/
  length_read : ∀ {room : Nat} {r r' : ρ} {bytes : Bytes},
    read room r = (.ok bytes, r') → bytes.length ≤ room
  /-- Bytes lower the supply by more than their number. -/
  supply_read : ∀ {room : Nat} {r r' : ρ} {bytes : Bytes}, 0 < room →
    read room r = (.ok bytes, r') → bytes ≠ [] → bytes.length + supply r' < supply r
  /-- No read raises the supply. -/
  supply_read_le : ∀ (room : Nat) (r : ρ), supply (read room r).2 ≤ supply r
  /-- Reads are not interrupted for ever. -/
  supply_interrupted : ∀ {room : Nat} {r r' : ρ},
    read room r = (.error .interrupted, r') → supply r' < supply r

/-- Something to write to, with the answers that reach the transport.  A call that was
interrupted and then tried again is one call, and an interruption that is answered is a
failure like any other. -/
class WriteEnd (ω : Type) where
  /-- Takes a part of some data and tells how much. -/
  take : Bytes → ω → Except StreamError Nat × ω
  /-- Sends on what was taken. -/
  flush : ω → Except StreamError Unit × ω

namespace ReadEnd

variable {ρ : Type} [ReadEnd ρ]

/-- Reads until a read is not interrupted. -/
def readThrough (room : Nat) (r : ρ) : Except StreamError Bytes × ρ :=
  match _h : read room r with
  | (.error .interrupted, r') => readThrough room r'
  | answer => answer
termination_by supply r
decreasing_by exact supply_interrupted _h

theorem readThrough_supply_le (room : Nat) (r : ρ) :
    supply (readThrough room r).2 ≤ supply r := by
  fun_induction readThrough room r with
  | case1 r r' h ih => exact Nat.le_trans ih (Nat.le_of_lt (supply_interrupted h))
  | case2 r _ => exact supply_read_le room r

theorem length_readThrough {room : Nat} {r r' : ρ} {bytes : Bytes}
    (h : readThrough room r = (.ok bytes, r')) : bytes.length ≤ room := by
  fun_induction readThrough room r with
  | case1 r r'' _ ih => exact ih h
  | case2 r _ => exact length_read h

theorem readThrough_supply {room : Nat} {r r' : ρ} {bytes : Bytes} (pos : 0 < room)
    (h : readThrough room r = (.ok bytes, r')) (hb : bytes ≠ []) :
    bytes.length + supply r' < supply r := by
  fun_induction readThrough room r with
  | case1 r r'' hi ih => exact Nat.lt_trans (ih h) (supply_interrupted hi)
  | case2 r _ => exact supply_read pos h hb

end ReadEnd

namespace WriteEnd

variable {ω : Type} [WriteEnd ω]

/-- Writes until all data is taken.  A write that takes nothing fails with `refusal`. -/
def writeAll (refusal : StreamError) (data : Bytes) (w : ω) : Except StreamError Unit × ω :=
  match data with
  | [] => (.ok (), w)
  | b :: r =>
    match take (b :: r) w with
    | (.error e, w') => (.error e, w')
    | (.ok 0, w') => (.error refusal, w')
    | (.ok (n + 1), w') => writeAll refusal (r.drop n) w'
termination_by data.length
decreasing_by
  simp only [List.length_drop, List.length_cons]
  omega

/-- Writes all data and flushes. -/
def writeThrough (data : Bytes) (w : ω) : Except StreamError Unit × ω :=
  match writeAll .writeZero data w with
  | (.ok (), w') => flush w'
  | failed => failed

end WriteEnd

/-- Two ends, and whether the transport is open. -/
structure Duplex (ρ ω : Type) where
  /-- What is read from. -/
  reader : ρ
  /-- What is written to. -/
  writer : ω
  /-- Whether neither end has been lost. -/
  isOpen : Bool := true

namespace Duplex

variable {ρ ω : Type}

/-- Closes the transport. -/
def close (d : Duplex ρ ω) : Duplex ρ ω :=
  { d with isOpen := false }

/-- Reads, and closes unless something was read. -/
def read [ReadEnd ρ] (room : Nat) (d : Duplex ρ ω) : Except StreamError Bytes × Duplex ρ ω :=
  match ReadEnd.readThrough room d.reader with
  | (.ok [], r) => (.ok [], close { d with reader := r })
  | (.ok (b :: bytes), r) => (.ok (b :: bytes), { d with reader := r })
  | (.error e, r) => (.error e, close { d with reader := r })

/-- Writes and flushes, and closes if either fails. -/
def write [WriteEnd ω] (data : Bytes) (d : Duplex ρ ω) : Except StreamError Unit × Duplex ρ ω :=
  match WriteEnd.writeThrough data d.writer with
  | (.ok (), w) => (.ok (), { d with writer := w })
  | (.error e, w) => (.error e, close { d with writer := w })

instance [ReadEnd ρ] [WriteEnd ω] : Transport (Duplex ρ ω) where
  isOpen := Duplex.isOpen
  read := read
  write := write
  supply d := ReadEnd.supply d.reader
  length_read := by
    intro room d d' bytes h
    unfold read at h
    split at h <;> simp only [Prod.mk.injEq, Except.ok.injEq, reduceCtorEq, false_and] at h
    · simp [← h.1]
    · next b r _ hr =>
      rw [← h.1]
      exact ReadEnd.length_readThrough hr
  supply_read := by
    intro room d d' bytes pos h hb
    unfold read at h
    split at h <;> simp only [Prod.mk.injEq, Except.ok.injEq, reduceCtorEq, false_and] at h
    · obtain ⟨rfl, rfl⟩ := h
      simp [close] at hb
    · next hr =>
      obtain ⟨rfl, rfl⟩ := h
      exact ReadEnd.readThrough_supply pos hr (by simp)
  supply_read_le := by
    intro room d
    have hs := ReadEnd.readThrough_supply_le room d.reader
    unfold read
    split <;> simp_all [close]
  supply_write := by
    intro data d
    unfold write
    split <;> exact Nat.le_refl _

end Duplex

end CommandShell
