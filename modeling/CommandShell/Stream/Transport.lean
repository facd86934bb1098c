/-
Transports, and streams that read through a buffer.

A transport is a connection: it is open or not, reads some bytes into a buffer of a
given size, and writes all of some data.  A read that yields nothing while the transport
stays open means that nothing has arrived yet.  `Buffered` makes a stream of a
transport: it asks again as long as nothing has arrived, and takes a failed read for the
end without closing anything.  A transport that stays open after a failure can
therefore deliver again.
-/
import CommandShell.Stream.Basic

namespace CommandShell

/-- A connection that bytes are read from and written to. -/
class Transport (τ : Type) where
  /-- Whether bytes can still be delivered or accepted. -/
  isOpen : τ → Bool
  /-- Reads at most `room` bytes. -/
  read : (room : Nat) → τ → Except StreamError Bytes × τ
  /-- Writes all of some data. -/
  write : Bytes → τ → Except StreamError Unit × τ
  /-- A bound on what is still to come. -/
  supply : τ → Nat
  /-- A read fits in the buffer. -/
  length_read : ∀ {room : Nat} {t t' : τ} {bytes : Bytes},
    read room t = (.ok bytes, t') → bytes.length ≤ room
  /-- Bytes lower the supply by more than their number, and so does a read that yields
  nothing on a transport that stays open. -/
  supply_read : ∀ {room : Nat} {t t' : τ} {bytes : Bytes}, 0 < room →
    read room t = (.ok bytes, t') → bytes ≠ [] ∨ isOpen t' = true →
    bytes.length + supply t' < supply t
  /-- No read raises the supply. -/
  supply_read_le : ∀ (room : Nat) (t : τ), supply (read room t).2 ≤ supply t
  /-- Writing does not raise the supply. -/
  supply_write : ∀ (data : Bytes) (t : τ), supply (write data t).2 ≤ supply t

/-- A transport read through a buffer. -/
structure Buffered (τ : Type) where
  /-- How many bytes the buffer holds. -/
  capacity : Nat
  /-- What is read from and written to. -/
  transport : τ
  /-- The buffer holds something. -/
  capacity_pos : 0 < capacity := by decide

namespace Buffered

/-- How many bytes a buffer holds unless something else is asked for. -/
def defaultCapacity : Nat := 4096

/-- A stream over a transport; a buffer without room is given room for one byte. -/
def ofTransport {τ : Type} (capacity : Nat) (transport : τ) : Buffered τ :=
  ⟨max capacity 1, transport, Nat.lt_of_lt_of_le Nat.one_pos (Nat.le_max_right capacity 1)⟩

variable {τ : Type} [Transport τ]

/-- Reads until something arrives, the transport closes or a read fails. -/
def next (room : Nat) (pos : 0 < room) (t : τ) : Option Bytes × τ :=
  if Transport.isOpen t then
    match h : Transport.read room t with
    | (.ok [], t') =>
      if ho : Transport.isOpen t' then
        have := Transport.supply_read pos h (.inr ho)
        next room pos t'
      else (none, t')
    | (.ok (b :: r), t') => (some (b :: r), t')
    | (.error _, t') => (none, t')
  else (none, t)
termination_by Transport.supply t

/-- Writes on an open transport; a closed one takes nothing. -/
def write (data : Bytes) (t : τ) : Except StreamError Unit × τ :=
  if Transport.isOpen t then Transport.write data t else (.error .notConnected, t)

theorem next_supply {room : Nat} (pos : 0 < room) (t : τ) :
    (∀ {chunk t'}, next room pos t = (some chunk, t') →
      chunk.length + Transport.supply t' < Transport.supply t) ∧
    (∀ {t'}, next room pos t = (none, t') → Transport.supply t' ≤ Transport.supply t) := by
  fun_induction next room pos t with
  | case1 t _ t' h ho this ih =>
    simp only [List.length_nil, Nat.zero_add] at this
    exact ⟨fun hc => Nat.lt_trans (ih.1 hc) this,
      fun hn => Nat.le_trans (ih.2 hn) (Nat.le_of_lt this)⟩
  | case2 t _ t' h ho =>
    refine ⟨by simp, ?_⟩
    rintro t'' hn
    simp only [Prod.mk.injEq, true_and] at hn
    subst hn
    have := Transport.supply_read_le room t
    rwa [h] at this
  | case3 t _ b r t' h =>
    refine ⟨?_, by simp⟩
    rintro chunk t'' hc
    simp only [Prod.mk.injEq, Option.some.injEq] at hc
    obtain ⟨rfl, rfl⟩ := hc
    exact Transport.supply_read pos h (.inl (by simp))
  | case4 t _ e t' h =>
    refine ⟨by simp, ?_⟩
    rintro t'' hn
    simp only [Prod.mk.injEq, true_and] at hn
    subst hn
    have := Transport.supply_read_le room t
    rwa [h] at this
  | case5 t _ =>
    refine ⟨by simp, ?_⟩
    rintro t'' hn
    simp only [Prod.mk.injEq, true_and] at hn
    subst hn
    exact Nat.le_refl _

instance : ByteStream (Buffered τ) where
  next s :=
    let r := next s.capacity s.capacity_pos s.transport
    (r.1, { s with transport := r.2 })
  write data s :=
    let r := write data s.transport
    (r.1, { s with transport := r.2 })
  supply s := Transport.supply s.transport
  supply_chunk := by
    rintro s s' chunk h
    simp only [Prod.mk.injEq] at h
    obtain ⟨hc, rfl⟩ := h
    exact (next_supply s.capacity_pos s.transport).1 (Prod.ext hc rfl)
  supply_end := by
    rintro s s' h
    simp only [Prod.mk.injEq] at h
    obtain ⟨hn, rfl⟩ := h
    exact (next_supply s.capacity_pos s.transport).2 (Prod.ext hn rfl)
  supply_write := by
    intro data s
    simp only [write]
    split
    · exact Transport.supply_write data s.transport
    · exact Nat.le_refl _

end Buffered

end CommandShell
