/-
Streams that follow a script.

A script says in advance what every read will meet and how far writing will go, so that
a session can be rehearsed with failures at any point.  One read meets one event; data
that does not fit the buffer leaves the rest for the next read.  The scripts drive the
two ends of a duplex transport, and a transport of their own that differs from it in
three ways: a read that yields nothing does not close it, a failure does not close it,
and it flushes nothing.
-/
import CommandShell.Stream.Duplex

namespace CommandShell.Rehearsal

/-! ### Reading -/

/-- What a read can meet. -/
inductive ReadEvent
  /-- Bytes have arrived. -/
  | data (bytes : Bytes)
  /-- The read fails. -/
  | failure (error : StreamError)
  /-- Nothing has arrived. -/
  | nothing
  /-- The other side has closed. -/
  | closing
  deriving DecidableEq, Repr

/-- The event that a read into a buffer of the given size meets, and those after it.
After the last event the other side has closed. -/
def meet (room : Nat) : List ReadEvent → ReadEvent × List ReadEvent
  | [] => (.closing, [])
  | .data bytes :: rest =>
    if bytes.length ≤ room then (.data bytes, rest)
    else (.data (bytes.take room), .data (bytes.drop room) :: rest)
  | event :: rest => (event, rest)

/-- What is still to come of an event.  Bytes count twice, so that a part of an event is
always less than the whole of it. -/
def ReadEvent.supply : ReadEvent → Nat
  | data bytes => 2 * bytes.length + 1
  | _ => 1

/-- What is still to come. -/
def supply (events : List ReadEvent) : Nat :=
  events.foldr (fun event rest => event.supply + rest) 0

theorem meet_data {room : Nat} {events rest : List ReadEvent} {bytes : Bytes}
    (h : meet room events = (.data bytes, rest)) :
    bytes.length ≤ room ∧ (0 < room → bytes.length + supply rest < supply events) := by
  unfold meet at h
  split at h
  · simp at h
  · next b r =>
    split at h
    · next hle =>
      simp only [Prod.mk.injEq, ReadEvent.data.injEq] at h
      obtain ⟨rfl, rfl⟩ := h
      refine ⟨hle, fun _ => ?_⟩
      simp only [supply, List.foldr_cons, ReadEvent.supply]
      omega
    · next hlt =>
      simp only [Prod.mk.injEq, ReadEvent.data.injEq] at h
      obtain ⟨rfl, rfl⟩ := h
      refine ⟨by simp only [List.length_take]; omega, fun hpos => ?_⟩
      simp only [supply, List.foldr_cons, ReadEvent.supply, List.length_take,
        List.length_drop]
      omega
  · next event r hd =>
    simp only [Prod.mk.injEq] at h
    exact absurd h.1 (hd bytes)

theorem supply_meet_le (room : Nat) (events : List ReadEvent) :
    supply (meet room events).2 ≤ supply events := by
  unfold meet
  split
  · exact Nat.le_refl _
  · split
    · simp only [supply, List.foldr_cons]
      omega
    · simp only [supply, List.foldr_cons, ReadEvent.supply, List.length_drop]
      omega
  · simp only [supply, List.foldr_cons]
    omega

theorem supply_meet_lt {room : Nat} {events rest : List ReadEvent} {event : ReadEvent}
    (h : meet room events = (event, rest)) (hd : ∀ bytes, event ≠ .data bytes)
    (hc : event ≠ .closing) : supply rest < supply events := by
  unfold meet at h
  split at h
  · simp only [Prod.mk.injEq] at h
    exact absurd h.1.symm hc
  · split at h
    · simp only [Prod.mk.injEq] at h
      exact absurd h.1.symm (hd _)
    · simp only [Prod.mk.injEq] at h
      exact absurd h.1.symm (hd _)
  · next e r _ =>
    simp only [Prod.mk.injEq] at h
    obtain ⟨rfl, rfl⟩ := h
    have : 0 < e.supply := by cases e <;> simp [ReadEvent.supply]
    simp only [supply, List.foldr_cons]
    omega

/-- An end to read from: nothing and closing both end the input. -/
structure Reading where
  /-- What the reads will meet. -/
  events : List ReadEvent
  deriving DecidableEq, Repr

/-- What a read yields. -/
def Reading.read (room : Nat) (r : Reading) : Except StreamError Bytes × Reading :=
  match meet room r.events with
  | (.data bytes, rest) => (.ok bytes, ⟨rest⟩)
  | (.failure e, rest) => (.error e, ⟨rest⟩)
  | (_, rest) => (.ok [], ⟨rest⟩)

instance : ReadEnd Reading where
  read := Reading.read
  supply r := supply r.events
  length_read := by
    intro room r r' bytes h
    unfold Reading.read at h
    split at h
    · next hm =>
      simp only [Prod.mk.injEq, Except.ok.injEq] at h
      exact h.1 ▸ (meet_data hm).1
    · simp at h
    · simp only [Prod.mk.injEq, Except.ok.injEq] at h
      simp [← h.1]
  supply_read := by
    intro room r r' bytes pos h hb
    unfold Reading.read at h
    split at h
    · next hm =>
      simp only [Prod.mk.injEq, Except.ok.injEq] at h
      obtain ⟨rfl, rfl⟩ := h
      exact (meet_data hm).2 pos
    · simp at h
    · simp only [Prod.mk.injEq, Except.ok.injEq] at h
      exact absurd h.1.symm hb
  supply_read_le := by
    intro room r
    have hm := supply_meet_le room r.events
    unfold Reading.read
    split <;> simp_all
  supply_interrupted := by
    intro room r r' h
    unfold Reading.read at h
    split at h
    · simp at h
    · next hm =>
      simp only [Prod.mk.injEq] at h
      obtain ⟨_, rfl⟩ := h
      exact supply_meet_lt hm (by simp) (by simp)
    · simp at h

/-! ### Writing -/

/-- An end to write to. -/
structure Writing where
  /-- The most bytes one call takes, if there is a bound. -/
  perCall : Option Nat := none
  /-- The most bytes that are ever taken, if there is a bound. -/
  limit : Option Nat := none
  /-- How a call fails once no more bytes are taken. -/
  failure : StreamError := .brokenPipe
  /-- How flushing fails, if it does. -/
  flushFailure : Option StreamError := none
  /-- Everything taken. -/
  written : Bytes := []
  deriving DecidableEq, Repr

namespace Writing

/-- Takes what the bounds allow, or fails if nothing more will ever be taken. -/
def take (data : Bytes) (w : Writing) : Except StreamError Nat × Writing :=
  let room := w.limit.map (· - w.written.length)
  if room = some 0 then (.error w.failure, w)
  else
    let count := min data.length (min (w.perCall.getD data.length) (room.getD data.length))
    (.ok count, { w with written := w.written ++ data.take count })

/-- Flushes, which changes nothing. -/
def flush (w : Writing) : Except StreamError Unit × Writing :=
  match w.flushFailure with
  | some e => (.error e, w)
  | none => (.ok (), w)

instance : WriteEnd Writing where
  take := take
  flush := flush

end Writing

/-! ### Both -/

/-- A transport that stays open until the script closes it. -/
structure Wire where
  /-- What the reads will meet. -/
  events : List ReadEvent
  /-- What is written to. -/
  writer : Writing := {}
  /-- Whether it is open. -/
  isOpen : Bool := true
  deriving DecidableEq, Repr

namespace Wire

/-- What a read yields; only the script's closing closes the wire. -/
def read (room : Nat) (l : Wire) : Except StreamError Bytes × Wire :=
  match meet room l.events with
  | (.data bytes, rest) => (.ok bytes, { l with events := rest })
  | (.failure e, rest) => (.error e, { l with events := rest })
  | (.nothing, rest) => (.ok [], { l with events := rest })
  | (.closing, rest) => (.ok [], { l with events := rest, isOpen := false })

/-- Writes all of some data, without flushing. -/
def write (data : Bytes) (l : Wire) : Except StreamError Unit × Wire :=
  let r := WriteEnd.writeAll .shortWrite data l.writer
  (r.1, { l with writer := r.2 })

instance : Transport Wire where
  isOpen := Wire.isOpen
  read := read
  write := write
  supply l := supply l.events
  length_read := by
    intro room l l' bytes h
    unfold read at h
    split at h
    · next hm =>
      simp only [Prod.mk.injEq, Except.ok.injEq] at h
      exact h.1 ▸ (meet_data hm).1
    · simp at h
    · simp only [Prod.mk.injEq, Except.ok.injEq] at h
      simp [← h.1]
    · simp only [Prod.mk.injEq, Except.ok.injEq] at h
      simp [← h.1]
  supply_read := by
    intro room l l' bytes pos h hb
    unfold read at h
    split at h
    · next hm =>
      simp only [Prod.mk.injEq, Except.ok.injEq] at h
      obtain ⟨rfl, rfl⟩ := h
      exact (meet_data hm).2 pos
    · simp at h
    · next hm =>
      simp only [Prod.mk.injEq, Except.ok.injEq] at h
      obtain ⟨rfl, rfl⟩ := h
      simpa using supply_meet_lt hm (by simp) (by simp)
    · simp only [Prod.mk.injEq, Except.ok.injEq] at h
      obtain ⟨rfl, rfl⟩ := h
      simp at hb
  supply_read_le := by
    intro room l
    have hm := supply_meet_le room l.events
    unfold read
    split <;> simp_all
  supply_write _ _ := Nat.le_refl _

end Wire

end CommandShell.Rehearsal
