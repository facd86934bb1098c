/-
Byte streams.

A stream delivers chunks and takes data.  Chunks come in pieces of any size, empty ones
too, and the end is told by `none`.  What is asked of a stream beyond that is that it
has a `supply`: a number that every chunk lowers by more than the chunk's length and
that nothing raises.  So whoever reads on as long as chunks come is done at some point,
and a buffer filled from a stream together with the stream's supply gets smaller.
-/
import CommandShell.Bytes
import CommandShell.Stream.Error

namespace CommandShell

/-- A source of chunks and a sink for data in one. -/
class ByteStream (σ : Type) where
  /-- The next chunk, or `none` at the end. -/
  next : σ → Option Bytes × σ
  /-- Hands over data, all of it unless it fails. -/
  write : Bytes → σ → Except StreamError Unit × σ
  /-- A bound on what is still to come. -/
  supply : σ → Nat
  /-- A chunk lowers the supply by more than its length. -/
  supply_chunk : ∀ {s s' : σ} {chunk : Bytes}, next s = (some chunk, s') →
    chunk.length + supply s' < supply s
  /-- The end does not raise the supply. -/
  supply_end : ∀ {s s' : σ}, next s = (none, s') → supply s' ≤ supply s
  /-- Writing does not raise the supply. -/
  supply_write : ∀ (data : Bytes) (s : σ), supply (write data s).2 ≤ supply s

namespace ByteStream

variable {σ : Type} [ByteStream σ]

/-- The chunks a stream still delivers before it first tells the end. -/
def chunks (s : σ) : List Bytes :=
  match _h : next s with
  | (some chunk, s') => chunk :: chunks s'
  | (none, _) => []
termination_by supply s
decreasing_by
  have := supply_chunk _h
  omega

end ByteStream

end CommandShell
