/-
Assembling records from a stream.

A reader keeps the bytes that have arrived and are not part of a record yet, its carry.
A request looks at the carry first and asks the stream for a chunk only if the carry
does not settle it.  What a record does not use up stays for the next request, which
may ask for something else; the end of the stream leaves the carry as it is.  `next_eq` is
the rule of a request in one equation.

The `weight` of a reader, its carry and the supply of its stream, falls with every record
and never rises.  That is why a request ends, and why reading on until there are no more
records does.
-/
import CommandShell.Input.Scan
import CommandShell.Stream.Basic

namespace CommandShell

/-- A stream, and the bytes that came from it and are still to be delivered. -/
structure Reader (σ : Type) where
  /-- What has arrived and is not part of a record yet. -/
  carry : Bytes := []
  /-- Where chunks come from. -/
  source : σ

namespace Reader

variable {σ : Type} [ByteStream σ]

/-- A bound on what can still be read. -/
def weight (r : Reader σ) : Nat :=
  r.carry.length + ByteStream.supply r.source

theorem drop_weight_lt {r : Reader σ} {count : Nat}
    (h : 0 < count ∧ count ≤ r.carry.length) :
    weight { r with carry := r.carry.drop count } < r.weight := by
  simp only [weight, List.length_drop]
  omega

theorem append_weight_lt {r : Reader σ} {chunk : Bytes} {s : σ}
    (h : ByteStream.next r.source = (some chunk, s)) :
    weight { r with carry := r.carry ++ chunk, source := s } < r.weight := by
  have := ByteStream.supply_chunk h
  simp only [weight, List.length_append]
  omega

/-- Looks on for a record, when the first `seen` bytes of the carry were not enough for
one. -/
def seek (mode : Mode) (seen : Nat) (r : Reader σ) : Option Record × Reader σ :=
  match _hs : Scan.resume mode seen r.carry with
  | .complete found =>
    (some (found.record r.carry), { r with carry := r.carry.drop found.consumed })
  | .skip count => seek mode 0 { r with carry := r.carry.drop count }
  | .incomplete =>
    match _hc : ByteStream.next r.source with
    | (some chunk, s) =>
      seek mode r.carry.length { r with carry := r.carry ++ chunk, source := s }
    | (none, s) => (none, { r with source := s })
termination_by r.weight
decreasing_by
  · exact drop_weight_lt (Scan.resume_skip _hs)
  · exact append_weight_lt _hc

/-- The next record of the kind asked for, or `none` if the stream ends before one is
complete. -/
def next (mode : Mode) (r : Reader σ) : Option Record × Reader σ :=
  seek mode 0 r

/-- Looking on finds the next record. -/
theorem seek_eq_next {mode : Mode} {seen : Nat} {r : Reader σ}
    (h : Scan.ofMode mode (r.carry.take seen) = .incomplete) :
    seek mode seen r = next mode r := by
  have hr : Scan.resume mode seen r.carry = Scan.resume mode 0 r.carry := Scan.resume_eq h
  unfold next
  conv => lhs; unfold seek
  conv => rhs; unfold seek
  rw [hr]

/-- A request takes a complete record out of the carry, or else drops empty statements and
goes on, or else appends a chunk to the carry and goes on, as long as there is one. -/
theorem next_eq (mode : Mode) (r : Reader σ) :
    next mode r =
      match Scan.ofMode mode r.carry with
      | .complete found =>
        (some (found.record r.carry), { r with carry := r.carry.drop found.consumed })
      | .skip count => next mode { r with carry := r.carry.drop count }
      | .incomplete =>
        match ByteStream.next r.source with
        | (some chunk, s) => next mode { r with carry := r.carry ++ chunk, source := s }
        | (none, s) => (none, { r with source := s }) := by
  have hm : Scan.ofMode mode r.carry = Scan.resume mode 0 r.carry := rfl
  conv => lhs; unfold next seek
  split
  · next found hs => rw [hm, hs]
  · next count hs =>
    rw [hm, hs]
    rfl
  · next hs =>
    rw [hm, hs]
    simp only
    split
    · next chunk s hc =>
      rw [hc]
      apply seek_eq_next
      simp only [List.take_left]
      exact hs
    · next s hc => rw [hc]

/-- A record makes a reader lighter, and the lack of one does not make it heavier. -/
theorem seek_weight (mode : Mode) (seen : Nat) (r : Reader σ) :
    (∀ {record r'}, seek mode seen r = (some record, r') → r'.weight < r.weight) ∧
    (∀ {r'}, seek mode seen r = (none, r') → r'.weight ≤ r.weight) := by
  fun_induction seek mode seen r with
  | case1 seen r found hs =>
    refine ⟨?_, by simp⟩
    rintro record r' h
    simp only [Prod.mk.injEq] at h
    obtain ⟨_, rfl⟩ := h
    exact drop_weight_lt (Scan.resume_complete hs)
  | case2 seen r count hs ih =>
    have hlt := drop_weight_lt (Scan.resume_skip hs)
    exact ⟨fun h => Nat.lt_trans (ih.1 h) hlt, fun h => Nat.le_trans (ih.2 h) (Nat.le_of_lt hlt)⟩
  | case3 seen r _ chunk s hc ih =>
    have hlt := append_weight_lt hc
    exact ⟨fun h => Nat.lt_trans (ih.1 h) hlt, fun h => Nat.le_trans (ih.2 h) (Nat.le_of_lt hlt)⟩
  | case4 seen r _ s hc =>
    refine ⟨by simp, ?_⟩
    rintro r' h
    simp only [Prod.mk.injEq, true_and] at h
    subst h
    exact Nat.add_le_add_left (ByteStream.supply_end hc) _

theorem next_weight (mode : Mode) (r : Reader σ) :
    (∀ {record r'}, next mode r = (some record, r') → r'.weight < r.weight) ∧
    (∀ {r'}, next mode r = (none, r') → r'.weight ≤ r.weight) :=
  seek_weight mode 0 r

theorem next_weight_le (mode : Mode) (r : Reader σ) : (next mode r).2.weight ≤ r.weight := by
  have h := next_weight mode r
  cases hn : next mode r with
  | mk record r' =>
    cases record with
    | some record => exact Nat.le_of_lt (h.1 hn)
    | none => exact h.2 hn

/-- All records of one kind, up to the first request that yields none. -/
def drain (mode : Mode) (r : Reader σ) : List Record × Reader σ :=
  match _h : next mode r with
  | (some record, r') => (record :: (drain mode r').1, (drain mode r').2)
  | (none, r') => ([], r')
termination_by r.weight
decreasing_by all_goals exact (next_weight mode r).1 _h

/-- Writes to the stream; what has arrived stays. -/
def write (data : Bytes) (r : Reader σ) : Except StreamError Unit × Reader σ :=
  let w := ByteStream.write data r.source
  (w.1, { r with source := w.2 })

theorem write_weight_le (data : Bytes) (r : Reader σ) : (write data r).2.weight ≤ r.weight :=
  Nat.add_le_add_left (ByteStream.supply_write data r.source) _

end Reader

end CommandShell
