/-
What a source has left.

Whoever has a reader in hand asks it for records, in any mode, and writes through it.  What comes of
that is told by two relations that do not say why it was done: `ByteStream.Serves`, a stream that
is asked for chunks and written to, and `Reader.Used`, a reader that is asked for records and
written to, both with the bytes delivered on the way.  A handler of any kind can do nothing to a
reader but use it (`Dialogue.run_used`), so what use keeps, every handler keeps.

Two things are kept.  A reader that has at most `n` bytes left never has more (`AtMost.used`), and
has fewer with every record (`AtMost.next_record`).  A stream that has nothing left stays that way
(`Spent.serves`).
-/
import CommandShell.Handler.Dialogue
import CommandShell.Proofs.Conservation

namespace CommandShell

namespace ByteStream

variable {σ : Type} [ByteStream σ]

/-! ### Streams that are read from and written to -/

/-- What a stream delivers while it is asked for chunks and written to, in any order. -/
inductive Serves (s : σ) : Bytes → σ → Prop
  | start : Serves s [] s
  | chunk {d chunk : Bytes} {m s' : σ} (h : Serves s d m) (hn : next m = (some chunk, s')) :
      Serves s (d ++ chunk) s'
  | ended {d : Bytes} {m s' : σ} (h : Serves s d m) (hn : next m = (none, s')) : Serves s d s'
  | written {d : Bytes} {m : σ} (h : Serves s d m) (data : Bytes) : Serves s d (write data m).2

/-- Nothing more comes, whatever is done with the stream. -/
def Spent (s : σ) : Prop :=
  ∀ d s', Serves s d s' → d = []

theorem Serves.trans {s m s' : σ} {d e : Bytes} (hd : Serves s d m) (he : Serves m e s') :
    Serves s (d ++ e) s' := by
  induction he with
  | start => simpa using hd
  | chunk _ hn ih =>
      rw [← List.append_assoc]
      exact .chunk ih hn
  | ended _ hn ih => exact .ended ih hn
  | written _ data ih => exact .written ih data

/-- The supply of a stream covers all that it delivers. -/
theorem Serves.length_le {s s' : σ} {d : Bytes} (h : Serves s d s') :
    d.length + supply s' ≤ supply s := by
  induction h with
  | start => simp
  | chunk _ hn ih =>
      have hc := supply_chunk hn
      rw [List.length_append]
      omega
  | ended _ hn ih =>
      have he := supply_end hn
      omega
  | @written d m _ data ih =>
      have hw := supply_write data m
      omega

theorem Spent.serves {s s' : σ} {d : Bytes} (h : Spent s) (hs : Serves s d s') : Spent s' := by
  intro e s'' he
  exact (List.append_eq_nil_iff.mp (h _ _ (hs.trans he))).2

end ByteStream

namespace Memory

/-! ### Chunks in memory -/

/-- The chunks in memory are all that it delivers. -/
theorem serves {s s' : Memory} {d : Bytes} (h : ByteStream.Serves s d s') :
    d ++ s'.queue.flatten = s.queue.flatten := by
  induction h with
  | start => rfl
  | @chunk d chunk m s' _ hn ih =>
      have hn : next m = (some chunk, s') := hn
      unfold next at hn
      cases hq : m.queue with
      | nil =>
          rw [hq] at hn
          exact absurd hn (by simp)
      | cons c rest =>
          rw [hq] at hn
          simp only [Prod.mk.injEq, Option.some.injEq] at hn
          obtain ⟨rfl, rfl⟩ := hn
          rw [← ih, hq]
          simp
  | @ended d m s' _ hn ih =>
      have hn : next m = (none, s') := hn
      unfold next at hn
      cases hq : m.queue with
      | nil =>
          rw [hq] at hn
          simp only [Prod.mk.injEq, true_and] at hn
          rw [← hn]
          exact ih
      | cons c rest =>
          rw [hq] at hn
          exact absurd hn (by simp)
  | written _ data ih => exact ih

theorem spent {s : Memory} (h : s.queue = []) : ByteStream.Spent s := by
  intro d s' hs
  have hall := serves hs
  rw [h] at hall
  exact (List.append_eq_nil_iff.mp hall).1

end Memory

namespace Reader

section Requests

variable {σ : Type} {pull : σ → Option Bytes × σ}

/-! ### What a request uses up -/

theorem reaches_length {mode : Mode} {r m : Reader σ} {chunks : List Bytes}
    (h : Reaches pull mode r chunks m) :
    m.carry.length ≤ r.carry.length + chunks.flatten.length := by
  obtain ⟨d, _, hcarry⟩ := reaches_drops h
  have hlen := congrArg List.length hcarry
  rw [List.length_append, List.length_append] at hlen
  omega

/-- A request leaves no more in the carry than there was and came. -/
theorem request_length {mode : Mode} {r r' : Reader σ} {chunks : List Bytes}
    {answer : Option Record} (h : Request pull mode r chunks answer r') :
    r'.carry.length ≤ r.carry.length + chunks.flatten.length := by
  cases h with
  | complete h hs =>
      have hlen := reaches_length h
      simp only [List.length_drop]
      omega
  | ended h hs hp =>
      have hlen := reaches_length h
      exact hlen

/-- **A record uses up at least one byte**, even if it is empty or has no tokens. -/
theorem request_record_length {mode : Mode} {r r' : Reader σ} {chunks : List Bytes}
    {record : Record} (h : Request pull mode r chunks (some record) r') :
    r'.carry.length < r.carry.length + chunks.flatten.length := by
  cases h with
  | complete h hs =>
      have hlen := reaches_length h
      have hused := Scan.resume_complete hs
      simp only [List.length_drop]
      omega

end Requests

variable {σ : Type} [ByteStream σ]

theorem reaches_serves {mode : Mode} {r m : Reader σ} {chunks : List Bytes}
    (h : Reaches ByteStream.next mode r chunks m) :
    ByteStream.Serves r.source chunks.flatten m.source := by
  induction h with
  | start => exact .start
  | step _ hs ih =>
      cases hs with
      | skip hs => simpa using ih
      | pulled hs hp =>
          rw [List.flatten_append, List.flatten_singleton]
          exact .chunk ih hp

theorem request_serves {mode : Mode} {r r' : Reader σ} {chunks : List Bytes}
    {answer : Option Record} (h : Request ByteStream.next mode r chunks answer r') :
    ByteStream.Serves r.source chunks.flatten r'.source := by
  cases h with
  | complete h hs =>
      have hserves := reaches_serves h
      exact hserves
  | ended h hs hp => exact .ended (reaches_serves h) hp

/-! ### Readers that are used -/

/-- What can become of a reader in anyone's hands, and what its source delivered meanwhile. -/
inductive Used (r : Reader σ) : Bytes → Reader σ → Prop
  | start : Used r [] r
  | request {d : Bytes} {m m' : Reader σ} {mode : Mode} {chunks : List Bytes}
      {answer : Option Record} (h : Used r d m)
      (hr : Request ByteStream.next mode m chunks answer m') : Used r (d ++ chunks.flatten) m'
  | written {d : Bytes} {m : Reader σ} (h : Used r d m) (data : Bytes) :
      Used r d (m.write data).2

theorem Used.trans {r m r' : Reader σ} {d e : Bytes} (hd : Used r d m) (he : Used m e r') :
    Used r (d ++ e) r' := by
  induction he with
  | start => simpa using hd
  | request _ hr ih =>
      rw [← List.append_assoc]
      exact .request ih hr
  | written _ data ih => exact .written ih data

theorem used_next (mode : Mode) (r : Reader σ) : ∃ d, Used r d (next mode r).2 := by
  obtain ⟨chunks, h⟩ := request_next mode r
  exact ⟨_, .request .start h⟩

theorem used_write (data : Bytes) (r : Reader σ) : Used r [] (r.write data).2 :=
  .written .start data

theorem Used.serves {r r' : Reader σ} {d : Bytes} (h : Used r d r') :
    ByteStream.Serves r.source d r'.source := by
  induction h with
  | start => exact .start
  | request _ hr ih => exact ih.trans (request_serves hr)
  | written _ data ih => exact .written ih data

theorem Used.length_le {r r' : Reader σ} {d : Bytes} (h : Used r d r') :
    r'.carry.length ≤ r.carry.length + d.length := by
  induction h with
  | start => simp
  | request _ hr ih =>
      have hlen := request_length hr
      rw [List.length_append]
      omega
  | written _ data ih => exact ih

/-! ### How many bytes are left -/

/-- No more than `n` bytes are in the carry or still to come. -/
def AtMost (n : Nat) (r : Reader σ) : Prop :=
  ∀ d s', ByteStream.Serves r.source d s' → r.carry.length + d.length ≤ n

/-- Every stream is finite, so there always is such a bound. -/
theorem atMost_weight (r : Reader σ) : AtMost r.weight r := by
  intro d s' h
  have hlen := h.length_le
  unfold weight
  omega

theorem AtMost.used {n : Nat} {r r' : Reader σ} {d : Bytes} (h : AtMost n r)
    (hu : Used r d r') : AtMost n r' := by
  intro e s' he
  have hall := h _ _ (hu.serves.trans he)
  have hlen := hu.length_le
  rw [List.length_append] at hall
  omega

theorem AtMost.request_record {n : Nat} {mode : Mode} {r r' : Reader σ} {chunks : List Bytes}
    {record : Record} (h : AtMost n r)
    (hr : Request ByteStream.next mode r chunks (some record) r') :
    ∃ m, m < n ∧ AtMost m r' := by
  have hlen := request_record_length hr
  have hserves := request_serves hr
  have hn := h _ _ hserves
  refine ⟨n - 1, by omega, ?_⟩
  intro e s' he
  have hall := h _ _ (hserves.trans he)
  rw [List.length_append] at hall
  omega

theorem AtMost.next_record {n : Nat} {mode : Mode} {r r' : Reader σ} {record : Record}
    (h : AtMost n r) (hn : next mode r = (some record, r')) : ∃ m, m < n ∧ AtMost m r' := by
  obtain ⟨chunks, hr⟩ := request_iff.mpr hn
  exact h.request_record hr

theorem atMost_input (r : Reader Memory) : AtMost r.input.length r := by
  intro d s' h
  have hall := congrArg List.length (Memory.serves h)
  rw [List.length_append] at hall
  unfold input
  rw [List.length_append]
  omega

end Reader

/-! ### Handlers use the reader -/

namespace Dialogue

variable {σ ν α : Type} [ByteStream σ]

theorem run_used (dialogue : Dialogue ν α) (c : Console σ) :
    ∃ d, Reader.Used c.reader d (dialogue.run c).console.reader := by
  induction dialogue generalizing c with
  | done result => exact ⟨[], .start⟩
  | write data answer ih =>
      obtain ⟨d, h⟩ := ih (c.write data).1 (c.write data).2
      exact ⟨_, (Reader.used_write data c.reader).trans h⟩
  | read mode answer ih =>
      obtain ⟨e, he⟩ := Reader.used_next mode c.reader
      obtain ⟨d, h⟩ := ih (c.read mode).1 (c.read mode).2
      exact ⟨_, he.trans h⟩
  | prompt answer ih => exact ih c.prompt c
  | setPrompt label rest ih => exact ih { c with prompt := label }
  | note n rest ih => exact ih c

end Dialogue

end CommandShell
