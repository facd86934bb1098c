/-
How a request comes about.

`Reader.next` is a function because a stream runs dry: its supply falls with every chunk.
What a request does to the bytes has nothing to do with that, and a source that never ends
answers requests all the same.  So the rules of a request are told here for any source, given
by nothing but `pull`, how it answers when it is asked for a chunk.

A `Step` drops empty statements or pulls a chunk, `Reaches` is any number of steps, and a
`Request` ends them with an answer.  What holds of a request is shown of its steps
first.  For a stream a request is what `next` does and nothing else (`request_iff`).  `Run` is one
request after the other, each in the mode that whoever reads chose for it.
-/
import CommandShell.Input.Reader

namespace CommandShell

namespace Reader

variable {σ : Type}

/-! ### One request -/

/-- What a request does before it has an answer: it drops empty statements, or it pulls a chunk
because what is in the carry does not do. -/
inductive Step (pull : σ → Option Bytes × σ) (mode : Mode) :
    Reader σ → List Bytes → Reader σ → Prop
  | skip {r : Reader σ} {count : Nat} (hs : Scan.ofMode mode r.carry = .skip count) :
      Step pull mode r [] ⟨r.carry.drop count, r.source⟩
  | pulled {r : Reader σ} {chunk : Bytes} {s : σ} (hs : Scan.ofMode mode r.carry = .incomplete)
      (hp : pull r.source = (some chunk, s)) : Step pull mode r [chunk] ⟨r.carry ++ chunk, s⟩

/-- How far a request can come before it is answered, and the chunks it pulled on the way. -/
inductive Reaches (pull : σ → Option Bytes × σ) (mode : Mode) (r : Reader σ) :
    List Bytes → Reader σ → Prop
  | start : Reaches pull mode r [] r
  | step {chunks more : List Bytes} {m m' : Reader σ} (h : Reaches pull mode r chunks m)
      (hs : Step pull mode m more m') : Reaches pull mode r (chunks ++ more) m'

/-- A request that was made of a reader, the chunks it pulled, its answer and the reader
after it. -/
inductive Request (pull : σ → Option Bytes × σ) (mode : Mode) (r : Reader σ) :
    List Bytes → Option Record → Reader σ → Prop
  /-- A complete record is taken out of the carry. -/
  | complete {chunks : List Bytes} {m : Reader σ} {found : Found}
      (h : Reaches pull mode r chunks m) (hs : Scan.ofMode mode m.carry = .complete found) :
      Request pull mode r chunks (some (found.record m.carry))
        ⟨m.carry.drop found.consumed, m.source⟩
  /-- There is no chunk to pull. -/
  | ended {chunks : List Bytes} {m : Reader σ} {s : σ} (h : Reaches pull mode r chunks m)
      (hs : Scan.ofMode mode m.carry = .incomplete) (hp : pull m.source = (none, s)) :
      Request pull mode r chunks none ⟨m.carry, s⟩

/-- The chunks that a source gives out one after the other. -/
inductive Delivers (pull : σ → Option Bytes × σ) : σ → List Bytes → σ → Prop
  | nil (s : σ) : Delivers pull s [] s
  | cons {s m s' : σ} {chunk : Bytes} {chunks : List Bytes} (hp : pull s = (some chunk, m))
      (h : Delivers pull m chunks s') : Delivers pull s (chunk :: chunks) s'

/-- Over chunks that a source gives out a request is answered, or it comes to the end of them
and needs more.  Skipping and pulling both make the carry and the chunks that are left lighter
together, so it cannot go on without either. -/
theorem request_or_waits {pull : σ → Option Bytes × σ} {mode : Mode} {r : Reader σ}
    {before : List Bytes} {m : Reader σ} (hm : Reaches pull mode r before m)
    {chunks : List Bytes} {s : σ} (hd : Delivers pull m.source chunks s) :
    (∃ k record r', Request pull mode r (before ++ chunks.take k) (some record) r') ∨
      ∃ carry, Reaches pull mode r (before ++ chunks) ⟨carry, s⟩ ∧
        Scan.ofMode mode carry = .incomplete := by
  induction hn : m.carry.length + (chunks.map fun c => c.length + 1).sum using Nat.strongRecOn
    generalizing before m chunks with
  | ind n ih =>
      cases hs : Scan.ofMode mode m.carry with
      | complete found =>
          refine Or.inl ⟨0, _, _, .complete ?_ hs⟩
          simpa using hm
      | skip count =>
          have hc := Scan.resume_skip hs
          have hlt : (m.carry.drop count).length + (chunks.map fun c => c.length + 1).sum < n := by
            rw [List.length_drop]
            omega
          have := ih _ hlt (hm.step (.skip hs)) hd rfl
          simpa using this
      | incomplete =>
          cases hd with
          | nil => exact Or.inr ⟨m.carry, by simpa using hm, hs⟩
          | @cons _ m' _ chunk chunks hp hd =>
              have hlt : (m.carry ++ chunk).length + (chunks.map fun c => c.length + 1).sum
                  < n := by
                rw [List.length_append]
                simp only [List.map_cons, List.sum_cons] at hn
                omega
              rcases ih _ hlt (hm.step (.pulled hs hp)) hd rfl with ⟨k, record, r', h⟩ | ⟨c, h⟩
              · exact Or.inl ⟨k + 1, record, r', by simpa using h⟩
              · exact Or.inr ⟨c, by simpa using h⟩

/-! ### Requests of a stream -/

section Stream

variable [ByteStream σ]

theorem next_step {mode : Mode} {r m : Reader σ} {more : List Bytes}
    (h : Step ByteStream.next mode r more m) : next mode r = next mode m := by
  rw [next_eq]
  cases h with
  | skip hs => simp only [hs]
  | pulled hs hp => simp only [hs, hp]

theorem next_reaches {mode : Mode} {r m : Reader σ} {chunks : List Bytes}
    (h : Reaches ByteStream.next mode r chunks m) : next mode r = next mode m := by
  induction h with
  | start => rfl
  | step _ hs ih => rw [ih, next_step hs]

/-- From wherever a request has come, `next` answers it. -/
theorem request_of_reaches {mode : Mode} {r m : Reader σ} {before : List Bytes}
    (hm : Reaches ByteStream.next mode r before m) :
    ∃ chunks, Request ByteStream.next mode r chunks (next mode m).1 (next mode m).2 := by
  induction hw : m.weight using Nat.strongRecOn generalizing before m with
  | ind w ih =>
      cases hs : Scan.ofMode mode m.carry with
      | complete found =>
          rw [next_eq]
          simp only [hs]
          exact ⟨before, .complete hm hs⟩
      | skip count =>
          have hstep : Step ByteStream.next mode m [] _ := .skip hs
          rw [next_step hstep]
          exact ih _ (hw ▸ drop_weight_lt (Scan.resume_skip hs)) (hm.step hstep) rfl
      | incomplete =>
          rcases hp : ByteStream.next m.source with ⟨_ | chunk, s⟩
          · rw [next_eq]
            simp only [hs, hp]
            exact ⟨before, .ended hm hs hp⟩
          · have hstep : Step ByteStream.next mode m [chunk] _ := .pulled hs hp
            rw [next_step hstep]
            exact ih _ (hw ▸ append_weight_lt hp) (hm.step hstep) rfl

theorem request_next (mode : Mode) (r : Reader σ) :
    ∃ chunks, Request ByteStream.next mode r chunks (next mode r).1 (next mode r).2 :=
  request_of_reaches .start

/-- **The requests of a stream are what `next` does.** -/
theorem request_iff {mode : Mode} {r r' : Reader σ} {answer : Option Record} :
    (∃ chunks, Request ByteStream.next mode r chunks answer r') ↔
      next mode r = (answer, r') := by
  constructor
  · intro hreq
    obtain ⟨chunks, h⟩ := hreq
    cases h with
    | complete h hs =>
        rw [next_reaches h, next_eq]
        simp only [hs]
    | ended h hs hp =>
        rw [next_reaches h, next_eq]
        simp only [hs, hp]
  · intro h
    obtain ⟨chunks, hr⟩ := request_next mode r
    rw [h] at hr
    exact ⟨chunks, hr⟩

/-- A stream gives out its chunks, and there is no more when they are through. -/
theorem delivers_chunks (s : σ) :
    ∃ m s', Delivers ByteStream.next s (ByteStream.chunks s) m ∧
      ByteStream.next m = (none, s') := by
  fun_induction ByteStream.chunks s with
  | case1 s chunk m hp ih =>
      obtain ⟨e, s', hd, he⟩ := ih
      exact ⟨e, s', .cons hp hd, he⟩
  | case2 s s' hp => exact ⟨s, s', .nil s, hp⟩

end Stream

/-! ### One request after the other -/

/-- A request that was made, with the carry before and after it. -/
structure Exchange where
  mode : Mode
  before : Bytes
  chunks : List Bytes
  answer : Option Record
  after : Bytes

/-- Requests in a row.  Nothing is said about how the modes come about, so each can depend on
all that was answered before. -/
inductive Run (pull : σ → Option Bytes × σ) : Reader σ → List Exchange → Reader σ → Prop
  | nil (r : Reader σ) : Run pull r [] r
  | cons {r m r' : Reader σ} {mode : Mode} {chunks : List Bytes} {answer : Option Record}
      {xs : List Exchange} (h : Request pull mode r chunks answer m) (hr : Run pull m xs r') :
      Run pull r (⟨mode, r.carry, chunks, answer, m.carry⟩ :: xs) r'

/-- All chunks that were pulled. -/
def Exchange.pulled (xs : List Exchange) : List Bytes :=
  xs.flatMap Exchange.chunks

/-- All records that were returned. -/
def Exchange.records (xs : List Exchange) : List Record :=
  xs.filterMap Exchange.answer

theorem Run.append {pull : σ → Option Bytes × σ} {r m r' : Reader σ} {xs ys : List Exchange}
    (hx : Run pull r xs m) (hy : Run pull m ys r') : Run pull r (xs ++ ys) r' := by
  induction hx with
  | nil r => exact hy
  | cons h _ ih => exact .cons h (ih hy)

/-- The answers to `n` requests of a stream, and the reader after them.  `choose` says in which
mode the next one is made, given the answers so far. -/
def converse [ByteStream σ] (choose : List (Option Record) → Mode) (r : Reader σ) :
    Nat → List (Option Record) × Reader σ
  | 0 => ([], r)
  | n + 1 =>
    let before := converse choose r n
    let out := next (choose before.1) before.2
    (before.1 ++ [out.1], out.2)

theorem run_converse [ByteStream σ] (choose : List (Option Record) → Mode) (r : Reader σ)
    (n : Nat) :
    ∃ xs, Run ByteStream.next r xs (converse choose r n).2 ∧
      xs.map Exchange.answer = (converse choose r n).1 := by
  induction n with
  | zero => exact ⟨[], .nil r, rfl⟩
  | succ n ih =>
      obtain ⟨xs, hx, ha⟩ := ih
      obtain ⟨chunks, h⟩ := request_next (choose (converse choose r n).1) (converse choose r n).2
      refine ⟨_, hx.append (.cons h (.nil _)), ?_⟩
      rw [List.map_append, ha]
      rfl

end Reader

end CommandShell
