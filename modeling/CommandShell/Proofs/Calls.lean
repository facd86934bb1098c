/-
Calls on a stream.

Whoever has a stream asks it for chunks and hands it data, and that is all.  A `Call` is one of the
two with its answer, and `Calls` is any number of them, one after the other.

A stream over a transport has nothing of its own to remember that it has ended: it asks whether the
transport is open, every time.  So what comes after the end is a matter of the transport.
`closed_calls` is the one half of it, a closed transport answers no call and does not change, and
`none_cases` is the other, the ways in which the end is told.  There are two, and only the first
is final: a transport that stays open when a read fails is asked again.

Nothing of that depends on a supply.  It is told of a `Link`, which can deliver for ever and
deliver what is written to it.  `pulls_iff` and `link_calls` say that a buffered stream does the
same with its transport.
-/
import CommandShell.Rehearsal.Stream

namespace CommandShell

/-! ### Calls and their answers -/

/-- A call on a stream, and what it was answered. -/
inductive Call
  | next (answer : Option Bytes)
  | write (data : Bytes) (answer : Except StreamError Unit)

/-- A call that got nothing and changed nothing: there is no chunk, and no connection. -/
inductive Call.Refused : Call → Prop
  | next : Refused (.next none)
  | write (data : Bytes) : Refused (.write data (.error .notConnected))

/-- Calls in a row, on whatever answers them. -/
inductive Calls {σ : Type} (pulls : σ → Option Bytes → σ → Prop)
    (put : Bytes → σ → Except StreamError Unit × σ) : σ → List Call → σ → Prop
  | nil (s : σ) : Calls pulls put s [] s
  | next {s m s' : σ} {answer : Option Bytes} {calls : List Call} (hp : pulls s answer m)
      (h : Calls pulls put m calls s') : Calls pulls put s (.next answer :: calls) s'
  | write {s m s' : σ} {data : Bytes} {answer : Except StreamError Unit} {calls : List Call}
      (hw : put data s = (answer, m)) (h : Calls pulls put m calls s') :
      Calls pulls put s (.write data answer :: calls) s'

/-- The calls on a stream. -/
abbrev ByteStream.Calls {σ : Type} [ByteStream σ] : σ → List Call → σ → Prop :=
  CommandShell.Calls (fun s answer s' => next s = (answer, s')) write

/-! ### Links -/

/-- A connection that may do as it likes. -/
structure Link (τ : Type) where
  /-- Whether bytes can still be delivered or accepted. -/
  isOpen : τ → Bool
  /-- Reads at most so many bytes. -/
  read : Nat → τ → Except StreamError Bytes × τ
  /-- Writes all of some data. -/
  write : Bytes → τ → Except StreamError Unit × τ

namespace Link

variable {τ : Type}

/-- What comes of waiting for a chunk: reads that yield nothing are followed by others as long as
the link is open, and the first other read ends it. -/
inductive Pulls (l : Link τ) (room : Nat) : τ → Option Bytes → τ → Prop
  | closed {t : τ} (ho : l.isOpen t = false) : Pulls l room t none t
  | nothing {t m t' : τ} {answer : Option Bytes} (ho : l.isOpen t = true)
      (hr : l.read room t = (.ok [], m)) (h : Pulls l room m answer t') :
      Pulls l room t answer t'
  | chunk {t t' : τ} {b : UInt8} {bytes : Bytes} (ho : l.isOpen t = true)
      (hr : l.read room t = (.ok (b :: bytes), t')) : Pulls l room t (some (b :: bytes)) t'
  | failed {t t' : τ} {e : StreamError} (ho : l.isOpen t = true)
      (hr : l.read room t = (.error e, t')) : Pulls l room t none t'

/-- Writes unless the link is closed. -/
def put (l : Link τ) (data : Bytes) (t : τ) : Except StreamError Unit × τ :=
  if l.isOpen t then l.write data t else (.error .notConnected, t)

/-- The calls on a stream over a link. -/
abbrev Calls (l : Link τ) (room : Nat) : τ → List Call → τ → Prop :=
  CommandShell.Calls (l.Pulls room) l.put

/-! ### After the end -/

theorem pulls_of_closed {l : Link τ} {room : Nat} {t t' : τ} {answer : Option Bytes}
    (hc : l.isOpen t = false) (h : l.Pulls room t answer t') : answer = none ∧ t' = t := by
  cases h with
  | closed ho => exact ⟨rfl, rfl⟩
  | nothing ho hr h => exact absurd (ho.symm.trans hc) (by simp)
  | chunk ho hr => exact absurd (ho.symm.trans hc) (by simp)
  | failed ho hr => exact absurd (ho.symm.trans hc) (by simp)

theorem put_of_closed {l : Link τ} {t : τ} (hc : l.isOpen t = false) (data : Bytes) :
    l.put data t = (.error .notConnected, t) := by
  unfold put
  rw [if_neg (by simp [hc])]

/-- **A closed link refuses every call**, and is left as it is. -/
theorem closed_calls {l : Link τ} {room : Nat} {t t' : τ} {calls : List Call}
    (hc : l.isOpen t = false) (h : l.Calls room t calls t') :
    t' = t ∧ ∀ c ∈ calls, c.Refused := by
  induction h with
  | nil t => exact ⟨rfl, by simp⟩
  | next hp h ih =>
      obtain ⟨rfl, rfl⟩ := pulls_of_closed hc hp
      obtain ⟨rfl, hall⟩ := ih hc
      exact ⟨rfl, List.forall_mem_cons.mpr ⟨.next, hall⟩⟩
  | @write _ _ _ data _ _ hw h ih =>
      rw [put_of_closed hc] at hw
      obtain ⟨rfl, rfl⟩ := Prod.mk.inj hw
      obtain ⟨rfl, hall⟩ := ih hc
      exact ⟨rfl, List.forall_mem_cons.mpr ⟨.write data, hall⟩⟩

/-- The end is told of a link that is closed, or because a read of an open one failed that left it
open. -/
theorem none_cases {l : Link τ} {room : Nat} {t t' : τ} {answer : Option Bytes}
    (h : l.Pulls room t answer t') (hn : answer = none) :
    l.isOpen t' = false ∨
      l.isOpen t' = true ∧ ∃ u e, l.isOpen u = true ∧ l.read room u = (.error e, t') := by
  induction h with
  | closed ho => exact Or.inl ho
  | nothing ho hr h ih => exact ih hn
  | chunk ho hr => exact absurd hn (by simp)
  | @failed t t' e ho hr =>
      by_cases hopen : l.isOpen t' = true
      · exact Or.inr ⟨hopen, t, e, ho, hr⟩
      · exact Or.inl (Bool.of_not_eq_true hopen)

end Link

/-! ### Transports are links -/

/-- A transport as a link. -/
def Transport.link (τ : Type) [Transport τ] : Link τ :=
  ⟨Transport.isOpen, Transport.read, Transport.write⟩

namespace Buffered

variable {τ : Type} [Transport τ]

/-- Waiting for a chunk is what a buffered stream does when it is asked for one. -/
theorem pulls_next {room : Nat} (pos : 0 < room) (t : τ) :
    (Transport.link τ).Pulls room t (next room pos t).1 (next room pos t).2 := by
  fun_induction next room pos t with
  | case1 t ho m hr hm this ih => exact .nothing ho hr ih
  | case2 t ho m hr hm => exact .nothing ho hr (.closed (Bool.of_not_eq_true hm))
  | case3 t ho b bytes m hr => exact .chunk ho hr
  | case4 t ho e m hr => exact .failed ho hr
  | case5 t ho => exact .closed (Bool.of_not_eq_true ho)

end Buffered

/-- There is one way to wait at most. -/
theorem Link.pulls_unique {τ : Type} {l : Link τ} {room : Nat} {t t₁ t₂ : τ}
    {a₁ a₂ : Option Bytes} (h₁ : l.Pulls room t a₁ t₁) (h₂ : l.Pulls room t a₂ t₂) :
    a₁ = a₂ ∧ t₁ = t₂ := by
  induction h₁ with
  | closed ho =>
      obtain ⟨rfl, rfl⟩ := pulls_of_closed ho h₂
      exact ⟨rfl, rfl⟩
  | nothing ho hr h ih =>
      cases h₂ with
      | closed hc => simp [hc] at ho
      | nothing _ hr₂ h₂ =>
          obtain rfl := (Prod.mk.inj (hr.symm.trans hr₂)).2
          exact ih h₂
      | chunk _ hr₂ => simp [hr] at hr₂
      | failed _ hr₂ => simp [hr] at hr₂
  | chunk ho hr =>
      cases h₂ with
      | closed hc => simp [hc] at ho
      | nothing _ hr₂ h₂ => simp [hr] at hr₂
      | chunk _ hr₂ => simpa [hr] using hr₂
      | failed _ hr₂ => simp [hr] at hr₂
  | failed ho hr =>
      cases h₂ with
      | closed hc => simp [hc] at ho
      | nothing _ hr₂ h₂ => simp [hr] at hr₂
      | chunk _ hr₂ => simp [hr] at hr₂
      | failed _ hr₂ => exact ⟨rfl, (Prod.mk.inj (hr.symm.trans hr₂)).2⟩

namespace Buffered

variable {τ : Type} [Transport τ]

/-- **A buffered stream waits on its transport as on any link.** -/
theorem pulls_iff {room : Nat} (pos : 0 < room) {t t' : τ} {answer : Option Bytes} :
    (Transport.link τ).Pulls room t answer t' ↔ next room pos t = (answer, t') := by
  constructor
  · intro h
    obtain ⟨ha, ht⟩ := Link.pulls_unique (pulls_next pos t) h
    exact Prod.ext ha ht
  · intro h
    have hp := pulls_next pos t
    rw [h] at hp
    exact hp

/-- So the calls on it are calls on a link, and its buffer stays as it is. -/
theorem link_calls {s s' : Buffered τ} {calls : List Call} (h : ByteStream.Calls s calls s') :
    (Transport.link τ).Calls s.capacity s.transport calls s'.transport ∧
      s' = { s with transport := s'.transport } := by
  induction h with
  | nil s => exact ⟨.nil _, rfl⟩
  | @next s m s' answer calls hp h ih =>
      obtain ⟨rfl, rfl⟩ := Prod.mk.inj hp
      exact ⟨.next (pulls_next s.capacity_pos s.transport) ih.1, ih.2⟩
  | @write s m s' data answer calls hw h ih =>
      obtain ⟨rfl, rfl⟩ := Prod.mk.inj hw
      exact ⟨.write rfl ih.1, ih.2⟩

end Buffered

/-! ### Whether the end is final -/

/--
**The end of the input is final unless a failed read left the transport open.**  Once a stream
over a link has told the end, either the link is closed, and then every later call is refused and
changes nothing, whatever is read and written in between; or it is open, and the end was a failed
read.  The stream keeps no note of that, so it asks the link again.
-/
theorem Link.exhaustion {τ : Type} (l : Link τ) {room : Nat} {t m t' : τ} {calls : List Call}
    (hn : l.Pulls room t none m) (hc : l.Calls room m calls t') :
    (l.isOpen m = false ∧ t' = m ∧ ∀ c ∈ calls, c.Refused) ∨
      (l.isOpen m = true ∧ ∃ u e, l.isOpen u = true ∧ l.read room u = (.error e, m)) := by
  rcases none_cases hn rfl with hclosed | hopen
  · obtain ⟨ht, hall⟩ := closed_calls hclosed hc
    exact Or.inl ⟨hclosed, ht, hall⟩
  · exact Or.inr hopen

/-- The wire delivers a byte and then closes: the second chunk that is asked for is the end, and
data that is written after it is refused. -/
theorem Link.exhaustion_of_closing :
    let wire : Rehearsal.Wire := ⟨[.data [0x61]], {}, true⟩
    let spent : Rehearsal.Wire := ⟨[], {}, false⟩
    Buffered.next 1 Nat.one_pos wire = (some [0x61], ⟨[], {}, true⟩) ∧
    Buffered.next 1 Nat.one_pos ⟨[], {}, true⟩ = (none, spent) ∧
    ∀ {calls : List Call} {t' : Rehearsal.Wire},
      (Transport.link Rehearsal.Wire).Calls 1 spent calls t' →
        t' = spent ∧ ∀ c ∈ calls, c.Refused := by
  intro wire spent
  have hend : Buffered.next 1 Nat.one_pos (⟨[], {}, true⟩ : Rehearsal.Wire) = (none, spent) := by
    decide +kernel
  refine ⟨by decide +kernel, hend, ?_⟩
  intro calls t' hc
  rcases exhaustion _ ((Buffered.pulls_iff Nat.one_pos).mpr hend) hc with ⟨_, h⟩ | ⟨ho, _⟩
  · exact h
  · exact absurd ho (by simp [spent, Transport.link, Transport.isOpen])

/-- **A buffered stream that told the end leaves it to its transport whether that is final.**  A
closed one refuses every later call, and the stream does not change.  An open one has failed a read,
and nothing keeps it from delivering after that. -/
theorem Buffered.calls_after_none {τ : Type} [Transport τ] {s m s' : Buffered τ}
    {calls : List Call} (hn : ByteStream.next s = (none, m)) (hc : ByteStream.Calls m calls s') :
    (Transport.isOpen m.transport = false ∧ s' = m ∧ ∀ c ∈ calls, c.Refused) ∨
      (Transport.isOpen m.transport = true ∧
        ∃ u e, Transport.isOpen u = true ∧
          Transport.read s.capacity u = (.error e, m.transport)) := by
  obtain ⟨hcalls, hsame⟩ := link_calls hc
  obtain ⟨hnone, rfl⟩ := Prod.mk.inj hn
  have hpulls := pulls_next s.capacity_pos s.transport
  rcases Link.none_cases hpulls hnone with hclosed | hopen
  · obtain ⟨ht, hall⟩ := Link.closed_calls hclosed hcalls
    rw [ht] at hsame
    exact Or.inl ⟨hclosed, hsame, hall⟩
  · exact Or.inr hopen

/-- **After a failed read the end is not the end.**  A wire on which a read times out stays open,
and what arrives afterwards is delivered. -/
theorem Buffered.delivers_after_none :
    ¬ ∀ (s m s' : Buffered Rehearsal.Wire) (calls : List Call), ByteStream.next s = (none, m) →
      ByteStream.Calls m calls s' → ∀ chunk, Call.next (some chunk) ∉ calls := by
  intro h
  let wire : Rehearsal.Wire := ⟨[.failure .timedOut, .data [0x61]], {}, true⟩
  let s := Buffered.ofTransport Buffered.defaultCapacity wire
  let m := (ByteStream.next s).2
  have hend : (ByteStream.next s).1 = none := by decide +kernel
  have hmore : (ByteStream.next m).1 = some [0x61] := by decide +kernel
  have hcalls : ByteStream.Calls m [.next (some [0x61])] (ByteStream.next m).2 :=
    .next (Prod.ext hmore rfl) (.nil _)
  exact h s m _ _ (Prod.ext hend rfl) hcalls [0x61] (by simp)

end CommandShell
