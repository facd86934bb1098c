/-
A duplex transport that has closed.

The two ends of a duplex transport close together and for good.  It does not matter from which side
it came: the end of the input, a read, a write or a flush that failed, or `close`.  One use of an
open transport closes it exactly if it is `Fatal` (`use_closes`), and no use of a closed one reaches
either end (`use_closed`).  The reader is given by nothing but how it answers, so it can be one that
never ends.

A stream over the transport, a reader over the stream and a session with all its handlers can do no
more than use it (`Became`).  Once it is closed, the stream is dead to the session, which has only
its carry left then.
-/
import CommandShell.Proofs.Dead
import CommandShell.Rehearsal.Stream

namespace CommandShell

/-! ### Uses of a duplex transport -/

/-- What is done with a duplex transport from above. -/
inductive Use
  /-- A chunk is asked for. -/
  | next
  /-- Data is written. -/
  | write (data : Bytes)
  /-- It is closed. -/
  | close

namespace Duplex

variable {ρ ω : Type}

/-- Reads from a reader that answers as it likes, and closes unless something was read. -/
def readBy (answer : Nat → ρ → Except StreamError Bytes × ρ) (room : Nat) (d : Duplex ρ ω) :
    Except StreamError Bytes × Duplex ρ ω :=
  match answer room d.reader with
  | (.ok [], r) => (.ok [], close { d with reader := r })
  | (.ok (b :: bytes), r) => (.ok (b :: bytes), { d with reader := r })
  | (.error e, r) => (.error e, close { d with reader := r })

/-- A read that yields nothing closes the transport. -/
theorem readBy_closes {answer : Nat → ρ → Except StreamError Bytes × ρ} {room : Nat}
    {d d' : Duplex ρ ω} (h : readBy answer room d = (.ok [], d')) : d'.isOpen = false := by
  unfold readBy at h
  split at h
  · obtain rfl := (Prod.mk.inj h).2
    rfl
  · simp at h
  · simp at h

variable [WriteEnd ω]

/-- A duplex transport with such a reader. -/
def link (answer : Nat → ρ → Except StreamError Bytes × ρ) : Link (Duplex ρ ω) :=
  ⟨Duplex.isOpen, readBy answer, Duplex.write⟩

theorem link_transport [ReadEnd ρ] :
    Transport.link (Duplex ρ ω) = link ReadEnd.readThrough := rfl

variable (answer : Nat → ρ → Except StreamError Bytes × ρ) (room : Nat)

/-- Waits for a chunk, which takes one read at most: a read that yields nothing is the end. -/
def pull (d : Duplex ρ ω) : Option Bytes × Duplex ρ ω :=
  if d.isOpen then
    match readBy answer room d with
    | (.ok (b :: bytes), d') => (some (b :: bytes), d')
    | (_, d') => (none, d')
  else (none, d)

/-- Does something with a duplex transport; a call is told with its answer. -/
def use (u : Use) (d : Duplex ρ ω) : List Call × Duplex ρ ω :=
  match u with
  | .next => ([.next (pull answer room d).1], (pull answer room d).2)
  | .write data => ([.write data ((link answer).put data d).1], ((link answer).put data d).2)
  | .close => ([], d.close)

/-- Does one thing after the other with it. -/
def useAll (uses : List Use) (d : Duplex ρ ω) : List Call × Duplex ρ ω :=
  match uses with
  | [] => ([], d)
  | u :: uses =>
    let first := use answer room u d
    let rest := useAll uses first.2
    (first.1 ++ rest.1, rest.2)

/-- What closes a duplex transport that is open: a read that yields nothing or fails, a write that
fails, a flush that fails after a write that did not, and being closed. -/
def Fatal (d : Duplex ρ ω) : Use → Prop
  | .next => (answer room d.reader).1 = .ok [] ∨ ∃ e, (answer room d.reader).1 = .error e
  | .write data =>
    (∃ e, (WriteEnd.writeAll .writeZero data d.writer).1 = .error e) ∨
      ∃ w e, WriteEnd.writeAll .writeZero data d.writer = (.ok (), w) ∧
        (WriteEnd.flush w).1 = .error e
  | .close => True

variable {answer room}

/-! ### Waiting for a chunk -/

/-- Waiting for a chunk is waiting on the link. -/
theorem pulls_pull (d : Duplex ρ ω) :
    (link answer).Pulls room d (pull answer room d).1 (pull answer room d).2 := by
  unfold pull
  by_cases ho : d.isOpen = true
  · rw [if_pos ho]
    rcases hr : readBy answer room d with ⟨e | _ | ⟨b, bytes⟩, d'⟩
    · exact .failed ho hr
    · exact .nothing ho hr (.closed (readBy_closes hr))
    · exact .chunk ho hr
  · rw [if_neg ho]
    exact .closed (Bool.of_not_eq_true ho)

/-! ### What closes it -/

/-- **An open transport is closed by what is fatal to it** and by nothing else. -/
theorem use_closes {d : Duplex ρ ω} (h : d.isOpen = true) (u : Use) :
    (use answer room u d).2.isOpen = false ↔ Fatal answer room d u := by
  cases u with
  | next =>
      show (pull answer room d).2.isOpen = false ↔
        (answer room d.reader).1 = .ok [] ∨ ∃ e, (answer room d.reader).1 = .error e
      rw [pull, if_pos h]
      unfold readBy
      rcases answer room d.reader with ⟨e | _ | ⟨b, bytes⟩, r⟩
      · simp [close]
      · simp [close]
      · simp [h]
  | write data =>
      have hput : (link answer).put data d = Duplex.write data d := if_pos h
      show ((link answer).put data d).2.isOpen = false ↔
        (∃ e, (WriteEnd.writeAll .writeZero data d.writer).1 = .error e) ∨
          ∃ w e, WriteEnd.writeAll .writeZero data d.writer = (.ok (), w) ∧
            (WriteEnd.flush w).1 = .error e
      rw [hput]
      unfold Duplex.write WriteEnd.writeThrough
      rcases WriteEnd.writeAll .writeZero data d.writer with ⟨e | ⟨⟩, w⟩
      · simp [close]
      · rcases hf : WriteEnd.flush w with ⟨e | ⟨⟩, w'⟩
        · simp [close, hf]
        · simp [h, hf]
  | close => exact iff_of_true rfl trivial

/-- **A closed transport stays as it is, both of its ends too**, and every call is refused. -/
theorem use_closed {d : Duplex ρ ω} (h : d.isOpen = false) (u : Use) :
    (use answer room u d).2 = d ∧ ∀ c ∈ (use answer room u d).1, c.Refused := by
  cases u with
  | next =>
      have hpull : pull answer room d = (none, d) := if_neg (by simp [h])
      show (pull answer room d).2 = d ∧ ∀ c ∈ [Call.next (pull answer room d).1], c.Refused
      rw [hpull]
      exact ⟨rfl, by simpa using Call.Refused.next⟩
  | write data =>
      have hput : (link answer).put data d = (.error .notConnected, d) :=
        Link.put_of_closed h data
      show ((link answer).put data d).2 = d ∧
        ∀ c ∈ [Call.write data ((link answer).put data d).1], c.Refused
      rw [hput]
      exact ⟨rfl, by simpa using Call.Refused.write data⟩
  | close =>
      obtain ⟨reader, writer, _⟩ := d
      obtain rfl := h
      exact ⟨rfl, by simp [use]⟩

theorem useAll_closed {d : Duplex ρ ω} (h : d.isOpen = false) (uses : List Use) :
    (useAll answer room uses d).2 = d ∧ ∀ c ∈ (useAll answer room uses d).1, c.Refused := by
  induction uses with
  | nil => exact ⟨rfl, by simp [useAll]⟩
  | cons u uses ih =>
      obtain ⟨hsame, hfirst⟩ : (use answer room u d).2 = d ∧
          ∀ c ∈ (use answer room u d).1, c.Refused := use_closed h u
      unfold useAll
      simp only
      rw [hsame]
      exact ⟨ih.1, List.forall_mem_append.mpr ⟨hfirst, ih.2⟩⟩

theorem useAll_append (uses later : List Use) (d : Duplex ρ ω) :
    useAll answer room (uses ++ later) d
      = ((useAll answer room uses d).1
          ++ (useAll answer room later (useAll answer room uses d).2).1,
        (useAll answer room later (useAll answer room uses d).2).2) := by
  induction uses generalizing d with
  | nil => rfl
  | cons u uses ih => simp only [List.cons_append, useAll, ih, List.append_assoc]

/-- **It closes at the first fatal use.** -/
theorem useAll_closes {d : Duplex ρ ω} (h : d.isOpen = true) (uses : List Use) :
    (useAll answer room uses d).2.isOpen = false ↔
      ∃ before u later, uses = before ++ u :: later ∧
        (useAll answer room before d).2.isOpen = true ∧
        Fatal answer room (useAll answer room before d).2 u := by
  constructor
  · intro hclosed
    induction uses generalizing d with
    | nil => exact absurd (h.symm.trans hclosed) (by simp)
    | cons u uses ih =>
        by_cases hfirst : (use answer room u d).2.isOpen = true
        · obtain ⟨before, u', later, rfl, hopen, hfatal⟩ := ih hfirst hclosed
          exact ⟨u :: before, u', later, rfl, hopen, hfatal⟩
        · exact ⟨[], u, uses, rfl, h, (use_closes h u).mp (Bool.of_not_eq_true hfirst)⟩
  · intro hsplit
    obtain ⟨before, u, later, rfl, hopen, hfatal⟩ := hsplit
    have hclosed := (use_closes hopen u).mpr hfatal
    rw [useAll_append]
    unfold useAll
    simp only
    rw [(useAll_closed hclosed later).1]
    exact hclosed

/-! ### Streams over it -/

section Streams

variable [ReadEnd ρ] {s m s' : Buffered (Duplex ρ ω)}

/-- A stream over a duplex transport became another one by uses of the transport. -/
def Became (s s' : Buffered (Duplex ρ ω)) : Prop :=
  ∃ uses, s' = { s with
    transport := (useAll ReadEnd.readThrough s.capacity uses s.transport).2 }

theorem Became.trans (h : Became s m) (h' : Became m s') : Became s s' := by
  obtain ⟨uses, rfl⟩ := h
  obtain ⟨later, rfl⟩ := h'
  refine ⟨uses ++ later, ?_⟩
  rw [useAll_append]

/-- Asked for a chunk, the stream waits for one. -/
theorem next_pull (s : Buffered (Duplex ρ ω)) :
    ByteStream.next s = ((pull ReadEnd.readThrough s.capacity s.transport).1,
      { s with transport := (pull ReadEnd.readThrough s.capacity s.transport).2 }) := by
  have hpulls : (link ReadEnd.readThrough).Pulls s.capacity s.transport _ _ :=
    pulls_pull s.transport
  rw [← link_transport] at hpulls
  have hnext := (Buffered.pulls_iff s.capacity_pos).mp hpulls
  show ((Buffered.next s.capacity s.capacity_pos s.transport).1, _) = _
  rw [hnext]

/-- Whoever has the stream can do no more than use the transport. -/
theorem became_of_serves {d : Bytes} (h : ByteStream.Serves s d s') : Became s s' := by
  induction h with
  | start => exact ⟨[], rfl⟩
  | @chunk _ _ m _ _ hn ih =>
      rw [next_pull] at hn
      exact ih.trans ⟨[.next], (Prod.mk.inj hn).2.symm⟩
  | @ended _ m _ _ hn ih =>
      rw [next_pull] at hn
      exact ih.trans ⟨[.next], (Prod.mk.inj hn).2.symm⟩
  | written _ data ih => exact ih.trans ⟨[.write data], rfl⟩

/-- Closes the transport below. -/
def closeBelow (s : Buffered (Duplex ρ ω)) : Buffered (Duplex ρ ω) :=
  { s with transport := s.transport.close }

theorem became_closeBelow (s : Buffered (Duplex ρ ω)) : Became s (closeBelow s) :=
  ⟨[.close], rfl⟩

theorem Became.closed (h : Became s s') (hc : s.transport.isOpen = false) : s' = s := by
  obtain ⟨uses, rfl⟩ := h
  rw [(useAll_closed hc uses).1]

end Streams

end Duplex

/-! ### Sessions over duplex transports -/

section Closed

variable {ρ ω : Type} [WriteEnd ω]

/-- How a duplex transport closes in the course of some uses, and how it stays closed. -/
structure Duplex.ClosesForGood (answer : Nat → ρ → Except StreamError Bytes × ρ) (room : Nat)
    (d : Duplex ρ ω) (uses : List Use) : Prop where
  /-- It is closed by the first use that is fatal. -/
  closes : d.isOpen = true →
    ((useAll answer room uses d).2.isOpen = false ↔
      ∃ before u later, uses = before ++ u :: later ∧
        (useAll answer room before d).2.isOpen = true ∧
        Fatal answer room (useAll answer room before d).2 u)
  /-- Once closed, it is left as it is, with all that was written and all that was not read, and
  every call is refused. -/
  stays : d.isOpen = false →
    (useAll answer room uses d).2 = d ∧ ∀ c ∈ (useAll answer room uses d).1, c.Refused

variable [ReadEnd ρ] {η ν : Type}

/-- What becomes of a session if its prompt finds the transport closed, or closes it. -/
structure Shell.Stranded (perform : η → Invocation η → Act ν Unit)
    (sh : Shell (Buffered (Duplex ρ ω)) η) : Prop where
  /-- A cycle dispatches the first statement that is complete in the carry, and leaves what is
  behind it to the handler and to later cycles; if there is none, the session is over. -/
  next : sh.state ≠ .closed →
    step perform sh =
      match Reader.next .statement (⟨sh.console.reader.carry, {}⟩ : Reader Absent) with
      | (none, r) => (.ended, { sh.asked.withCarry r.carry with state := .closed })
      | (some statement, r) => dispatch perform statement (sh.asked.withCarry r.carry)
  /-- So a run dispatches what is complete in the carry in order and up to `exit`, where a handler
  may take away some of what is behind its own statement. -/
  taken : sh.state ≠ .closed →
    TakenFrom (fun behind rest => rest <:+ behind) sh.console.reader.carry
      ((run perform sh).1.filterMap Cycle.statement?)
  /-- If no handler reads, these are all statements in the carry. -/
  statements : sh.state ≠ .closed → HandlersWithout .input perform sh.tree →
    (run perform sh).1.filterMap Cycle.statement?
      = untilExit (statementsIn sh.console.reader.carry)
  /-- And then the session is over. -/
  ends : (run perform sh).2.state = .closed

theorem Shell.operateAll_became (perform : η → Invocation η → Act ν Unit)
    (sh : Shell (Buffered (Duplex ρ ω)) η) {ops : List (Operation (Buffered (Duplex ρ ω)))}
    (hops : ∀ f, .push f ∈ ops → f = Duplex.closeBelow) :
    Duplex.Became sh.source (operateAll perform ops sh).2.source := by
  apply operateAll_keeps (P := fun sh' => Duplex.Became sh.source sh'.source)
  · intro sh' h
    obtain ⟨d, hused⟩ := step_used perform sh'
    exact h.trans (Duplex.became_of_serves hused.serves)
  · intro label sh' h
    exact h
  · intro f hf sh' h
    rw [hops f hf]
    exact h.trans (Duplex.became_closeBelow sh'.source)
  · exact ⟨[], rfl⟩

theorem Shell.stranded (perform : η → Invocation η → Act ν Unit)
    {sh : Shell (Buffered (Duplex ρ ω)) η} (h : sh.asked.source.transport.isOpen = false) :
    sh.Stranded perform where
  next := step_dead (Buffered.dead h)
  taken := by
    intro hopen
    apply run_dead (Buffered.dead h) hopen
    intro statement sh' hd _
    exact dispatch_suffix perform statement hd
  statements := by
    intro hopen hhandlers
    apply TakenFrom.all
    apply run_dead (Buffered.dead h) hopen
    intro statement sh' _ htree
    exact dispatch_carry statement (htree ▸ hhandlers)
  ends := run_state perform sh

end Closed

/--
**A closed duplex transport is never touched again.**  Whatever its reader answers and its writer
does, it is closed by the first use that is fatal to it, and from then on no use reaches either of
them.  A session, its handlers and whoever closes its stream do nothing but use the transport, so
once it is closed it does not change.  The session still goes through the statements that are
complete in its carry, and then it is over.
-/
theorem Duplex.closed_for_good {ρ ω : Type} [WriteEnd ω] :
    (∀ (answer : Nat → ρ → Except StreamError Bytes × ρ) (room : Nat) (d : Duplex ρ ω)
      (uses : List Use), ClosesForGood answer room d uses) ∧
    ∀ [ReadEnd ρ] {η ν : Type} (perform : η → Invocation η → Act ν Unit)
      (sh : Shell (Buffered (Duplex ρ ω)) η),
      (∀ ops : List (Operation (Buffered (Duplex ρ ω))), (∀ f, .push f ∈ ops → f = closeBelow) →
        let after := (Shell.operateAll perform ops sh).2
        Became sh.source after.source ∧
          (sh.source.transport.isOpen = false → after.source = sh.source)) ∧
      (sh.source.transport.isOpen = false → sh.asked = sh) ∧
      (sh.asked.source.transport.isOpen = false → sh.Stranded perform) := by
  constructor
  · intro answer room d uses
    exact ⟨fun h => useAll_closes h uses, fun h => useAll_closed h uses⟩
  · intro _ η ν perform sh
    refine ⟨?_, fun h => Shell.asked_of_dead (Buffered.dead h), Shell.stranded perform⟩
    intro ops hops
    have hbecame := Shell.operateAll_became perform sh hops
    exact ⟨hbecame, hbecame.closed⟩

/-- The writer takes nothing, so the transport closes at the prompt.  What is in the carry is done
up to `exit`, and what could be read is not. -/
theorem Duplex.closed_for_good_at_prompt :
    let room := Buffered.defaultCapacity
    let perform : Unit → Invocation Unit → Act Unit Unit := fun _ _ => return ()
    let tree : CommandTree Unit := ⟨[{ name := "keep", handler := some () }], by decide +kernel⟩
    let d : Duplex Rehearsal.Reading Rehearsal.Writing :=
      ⟨⟨[.data (textBytes "keep c\n")]⟩, { limit := some 0 }, true⟩
    let sh := (Shell.ofTransport {} tree d).withCarry (textBytes "keep a;exit;keep b\n")
    let ops : List (Operation (Buffered (Duplex Rehearsal.Reading Rehearsal.Writing))) :=
      [.run, .push closeBelow, .run]
    let lost := (useAll ReadEnd.readThrough room [.write (textBytes "ash> ")] d).2
    lost.isOpen = false ∧ lost.reader = d.reader ∧
    (useAll ReadEnd.readThrough room [.next, .close, .write (textBytes "b")] lost).2 = lost ∧
    sh.asked.source.transport = lost ∧
    sh.asked.asked = sh.asked ∧
    (Shell.operateAll perform ops sh.asked).2.source = sh.asked.source ∧
    ((Shell.run perform sh).1.filterMap Cycle.statement?).map Record.tokens
      = [[textBytes "keep", textBytes "a"], [textBytes "exit"]] ∧
    (Shell.run perform sh).2.state = .closed := by
  intro room perform tree d sh ops lost
  obtain ⟨hcloses, hsessions⟩ := @closed_for_good Rehearsal.Reading Rehearsal.Writing _
  have hfatal : Fatal ReadEnd.readThrough room d (.write (textBytes "ash> ")) :=
    Or.inl ⟨.brokenPipe, by decide +kernel⟩
  have hlost : lost.isOpen = false :=
    ((hcloses ReadEnd.readThrough room d [.write (textBytes "ash> ")]).closes rfl).mpr
      ⟨[], _, [], rfl, rfl, hfatal⟩
  have hasked : sh.asked.source.transport = lost := rfl
  have hquiet : HandlersWithout .input perform sh.tree := fun _ _ _ _ _ _ => trivial
  have hops : ∀ f, .push f ∈ ops → f = closeBelow := by
    intro f hf
    simpa [ops] using hf
  obtain ⟨_, _, hstranded⟩ := hsessions perform sh
  obtain ⟨hleft, hsame, _⟩ := hsessions perform sh.asked
  have hstranded := hstranded hlost
  have hstatements := hstranded.statements (by decide +kernel) hquiet
  have htokens : (untilExit (statementsIn sh.console.reader.carry)).map Record.tokens
      = [[textBytes "keep", textBytes "a"], [textBytes "exit"]] := by decide +kernel
  refine ⟨hlost, by decide +kernel, ?_, hasked, hsame hlost, (hleft _ hops).2 hlost, ?_,
    hstranded.ends⟩
  · exact ((hcloses ReadEnd.readThrough room lost _).stays hlost).1
  · rw [hstatements, htokens]

end CommandShell
