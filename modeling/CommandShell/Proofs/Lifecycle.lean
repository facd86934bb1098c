/-
What a session does, and what it never does.

A session asks for a statement, does what it says and asks again, until it is over.  What that
amounts to is seen at its stream, so the stream keeps a log here: `Logged` is any stream with the
calls on it written down, and a session over it is the session over the stream itself
(`Logged.erases`).  A request logs the chunks it pulled, and the end if it came to it
(`next_calls`); a dialogue offers what it writes (`run_calls`); a cycle that starts open offers
the prompt, and then only what its handler writes and the one text of the shell (`step_calls`).

`Orderly` is what is then true of a session between two operations, and `lifecycle` says that every
session is orderly after any operations.
-/
import CommandShell.Proofs.Alike

namespace CommandShell

/-! ### Streams with a log -/

/-- A stream, and the calls that were made on it. -/
structure Logged (σ : Type) where
  /-- The stream itself. -/
  inner : σ
  /-- The calls, in order. -/
  calls : List Call

namespace Logged

variable {σ : Type}

/-- Changes the stream without a call. -/
def map (f : σ → σ) (s : Logged σ) : Logged σ :=
  { s with inner := f s.inner }

instance [ByteStream σ] : ByteStream (Logged σ) where
  next s :=
    let r := ByteStream.next s.inner
    (r.1, ⟨r.2, s.calls ++ [.next r.1]⟩)
  write data s :=
    let w := ByteStream.write data s.inner
    (w.1, ⟨w.2, s.calls ++ [.write data w.1]⟩)
  supply s := ByteStream.supply s.inner
  supply_chunk := by
    intro s s' chunk h
    obtain ⟨hc, rfl⟩ := Prod.mk.inj h
    exact ByteStream.supply_chunk (Prod.ext hc rfl)
  supply_end := by
    intro s s' h
    obtain ⟨hn, rfl⟩ := Prod.mk.inj h
    exact ByteStream.supply_end (Prod.ext hn rfl)
  supply_write := fun data s => ByteStream.supply_write data s.inner

/-- The log has no part in what the stream does. -/
theorem erases [ByteStream σ] :
    ByteStream.SameReads (fun (s : Logged σ) (t : σ) => s.inner = t) ∧
      ByteStream.SameAnswers (fun (s : Logged σ) (t : σ) => s.inner = t) := by
  refine ⟨⟨?_, ?_⟩, ?_⟩
  · intro s t h
    subst h
    exact ⟨rfl, rfl⟩
  · intro s t data h
    subst h
    rfl
  · intro s t data h
    subst h
    rfl

end Logged

/-- An operation on a session that keeps a log. -/
def Operation.logged {σ : Type} : Operation σ → Operation (Logged σ)
  | step => .step
  | run => .run
  | setPrompt label => .setPrompt label
  | push f => .push (Logged.map f)

theorem Operation.logged_alike {σ : Type} (op : Operation σ) :
    op.logged.Alike (fun (s : Logged σ) (t : σ) => s.inner = t) op := by
  cases op with
  | step => exact .step
  | run => exact .run
  | setPrompt label => exact .setPrompt label
  | push f => exact .push fun _ _ h => congrArg f h

namespace Call

/-- The calls of a request: the chunks it pulled, and the end if there was no record. -/
def ofRequest (chunks : List Bytes) (answer : Option Record) : List Call :=
  chunks.map (fun chunk => .next (some chunk)) ++ if answer = none then [.next none] else []

/-- The data of a write. -/
def data? : Call → Option Bytes
  | next _ => none
  | write data _ => some data

/-- All data that was offered to the stream. -/
def offered (calls : List Call) : List Bytes :=
  calls.filterMap data?

theorem offered_append (calls later : List Call) :
    offered (calls ++ later) = offered calls ++ offered later :=
  List.filterMap_append

/-- Asking for a record offers nothing. -/
theorem offered_ofRequest (chunks : List Bytes) (answer : Option Record) :
    offered (ofRequest chunks answer) = [] := by
  unfold ofRequest
  rw [offered_append, List.append_eq_nil_iff]
  constructor
  · unfold offered
    rw [List.filterMap_map, List.filterMap_eq_nil_iff]
    intro chunk _
    rfl
  · split <;> rfl

end Call

variable {σ η ν : Type} [ByteStream σ]

/-! ### What a request logs -/

namespace Reader

/-- What has been logged below a reader. -/
def calls (r : Reader (Logged σ)) : List Call :=
  r.source.calls

theorem reaches_calls {mode : Mode} {r m : Reader (Logged σ)} {chunks : List Bytes}
    (h : Reaches ByteStream.next mode r chunks m) :
    m.calls = r.calls ++ chunks.map (fun chunk => .next (some chunk)) := by
  induction h with
  | start => simp
  | step _ hs ih =>
      cases hs with
      | skip hs =>
          rw [List.append_nil]
          exact ih
      | pulled hs hp =>
          obtain ⟨ha, rfl⟩ := Prod.mk.inj hp
          show _ ++ [Call.next _] = _
          rw [ha, List.map_append, ← List.append_assoc, ← ih]
          rfl

theorem next_calls (mode : Mode) (r : Reader (Logged σ)) :
    ∃ chunks, (next mode r).2.calls = r.calls ++ Call.ofRequest chunks (next mode r).1 := by
  obtain ⟨chunks, h⟩ := request_next mode r
  generalize next mode r = out at h ⊢
  obtain ⟨answer, r'⟩ := out
  refine ⟨chunks, ?_⟩
  unfold Call.ofRequest
  cases h with
  | complete h hs =>
      have hcalls := reaches_calls h
      rw [if_neg (by simp), List.append_nil]
      exact hcalls
  | ended h hs hp =>
      obtain ⟨ha, rfl⟩ := Prod.mk.inj hp
      rw [if_pos rfl, ← List.append_assoc, ← reaches_calls h]
      show _ ++ [Call.next _] = _
      rw [ha]
      rfl

end Reader

/-! ### What a dialogue logs -/

namespace Dialogue

variable {α : Type}

/-- What a dialogue writes when it is held over a console, whether or not that fails. -/
def offers : Dialogue ν α → Console σ → List Bytes
  | done _, _ => []
  | write data answer, c => data :: (answer (c.write data).1).offers (c.write data).2
  | read mode answer, c => (answer (c.read mode).1).offers (c.read mode).2
  | prompt answer, c => (answer c.prompt).offers c
  | setPrompt label rest, c => rest.offers { c with prompt := label }
  | note _ rest, c => rest.offers c

theorem run_calls (d : Dialogue ν α) (c : Console (Logged σ)) :
    ∃ calls, (d.run c).console.reader.calls = c.reader.calls ++ calls ∧
      Call.offered calls = d.offers c := by
  induction d generalizing c with
  | done result => exact ⟨[], by simp [run], rfl⟩
  | write data answer ih =>
      obtain ⟨calls, hcalls, hoffers⟩ := ih (c.write data).1 (c.write data).2
      refine ⟨.write data (c.write data).1 :: calls, ?_, ?_⟩
      · show ((answer (c.write data).1).run (c.write data).2).console.reader.calls = _
        rw [hcalls]
        show (c.reader.calls ++ [_]) ++ calls = _
        rw [List.append_assoc]
        rfl
      · show data :: Call.offered calls = _
        rw [hoffers]
        rfl
  | read mode answer ih =>
      obtain ⟨chunks, hchunks⟩ := Reader.next_calls mode c.reader
      obtain ⟨calls, hcalls, hoffers⟩ := ih (c.read mode).1 (c.read mode).2
      refine ⟨Call.ofRequest chunks (c.read mode).1 ++ calls, ?_, ?_⟩
      · show ((answer (c.read mode).1).run (c.read mode).2).console.reader.calls = _
        rw [hcalls, ← List.append_assoc]
        show (Reader.next mode c.reader).2.calls ++ calls = _
        rw [hchunks]
        rfl
      · rw [Call.offered_append, Call.offered_ofRequest, List.nil_append, hoffers]
        rfl
  | prompt answer ih => exact ih c.prompt c
  | setPrompt label rest ih => exact ih { c with prompt := label }
  | note n rest ih => exact ih c

end Dialogue

/-! ### What a cycle logs -/

/-- What is said of a handler that failed. -/
def Cycle.report (i : Invocation η) : Except Failure Unit → List Bytes
  | .ok () => []
  | .error f => [textBytes (i.command.name ++ ": " ++ f.message ++ "\n")]

/-- What is offered in a cycle after its statement was read over a console: what the handler writes
if there is one, and at most one text of the shell behind it. -/
def Cycle.offers (perform : η → Invocation η → Act ν Unit) (tree : CommandTree η)
    (c : Console σ) : Cycle η ν → List Bytes
  | helped statement => [textBytes (Help.render tree statement.tokens.tail)]
  | notFound _ => [textBytes Shell.commandNotFound]
  | listed _ command => [textBytes (Help.ofCommand command)]
  | ran i outcome _ =>
    (i.command.handler.elim [] fun handler => (perform handler i).run.offers c) ++ report i outcome
  | _ => []

namespace Shell

/-- What has been logged below a session. -/
def calls (sh : Shell (Logged σ) η) : List Call :=
  sh.console.reader.calls

theorem reply_calls (text : String) (sh : Shell (Logged σ) η) :
    ∃ answer, (sh.reply text).calls = sh.calls ++ [.write (textBytes text) answer] :=
  ⟨_, rfl⟩

theorem invoke_calls (handle : Invocation η → Act ν Unit) (i : Invocation η)
    (sh : Shell (Logged σ) η) :
    ∃ later, (sh.invoke handle i).2.calls = sh.calls ++ later ∧
      Call.offered later = (handle i).run.offers sh.console
        ++ Cycle.report i ((handle i).run.run sh.console).result := by
  obtain ⟨later, hcalls, hoffers⟩ := Dialogue.run_calls (handle i).run sh.console
  unfold invoke
  simp only
  split
  · next hok =>
    refine ⟨later, hcalls, ?_⟩
    rw [hok, hoffers]
    exact (List.append_nil _).symm
  · next f herror =>
    let text := i.command.name ++ ": " ++ f.message ++ "\n"
    let done : Shell (Logged σ) η :=
      { sh with console := ((handle i).run.run sh.console).console, state := .awaiting }
    obtain ⟨answer, hreply⟩ := reply_calls text done
    refine ⟨later ++ [.write (textBytes text) answer], ?_, ?_⟩
    · rw [← List.append_assoc]
      exact hreply.trans (congrArg (· ++ _) hcalls)
    · rw [herror, Call.offered_append, hoffers]
      rfl

theorem dispatch_calls (perform : η → Invocation η → Act ν Unit) (statement : Record)
    (sh : Shell (Logged σ) η) :
    ∃ later, (dispatch perform statement sh).2.calls = sh.calls ++ later ∧
      Call.offered later = (dispatch perform statement sh).1.offers perform sh.tree sh.console := by
  have hd := dispatches perform statement sh
  generalize dispatch perform statement sh = out at hd ⊢
  cases hd with
  | idle => exact ⟨[], (List.append_nil _).symm, rfl⟩
  | left => exact ⟨[], (List.append_nil _).symm, rfl⟩
  | @helped first rest ht hb =>
      refine ⟨[.write (textBytes (Help.render sh.tree rest)) _], rfl, ?_⟩
      show _ = [textBytes (Help.render sh.tree statement.tokens.tail)]
      rw [ht]
      rfl
  | notFound => exact ⟨[.write (textBytes commandNotFound) _], rfl, rfl⟩
  | @listed _ _ command => exact ⟨[.write (textBytes (Help.ofCommand command)) _], rfl, rfl⟩
  | @ran first rest command depth handler ht hb hc hh =>
      obtain ⟨later, hcalls, hoffers⟩ :=
        invoke_calls (perform handler) ⟨statement, depth, command, sh.tree⟩ sh
      refine ⟨later, hcalls, ?_⟩
      show _ = command.handler.elim [] _ ++ _
      rw [hh]
      exact hoffers

/-- **A cycle that starts open offers the prompt first.**  Then it reads a statement, and offers
what its handler writes and after that what the shell has to say. -/
theorem step_calls (perform : η → Invocation η → Act ν Unit) {sh : Shell (Logged σ) η}
    (h : sh.state ≠ .closed) :
    ∃ answer chunks later,
      (step perform sh).2.calls
        = sh.calls ++ .write (textBytes (sh.console.prompt ++ "> ")) answer
          :: (Call.ofRequest chunks (sh.asked.console.read .statement).1 ++ later) ∧
      Call.offered later
        = (step perform sh).1.offers perform sh.tree (sh.asked.console.read .statement).2 := by
  obtain ⟨answer, hprompt⟩ := reply_calls (sh.console.prompt ++ "> ") sh
  obtain ⟨chunks, hread⟩ := Reader.next_calls .statement sh.asked.console.reader
  rcases hr : sh.asked.console.read .statement with ⟨_ | statement, c⟩
  · rw [Console.read_next hr] at hread
    refine ⟨answer, chunks, [], ?_, ?_⟩
    · rw [step_ended h hr, List.append_nil]
      show c.reader.calls = _
      rw [hread]
      show sh.asked.calls ++ _ = _
      unfold asked
      rw [hprompt, List.append_assoc]
      rfl
    · rw [step_ended h hr]
      rfl
  · rw [Console.read_next hr] at hread
    obtain ⟨later, hcalls, hoffers⟩ :=
      dispatch_calls perform statement { sh.asked with console := c }
    refine ⟨answer, chunks, later, ?_, ?_⟩
    · rw [step_read h hr, hcalls]
      show c.reader.calls ++ _ = _
      rw [hread]
      show (sh.asked.calls ++ _) ++ _ = _
      unfold asked
      rw [hprompt, List.append_assoc, List.append_assoc]
      rfl
    · rw [step_read h hr]
      exact hoffers

/-! ### Between two operations -/

/-- A session between two operations: no handler is at work. -/
def Settled (sh : Shell σ η) : Prop :=
  sh.state = .awaiting ∨ sh.state = .closed

theorem dispatch_settled {perform : η → Invocation η → Act ν Unit} {statement : Record}
    {sh : Shell σ η} (h : sh.Settled) : (dispatch perform statement sh).2.Settled := by
  have hd := dispatches perform statement sh
  generalize dispatch perform statement sh = out at hd ⊢
  cases hd with
  | left => exact Or.inr rfl
  | ran => exact Or.inl (invoke_state _ _ _)
  | idle => exact h
  | helped => exact h
  | notFound => exact h
  | listed => exact h

theorem step_settled {perform : η → Invocation η → Act ν Unit} {sh : Shell σ η}
    (h : sh.Settled) : (step perform sh).2.Settled := by
  rcases step_cases perform sh with ⟨_, hs⟩ | ⟨_, c, _, hs⟩ | ⟨_, statement, c, _, hs⟩
  · rw [hs]
    exact h
  · rw [hs]
    exact Or.inr rfl
  · have hasked : ({ sh.asked with console := c } : Shell σ η).Settled := h
    rw [hs]
    exact dispatch_settled hasked

/-! ### A session that is over -/

/-- What operations come to that do nothing to a session but set its label and change what its
stream is to deliver. -/
structure Untouched (sh : Shell (Logged σ) η) (cycles : List (Cycle η ν))
    (sh' : Shell (Logged σ) η) : Prop where
  /-- No statement was read and no handler was run. -/
  cycles : ∀ cycle ∈ cycles, cycle = .closed
  /-- It is as closed as it was. -/
  state : sh'.state = sh.state
  /-- What had arrived is still there. -/
  carry : sh'.console.reader.carry = sh.console.reader.carry
  /-- No chunk was asked for and nothing was offered. -/
  calls : sh'.calls = sh.calls

variable {perform : η → Invocation η → Act ν Unit}

theorem operate_closed {sh : Shell (Logged σ) η} (h : sh.state = .closed) (op : Operation σ) :
    Untouched sh (operate perform op.logged sh).1 (operate perform op.logged sh).2 := by
  have hstep : step perform sh = (.closed, sh) := step_closed h
  cases op with
  | step =>
      show Untouched sh [(step perform sh).1] (step perform sh).2
      rw [hstep]
      exact ⟨by simp, rfl, rfl, rfl⟩
  | run =>
      show Untouched sh (run perform sh).1 (run perform sh).2
      rw [run_of_closed (by rw [hstep]; rfl), hstep]
      exact ⟨by simp, rfl, rfl, rfl⟩
  | setPrompt label => exact ⟨by simp [Operation.logged, operate], rfl, rfl, rfl⟩
  | push f => exact ⟨by simp [Operation.logged, operate], rfl, rfl, rfl⟩

/-- **A session that is over does nothing more**, whatever is added to its input. -/
theorem operateAll_closed {sh : Shell (Logged σ) η} (h : sh.state = .closed)
    (ops : List (Operation σ)) :
    Untouched sh (operateAll perform (ops.map Operation.logged) sh).1.flatten
      (operateAll perform (ops.map Operation.logged) sh).2 := by
  induction ops generalizing sh with
  | nil => exact ⟨by simp [operateAll], rfl, rfl, rfl⟩
  | cons op ops ih =>
      have hfirst : Untouched sh (operate perform op.logged sh).1
          (operate perform op.logged sh).2 := operate_closed h op
      have hrest := ih (hfirst.state.trans h)
      refine ⟨?_, hrest.state.trans hfirst.state, hrest.carry.trans hfirst.carry,
        hrest.calls.trans hfirst.calls⟩
      intro cycle hmem
      rcases List.mem_append.mp hmem with hmem | hmem
      · exact hfirst.cycles cycle hmem
      · exact hrest.cycles cycle hmem

/-! ### All sessions -/

/-- What is true of a session between two operations. -/
structure Orderly (perform : η → Invocation η → Act ν Unit) (sh : Shell (Logged σ) η) :
    Prop where
  /-- It waits for a statement or is over; no handler is at work. -/
  settled : sh.Settled
  /-- A cycle tells that the session is over exactly if it is. -/
  flow : (step perform sh).1.flow = .closed ↔ (step perform sh).2.state = .closed
  /-- A run is so many cycles. -/
  runs : ∃ n, operateAll perform (List.replicate n .step) sh
    = ((run perform sh).1.map fun cycle => [cycle], (run perform sh).2)
  /-- A cycle ends the session exactly on a statement whose first token is `exit` or if there is
  none to read. -/
  closes : sh.state = .awaiting →
    ((step perform sh).2.state = .closed ↔
      (sh.asked.console.read .statement).1 = none ∨
        ∃ statement rest, (sh.asked.console.read .statement).1 = some statement ∧
          statement.tokens = textBytes "exit" :: rest)
  /-- A cycle offers the prompt, then it asks for chunks until it has a statement or finds the end,
  and then it offers what the handler writes and behind that what the shell says. -/
  asks : sh.state = .awaiting → ∃ answer chunks later,
    (step perform sh).2.calls
      = sh.calls ++ .write (textBytes (sh.console.prompt ++ "> ")) answer
        :: (Call.ofRequest chunks (sh.asked.console.read .statement).1 ++ later) ∧
    Call.offered later
      = (step perform sh).1.offers perform sh.tree (sh.asked.console.read .statement).2
  /-- Once it is over, no operation does anything to it. -/
  still : sh.state = .closed → ∀ ops : List (Operation σ),
    Untouched sh (operateAll perform (ops.map Operation.logged) sh).1.flatten
      (operateAll perform (ops.map Operation.logged) sh).2

theorem Settled.orderly {sh : Shell (Logged σ) η} (h : sh.Settled) : Orderly perform sh where
  settled := h
  flow := step_flow perform sh
  runs := run_cycles perform sh
  closes := fun hawaits => step_closes (by simp [hawaits])
  asks := fun hawaits => step_calls perform (by simp [hawaits])
  still := fun hclosed => operateAll_closed hclosed

/--
**Every session is orderly after any operations.**  It begins over any stream and with any handlers,
and the log it keeps makes no difference to it.
-/
theorem lifecycle (perform : η → Invocation η → Act ν Unit) (options : Options)
    (tree : CommandTree η) (source : σ) (ops : List (Operation σ)) :
    let out := operateAll perform (ops.map Operation.logged)
      (start options tree (⟨source, []⟩ : Logged σ))
    Agree (Alike fun s t => s.inner = t) out (operateAll perform ops (start options tree source)) ∧
    Orderly perform out.2 := by
  intro out
  constructor
  · have hops : List.Forall₂ (Operation.Alike fun (s : Logged σ) (t : σ) => s.inner = t)
        (ops.map Operation.logged) ops := by
      rw [List.forall₂_map_left_iff]
      exact List.forall₂_same.mpr fun op _ => op.logged_alike
    have hstart : (start options tree (⟨source, []⟩ : Logged σ)).Alike (fun s t => s.inner = t)
        (start options tree source) := ⟨⟨⟨rfl, rfl⟩, rfl⟩, rfl, rfl⟩
    exact hstart.operateAll Logged.erases.1 hops (Or.inl Logged.erases.2)
  · apply Settled.orderly
    apply operateAll_keeps (P := Settled)
    · intro sh h
      exact step_settled h
    · intro label sh h
      exact h
    · intro f _ sh h
      exact h
    · exact Or.inl rfl

end Shell

end CommandShell
