/-
When nothing more comes.

A source that is spent leaves a reader with its carry, and then the carry alone says what is
still answered: a statement if it is ripe (`next_statement_spent`), a block if there is a newline
that its test accepts (`next_block_spent`).  These are different questions.  So a request that
goes without a record leaves the carry to requests in other modes, and the end of the input is
final for all of them only if no newline and nothing ripe is left in it (`finished_iff`).

After a request for a statement that is always so, since every terminator has been dropped.  After
one for a block it is not, and then the lines of a block that was never finished are run as
commands.  The prompt loop asks for statements, so it closes the session at once if and only if
the carry is not ripe (`step_ended_iff`).
-/
import CommandShell.Proofs.Readiness
import CommandShell.Proofs.Session
import CommandShell.Rehearsal.Handler

namespace CommandShell

open ByteStream (Spent)

namespace Reader

/-! ### Requests for a block -/

section Requests

variable {σ : Type} {pull : σ → Option Bytes × σ}

theorem reaches_block {mode : Mode} (hm : mode ≠ .statement) {r m : Reader σ}
    {chunks : List Bytes} (h : Reaches pull mode r chunks m) :
    m.carry = r.carry ++ chunks.flatten := by
  obtain ⟨d, hd, hcarry⟩ := reaches_drops h
  rcases hd.ended with rfl | ⟨hmode, _⟩
  · exact hcarry.symm
  · exact absurd hmode hm

/-- A request for a block goes without a record if there is none in all that has arrived, and then
it leaves all of it. -/
theorem request_block_none {mode : Mode} {accept : Bytes → Bool} (hm : mode.test? = some accept)
    {r r' : Reader σ} {chunks : List Bytes} {answer : Option Record}
    (h : Request pull mode r chunks answer r') :
    (answer = none ↔ NoBlock accept (r.carry ++ chunks.flatten)) ∧
      (answer = none → r'.carry = r.carry ++ chunks.flatten) := by
  have hne : mode ≠ .statement := by
    intro hmode
    rw [hmode] at hm
    exact absurd hm (by simp [Mode.test?])
  cases h with
  | @complete m found h hs =>
      rw [← reaches_block hne h]
      refine ⟨⟨fun ha => absurd ha (by simp), ?_⟩, fun ha => absurd ha (by simp)⟩
      intro hno
      rcases Scan.block_cases hm m.carry with ⟨u, _, _, hu, _⟩ | ⟨_, hi⟩
      · exact absurd hno hu.not_noBlock
      · rw [hs] at hi
        exact Scan.noConfusion hi
  | @ended m s h hs hp =>
      rw [← reaches_block hne h]
      refine ⟨⟨fun _ => ?_, fun _ => rfl⟩, fun _ => rfl⟩
      rcases Scan.block_cases hm m.carry with ⟨_, _, _, _, _, hc, _⟩ | ⟨hno, _⟩
      · rw [hs] at hc
        exact Scan.noConfusion hc
      · exact hno

end Requests

theorem noBlock_of_newline {accept : Bytes → Bool} {s : Bytes} (h : Byte.newline ∉ s) :
    NoBlock accept s := by
  intro v hv
  exact absurd (hv.subset (by simp)) h

theorem noBlock_line_iff {s : Bytes} : NoBlock (fun _ => true) s ↔ Byte.newline ∉ s := by
  refine ⟨?_, noBlock_of_newline⟩
  intro h hmem
  obtain ⟨u, v, rfl⟩ := List.append_of_mem hmem
  have hu := h u ⟨v, by simp⟩
  exact absurd hu (by simp)

/-! ### Requests of a spent source -/

variable {σ : Type} [ByteStream σ] {r r' : Reader σ}

theorem request_spent (hs : Spent r.source) {mode : Mode} {chunks : List Bytes}
    {answer : Option Record} (h : Request ByteStream.next mode r chunks answer r') :
    chunks.flatten = [] :=
  hs _ _ (request_serves h)

theorem next_statement_spent (hs : Spent r.source) :
    (next .statement r).1 = none ↔ ¬ Ripe r.carry := by
  obtain ⟨chunks, h⟩ := request_next .statement r
  have hripe := answer_iff_ripe h
  rw [request_spent hs h, List.append_nil] at hripe
  rw [← hripe]
  exact not_not.symm

theorem next_block_spent {mode : Mode} {accept : Bytes → Bool} (hm : mode.test? = some accept)
    (hs : Spent r.source) :
    ((next mode r).1 = none ↔ NoBlock accept r.carry) ∧
      ((next mode r).1 = none → (next mode r).2.carry = r.carry) := by
  obtain ⟨chunks, h⟩ := request_next mode r
  have hblock := request_block_none hm h
  rw [request_spent hs h, List.append_nil] at hblock
  exact hblock

/-! ### When the end is final -/

/-- No request is answered any more: nothing is to come, and nothing in the carry ends. -/
structure Finished (r : Reader σ) : Prop where
  spent : Spent r.source
  line : Byte.newline ∉ r.carry
  statement : ¬ Ripe r.carry

theorem Finished.next (h : Finished r) (mode : Mode) : (next mode r).1 = none := by
  cases hm : mode.test? with
  | none =>
      rw [Mode.eq_statement hm]
      exact (next_statement_spent h.spent).mpr h.statement
  | some accept => exact (next_block_spent hm h.spent).1.mpr (noBlock_of_newline h.line)

theorem Finished.request (h : Finished r) {mode : Mode} {chunks : List Bytes}
    {answer : Option Record} (hr : Request ByteStream.next mode r chunks answer r') :
    answer = none ∧ Finished r' := by
  have hn := request_iff.mp ⟨_, hr⟩
  have hnone := h.next mode
  rw [hn] at hnone
  have hnone : answer = none := hnone
  subst hnone
  -- Nothing but gap bytes has gone, so no more of the carry is ripe than was before.
  obtain ⟨pre, post, hpre, hpost, hb, _⟩ := request_keeps hr
  rw [request_spent h.spent hr, List.append_nil] at hb
  have hb : r.carry = pre ++ (post ++ r'.carry) := by
    rw [hb]
    simp
  refine ⟨rfl, h.spent.serves (request_serves hr), ?_, ?_⟩
  · intro hmem
    exact h.line (by rw [hb]; simp [hmem])
  · intro hripe
    apply h.statement
    rw [hb, ripe_gap_append hpre, ripe_gap_append hpost]
    exact hripe

theorem Finished.used (h : Finished r) {d : Bytes} (hu : Used r d r') : Finished r' := by
  induction hu with
  | start => exact h
  | request _ hr ih => exact (ih.request hr).2
  | written _ data ih => exact ⟨ih.spent.serves (.written .start data), ih.line, ih.statement⟩

/-- The end is final exactly if the carry neither has a newline nor is ripe. -/
theorem finished_iff (hs : Spent r.source) :
    (∀ d r', Used r d r' → ∀ mode, (next mode r').1 = none) ↔
      Byte.newline ∉ r.carry ∧ ¬ Ripe r.carry := by
  constructor
  · intro h
    have hnext := h [] r .start
    have hm : Mode.line.test? = some fun _ => true := rfl
    have hline := (next_block_spent hm hs).1.mp (hnext .line)
    exact ⟨noBlock_line_iff.mp hline, (next_statement_spent hs).mp (hnext .statement)⟩
  · intro h d r' hu mode
    have hf : Finished r := ⟨hs, h.1, h.2⟩
    exact (hf.used hu).next mode

/-- A request for a statement that goes without one has come past every terminator. -/
theorem finished_of_statement (h : next .statement r = (none, r')) (hs : Spent r'.source) :
    Finished r' := by
  obtain ⟨chunks, hr⟩ := request_iff.mpr h
  cases hr with
  | ended _ hscan _ =>
      have hno := Scan.unterminated_of_incomplete hscan
      refine ⟨hs, ?_, not_ripe_of_unterminated hno⟩
      intro hmem
      exact absurd (hno _ hmem) (by simp)

/-- A request for a block leaves what another test might accept. -/
theorem noBlock_of_next {mode : Mode} {accept : Bytes → Bool} (hm : mode.test? = some accept)
    (h : next mode r = (none, r')) : NoBlock accept r'.carry := by
  obtain ⟨chunks, hr⟩ := request_iff.mpr h
  have hblock := request_block_none hm hr
  rw [hblock.2 rfl]
  exact hblock.1.mp rfl

/-- Chunks in memory are through when a request goes without a record. -/
theorem spent_of_next {mode : Mode} {r r' : Reader Memory} (h : next mode r = (none, r')) :
    Spent r'.source := by
  obtain ⟨chunks, hr⟩ := request_iff.mpr h
  cases hr with
  | @ended m s _ _ hp =>
      have hp : Memory.next m.source = (none, s) := hp
      unfold Memory.next at hp
      cases hq : m.source.queue with
      | nil =>
          rw [hq] at hp
          simp only [Prod.mk.injEq, true_and] at hp
          exact Memory.spent (hp ▸ hq)
      | cons chunk rest =>
          rw [hq] at hp
          exact absurd hp (by simp)

end Reader

/-! ### What handlers come to -/

namespace Dialogue

variable {σ ν α : Type} [ByteStream σ]

/-- In the course of a dialogue a request goes without a record, and the console is then `c'`. -/
inductive Refused (mode : Mode) : Dialogue ν α → Console σ → Console σ → Prop
  | here {answer : Option Record → Dialogue ν α} {c c' : Console σ}
      (h : c.read mode = (none, c')) : Refused mode (.read mode answer) c c'
  | write {data : Bytes} {answer : Except StreamError Unit → Dialogue ν α} {c c' : Console σ}
      (h : Refused mode (answer (c.write data).1) (c.write data).2 c') :
      Refused mode (.write data answer) c c'
  | read {m : Mode} {answer : Option Record → Dialogue ν α} {c c' : Console σ}
      (h : Refused mode (answer (c.read m).1) (c.read m).2 c') :
      Refused mode (.read m answer) c c'
  | prompt {answer : String → Dialogue ν α} {c c' : Console σ}
      (h : Refused mode (answer c.prompt) c c') : Refused mode (.prompt answer) c c'
  | setPrompt {label : String} {rest : Dialogue ν α} {c c' : Console σ}
      (h : Refused mode rest { c with prompt := label } c') :
      Refused mode (.setPrompt label rest) c c'
  | note {n : ν} {rest : Dialogue ν α} {c c' : Console σ} (h : Refused mode rest c c') :
      Refused mode (.note n rest) c c'

/-- The dialogue goes on from there, as it could with any use of the reader. -/
theorem Refused.used {mode : Mode} {dialogue : Dialogue ν α} {c c' : Console σ}
    (h : Refused mode dialogue c c') :
    ∃ d, Reader.Used c'.reader d (dialogue.run c).console.reader := by
  induction h with
  | here h =>
      unfold run
      simp only [h]
      exact run_used _ _
  | write _ ih => exact ih
  | read _ ih => exact ih
  | prompt _ ih => exact ih
  | setPrompt _ ih => exact ih
  | note _ ih => exact ih

end Dialogue

namespace Shell

variable {σ η ν : Type} [ByteStream σ]

theorem dispatch_ne_ended (perform : η → Invocation η → Act ν Unit) (statement : Record)
    (sh : Shell σ η) : (dispatch perform statement sh).1 ≠ .ended := by
  have h := dispatches perform statement sh
  generalize dispatch perform statement sh = out at h
  cases h <;> simp [invoke]

/-- When nothing more comes, the next cycle closes the session if and only if no statement can be
made of the carry. -/
theorem step_ended_iff (perform : η → Invocation η → Act ν Unit) {sh : Shell σ η}
    (hopen : sh.state ≠ .closed) (hs : Spent sh.console.reader.source) :
    (step perform sh).1 = .ended ↔ ¬ Ripe sh.console.reader.carry := by
  have hasked : Spent sh.asked.console.reader.source :=
    hs.serves (reply_used (sh.console.prompt ++ "> ") sh).serves
  have hnext := Reader.next_statement_spent hasked
  have hcarry : sh.asked.console.reader.carry = sh.console.reader.carry := rfl
  rw [hcarry] at hnext
  rw [← hnext]
  rcases step_cases perform sh with ⟨hc, _⟩ | ⟨_, c, hread, hstep⟩ | ⟨_, st, c, hread, hstep⟩
  · exact absurd hc hopen
  · rw [hstep, Console.read_next hread]
    exact ⟨fun _ => rfl, fun _ => rfl⟩
  · rw [hstep, Console.read_next hread]
    exact ⟨fun hc => absurd hc (dispatch_ne_ended _ _ _), fun hc => absurd hc (by simp)⟩

theorem invoke_refused {mode : Mode} {handle : Invocation η → Act ν Unit} {i : Invocation η}
    {sh : Shell σ η} {c' : Console σ}
    (h : Dialogue.Refused mode (handle i).run sh.console c') :
    ∃ d, Reader.Used c'.reader d (sh.invoke handle i).2.console.reader := by
  obtain ⟨d, hd⟩ := h.used
  exact ⟨_, hd.trans (invoke_reports handle i sh)⟩

end Shell

/-! ### What is left when a request went without a record -/

/-- What comes of requests to a reader to which nothing more comes, after one in a certain mode
went without a record. -/
structure Reader.Left {σ : Type} [ByteStream σ] (mode : Mode) (r : Reader σ) : Prop where
  /-- A statement is still read if the carry is ripe. -/
  statement : (next .statement r).1 = none ↔ ¬ Ripe r.carry
  /-- A block is still read if there is one in the carry. -/
  block : ∀ m accept, m.test? = some accept → ((next m r).1 = none ↔ NoBlock accept r.carry)
  /-- Nothing is ever read again if the carry neither has a newline nor is ripe. -/
  final : (∀ d r', Used r d r' → ∀ m, (next m r').1 = none) ↔
    Byte.newline ∉ r.carry ∧ ¬ Ripe r.carry
  /-- That is so after a request for a statement. -/
  afterStatement : mode = .statement → Byte.newline ∉ r.carry ∧ ¬ Ripe r.carry
  /-- After one for a block it is only so that its own test accepts nothing. -/
  afterBlock : ∀ accept, mode.test? = some accept → NoBlock accept r.carry

theorem Reader.left_of_next {σ : Type} [ByteStream σ] {mode : Mode} {r r' : Reader σ}
    (h : next mode r = (none, r')) (hs : Spent r'.source) : r'.Left mode where
  statement := next_statement_spent hs
  block := fun _ _ hm => (next_block_spent hm hs).1
  final := finished_iff hs
  afterStatement := by
    intro hm
    subst hm
    have hf := finished_of_statement h hs
    exact ⟨hf.line, hf.statement⟩
  afterBlock := fun _ hm => noBlock_of_next hm h

/--
**The end of the input is final if nothing in the carry ends.**  Once a request in any mode went
without a record and nothing more comes, requests are answered by what is in the carry, and none
is ever answered again exactly if it has no newline and is not ripe.  A session in which that
happened to a handler finds the end in its next cycle exactly if no statement was left in the carry
when the handler was done; after a request for a statement there is none.
-/
theorem Shell.end_of_input {σ : Type} [ByteStream σ] {mode : Mode} {r r' : Reader σ}
    (h : Reader.next mode r = (none, r')) (hs : Spent r'.source) :
    r'.Left mode ∧
    ∀ {η ν : Type} (perform : η → Invocation η → Act ν Unit) (handler : η) (i : Invocation η)
      (sh : Shell σ η) (prompt : String),
      Dialogue.Refused mode (perform handler i).run sh.console ⟨r', prompt⟩ →
        ((step perform (sh.invoke (perform handler) i).2).1 = .ended ↔
          ¬ Ripe (sh.invoke (perform handler) i).2.console.reader.carry) ∧
        (mode = .statement → (step perform (sh.invoke (perform handler) i).2).1 = .ended) := by
  refine ⟨Reader.left_of_next h hs, ?_⟩
  intro η ν perform handler i sh prompt hrefused
  obtain ⟨d, hused⟩ := invoke_refused hrefused
  have hopen : (sh.invoke (perform handler) i).2.state ≠ .closed := by
    rw [invoke_state]
    simp
  have hended := step_ended_iff perform hopen (hs.serves hused.serves)
  refine ⟨hended, ?_⟩
  intro hm
  subst hm
  exact hended.mpr ((Reader.finished_of_statement h hs).used hused).statement

/-- A line is asked for when the carry is a statement with its semicolon, by a handler too. -/
theorem Shell.end_of_input_line_refused :
    let perform : Unit → Invocation Unit → Act Unit Unit :=
      fun _ _ => Act.readLine >>= fun _ => pure ()
    let sh : Shell Memory Unit := ⟨⟨⟨[0x62, 0x3b], ⟨[], []⟩⟩, ""⟩, .empty, .awaiting⟩
    (Reader.next .line sh.console.reader).2.Left .line ∧
    (step perform (sh.invoke (perform ()) ⟨⟨[], []⟩, 0, { name := "a" }, .empty⟩).2).1
      ≠ .ended := by
  intro perform sh
  have hnone : (sh.console.read .line).1 = none := by decide +kernel
  have hnext := Console.read_next (Prod.ext hnone rfl)
  have hspent := Reader.spent_of_next hnext
  obtain ⟨hleft, hsession⟩ := end_of_input hnext hspent
  refine ⟨hleft, ?_⟩
  intro hended
  have hripe := (hsession perform () _ sh _ (.here (Prod.ext hnone rfl))).1.mp hended
  exact hripe ⟨[], 0x62, [], 0x3b, [], by decide +kernel, rfl, rfl⟩

/-- **A block that was never finished is run.**  The handler that asked for it is told that the
input has ended, and then the prompt loop reads a statement out of what came of the block. -/
theorem Shell.unfinished_block_is_run :
    ¬ (∀ (mode mode' : Mode) (r : Reader Memory), (Reader.next mode r).1 = none →
      (Reader.next mode' (Reader.next mode r).2).1 = none) ∧
    (let session := run Rehearsal.perform (start {}
        ⟨[{ name := "paste", handler := some [.readTerminated (textBytes "END")] },
          { name := "echo", handler := some [.args] }], by decide +kernel⟩
        (⟨[textBytes "paste\necho b\n"], []⟩ : Memory));
      ((session.1.flatMap Cycle.notes).map Rehearsal.Event.seen
        = [.bytes none, .tokens [textBytes "b"]]) ∧
      Cycle.dispatched session.1
        = [[textBytes "paste"], [textBytes "echo", textBytes "b"]]) := by
  refine ⟨?_, ?_⟩
  · intro h
    have hnone := h (.terminated (textBytes "END")) .statement
      ⟨textBytes "echo b\n", ⟨[], []⟩⟩ (by decide +kernel)
    revert hnone
    decide +kernel
  · decide +kernel

end CommandShell
