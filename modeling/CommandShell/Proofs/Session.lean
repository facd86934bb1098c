/-
How a cycle of a session goes.

`Shell.step` asks for a statement and `Shell.dispatch` does what it says.  `step_cases` and
`dispatches` go through the ways in which that can come out, once, and the other files take it
from there.

Of a cycle that lets the session go on this much is true whatever its handler is: it took a
statement out of the input and then used the reader (`Turn`).  It does not matter to that how long
the handler goes on, or whether it could be written down as a dialogue, as long as it returns.
-/
import CommandShell.Proofs.Supply
import CommandShell.Session.Shell

namespace CommandShell

theorem Console.read_next {σ : Type} [ByteStream σ] {mode : Mode} {c c' : Console σ}
    {answer : Option Record} (h : c.read mode = (answer, c')) :
    Reader.next mode c.reader = (answer, c'.reader) := by
  simp only [Console.read, Prod.mk.injEq] at h
  obtain ⟨hanswer, rfl⟩ := h
  exact Prod.ext hanswer rfl

theorem Console.read_of_next {σ : Type} [ByteStream σ] {mode : Mode} {c : Console σ}
    {r : Reader σ} {answer : Option Record} (h : Reader.next mode c.reader = (answer, r)) :
    c.read mode = (answer, ⟨r, c.prompt⟩) := by
  unfold Console.read
  rw [h]

/-- The statement a cycle was about, unless there was none to read. -/
def Cycle.statement? {η ν : Type} : Cycle η ν → Option Record
  | closed => none
  | ended => none
  | idle statement => some statement
  | left statement => some statement
  | helped statement => some statement
  | notFound statement => some statement
  | listed statement _ => some statement
  | ran invocation _ _ => some invocation.statement

/-- What was dispatched in some cycles: the tokens of their statements, where there are any. -/
def Cycle.dispatched {η ν : Type} (cycles : List (Cycle η ν)) : List (List Bytes) :=
  ((cycles.filterMap statement?).map Record.tokens).filter fun tokens => !tokens.isEmpty

namespace Shell

variable {σ η ν : Type} [ByteStream σ]

/-- A session when it has asked for a statement. -/
def asked (sh : Shell σ η) : Shell σ η :=
  sh.reply (sh.console.prompt ++ "> ")

@[simp] theorem reply_state (text : String) (sh : Shell σ η) : (sh.reply text).state = sh.state :=
  rfl

theorem reply_used (text : String) (sh : Shell σ η) :
    Reader.Used sh.console.reader [] (sh.reply text).console.reader :=
  Reader.used_write _ _

/-! ### One cycle -/

section Step

variable {perform : η → Invocation η → Act ν Unit} {sh : Shell σ η} {c : Console σ}

theorem step_closed (h : sh.state = .closed) : step perform sh = (.closed, sh) := by
  unfold step
  rw [if_pos h]

theorem step_ended (h : sh.state ≠ .closed) (hr : sh.asked.console.read .statement = (none, c)) :
    step perform sh = (.ended, { sh.asked with console := c, state := .closed }) := by
  unfold asked at hr
  unfold step
  rw [if_neg h]
  simp only [hr]
  rfl

theorem step_read {statement : Record} (h : sh.state ≠ .closed)
    (hr : sh.asked.console.read .statement = (some statement, c)) :
    step perform sh = dispatch perform statement { sh.asked with console := c } := by
  unfold asked at hr
  unfold step
  rw [if_neg h]
  simp only [hr]
  rfl

end Step

/-- A cycle finds the session over, or the input, or else it dispatches a statement. -/
theorem step_cases (perform : η → Invocation η → Act ν Unit) (sh : Shell σ η) :
    (sh.state = .closed ∧ step perform sh = (.closed, sh)) ∨
    (sh.state ≠ .closed ∧ ∃ c, sh.asked.console.read .statement = (none, c) ∧
      step perform sh = (.ended, { sh.asked with console := c, state := .closed })) ∨
    (sh.state ≠ .closed ∧ ∃ statement c,
      sh.asked.console.read .statement = (some statement, c) ∧
      step perform sh = dispatch perform statement { sh.asked with console := c }) := by
  by_cases h : sh.state = .closed
  · exact Or.inl ⟨h, step_closed h⟩
  · rcases hr : sh.asked.console.read .statement with ⟨_ | statement, c⟩
    · exact Or.inr (Or.inl ⟨h, c, rfl, step_ended h hr⟩)
    · exact Or.inr (Or.inr ⟨h, statement, c, rfl, step_read h hr⟩)

/-- What comes of a statement, and what makes it so. -/
inductive Dispatches (perform : η → Invocation η → Act ν Unit) (statement : Record)
    (sh : Shell σ η) : Cycle η ν × Shell σ η → Prop
  | idle (ht : statement.tokens = []) : Dispatches perform statement sh (.idle statement, sh)
  | left {first : Bytes} {rest : List Bytes} (ht : statement.tokens = first :: rest)
      (hb : Builtin.ofToken? first = some .exit) :
      Dispatches perform statement sh (.left statement, { sh with state := .closed })
  | helped {first : Bytes} {rest : List Bytes} (ht : statement.tokens = first :: rest)
      (hb : Builtin.ofToken? first = some .help) :
      Dispatches perform statement sh (.helped statement, sh.reply (Help.render sh.tree rest))
  | notFound {first : Bytes} {rest : List Bytes} (ht : statement.tokens = first :: rest)
      (hb : Builtin.ofToken? first = none) (hc : sh.tree.resolve statement.tokens = none) :
      Dispatches perform statement sh (.notFound statement, sh.reply commandNotFound)
  | listed {first : Bytes} {rest : List Bytes} {command : Command η} {depth : Nat}
      (ht : statement.tokens = first :: rest) (hb : Builtin.ofToken? first = none)
      (hc : sh.tree.resolve statement.tokens = some (command, depth))
      (hh : command.handler = none) :
      Dispatches perform statement sh
        (.listed statement command, sh.reply (Help.ofCommand command))
  | ran {first : Bytes} {rest : List Bytes} {command : Command η} {depth : Nat} {handler : η}
      (ht : statement.tokens = first :: rest) (hb : Builtin.ofToken? first = none)
      (hc : sh.tree.resolve statement.tokens = some (command, depth))
      (hh : command.handler = some handler) :
      Dispatches perform statement sh
        (sh.invoke (perform handler) ⟨statement, depth, command, sh.tree⟩)

/-- **Every statement is dispatched in one of these ways.** -/
theorem dispatches (perform : η → Invocation η → Act ν Unit) (statement : Record)
    (sh : Shell σ η) : Dispatches perform statement sh (dispatch perform statement sh) := by
  unfold dispatch
  split
  · next ht => exact .idle ht
  · next first rest ht =>
    split
    · next hb => exact .left ht hb
    · next hb => exact .helped ht hb
    · next hb =>
      split
      · next hc => exact .notFound ht hb hc
      · next command depth hc =>
        split
        · next hh => exact .listed ht hb hc hh
        · next handler hh => exact .ran ht hb hc hh

/-- A statement that names a command with a handler invokes it. -/
theorem dispatch_ran {perform : η → Invocation η → Act ν Unit} {statement : Record}
    {sh : Shell σ η} {first : Bytes} {rest : List Bytes} {command : Command η} {depth : Nat}
    {handler : η} (ht : statement.tokens = first :: rest) (hb : Builtin.ofToken? first = none)
    (hc : sh.tree.resolve statement.tokens = some (command, depth))
    (hh : command.handler = some handler) :
    dispatch perform statement sh
      = sh.invoke (perform handler) ⟨statement, depth, command, sh.tree⟩ := by
  rw [ht] at hc
  unfold dispatch
  simp only [ht, hb, hc, hh]

/-! ### What a dispatch leaves -/

/-- When the handler has returned, its failure may still be written. -/
theorem invoke_reports (handle : Invocation η → Act ν Unit) (i : Invocation η)
    (sh : Shell σ η) :
    Reader.Used ((handle i).run.run sh.console).console.reader []
      (sh.invoke handle i).2.console.reader := by
  unfold invoke
  simp only
  split
  · exact .start
  · exact Reader.used_write _ _

theorem invoke_used (handle : Invocation η → Act ν Unit) (i : Invocation η) (sh : Shell σ η) :
    ∃ d, Reader.Used sh.console.reader d (sh.invoke handle i).2.console.reader := by
  obtain ⟨d, h⟩ := Dialogue.run_used (handle i).run sh.console
  exact ⟨_, h.trans (invoke_reports handle i sh)⟩

theorem dispatch_used (perform : η → Invocation η → Act ν Unit) (statement : Record)
    (sh : Shell σ η) :
    ∃ d, Reader.Used sh.console.reader d (dispatch perform statement sh).2.console.reader := by
  have h := dispatches perform statement sh
  generalize dispatch perform statement sh = out at h
  cases h with
  | idle => exact ⟨_, .start⟩
  | left => exact ⟨_, .start⟩
  | helped => exact ⟨_, reply_used _ _⟩
  | notFound => exact ⟨_, reply_used _ _⟩
  | listed => exact ⟨_, reply_used _ _⟩
  | ran => exact invoke_used _ _ _

theorem invoke_state (handle : Invocation η → Act ν Unit) (i : Invocation η) (sh : Shell σ η) :
    (sh.invoke handle i).2.state = .awaiting := by
  unfold invoke
  simp only
  split <;> rfl

/-- A dispatch closes the session if and only if it says so. -/
theorem dispatch_flow {perform : η → Invocation η → Act ν Unit} {statement : Record}
    {sh : Shell σ η} (h : sh.state ≠ .closed) :
    (dispatch perform statement sh).1.flow = .closed ↔
      (dispatch perform statement sh).2.state = .closed := by
  have hd := dispatches perform statement sh
  generalize dispatch perform statement sh = out at hd ⊢
  cases hd with
  | idle => simp [Cycle.flow, h]
  | left => simp [Cycle.flow]
  | helped => simp [Cycle.flow, h]
  | notFound => simp [Cycle.flow, h]
  | listed => simp [Cycle.flow, h]
  | ran =>
      rw [invoke_state]
      simp [invoke, Cycle.flow]

/-- So does a cycle. -/
theorem step_flow (perform : η → Invocation η → Act ν Unit) (sh : Shell σ η) :
    (step perform sh).1.flow = .closed ↔ (step perform sh).2.state = .closed := by
  rcases step_cases perform sh with ⟨h, hs⟩ | ⟨_, c, _, hs⟩ | ⟨h, statement, c, _, hs⟩
  · rw [hs]
    exact ⟨fun _ => h, fun _ => rfl⟩
  · rw [hs]
    exact ⟨fun _ => rfl, fun _ => rfl⟩
  · rw [hs]
    exact dispatch_flow h

/-! ### Cycles in a row -/

theorem run_of_closed {perform : η → Invocation η → Act ν Unit} {sh : Shell σ η}
    (h : (step perform sh).1.flow = .closed) :
    run perform sh = ([(step perform sh).1], (step perform sh).2) := by
  rw [run]
  split
  · rfl
  · next hflow =>
    rw [h] at hflow
    exact Flow.noConfusion hflow

theorem run_of_goesOn {perform : η → Invocation η → Act ν Unit} {sh : Shell σ η}
    (h : (step perform sh).1.flow = .goesOn) :
    run perform sh = ((step perform sh).1 :: (run perform (step perform sh).2).1,
      (run perform (step perform sh).2).2) := by
  rw [run]
  split
  · next hflow =>
    rw [h] at hflow
    exact Flow.noConfusion hflow
  · rfl

/-! ### Cycles without their handlers -/

/-- A cycle that lets the session go on: a statement was taken out of the input, and whatever was
done about it, it used the reader. -/
inductive Turn (sh sh' : Shell σ η) : Prop
  | mk {statement : Record} {c : Console σ} {d : Bytes} (hopen : sh.state ≠ .closed)
      (hread : sh.asked.console.read .statement = (some statement, c))
      (hused : Reader.Used c.reader d sh'.console.reader)

theorem step_turn {perform : η → Invocation η → Act ν Unit} {sh : Shell σ η}
    (h : (step perform sh).1.flow = .goesOn) : Turn sh (step perform sh).2 := by
  rcases step_cases perform sh with ⟨_, hs⟩ | ⟨_, c, _, hs⟩ | ⟨hopen, statement, c, hr, hs⟩
  · rw [hs] at h
    exact absurd h (by simp [Cycle.flow])
  · rw [hs] at h
    exact absurd h (by simp [Cycle.flow])
  · obtain ⟨d, hd⟩ := dispatch_used perform statement { sh.asked with console := c }
    rw [hs]
    exact .mk hopen hr hd

/-- A turn uses up at least one byte of what is left. -/
theorem Turn.atMost {n : Nat} {sh sh' : Shell σ η} (h : Turn sh sh')
    (hn : sh.console.reader.AtMost n) : ∃ m, m < n ∧ sh'.console.reader.AtMost m := by
  cases h with
  | @mk statement c d _ hread hused =>
      obtain ⟨m, hlt, hm⟩ := (hn.used (reply_used _ sh)).next_record (Console.read_next hread)
      exact ⟨m, hlt, hm.used hused⟩

end Shell

end CommandShell
