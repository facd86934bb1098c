/-
Shell sessions.

A session goes in cycles.  A cycle writes the prompt, reads one statement and does what
its first token asks for: a built-in, or the command that the tokens name.  A command's
handler holds its dialogue over the session's own stream, and the next cycle only begins
when it is done.  The session is closed by `exit` or by the end of the input, and a closed
session does nothing more.

What the shell writes itself may be lost: a failure to write changes nothing about what
is done.  A handler that fails costs one line of output.

Every cycle that lets the session go on has taken a record out of the input, so a session
ends by itself if its input does.
-/
import CommandShell.Command.Help
import CommandShell.Handler.Invocation
import CommandShell.Stream.Transport

namespace CommandShell

/-! ### Sessions -/

/-- Where a session is. -/
inductive State
  /-- It waits for a statement. -/
  | awaiting
  /-- A handler is at work. -/
  | dispatching
  /-- It is over. -/
  | closed
  deriving DecidableEq, Repr

/-- Whether a session goes on after a cycle. -/
inductive Flow
  | goesOn
  | closed
  deriving DecidableEq, Repr

/-- How a session begins. -/
structure Options where
  /-- The label of the prompt. -/
  prompt : String := "ash"
  /-- How many bytes are read at a time from a transport. -/
  capacity : Nat := Buffered.defaultCapacity
  deriving DecidableEq, Repr

/-- A session over a stream, with handlers of type `η` in its tree. -/
structure Shell (σ η : Type) where
  /-- The stream as the session has it, and its prompt. -/
  console : Console σ
  /-- The commands. -/
  tree : CommandTree η
  /-- Where the session is. -/
  state : State := .awaiting

/-- What came of a cycle. -/
inductive Cycle (η ν : Type)
  /-- The session was over already. -/
  | closed
  /-- The input has ended. -/
  | ended
  /-- There were no tokens in the statement. -/
  | idle (statement : Record)
  /-- `exit` was asked for. -/
  | left (statement : Record)
  /-- `help` was asked for. -/
  | helped (statement : Record)
  /-- No command was named. -/
  | notFound (statement : Record)
  /-- A command without a handler was named, and its help was shown. -/
  | listed (statement : Record) (command : Command η)
  /-- A handler was invoked, and left notes. -/
  | ran (invocation : Invocation η) (outcome : Except Failure Unit) (notes : List ν)

namespace Cycle

variable {η ν : Type}

/-- Whether the session goes on. -/
def flow : Cycle η ν → Flow
  | closed => .closed
  | ended => .closed
  | left _ => .closed
  | _ => .goesOn

/-- The notes left during a cycle. -/
def notes : Cycle η ν → List ν
  | ran _ _ notes => notes
  | _ => []

end Cycle

namespace Shell

variable {σ η ν : Type}

/-- A session over a stream. -/
def start (options : Options) (tree : CommandTree η) (source : σ) : Shell σ η :=
  { console := { reader := { source := source }, prompt := options.prompt }, tree := tree }

/-- A session over a transport, which is read through a buffer. -/
def ofTransport {τ : Type} (options : Options) (tree : CommandTree η) (transport : τ) :
    Shell (Buffered τ) η :=
  start options tree (Buffered.ofTransport options.capacity transport)

/-- Changes the label of the prompt. -/
def setPrompt (label : String) (sh : Shell σ η) : Shell σ η :=
  { sh with console := { sh.console with prompt := label } }

/-- Changes the stream from outside, such as by adding to what it delivers. -/
def mapSource (f : σ → σ) (sh : Shell σ η) : Shell σ η :=
  { sh with
    console :=
      { sh.console with
        reader := { sh.console.reader with source := f sh.console.reader.source } } }

variable [ByteStream σ]

/-! ### Cycles -/

/-- What is said when no command is named. -/
def commandNotFound : String := "command not found\n"

/-- Writes text and ignores a failure. -/
def reply (text : String) (sh : Shell σ η) : Shell σ η :=
  { sh with console := (sh.console.write (textBytes text)).2 }

/-- Invokes a handler, and reports its failure under the name of its command. -/
def invoke (handle : Invocation η → Act ν Unit) (i : Invocation η) (sh : Shell σ η) :
    Cycle η ν × Shell σ η :=
  let busy := { sh with state := .dispatching }
  let r := (handle i).run.run busy.console
  let done := { busy with console := r.console, state := .awaiting }
  (.ran i r.result r.notes,
    match r.result with
    | .ok () => done
    | .error f => done.reply (i.command.name ++ ": " ++ f.message ++ "\n"))

/-- Does what a statement asks for.  `perform` says what the handlers of the tree do. -/
def dispatch (perform : η → Invocation η → Act ν Unit) (statement : Record)
    (sh : Shell σ η) : Cycle η ν × Shell σ η :=
  match statement.tokens with
  | [] => (.idle statement, sh)
  | first :: rest =>
    match Builtin.ofToken? first with
    | some .exit => (.left statement, { sh with state := .closed })
    | some .help => (.helped statement, sh.reply (Help.render sh.tree rest))
    | none =>
      match sh.tree.resolve statement.tokens with
      | none => (.notFound statement, sh.reply commandNotFound)
      | some (command, depth) =>
        match command.handler with
        | none => (.listed statement command, sh.reply (Help.ofCommand command))
        | some h => sh.invoke (perform h) ⟨statement, depth, command, sh.tree⟩

/-- One cycle. -/
def step (perform : η → Invocation η → Act ν Unit) (sh : Shell σ η) :
    Cycle η ν × Shell σ η :=
  if sh.state = .closed then (.closed, sh)
  else
    let asked := sh.reply (sh.console.prompt ++ "> ")
    match asked.console.read .statement with
    | (none, c) => (.ended, { asked with console := c, state := .closed })
    | (some statement, c) => dispatch perform statement { asked with console := c }

/-! ### Cycles use up input -/

/-- A bound on what the session can still read. -/
def weight (sh : Shell σ η) : Nat :=
  sh.console.reader.weight

theorem reply_weight_le (text : String) (sh : Shell σ η) : (sh.reply text).weight ≤ sh.weight :=
  Reader.write_weight_le _ _

theorem invoke_weight_le (handle : Invocation η → Act ν Unit) (i : Invocation η)
    (sh : Shell σ η) : (sh.invoke handle i).2.weight ≤ sh.weight := by
  have hr := Dialogue.run_weight_le (handle i).run sh.console
  simp only [invoke]
  split
  · exact hr
  · exact Nat.le_trans (reply_weight_le _ _) hr

theorem dispatch_weight_le (perform : η → Invocation η → Act ν Unit) (statement : Record)
    (sh : Shell σ η) : (dispatch perform statement sh).2.weight ≤ sh.weight := by
  unfold dispatch
  split
  · exact Nat.le_refl _
  · split
    · exact Nat.le_refl _
    · exact reply_weight_le _ _
    · split
      · exact reply_weight_le _ _
      · split
        · exact reply_weight_le _ _
        · exact invoke_weight_le _ _ _

/-- A cycle that lets the session go on has taken something out of the input. -/
theorem step_weight_lt {perform : η → Invocation η → Act ν Unit} {sh : Shell σ η}
    (h : (step perform sh).1.flow = .goesOn) : (step perform sh).2.weight < sh.weight := by
  unfold step at h ⊢
  split at h
  · simp [Cycle.flow] at h
  · next hs =>
    rw [if_neg hs]
    have ha := reply_weight_le (sh.console.prompt ++ "> ") sh
    simp only at h ⊢
    split at h
    · simp [Cycle.flow] at h
    · next statement c hc =>
      simp only [Console.read, Prod.mk.injEq] at hc
      obtain ⟨hsome, rfl⟩ := hc
      have hlt := (Reader.next_weight .statement _).1 (Prod.ext hsome rfl)
      exact Nat.lt_of_le_of_lt (dispatch_weight_le _ _ _) (Nat.lt_of_lt_of_le hlt ha)

/-- Cycles until the session is over. -/
def run (perform : η → Invocation η → Act ν Unit) (sh : Shell σ η) :
    List (Cycle η ν) × Shell σ η :=
  let s := step perform sh
  match _h : s.1.flow with
  | .closed => ([s.1], s.2)
  | .goesOn =>
    let rest := run perform s.2
    (s.1 :: rest.1, rest.2)
termination_by sh.weight
decreasing_by exact step_weight_lt _h

end Shell

end CommandShell
