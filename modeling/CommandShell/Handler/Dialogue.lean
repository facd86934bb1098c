/-
What a handler does, as a value.

A dialogue is a finite tree of interactions: at each node it writes, reads a record,
looks at or changes the prompt or leaves a note, and goes on depending on the answer; at
a leaf it is done.  It can use its answers in any way, and it returns whatever they are,
so no path through it goes on for ever.

That leaves out handlers that return only because the input ends, such as one that reads
until there is no record: with no bound of its own it has no tree.  Over a given input it
does what some tree does.  What a session owes to its handlers without looking into them is
told of any use of the reader (`Reader.Used`) and of any handler that returned
(`Shell.Turns`), and needs no tree.

`run` holds a dialogue over a console, which is a reader and a prompt.  It only uses what
the nodes say: it reads through the same reader the prompt loop uses, so nothing that was
typed ahead is lost.
-/
import CommandShell.Input.Reader

namespace CommandShell

/-! ### Failures -/

/-- Why a handler gave up: a cause, and what was being done, from the inside out. -/
structure Failure where
  /-- What went wrong. -/
  cause : String
  /-- What was being done, the innermost first. -/
  contexts : List String := []
  deriving DecidableEq, Repr

namespace Failure

/-- A failure in one line, from the outside in. -/
def message (f : Failure) : String :=
  ": ".intercalate (f.contexts.reverse ++ [f.cause])

/-- The failure of a stream. -/
def ofStream (e : StreamError) : Failure :=
  ⟨e.message, []⟩

end Failure

/-! ### Dialogues -/

/-- What a handler does, until it is done with an `α`.  It can leave notes of type `ν` for
whoever runs the session. -/
inductive Dialogue (ν α : Type) : Type
  /-- There is nothing more to do. -/
  | done (result : α)
  /-- Writes, and learns whether that failed. -/
  | write (data : Bytes) (answer : Except StreamError Unit → Dialogue ν α)
  /-- Reads a record, and gets it unless the input has ended. -/
  | read (mode : Mode) (answer : Option Record → Dialogue ν α)
  /-- Looks at the prompt. -/
  | prompt (answer : String → Dialogue ν α)
  /-- Changes the prompt. -/
  | setPrompt (label : String) (rest : Dialogue ν α)
  /-- Leaves a note. -/
  | note (n : ν) (rest : Dialogue ν α)

namespace Dialogue

/-- Goes on with what another dialogue is done with. -/
def andThen {ν α β : Type} : Dialogue ν α → (α → Dialogue ν β) → Dialogue ν β
  | done result, f => f result
  | write data answer, f => write data fun a => (answer a).andThen f
  | read mode answer, f => read mode fun a => (answer a).andThen f
  | prompt answer, f => prompt fun a => (answer a).andThen f
  | setPrompt label rest, f => setPrompt label (rest.andThen f)
  | note n rest, f => note n (rest.andThen f)

instance {ν : Type} : Monad (Dialogue ν) where
  pure := done
  bind := andThen

end Dialogue

/-- What dialogues are held over. -/
structure Console (σ : Type) where
  /-- Where records are read and data is written. -/
  reader : Reader σ
  /-- The label that asks for the next statement. -/
  prompt : String

namespace Console

variable {σ : Type} [ByteStream σ]

/-- Writes data to the stream. -/
def write (data : Bytes) (c : Console σ) : Except StreamError Unit × Console σ :=
  let w := c.reader.write data
  (w.1, { c with reader := w.2 })

/-- Reads a record from the stream. -/
def read (mode : Mode) (c : Console σ) : Option Record × Console σ :=
  let r := c.reader.next mode
  (r.1, { c with reader := r.2 })

end Console

/-- What a dialogue was done with, its notes in order, and the console it left. -/
structure Dialogue.Run (σ ν α : Type) where
  /-- What it was done with. -/
  result : α
  /-- The notes it left. -/
  notes : List ν
  /-- The console afterwards. -/
  console : Console σ

namespace Dialogue

variable {σ ν α : Type} [ByteStream σ]

/-- Holds a dialogue over a console. -/
def run : Dialogue ν α → Console σ → Run σ ν α
  | done result, c => ⟨result, [], c⟩
  | write data answer, c =>
    let w := c.write data
    (answer w.1).run w.2
  | read mode answer, c =>
    let r := c.read mode
    (answer r.1).run r.2
  | prompt answer, c => (answer c.prompt).run c
  | setPrompt label rest, c => rest.run { c with prompt := label }
  | note n rest, c =>
    let r := rest.run c
    { r with notes := n :: r.notes }

/-- A dialogue does not add to what can be read. -/
theorem run_weight_le (d : Dialogue ν α) (c : Console σ) :
    (d.run c).console.reader.weight ≤ c.reader.weight := by
  induction d generalizing c with
  | done result => exact Nat.le_refl _
  | write data answer ih =>
    exact Nat.le_trans (ih _ _) (Reader.write_weight_le data c.reader)
  | read mode answer ih =>
    exact Nat.le_trans (ih _ _) (Reader.next_weight_le mode c.reader)
  | prompt answer ih => exact ih _ _
  | setPrompt label rest ih => exact ih _
  | note n rest ih => exact ih _

end Dialogue

/-! ### Acts -/

/-- A dialogue that can fail, which ends it. -/
abbrev Act (ν : Type) := ExceptT Failure (Dialogue ν)

namespace Act

variable {ν : Type}

/-- Writes data; a failure of the stream fails the act. -/
def write (data : Bytes) : Act ν Unit :=
  ExceptT.mk (.write data fun answer => .done (answer.mapError .ofStream))

/-- Writes text. -/
def writeText (s : String) : Act ν Unit :=
  write (textBytes s)

/-- Reads a record, unless the input has ended. -/
def read (mode : Mode) : Act ν (Option Record) :=
  ExceptT.mk (.read mode fun answer => .done (.ok answer))

/-- Reads everything up to the next newline. -/
def readLine : Act ν (Option Bytes) := do
  let record ← read .line
  return record.map Record.raw

/-- Reads lines through the first one that ends with a terminator. -/
def readTerminated (terminator : Bytes) : Act ν (Option Bytes) := do
  let record ← read (.terminated terminator)
  return record.map Record.raw

/-- Reads lines until a test accepts everything read. -/
def readAccepted (test : Bytes → Bool) : Act ν (Option Bytes) := do
  let record ← read (.accepted test)
  return record.map Record.raw

/-- The prompt label. -/
def prompt : Act ν String :=
  ExceptT.mk (.prompt fun label => .done (.ok label))

/-- Changes the prompt label. -/
def setPrompt (label : String) : Act ν Unit :=
  ExceptT.mk (.setPrompt label (.done (.ok ())))

/-- Leaves a note. -/
def note (n : ν) : Act ν Unit :=
  ExceptT.mk (.note n (.done (.ok ())))

/-- Gives up. -/
def fail {α : Type} (f : Failure) : Act ν α :=
  ExceptT.mk (.done (.error f))

end Act

end CommandShell
