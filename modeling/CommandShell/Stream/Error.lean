/-
What can go wrong on a byte stream.

A failure is known by its kind, and each kind has one wording.  The two ways a writer
can fail to take data are told apart: one reports that it took nothing, the other that
not all of the data could be handed over.
-/

namespace CommandShell

/-- Why a read or a write failed. -/
inductive StreamError
  | notFound
  | permissionDenied
  | connectionRefused
  | connectionReset
  | connectionAborted
  | notConnected
  | brokenPipe
  | wouldBlock
  | timedOut
  | interrupted
  | unexpectedEnd
  | invalidData
  /-- A write call took nothing. -/
  | writeZero
  /-- A write call took nothing while more data was to be written. -/
  | shortWrite
  | other
  deriving DecidableEq, Repr

/-- What is said of a failure. -/
def StreamError.message : StreamError → String
  | notFound => "entity not found"
  | permissionDenied => "permission denied"
  | connectionRefused => "connection refused"
  | connectionReset => "connection reset"
  | connectionAborted => "connection aborted"
  | notConnected => "not connected"
  | brokenPipe => "broken pipe"
  | wouldBlock => "operation would block"
  | timedOut => "timed out"
  | interrupted => "operation interrupted"
  | unexpectedEnd => "unexpected end of file"
  | invalidData => "invalid data"
  | writeZero => "write zero"
  | shortWrite => "failed to write whole buffer"
  | other => "other error"

end CommandShell
