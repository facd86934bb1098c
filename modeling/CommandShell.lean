import CommandShell.Arguments.Grammar
import CommandShell.Arguments.Usage
import CommandShell.Bytes
import CommandShell.Command.Basic
import CommandShell.Command.Builtin
import CommandShell.Command.Help
import CommandShell.Command.Tree
import CommandShell.Demo.CommandLine
import CommandShell.Demo.Commands
import CommandShell.Handler.Dialogue
import CommandShell.Handler.Invocation
import CommandShell.Input.Line
import CommandShell.Input.Mode
import CommandShell.Input.Pattern
import CommandShell.Input.Quote
import CommandShell.Input.Reader
import CommandShell.Input.Scan
import CommandShell.Input.Token
import CommandShell.Main
import CommandShell.Proofs.Acceptance
import CommandShell.Proofs.Alike
import CommandShell.Proofs.Block
import CommandShell.Proofs.Calls
import CommandShell.Proofs.Chunking
import CommandShell.Proofs.Closing
import CommandShell.Proofs.Comment
import CommandShell.Proofs.Conservation
import CommandShell.Proofs.Dead
import CommandShell.Proofs.Delivery
import CommandShell.Proofs.EndOfInput
import CommandShell.Proofs.Failing
import CommandShell.Proofs.Leftover
import CommandShell.Proofs.Lexing
import CommandShell.Proofs.Lifecycle
import CommandShell.Proofs.Matching
import CommandShell.Proofs.Operations
import CommandShell.Proofs.Places
import CommandShell.Proofs.Readiness
import CommandShell.Proofs.Replay
import CommandShell.Proofs.Request
import CommandShell.Proofs.Resolution
import CommandShell.Proofs.Separators
import CommandShell.Proofs.Session
import CommandShell.Proofs.Spans
import CommandShell.Proofs.Statement
import CommandShell.Proofs.Supply
import CommandShell.Proofs.Termination
import CommandShell.Proofs.TokenPattern
import CommandShell.Proofs.Words
import CommandShell.Rehearsal.BlockTest
import CommandShell.Rehearsal.Handler
import CommandShell.Rehearsal.Stream
import CommandShell.Session.Shell
import CommandShell.Stream.Basic
import CommandShell.Stream.Duplex
import CommandShell.Stream.Error
import CommandShell.Stream.Memory
import CommandShell.Stream.Pipe
import CommandShell.Stream.Transport
import CommandShell.Text.Graphic
import CommandShell.Text.Lossy
import CommandShell.Text.Numeral
import CommandShell.Text.Quoted
