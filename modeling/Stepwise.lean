import Stepwise.Text.Blank
import Stepwise.Text.Quoted
import Stepwise.Decimal.Layout
import Stepwise.Decimal.Rounded
import Stepwise.Decimal.Numeral
import Stepwise.KeyMap
import Stepwise.Source.Lexer
import Stepwise.Program.Render
import Stepwise.Grammar
import Stepwise.Arithmetic
import Stepwise.Format.Output
import Stepwise.Format.Input
import Stepwise.Program.Structs
import Stepwise.Memory.Environment
import Stepwise.Limits
import Stepwise.Trace.Capture
import Stepwise.Trace.Recorder
import Stepwise.Trace.Status
import Stepwise.Run.Typing
import Stepwise.Run.Expression
import Stepwise.Run
import Stepwise.Json.Reader
import Stepwise.Json.Writer
import Stepwise.Json.Decode
import Stepwise.Trace.Encoding
import Stepwise.Deadline
import Stepwise.Main
import Stepwise.Proofs.Storage
import Stepwise.Proofs.Truncation
import Stepwise.Proofs.History
import Stepwise.Proofs.Bracketing
import Stepwise.Proofs.WellFormed
import Stepwise.Proofs.Places
import Stepwise.Proofs.Pointers
import Stepwise.Proofs.Soundness
import Stepwise.Proofs.Harmless
import Stepwise.Proofs.References
import Stepwise.Proofs.Persistence
import Stepwise.Proofs.PrintedPrograms
import Stepwise.Proofs.Nodes
import Stepwise.Proofs.Pictures
import Stepwise.Proofs.Positions
import Stepwise.Proofs.Erasure
import Stepwise.Proofs.Layers
import Stepwise.Proofs.Plain
import Stepwise.Proofs.Displacement
import Stepwise.Proofs.Lines
import Stepwise.Proofs.Noninterference
import Stepwise.Proofs.Lookups
import Stepwise.Proofs.WellReferenced
import Stepwise.Proofs.Precedence
import Stepwise.Proofs.Spelling
import Stepwise.Proofs.Regions
import Stepwise.Proofs.AccessPaths
import Stepwise.Proofs.Turns
import Stepwise.Proofs.Expansion
import Stepwise.Proofs.Templates
import Stepwise.Proofs.Fields
import Stepwise.Proofs.StaticTypes
import Stepwise.Proofs.ExactArithmetic
import Stepwise.Proofs.Scopes
import Stepwise.Proofs.SharedBuffers
import Stepwise.Proofs.Progress
