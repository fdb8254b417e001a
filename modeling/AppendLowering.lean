import AppendLowering.Codec.Options
import AppendLowering.Codec.Statement
import AppendLowering.Codec.Variable
import AppendLowering.Compile.Statement
import AppendLowering.Config.Document
import AppendLowering.Diagnostic.Report
import AppendLowering.Json.Parser
import AppendLowering.Json.Printer
import AppendLowering.Proofs.Compile.Growth
import AppendLowering.Proofs.Compile.Additive
import AppendLowering.Proofs.Compile.Rollback
import AppendLowering.Proofs.Compile.Parallel
import AppendLowering.Proofs.Compile.Independence
import AppendLowering.Proofs.Compile.Acceptance
import AppendLowering.Proofs.Append.Arguments
import AppendLowering.Proofs.Code.Literal
import AppendLowering.Proofs.Append.Reader
import AppendLowering.Proofs.Compile.Emission
import AppendLowering.Proofs.Symbol.Undo
import AppendLowering.Proofs.Symbol.Numbering
import AppendLowering.Proofs.Symbol.History
import AppendLowering.Proofs.Symbol.Search
import AppendLowering.Proofs.Append.Answers
import AppendLowering.Proofs.Append.Consultation
import AppendLowering.Proofs.Code.Printable
import AppendLowering.Proofs.Code.Line
import AppendLowering.Proofs.Compile.Names
import AppendLowering.Proofs.Compile.Temporaries
import AppendLowering.Proofs.Compile.Visibility
import AppendLowering.Proofs.Execution.Machine
import AppendLowering.Proofs.Execution.Simulation
import AppendLowering.Proofs.Codec.RoundTrip
import AppendLowering.Proofs.Compile.Configuration
import AppendLowering.Proofs.Append.Containers
import AppendLowering.Proofs.Compile.Headers
import AppendLowering.Proofs.Append.Attempts
import AppendLowering.Proofs.Source.Interning
import AppendLowering.Proofs.Code.Body
import AppendLowering.Proofs.Compile.Reads
import AppendLowering.Proofs.Execution.Strings
import AppendLowering.Proofs.Append.Places
import AppendLowering.Proofs.Source.Columns
import AppendLowering.Proofs.Diagnostic.Faults
import AppendLowering.Proofs.Diagnostic.Carets
