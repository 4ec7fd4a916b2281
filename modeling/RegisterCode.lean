import RegisterCode.Binary64
import RegisterCode.Code.EmissionError
import RegisterCode.Code.Image
import RegisterCode.Code.Instruction
import RegisterCode.Code.OfFlow
import RegisterCode.Code.Program
import RegisterCode.Code.Varint
import RegisterCode.CommandLine.Demo
import RegisterCode.CommandLine.Folder
import RegisterCode.CommandLine.Options
import RegisterCode.CommandLine.Session
import RegisterCode.Compile
import RegisterCode.Decimal.Layout
import RegisterCode.Decimal.Reader
import RegisterCode.Decimal.Rounding
import RegisterCode.Decimal.Shortest
import RegisterCode.Flow.Condense
import RegisterCode.Flow.Draft
import RegisterCode.Flow.Graph
import RegisterCode.Flow.OfTree
import RegisterCode.Flow.Rejection
import RegisterCode.Flow.Step
import RegisterCode.Flow.Traversal
import RegisterCode.Journal
import RegisterCode.Machine.Basic
import RegisterCode.Machine.Dispatch
import RegisterCode.Machine.Procedure
import RegisterCode.Machine.Run
import RegisterCode.Main
import RegisterCode.Registry
import RegisterCode.Status
import RegisterCode.Store.Basic
import RegisterCode.Store.Sequence
import RegisterCode.Text.Blank
import RegisterCode.Text.Integer
import RegisterCode.Text.Slice
import RegisterCode.Tree.Basic
import RegisterCode.Tree.Writer
import RegisterCode.Value
import RegisterCode.Proofs.Code.Accepted
import RegisterCode.Proofs.Code.Arrival
import RegisterCode.Proofs.Code.Assembly
import RegisterCode.Proofs.Code.Calls
import RegisterCode.Proofs.Code.Emission
import RegisterCode.Proofs.Code.Layout
import RegisterCode.Proofs.Code.Linking
import RegisterCode.Proofs.Code.Preservation
import RegisterCode.Proofs.Code.Rewriting
import RegisterCode.Proofs.Code.RoundTrip
import RegisterCode.Proofs.Code.Sharing
import RegisterCode.Proofs.Code.Simulation
import RegisterCode.Proofs.Code.Spelling
import RegisterCode.Proofs.Code.StackEffect
import RegisterCode.Proofs.Code.Staleness
import RegisterCode.Proofs.Code.Truncation
import RegisterCode.Proofs.Code.Windows
import RegisterCode.Proofs.CommandLine.Flags
import RegisterCode.Proofs.Flow.Arguments
import RegisterCode.Proofs.Flow.Attempts
import RegisterCode.Proofs.Flow.Branches
import RegisterCode.Proofs.Flow.CallSites
import RegisterCode.Proofs.Flow.Condensation
import RegisterCode.Proofs.Flow.Expressions
import RegisterCode.Proofs.Flow.Forest
import RegisterCode.Proofs.Flow.Keeping
import RegisterCode.Proofs.Flow.WellFormed
import RegisterCode.Proofs.Machine.Failing
import RegisterCode.Proofs.Machine.Operators
import RegisterCode.Proofs.Machine.Raising
import RegisterCode.Proofs.Machine.Tuples
import RegisterCode.Proofs.Store.References
import RegisterCode.Proofs.Tree.Expressions
import RegisterCode.Proofs.Tree.Functions
import RegisterCode.Proofs.Tree.Lexemes
import RegisterCode.Proofs.Tree.Programs
