import SigilAsm.Assembly.File
import SigilAsm.CommandLine.Session
import SigilAsm.Main
import SigilAsm.Scope.Event
import SigilAsm.Token.Query
import SigilAsm.Token.ByteReader
import SigilAsm.Proofs.Grammar.Trivia
import SigilAsm.Proofs.Grammar.Lexeme
import SigilAsm.Proofs.Grammar.Scanning
import SigilAsm.Proofs.Grammar.Tree
import SigilAsm.Proofs.Grammar.Rules
import SigilAsm.Proofs.Grammar.Data
import SigilAsm.Proofs.Grammar.Readings
import SigilAsm.Proofs.Grammar.Acceptance
import SigilAsm.Proofs.Grammar.Extension
import SigilAsm.Proofs.Grammar.Faults
import SigilAsm.Proofs.Grammar.Mentions
import SigilAsm.Proofs.Grammar.Relocation
import SigilAsm.Proofs.Grammar.Layout
import SigilAsm.Proofs.Grammar.Order
import SigilAsm.Proofs.Grammar.Thrift
import SigilAsm.Proofs.Elaboration.Firsts
import SigilAsm.Proofs.Elaboration.Clause
import SigilAsm.Proofs.Elaboration.Diagnostics
import SigilAsm.Proofs.Elaboration.Parametricity
import SigilAsm.Proofs.Elaboration.Calls
import SigilAsm.Proofs.Elaboration.Relocation
import SigilAsm.Proofs.Elaboration.Growth
import SigilAsm.Proofs.Elaboration.SourceOrder
import SigilAsm.Proofs.Elaboration.Extension
import SigilAsm.Proofs.Program.Consistency
import SigilAsm.Proofs.Program.Listing
import SigilAsm.Proofs.Program.Retention
import SigilAsm.Proofs.Scope.Effects
import SigilAsm.Proofs.Scope.Tables
import SigilAsm.Proofs.Scope.Permanence
import SigilAsm.Proofs.Elaboration.Integrity
import SigilAsm.Proofs.Elaboration.Layout
import SigilAsm.Proofs.Elaboration.Reporting
import SigilAsm.Proofs.Elaboration.Meaning
import SigilAsm.Proofs.Elaboration.Moves
import SigilAsm.Proofs.Elaboration.Protocol
import SigilAsm.Proofs.Elaboration.Recording
import SigilAsm.Proofs.Program.Layout
import SigilAsm.Proofs.Program.Packing
import SigilAsm.Proofs.Wasm.Syntax
import SigilAsm.Proofs.Wasm.Decoder
import SigilAsm.Proofs.Wasm.Decoding
import SigilAsm.Proofs.Wasm.Lowered
import SigilAsm.Proofs.Wasm.Types
import SigilAsm.Proofs.Wasm.Semantics
import SigilAsm.Proofs.Wasm.Instance
import SigilAsm.Proofs.Wasm.Capacity
import SigilAsm.Proofs.Assembly.Output
import SigilAsm.Proofs.Assembly.Gates
import SigilAsm.Proofs.Assembly.LocalNames
import SigilAsm.Proofs.Name.Vocabulary
import SigilAsm.Proofs.Name.History
import SigilAsm.Proofs.Name.Numbering
import SigilAsm.Proofs.Elaboration.Written
import SigilAsm.Proofs.Elaboration.Shown
import SigilAsm.Proofs.Program.Rows
import SigilAsm.Proofs.Assembly.Listing
import SigilAsm.Proofs.FileTree.Collection
import SigilAsm.Proofs.FileTree.Enumeration
import SigilAsm.Proofs.CommandLine.Plans
import SigilAsm.Proofs.CommandLine.Directory
import SigilAsm.Proofs.CommandLine.OutputTree
import SigilAsm.Proofs.Grammar.Tokens
import SigilAsm.Proofs.Grammar.Lookahead
import SigilAsm.Proofs.Grammar.Respacing
import SigilAsm.Proofs.Grammar.DataSize
import SigilAsm.Proofs.Grammar.Boundaries
import SigilAsm.Proofs.Token.Bytes
import SigilAsm.Proofs.Token.Simulation
import SigilAsm.Proofs.Token.Safety
import SigilAsm.Proofs.Elaboration.FaultExtents
import SigilAsm.Proofs.Text.Search
import SigilAsm.Proofs.Text.Lines
import SigilAsm.Proofs.Text.Positions
import SigilAsm.Proofs.Text.LineTexts
import SigilAsm.Proofs.Report.Excerpt
import SigilAsm.Proofs.Report.Carets
import SigilAsm.Proofs.Elaboration.Tracing
import SigilAsm.Proofs.Scope.Refusals
import SigilAsm.Proofs.Grammar.Course
import SigilAsm.Proofs.Grammar.Budget
import SigilAsm.Proofs.Grammar.Turns
import SigilAsm.Proofs.Grammar.Loops
import SigilAsm.Proofs.Elaboration.Progress
