import Bpl.Main
import Bpl.Proofs.Lowering.Total
import Bpl.Proofs.Typing.Decision
import Bpl.Proofs.Lowering.Draws
import Bpl.Proofs.Lowering.Emits
import Bpl.Proofs.Lowering.Placed
import Bpl.Proofs.Machine.Library
import Bpl.Proofs.Semantics
import Bpl.Proofs.Semantics.Safe
import Bpl.Proofs.Simulation.Call
import Bpl.Proofs.Simulation.Expr
import Bpl.Proofs.Simulation.Program
import Bpl.Proofs.Semantics.Progress
import Bpl.Proofs.Simulation.Preservation
import Bpl.Proofs.Lowering.Labels
import Bpl.Proofs.Lowering.Closed
import Bpl.Proofs.Layout.Places
import Bpl.Proofs.Layout.Typing
import Bpl.Proofs.Layout.Lowering
import Bpl.Proofs.Layout.Parsing
import Bpl.Proofs.Layout.Invariance
import Bpl.Proofs.Stack.Balance
import Bpl.Proofs.Stack.Statements
import Bpl.Proofs.Scanning.Split
import Bpl.Proofs.Tree.Items
import Bpl.Proofs.Typing.Slots
import Bpl.Proofs.Typing.Scopes
import Bpl.Proofs.Typing.Voids
import Bpl.Proofs.Stack.Boundaries
import Bpl.Proofs.Stack.Discipline
import Bpl.Proofs.Parsing.Bytes
import Bpl.Proofs.Stack.Arguments
import Bpl.Proofs.Printing.Printable
import Bpl.Proofs.Printing.Printer
import Bpl.Proofs.Printing.Spelling
import Bpl.Proofs.Printing.Shortest
import Bpl.Proofs.Printing.Roundtrip
import Bpl.Proofs.Typing.TopLevel
import Bpl.Proofs.Typing.Renaming
import Bpl.Proofs.Lowering.Isolation
import Bpl.Proofs.Typing.Recheck
import Bpl.Proofs.Typing.Sequence
import Bpl.Proofs.Session
import Bpl.Proofs.Lowering.Indexing
import Bpl.Proofs.Machine.Bounds
import Bpl.Proofs.Simulation.Indexing
import Bpl.Proofs.Tree.Parts
import Bpl.Proofs.Typing.Arrays
import Bpl.Proofs.Typing.Sizes
import Bpl.Proofs.Lowering.Issued
import Bpl.Proofs.Lowering.Sizes
import Bpl.Proofs.Lowering.Arrays
import Bpl.Proofs.Lowering.Occurs
import Bpl.Proofs.Simulation.Elements
import Bpl.Proofs.Stack.Pieces
import Bpl.Proofs.Stack.Frames
import Bpl.Proofs.Machine.Exec
import Bpl.Proofs.Machine.Entry
import Bpl.Proofs.Machine.Within
import Bpl.Proofs.Stack.Calls
import Bpl.Proofs.Scanning.Scanner
import Bpl.Proofs.Printing.Relaid
import Bpl.Proofs.Tree.Literals
import Bpl.Proofs.Lowering.Strings
import Bpl.Proofs.Lowering.StringTable
import Bpl.Proofs.Diagnostics.Rendering
import Bpl.Proofs.Diagnostics.TypeNames
import Bpl.Proofs.Tree.Moved
import Bpl.Proofs.Parsing.Uniform
import Bpl.Proofs.Parsing.Ends
import Bpl.Proofs.Parsing.Params
import Bpl.Proofs.Paths
import Bpl.Proofs.Outputs
import Bpl.Proofs.Clash
import Bpl.Proofs.Scanning.Settling
import Bpl.Proofs.Parsing.Consuming
