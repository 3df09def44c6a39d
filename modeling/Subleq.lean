import Subleq.Main
import Subleq.Proofs.Cells
import Subleq.Proofs.Steps
import Subleq.Proofs.Symbols
import Subleq.Proofs.Allocation
import Subleq.Proofs.Placement
import Subleq.Proofs.Initialized
import Subleq.Proofs.Convention
import Subleq.Proofs.Alike
import Subleq.Proofs.Assembly
import Subleq.Proofs.Blocks
import Subleq.Proofs.Loops
import Subleq.Proofs.Statements
import Subleq.Proofs.Boundaries
import Subleq.Proofs.Simulation
import Subleq.Proofs.Range
import Subleq.Proofs.Listing
import Subleq.Proofs.Outcomes
import Subleq.Proofs.Confinement
import Subleq.Proofs.Grammar
import Subleq.Proofs.Canonical
import Subleq.Proofs.SignedBytes
import Subleq.Proofs.Lines
import Subleq.Proofs.Continuation
import Subleq.Proofs.Spacing
import Subleq.Proofs.Execution
import Subleq.Proofs.Residues
import Subleq.Proofs.Multiplication
import Subleq.Proofs.Division
import Subleq.Proofs.Comparison
import Subleq.Proofs.Writing
import Subleq.Proofs.Work
import Subleq.Proofs.FileTree
import Subleq.Proofs.Faults
import Subleq.Proofs.Channels
import Subleq.Proofs.Console
import Subleq.Proofs.ByteSized
import Subleq.Proofs.CommandLines
import Subleq.Proofs.Tally
import Subleq.Proofs.Tools
import Subleq.Proofs.Verdicts
import Subleq.Proofs.Endings
import Subleq.Proofs.Limits
import Subleq.Proofs.Preload
import Subleq.Proofs.Port
import Subleq.Proofs.Atomicity
import Subleq.Proofs.Recall
import Subleq.Proofs.Literals
import Subleq.Proofs.DataSegment
import Subleq.Proofs.Names
import Subleq.Proofs.Tracing
import Subleq.Proofs.Prompting
import Subleq.Proofs.Dumps
import Subleq.Proofs.Encoding
import Subleq.Proofs.Reading
import Subleq.Proofs.Values
