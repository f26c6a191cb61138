import Bytecode.Func.Draft
import Bytecode.Func.Listing
import Bytecode.Optimize.Pipeline
import Bytecode.Proofs.Behaviour.Optimizer
import Bytecode.Proofs.Graph.Dominance
import Bytecode.Proofs.Registers.LastWrites
import Bytecode.Proofs.Stack.Heights
import Bytecode.Proofs.Optimize.Outcomes
import Bytecode.Proofs.Optimize.Edits
import Bytecode.Proofs.Optimize.Records
import Bytecode.Proofs.Merge.Detours
import Bytecode.Proofs.Merge.Fusion
import Bytecode.Proofs.Registers.Stability
import Bytecode.Proofs.Optimize.Passes
import Bytecode.Proofs.Optimize.Outputs
import Bytecode.Proofs.Stack.Acceptance
import Bytecode.Proofs.Optimize.Ways
import Bytecode.Proofs.Optimize.Balance
import Bytecode.Proofs.Optimize.Faults
import Bytecode.Proofs.Registers.Pressure
import Bytecode.Proofs.Merge.Convergence
import Bytecode.Proofs.Merge.Stack
import Bytecode.Proofs.Optimize.Histories
import Bytecode.Proofs.Flow.BackEdges
import Bytecode.Proofs.Stack.Rejection
import Bytecode.Proofs.Stack.Order
import Bytecode.Proofs.Registers.Initialisation
import Bytecode.Proofs.Flow.Loops
import Bytecode.Proofs.Flow.Nesting
import Bytecode.Proofs.Optimize.DeadBlocks
import Bytecode.Proofs.Func.Redirection
import Bytecode.Proofs.Graph.Insertion
import Bytecode.Proofs.Func.Declarations
import Bytecode.Proofs.Flow.Depiction
import Bytecode.Proofs.Stack.Course
import Bytecode.Proofs.Graph.Compression
import Bytecode.Proofs.Graph.DominatorViews
import Bytecode.Proofs.Graph.Preorder
import Bytecode.Proofs.Merge.Decomposition
import Bytecode.Proofs.Registers.Accesses
