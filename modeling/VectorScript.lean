import VectorScript.Main
import VectorScript.Console.Disk
import VectorScript.Workspace.Completion
import VectorScript.Proofs.Tree.Code
import VectorScript.Proofs.Tree.Evaluation
import VectorScript.Proofs.Machine.Simulation
import VectorScript.Proofs.Tree.Typing
import VectorScript.Proofs.Machine.Guards
import VectorScript.Proofs.Store.Table
import VectorScript.Proofs.Grammar.Expression
import VectorScript.Proofs.Grammar.Declaration
import VectorScript.Proofs.Grammar.Draft
import VectorScript.Proofs.Grammar.Script
import VectorScript.Proofs.Store.Cell
import VectorScript.Proofs.Store.Memory
import VectorScript.Proofs.Program.Linked
import VectorScript.Proofs.Workspace.Compile
import VectorScript.Proofs.Workspace.Host
import VectorScript.Proofs.Workspace.Run
import VectorScript.Proofs.Workspace.Reachable
import VectorScript.Proofs.Host.Library
import VectorScript.Proofs.Store.Assign
import VectorScript.Proofs.Tree.Harmless
import VectorScript.Proofs.Tree.Progress
import VectorScript.Proofs.Machine.Progress
import VectorScript.Proofs.Workspace.Typed
import VectorScript.Proofs.Workspace.Settled
import VectorScript.Proofs.Workspace.Dispatch
import VectorScript.Proofs.Workspace.Footprint
import VectorScript.Proofs.Workspace.Soundness
import VectorScript.Proofs.Machine.Conduct
import VectorScript.Proofs.Code.Straight
import VectorScript.Proofs.Code.Scan
import VectorScript.Proofs.Code.Path
import VectorScript.Proofs.Workspace.WellFormed
import VectorScript.Proofs.Host.Admission
import VectorScript.Proofs.Machine.Structured
import VectorScript.Proofs.Workspace.Termination
import VectorScript.Proofs.Grammar.Acceptance
import VectorScript.Proofs.Grammar.Inverse
import VectorScript.Proofs.Compilation.Tandem
import VectorScript.Proofs.Compilation.Expression
import VectorScript.Proofs.Compilation.Declaration
import VectorScript.Proofs.Compilation.Script
import VectorScript.Proofs.Compilation.Program
import VectorScript.Proofs.Workspace.History
import VectorScript.Proofs.Workspace.Acyclic
import VectorScript.Proofs.Workspace.Recompile
import VectorScript.Proofs.Workspace.Submission
import VectorScript.Proofs.Workspace.Pending
import VectorScript.Proofs.Workspace.Generations
import VectorScript.Proofs.Workspace.Carried
import VectorScript.Proofs.Operation.Late
import VectorScript.Proofs.Machine.Late
import VectorScript.Proofs.Token.Tiling
import VectorScript.Proofs.Workspace.Faults
import VectorScript.Proofs.Machine.Lockstep
import VectorScript.Proofs.Workspace.Sized
import VectorScript.Proofs.Workspace.Independence
import VectorScript.Proofs.Compilation.Placement
import VectorScript.Proofs.Workspace.Provenance
import VectorScript.Proofs.Store.Contents
import VectorScript.Proofs.Store.Shape
import VectorScript.Proofs.Store.Coercion
import VectorScript.Proofs.Store.Target
import VectorScript.Proofs.Workspace.Search
import VectorScript.Proofs.Workspace.Rounds
import VectorScript.Proofs.Machine.Stage
import VectorScript.Proofs.Workspace.Trace
import VectorScript.Proofs.Machine.Dispatched
import VectorScript.Proofs.Tree.Noted
import VectorScript.Proofs.Grammar.Noting
import VectorScript.Proofs.Grammar.Subscripts
import VectorScript.Proofs.Workspace.Coverage
import VectorScript.Proofs.Ty.Assignability
import VectorScript.Proofs.Store.History
import VectorScript.Proofs.Workspace.Printed
import VectorScript.Proofs.Grammar.Nesting
import VectorScript.Proofs.Operation.Agreement
import VectorScript.Proofs.Token.Slice
import VectorScript.Proofs.Console.Underline
import VectorScript.Proofs.Workspace.Completion
import VectorScript.Proofs.Code.GuardLengths
import VectorScript.Proofs.Workspace.Called
