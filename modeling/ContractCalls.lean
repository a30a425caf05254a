import ContractCalls.Program
import ContractCalls.CallGraph.Stats
import ContractCalls.Dot.Drawing
import ContractCalls.Draft
import ContractCalls.Walk
import ContractCalls.Proofs.CallGraph.Paths
import ContractCalls.Proofs.Code.Constants
import ContractCalls.Proofs.Code.Findings
import ContractCalls.Proofs.Code.Openings
import ContractCalls.Proofs.Build.Records
import ContractCalls.Proofs.Build.Queue
import ContractCalls.Proofs.Build.Journal
import ContractCalls.Proofs.Tree.Members
import ContractCalls.Proofs.Build.Sites
import ContractCalls.Proofs.Build.Run
import ContractCalls.Proofs.Build.Finished
import ContractCalls.Proofs.Build.Comparison
import ContractCalls.Proofs.Graph.Edges
import ContractCalls.Proofs.Graph.Connected
import ContractCalls.Proofs.Graph.Deployment
import ContractCalls.Proofs.Graph.Creation
import ContractCalls.Proofs.Graph.Dispatch
import ContractCalls.Proofs.Inheritance.Merging
import ContractCalls.Proofs.Inheritance.Orders
import ContractCalls.Proofs.Inheritance.Linearized
import ContractCalls.Proofs.Resolution.SuperChain
import ContractCalls.Proofs.Code.Agreement
import ContractCalls.Proofs.Graph.DeadCode
import ContractCalls.Proofs.Graph.SideEffects
import ContractCalls.Proofs.Graph.Failures
import ContractCalls.Proofs.Graph.OrderOfCode
import ContractCalls.Proofs.Graph.Construction
import ContractCalls.Proofs.Graph.Carried
import ContractCalls.Proofs.Graph.InternalCalls
import ContractCalls.Proofs.Graph.ReadOnce
import ContractCalls.Proofs.Inheritance.Refusals
import ContractCalls.Proofs.Inheritance.Rounds
import ContractCalls.Proofs.Tree.Additions
import ContractCalls.Proofs.Code.Additions
import ContractCalls.Proofs.Graph.Additions
import ContractCalls.Proofs.Code.SpelledOut
import ContractCalls.Proofs.Code.Transparency
import ContractCalls.Proofs.Graph.Transparency
import ContractCalls.Proofs.Resolution.Idempotence
import ContractCalls.Proofs.Resolution.Interface
import ContractCalls.Proofs.Resolution.Resolvable
import ContractCalls.Proofs.Graph.Programs
import ContractCalls.Proofs.Graph.Assertions
import ContractCalls.Proofs.Graph.Shape
import ContractCalls.Proofs.Graph.Queries
import ContractCalls.Proofs.Graph.Reachable
import ContractCalls.Proofs.Graph.ResolvedEffects
import ContractCalls.Proofs.Tree.FirstError
import ContractCalls.Proofs.Code.Pieces
import ContractCalls.Proofs.Code.Walks
import ContractCalls.Proofs.Dot.Drawing
import ContractCalls.Proofs.Dot.Escapes
import ContractCalls.Proofs.Graph.Statistics
import ContractCalls.Proofs.Graph.Placeholders
