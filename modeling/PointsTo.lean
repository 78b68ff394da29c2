import PointsTo.Components
import PointsTo.Config.Json
import PointsTo.Config.Yaml
import PointsTo.Constraint.Json
import PointsTo.DisjointSets.Json
import PointsTo.Graph.Json
import PointsTo.Json.Reader
import PointsTo.Proofs.Action
import PointsTo.Proofs.Components
import PointsTo.Proofs.DisjointSets
import PointsTo.Proofs.DisjointSets.Closure
import PointsTo.Proofs.DisjointSets.Find
import PointsTo.Proofs.Graph
import PointsTo.Proofs.Grouping
import PointsTo.Proofs.NodeSet
import PointsTo.Proofs.NodeTable
import PointsTo.Proofs.Run
import PointsTo.Proofs.Worklist
import PointsTo.Proofs.Components.Complete
import PointsTo.Proofs.NodeTable.Classes
import PointsTo.Proofs.NodeTable.Groups
import PointsTo.Proofs.NodeTable.Lookups
import PointsTo.Proofs.Solver.Termination
import PointsTo.Proofs.Solver.Partition
import PointsTo.Proofs.Solver.Again
import PointsTo.Proofs.Solver.Answers
import PointsTo.Proofs.Solver.Membership
import PointsTo.Proofs.Solver.Monotone
import PointsTo.Proofs.Solver.Representatives
import PointsTo.Proofs.Run.Constraints
import PointsTo.Proofs.Run.Failure
import PointsTo.Proofs.Run.Fields
import PointsTo.Proofs.Run.Lifecycle
import PointsTo.Proofs.Run.Limits
import PointsTo.Proofs.Components.Exact
import PointsTo.Proofs.Reduction.Merging
import PointsTo.Proofs.Reduction.Passes
import PointsTo.Proofs.Reduction.NormalForm
import PointsTo.Proofs.Reduction.Acyclic
import PointsTo.Proofs.Constraint.IllFormed
import PointsTo.Proofs.Run.Validity
import PointsTo.Proofs.Reduction.Order
import PointsTo.Proofs.Reduction.Partial
import PointsTo.Proofs.Reduction.Again
import PointsTo.Proofs.Solver.Aborted
import PointsTo.Proofs.NodeTable.Facts
import PointsTo.Proofs.Reduction.Collapsed
import PointsTo.Proofs.Solver.Collapsed
import PointsTo.Proofs.Solver.Account
import PointsTo.Proofs.NodeSet.Finite
import PointsTo.Proofs.NodeTable.Layouts
import PointsTo.Proofs.Config.Yaml
import PointsTo.Proofs.Yaml.Block
import PointsTo.Proofs.Yaml.Core
import PointsTo.Proofs.Yaml.Reading
import PointsTo.Proofs.Dump
import PointsTo.Proofs.DisjointSets.Rank
import PointsTo.Proofs.Solver.Pending
import PointsTo.Proofs.Solver.SetAside
import PointsTo.Proofs.Solver.Rules
import PointsTo.Proofs.Worklist.Log
