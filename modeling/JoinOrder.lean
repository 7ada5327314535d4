import JoinOrder.Dictionary
import JoinOrder.Document.Export
import JoinOrder.Document.Reading
import JoinOrder.Execution
import JoinOrder.Log
import JoinOrder.Plan.Text
import JoinOrder.Proofs.Checked
import JoinOrder.Proofs.Rows
import JoinOrder.Proofs.ValueClass
import JoinOrder.Proofs.Bag
import JoinOrder.Proofs.Assignment
import JoinOrder.Proofs.Atom
import JoinOrder.Proofs.Query
import JoinOrder.Proofs.Strategy
import JoinOrder.Proofs.Nodes
import JoinOrder.Proofs.Execution
import JoinOrder.Proofs.Components
import JoinOrder.Proofs.Search
import JoinOrder.Proofs.Merge
import JoinOrder.Proofs.Sorting
import JoinOrder.Proofs.Monotone
import JoinOrder.Proofs.Binding
import JoinOrder.Proofs.LabelledGraph
import JoinOrder.Proofs.Connectivity
import JoinOrder.Proofs.States
import JoinOrder.Proofs.Planning
import JoinOrder.Proofs.Structure
import JoinOrder.Proofs.Ranked
import JoinOrder.Proofs.Ordered
import JoinOrder.Proofs.Table
import JoinOrder.Proofs.Handle
import JoinOrder.Proofs.Binary64
import JoinOrder.Proofs.Stream
import JoinOrder.Proofs.Source
import JoinOrder.Proofs.Stored
import JoinOrder.Proofs.Relation
import JoinOrder.Proofs.InMemory
import JoinOrder.Proofs.Evaluation
import JoinOrder.Proofs.Reordered
import JoinOrder.Proofs.Declared
import JoinOrder.Proofs.Cardinality
import JoinOrder.Proofs.Counts
import JoinOrder.Proofs.Found
import JoinOrder.Proofs.Estimates
import JoinOrder.Proofs.Sizes
import JoinOrder.Proofs.Announced
import JoinOrder.Proofs.CrossProducts
import JoinOrder.Proofs.Magnitude
import JoinOrder.Proofs.Costs
import JoinOrder.Proofs.Reports
import JoinOrder.Proofs.Progress
import JoinOrder.Proofs.IndexKeys
import JoinOrder.Proofs.Greedy
import JoinOrder.Proofs.Bounds
import JoinOrder.Proofs.Numbers
import JoinOrder.Proofs.Consistent
import JoinOrder.Proofs.Exact
import JoinOrder.Proofs.Selection
import JoinOrder.Proofs.Agreement
import JoinOrder.Proofs.Sequence
import JoinOrder.Proofs.Outputs
import JoinOrder.Proofs.AccessPath
import JoinOrder.Proofs.Dependencies
import JoinOrder.Proofs.Rebuilt
import JoinOrder.Proofs.Arithmetic
import JoinOrder.Proofs.Frequencies
import JoinOrder.Proofs.Mappings
import JoinOrder.Proofs.Document
import JoinOrder.Proofs.Export
import JoinOrder.Proofs.WholeSizes
import JoinOrder.Proofs.Schemas
import JoinOrder.Proofs.Growth
import JoinOrder.Proofs.Canonical
import JoinOrder.Proofs.LongestKey
