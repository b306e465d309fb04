import HyperQuery.AtomSet
import HyperQuery.Comparison
import HyperQuery.Condition.Basic
import HyperQuery.Condition.Eval
import HyperQuery.Condition.NormalForm
import HyperQuery.Condition.Simplify
import HyperQuery.Cursor.Basic
import HyperQuery.Cursor.Blueprint
import HyperQuery.Cursor.Buffered
import HyperQuery.Cursor.Filter
import HyperQuery.Cursor.Frontier
import HyperQuery.Cursor.Intersection
import HyperQuery.Cursor.Snapshot
import HyperQuery.Cursor.Union
import HyperQuery.Double.Basic
import HyperQuery.Double.Decimal
import HyperQuery.Error
import HyperQuery.Estimate
import HyperQuery.Graph
import HyperQuery.Hash.XXH64
import HyperQuery.Json.Basic
import HyperQuery.Json.Number
import HyperQuery.Json.Parser
import HyperQuery.LinkPattern
import HyperQuery.Metered
import HyperQuery.Plan.Basic
import HyperQuery.Plan.Build
import HyperQuery.Plan.Config
import HyperQuery.Plan.ConfigText
import HyperQuery.Plan.Explain
import HyperQuery.Proofs.AtomSet
import HyperQuery.Proofs.Condition.Clauses
import HyperQuery.Proofs.Condition.Conjunction
import HyperQuery.Proofs.Condition.Contradiction
import HyperQuery.Proofs.Condition.Distribution
import HyperQuery.Proofs.Condition.NormalForm
import HyperQuery.Proofs.Condition.Pointwise
import HyperQuery.Proofs.Condition.Results
import HyperQuery.Proofs.Condition.Simplify
import HyperQuery.Proofs.Condition.Testing
import HyperQuery.Proofs.Condition.Text
import HyperQuery.Proofs.Condition.Tree
import HyperQuery.Proofs.Condition.Truth
import HyperQuery.Proofs.Counting
import HyperQuery.Proofs.Cursor.Basic
import HyperQuery.Proofs.Cursor.Blueprint
import HyperQuery.Proofs.Cursor.BreadthFirst
import HyperQuery.Proofs.Cursor.Buffered
import HyperQuery.Proofs.Cursor.Capacity
import HyperQuery.Proofs.Cursor.Denotation
import HyperQuery.Proofs.Cursor.DepthFirst
import HyperQuery.Proofs.Cursor.Draining
import HyperQuery.Proofs.Cursor.Failing
import HyperQuery.Proofs.Cursor.Filter
import HyperQuery.Proofs.Cursor.Frontier
import HyperQuery.Proofs.Cursor.Gathering
import HyperQuery.Proofs.Cursor.Intersection
import HyperQuery.Proofs.Cursor.Outcomes
import HyperQuery.Proofs.Cursor.Protocol
import HyperQuery.Proofs.Cursor.Reading
import HyperQuery.Proofs.Cursor.Scans
import HyperQuery.Proofs.Cursor.Seeking
import HyperQuery.Proofs.Cursor.Snapshot
import HyperQuery.Proofs.Cursor.Stepping
import HyperQuery.Proofs.Cursor.Traces
import HyperQuery.Proofs.Cursor.Union
import HyperQuery.Proofs.Cursor.Verdicts
import HyperQuery.Proofs.Cursor.Visiting
import HyperQuery.Proofs.Cursor.Window
import HyperQuery.Proofs.Dangling
import HyperQuery.Proofs.Double.Decimal
import HyperQuery.Proofs.Double.Order
import HyperQuery.Proofs.Double.Sign
import HyperQuery.Proofs.Estimate
import HyperQuery.Proofs.Exploration
import HyperQuery.Proofs.Flags
import HyperQuery.Proofs.FullScan
import HyperQuery.Proofs.Json.Number
import HyperQuery.Proofs.Json.Parser
import HyperQuery.Proofs.Mapping
import HyperQuery.Proofs.Materialization
import HyperQuery.Proofs.Metered
import HyperQuery.Proofs.Narrowing
import HyperQuery.Proofs.Operands
import HyperQuery.Proofs.Plan.Answers
import HyperQuery.Proofs.Plan.Calls
import HyperQuery.Proofs.Plan.Conjunction
import HyperQuery.Proofs.Plan.Dangling
import HyperQuery.Proofs.Plan.Explain
import HyperQuery.Proofs.Plan.Finds
import HyperQuery.Proofs.Plan.Flags
import HyperQuery.Proofs.Plan.FullScan
import HyperQuery.Proofs.Plan.Leaf
import HyperQuery.Proofs.Plan.Limits
import HyperQuery.Proofs.Plan.Making
import HyperQuery.Proofs.Plan.Narrowing
import HyperQuery.Proofs.Plan.Nested
import HyperQuery.Proofs.Plan.NormalForm
import HyperQuery.Proofs.Plan.Prepare
import HyperQuery.Proofs.Plan.Prepared
import HyperQuery.Proofs.Plan.Reading
import HyperQuery.Proofs.Plan.Redaction
import HyperQuery.Proofs.Plan.Repeats
import HyperQuery.Proofs.Plan.Scans
import HyperQuery.Proofs.Plan.Shape
import HyperQuery.Proofs.Plan.Slots
import HyperQuery.Proofs.Plan.Steps
import HyperQuery.Proofs.Plan.Stream
import HyperQuery.Proofs.Plan.Success
import HyperQuery.Proofs.Query
import HyperQuery.Proofs.Release
import HyperQuery.Proofs.Repeats
import HyperQuery.Proofs.Reuse
import HyperQuery.Proofs.Reversal
import HyperQuery.Proofs.Safety
import HyperQuery.Proofs.Scans
import HyperQuery.Proofs.Session
import HyperQuery.Proofs.Store.Changes
import HyperQuery.Proofs.Store.Consistent
import HyperQuery.Proofs.Store.Counts
import HyperQuery.Proofs.Store.Entries
import HyperQuery.Proofs.Store.Growth
import HyperQuery.Proofs.Store.Handles
import HyperQuery.Proofs.Store.InPlace
import HyperQuery.Proofs.Store.Index
import HyperQuery.Proofs.Store.Lookup
import HyperQuery.Proofs.Store.Postings
import HyperQuery.Proofs.Store.Reachable
import HyperQuery.Proofs.Testability
import HyperQuery.Proofs.Text
import HyperQuery.Proofs.Transaction
import HyperQuery.Proofs.Traversal
import HyperQuery.Proofs.Value.Equality
import HyperQuery.Proofs.Value.Json
import HyperQuery.Proofs.Value.Numeric
import HyperQuery.Proofs.Value.Order
import HyperQuery.Proofs.Value.Text
import HyperQuery.Proofs.Walk
import HyperQuery.Query
import HyperQuery.Session
import HyperQuery.Store.Basic
import HyperQuery.Store.Index
import HyperQuery.Store.Postings
import HyperQuery.Store.Scan
import HyperQuery.Store.Snapshot
import HyperQuery.Text.GraphemeExtend
import HyperQuery.Text.Quoted
import HyperQuery.Text.Unprintable
import HyperQuery.Toml.Basic
import HyperQuery.Toml.Document
import HyperQuery.Toml.Inline
import HyperQuery.Toml.Scalar
import HyperQuery.Transaction
import HyperQuery.Value.Basic
import HyperQuery.Value.Json
import HyperQuery.Walk
