import NamedConstants.Arithmetic
import NamedConstants.Constants.Closure
import NamedConstants.Constants.Definition
import NamedConstants.Constants.Graph
import NamedConstants.Constants.Order
import NamedConstants.Constants.Sweep
import NamedConstants.Constants.Table
import NamedConstants.Constraint
import NamedConstants.Decimal.Basic
import NamedConstants.Decimal.Binary
import NamedConstants.Decimal.Shortest
import NamedConstants.Decimal.Text
import NamedConstants.Engine.Basic
import NamedConstants.Engine.Config
import NamedConstants.Engine.Inspect
import NamedConstants.Engine.Listeners
import NamedConstants.Expr.Basic
import NamedConstants.Expr.Eval
import NamedConstants.Expr.Render
import NamedConstants.Fault
import NamedConstants.InsertionMap
import NamedConstants.InsertionSet
import NamedConstants.Linear.Form
import NamedConstants.Linear.Linearize
import NamedConstants.Linear.Render
import NamedConstants.Log
import NamedConstants.Propagation.Registry
import NamedConstants.Propagation.Update
import NamedConstants.Solver.Recorder
import NamedConstants.Solver.Strength
import NamedConstants.Source.Bind
import NamedConstants.Source.Cache
import NamedConstants.Source.Parse
import NamedConstants.Source.Token
import NamedConstants.Source.Tree
import NamedConstants.Source.Units
import NamedConstants.Proofs.Constants.Closure
import NamedConstants.Proofs.Constants.Evaluation
import NamedConstants.Proofs.Constants.Order
import NamedConstants.Proofs.Constants.Schedule
import NamedConstants.Proofs.Constants.Sweep
import NamedConstants.Proofs.Constants.Coherent
import NamedConstants.Proofs.Constants.Runs
import NamedConstants.Proofs.Constants.Arrangement
import NamedConstants.Proofs.Constants.History
import NamedConstants.Proofs.Engine.Values
import NamedConstants.Proofs.Propagation.Refresh
import NamedConstants.Proofs.Propagation.Runs
import NamedConstants.Proofs.Propagation.InStep
import NamedConstants.Proofs.Constants.Changes
import NamedConstants.Proofs.Linear.Reading
import NamedConstants.Proofs.Linear.Outcome
import NamedConstants.Proofs.Linear.Meaning
import NamedConstants.Proofs.Propagation.Currency
import NamedConstants.Proofs.Propagation.Overdue
import NamedConstants.Proofs.Propagation.Retry
import NamedConstants.Proofs.Source.Grammar
import NamedConstants.Proofs.Source.Numerals
import NamedConstants.Proofs.Source.Lexing
import NamedConstants.Proofs.Source.Parsing
import NamedConstants.Proofs.Constants.Edges
import NamedConstants.Proofs.Constants.Replay
import NamedConstants.Proofs.Engine.Runs
import NamedConstants.Proofs.Engine.Events
import NamedConstants.Proofs.Decimal.Doubles
import NamedConstants.Proofs.InsertionSet
import NamedConstants.Proofs.Linear.Normal
import NamedConstants.Proofs.Linear.Faults
import NamedConstants.Proofs.Linear.ConstantParts
import NamedConstants.Proofs.Propagation.Handed
import NamedConstants.Proofs.Engine.Handed
import NamedConstants.Proofs.Expr.Grouping
import NamedConstants.Proofs.Decimal.Numeral
import NamedConstants.Proofs.Source.Spelling
import NamedConstants.Proofs.Source.Printing
import NamedConstants.Proofs.Source.RoundTrip
import NamedConstants.Proofs.Propagation.Handles
import NamedConstants.Proofs.Propagation.Requests
import NamedConstants.Proofs.Decimal.Signs
import NamedConstants.Proofs.Decimal.NonFinite
import NamedConstants.Proofs.Expr.Nodes
import NamedConstants.Proofs.Linear.Text
import NamedConstants.Proofs.Linear.RoundTrip
import NamedConstants.Proofs.Source.Caching
import NamedConstants.Proofs.Engine.Replies
import NamedConstants.Proofs.Engine.Rejected
import NamedConstants.Proofs.Constants.Fixpoint
import NamedConstants.Proofs.Constants.Acceptance
import NamedConstants.Proofs.Constants.Report
import NamedConstants.Proofs.Propagation.Stopped
import NamedConstants.Proofs.Propagation.Coverage
import NamedConstants.Proofs.Source.Recency
import NamedConstants.Proofs.Propagation.Skipped
import NamedConstants.Proofs.Source.Names
import NamedConstants.Proofs.Source.Binding
import NamedConstants.Proofs.Source.Cutting
import NamedConstants.Proofs.Source.Viable
import NamedConstants.Proofs.Propagation.Repeated
import NamedConstants.Proofs.Propagation.Remembered
import NamedConstants.Proofs.Propagation.Reported
import NamedConstants.Proofs.Engine.Explained
import NamedConstants.Proofs.Constants.Distance
import NamedConstants.Proofs.Expr.References
import NamedConstants.Proofs.Solver.Replay
