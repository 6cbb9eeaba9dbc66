import StorageLoad.Arguments.Flag
import StorageLoad.Arguments.Reading
import StorageLoad.Clock
import StorageLoad.Config.Curve
import StorageLoad.Config.File
import StorageLoad.Config.Options
import StorageLoad.Config.Range
import StorageLoad.Config.Reading
import StorageLoad.Config.Settings
import StorageLoad.Config.Shares
import StorageLoad.Fault
import StorageLoad.Job
import StorageLoad.Journal
import StorageLoad.Kind
import StorageLoad.Latency
import StorageLoad.Log
import StorageLoad.Main
import StorageLoad.Markup.Cursor
import StorageLoad.Markup.Document
import StorageLoad.Markup.Meaning
import StorageLoad.Markup.Node
import StorageLoad.Markup.Scalar
import StorageLoad.Markup.Token
import StorageLoad.Namespace
import StorageLoad.Numeric.Double
import StorageLoad.Numeric.Fault
import StorageLoad.Numeric.Layout
import StorageLoad.Numeric.Literal
import StorageLoad.Numeric.Power
import StorageLoad.Numeric.Reckoning
import StorageLoad.Numeric.Rounding
import StorageLoad.Numeric.Shortest
import StorageLoad.Operation
import StorageLoad.Path
import StorageLoad.Program
import StorageLoad.Proofs.Agreement
import StorageLoad.Proofs.Arrival
import StorageLoad.Proofs.Attempt
import StorageLoad.Proofs.Breakpoints
import StorageLoad.Proofs.Choice
import StorageLoad.Proofs.Codes
import StorageLoad.Proofs.Config.Apportionment
import StorageLoad.Proofs.Config.Ceiling
import StorageLoad.Proofs.Config.Curves
import StorageLoad.Proofs.Config.Entries
import StorageLoad.Proofs.Config.Faults
import StorageLoad.Proofs.Config.Kinds
import StorageLoad.Proofs.Config.Modest
import StorageLoad.Proofs.Config.Percent
import StorageLoad.Proofs.Config.Ranges
import StorageLoad.Proofs.Config.Reading
import StorageLoad.Proofs.Config.Refusal
import StorageLoad.Proofs.Config.Seeds
import StorageLoad.Proofs.Config.Sizes
import StorageLoad.Proofs.Config.Spelling
import StorageLoad.Proofs.Config.WellFormed
import StorageLoad.Proofs.Confinement
import StorageLoad.Proofs.Corruption
import StorageLoad.Proofs.Curve
import StorageLoad.Proofs.Deadline
import StorageLoad.Proofs.Demand
import StorageLoad.Proofs.Double
import StorageLoad.Proofs.Double.Nearest
import StorageLoad.Proofs.Double.Order
import StorageLoad.Proofs.Double.Parts
import StorageLoad.Proofs.Double.Rounding
import StorageLoad.Proofs.Double.Value
import StorageLoad.Proofs.Exact
import StorageLoad.Proofs.Exhaustion
import StorageLoad.Proofs.Fraction
import StorageLoad.Proofs.Grammar
import StorageLoad.Proofs.History
import StorageLoad.Proofs.Host
import StorageLoad.Proofs.Host.Additions
import StorageLoad.Proofs.Host.Moves
import StorageLoad.Proofs.Interleaving
import StorageLoad.Proofs.Interruption
import StorageLoad.Proofs.Invariant
import StorageLoad.Proofs.Job
import StorageLoad.Proofs.Journal
import StorageLoad.Proofs.Keys
import StorageLoad.Proofs.Latency
import StorageLoad.Proofs.Literal
import StorageLoad.Proofs.Local
import StorageLoad.Proofs.Local.Factors
import StorageLoad.Proofs.Local.Failure
import StorageLoad.Proofs.Local.Reachable
import StorageLoad.Proofs.Memory.Ascent
import StorageLoad.Proofs.Memory.Edits
import StorageLoad.Proofs.Memory.Entries
import StorageLoad.Proofs.Memory.Failure
import StorageLoad.Proofs.Memory.Files
import StorageLoad.Proofs.Memory.Lag
import StorageLoad.Proofs.Memory.Listing
import StorageLoad.Proofs.Memory.Parents
import StorageLoad.Proofs.Memory.Plan
import StorageLoad.Proofs.Memory.Reachable
import StorageLoad.Proofs.Memory.Rename
import StorageLoad.Proofs.Memory.Scan
import StorageLoad.Proofs.Memory.Tree
import StorageLoad.Proofs.Memory.Written
import StorageLoad.Proofs.Merging
import StorageLoad.Proofs.Namespace
import StorageLoad.Proofs.Namespace.Directories
import StorageLoad.Proofs.Opening
import StorageLoad.Proofs.Operation
import StorageLoad.Proofs.Options
import StorageLoad.Proofs.Outcome
import StorageLoad.Proofs.Pace
import StorageLoad.Proofs.Path
import StorageLoad.Proofs.Percentile
import StorageLoad.Proofs.Polyline
import StorageLoad.Proofs.Random
import StorageLoad.Proofs.Rates
import StorageLoad.Proofs.Reach
import StorageLoad.Proofs.Reducer
import StorageLoad.Proofs.Replay
import StorageLoad.Proofs.Report
import StorageLoad.Proofs.Sections
import StorageLoad.Proofs.Segment
import StorageLoad.Proofs.Selector
import StorageLoad.Proofs.Shared
import StorageLoad.Proofs.Stream
import StorageLoad.Proofs.Table
import StorageLoad.Proofs.Timing
import StorageLoad.Proofs.Waiting
import StorageLoad.Proofs.Worker
import StorageLoad.Random.Source
import StorageLoad.Random.Twister
import StorageLoad.Record
import StorageLoad.Reducer
import StorageLoad.Report
import StorageLoad.Segment
import StorageLoad.Selector
import StorageLoad.Simulation
import StorageLoad.Store.Fault
import StorageLoad.Store.Host
import StorageLoad.Store.Local
import StorageLoad.Store.Memory
import StorageLoad.Store.Request
import StorageLoad.Surroundings
import StorageLoad.Table
import StorageLoad.Text.Blank
import StorageLoad.Text.Casing
import StorageLoad.Text.Digit
import StorageLoad.Text.Escape
import StorageLoad.Text.Half
import StorageLoad.Text.Hex
import StorageLoad.Text.Line
import StorageLoad.Text.Printable
import StorageLoad.Text.Quoted
import StorageLoad.Text.Split
import StorageLoad.Value.Basic
import StorageLoad.Value.Items
import StorageLoad.Worker
