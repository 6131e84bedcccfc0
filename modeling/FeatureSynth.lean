import FeatureSynth.Analysis
import FeatureSynth.Bisect
import FeatureSynth.Build.Arrange
import FeatureSynth.Build.Candidate
import FeatureSynth.Build.Cost
import FeatureSynth.Build.Field
import FeatureSynth.Build.Member
import FeatureSynth.Build.Sampled
import FeatureSynth.Build.State
import FeatureSynth.Calendar.Date
import FeatureSynth.Calendar.Reader
import FeatureSynth.CommandLine
import FeatureSynth.Decimal.Layout
import FeatureSynth.Decimal.Shortest
import FeatureSynth.Demo
import FeatureSynth.Demo.Orders
import FeatureSynth.Error
import FeatureSynth.Formula.Basic
import FeatureSynth.Formula.Lexer
import FeatureSynth.Formula.Order
import FeatureSynth.Formula.Parser
import FeatureSynth.Formula.Printer
import FeatureSynth.Formula.Token
import FeatureSynth.Interrupt
import FeatureSynth.Kind
import FeatureSynth.Ledger
import FeatureSynth.Main
import FeatureSynth.Options
import FeatureSynth.Partile.Basic
import FeatureSynth.Partile.Group
import FeatureSynth.Partile.Interval
import FeatureSynth.Partile.Mean
import FeatureSynth.Proofs.Bisect
import FeatureSynth.Proofs.Build.Bind
import FeatureSynth.Proofs.Build.Direct
import FeatureSynth.Proofs.Build.Duplicate
import FeatureSynth.Proofs.Build.Growth
import FeatureSynth.Proofs.Build.InStep
import FeatureSynth.Proofs.Build.Linked
import FeatureSynth.Proofs.Build.Marks
import FeatureSynth.Proofs.Build.Optimized
import FeatureSynth.Proofs.Build.Parts
import FeatureSynth.Proofs.Build.Path
import FeatureSynth.Proofs.Build.Run
import FeatureSynth.Proofs.Build.Shared
import FeatureSynth.Proofs.Build.Standard
import FeatureSynth.Proofs.Build.Steps
import FeatureSynth.Proofs.Build.Whole
import FeatureSynth.Proofs.Ledger
import FeatureSynth.Proofs.Ledger.Sorted
import FeatureSynth.Proofs.Partile.Criterion
import FeatureSynth.Proofs.Partile.Frequencies
import FeatureSynth.Proofs.Partile.Levels
import FeatureSynth.Proofs.Registry.Index
import FeatureSynth.Proofs.Registry.Memo
import FeatureSynth.Proofs.Rule.Alike
import FeatureSynth.Proofs.Rule.Check
import FeatureSynth.Proofs.Rule.Lawful
import FeatureSynth.Proofs.Rule.Signature
import FeatureSynth.Proofs.Rule.Templates
import FeatureSynth.Proofs.Scalar.Order
import FeatureSynth.Proofs.Schema.Edit
import FeatureSynth.Proofs.Schema.FreeName
import FeatureSynth.Proofs.Schema.WellFormed
import FeatureSynth.Proofs.Space.Bound
import FeatureSynth.Proofs.Space.Cells
import FeatureSynth.Proofs.Space.Groups
import FeatureSynth.Proofs.Space.Intervals
import FeatureSynth.Proofs.Space.Keys
import FeatureSynth.Proofs.Space.Lawful
import FeatureSynth.Proofs.Space.Links
import FeatureSynth.Proofs.Space.Uses
import FeatureSynth.Proofs.Space.WellFounded
import FeatureSynth.Registry
import FeatureSynth.Report
import FeatureSynth.Request
import FeatureSynth.Rule.Basic
import FeatureSynth.Rule.Check
import FeatureSynth.Rule.Formula
import FeatureSynth.Rule.Name
import FeatureSynth.Rule.Order
import FeatureSynth.Rule.Signature
import FeatureSynth.Sample.Basic
import FeatureSynth.Sample.Memory
import FeatureSynth.Saturate
import FeatureSynth.Scalar
import FeatureSynth.Schema.Basic
import FeatureSynth.Schema.Edit
import FeatureSynth.Schema.Reduce
import FeatureSynth.Schema.WellFormed
import FeatureSynth.Space.Basic
import FeatureSynth.Space.Descriptor
import FeatureSynth.Space.Resolve
import FeatureSynth.Space.Use
import FeatureSynth.Template.Basic
import FeatureSynth.Template.Default
import FeatureSynth.Text.Blank
import FeatureSynth.Text.Digit
import FeatureSynth.Text.Duration
import FeatureSynth.Proofs.Build.Coherent
import FeatureSynth.Proofs.Formula.RoundTrip
import FeatureSynth.Proofs.Rule.FirstPart
import FeatureSynth.Proofs.Space.Blocks
import FeatureSynth.Proofs.Space.Costs
import FeatureSynth.Proofs.Formula.Grammar
import FeatureSynth.Proofs.Scalar.Rounding
import FeatureSynth.Proofs.Scalar.Fields
import FeatureSynth.Proofs.Decimal.Nearest
import FeatureSynth.Proofs.Decimal.Shortest
import FeatureSynth.Proofs.Decimal.Layout
import FeatureSynth.Proofs.Decimal.Readable
import FeatureSynth.Proofs.Formula.Reparse
import FeatureSynth.Proofs.Space.Twin
import FeatureSynth.Proofs.Schema.Core
import FeatureSynth.Proofs.Registry.Applies
import FeatureSynth.Proofs.Schema.InOrder
import FeatureSynth.Proofs.Schema.Faults
import FeatureSynth.Proofs.Schema.Edits
import FeatureSynth.Proofs.Rule.BlockName
import FeatureSynth.Proofs.Rule.Grounded
import FeatureSynth.Proofs.Space.SameLevels
import FeatureSynth.Proofs.Space.Located
import FeatureSynth.Proofs.Build.Found
import FeatureSynth.Proofs.Build.Ensures
import FeatureSynth.Proofs.Build.Follow
import FeatureSynth.Proofs.Build.FollowBlocks
import FeatureSynth.Proofs.Build.Idempotent
import FeatureSynth.Proofs.Build.Creation
import FeatureSynth.Proofs.Build.Numbered
import FeatureSynth.Proofs.Build.NamesDiffer
import FeatureSynth.Proofs.Build.Turns
import FeatureSynth.Proofs.Schema.Later
import FeatureSynth.Proofs.Build.Kept
import FeatureSynth.Proofs.Build.Used
import FeatureSynth.Proofs.Build.Conserved
import FeatureSynth.Proofs.Build.Attributed
import FeatureSynth.Proofs.Build.Cap
import FeatureSynth.Proofs.Build.Feasible
import FeatureSynth.Proofs.Registry.Lookups
import FeatureSynth.Proofs.Build.Reduced
import FeatureSynth.Proofs.Build.Loaded
import FeatureSynth.Proofs.Rule.SameName
import FeatureSynth.Proofs.Build.Titled
import FeatureSynth.Proofs.Build.SameNames
import FeatureSynth.Proofs.Space.UseOrder
import FeatureSynth.Proofs.Request.Analysed
import FeatureSynth.Proofs.Request.AnyOrder
import FeatureSynth.Proofs.Build.FeasibleBlocks
import FeatureSynth.Proofs.Build.FeasibleDimensions
import FeatureSynth.Proofs.Build.Unfailing
import FeatureSynth.Proofs.Request.Unfailing
import FeatureSynth.Proofs.Ledger.Map
import FeatureSynth.Proofs.Schema.Tail
import FeatureSynth.Proofs.Build.Prolonged
import FeatureSynth.Proofs.Build.Credited
import FeatureSynth.Proofs.Build.FieldOrder
import FeatureSynth.Proofs.Schema.EachField
import FeatureSynth.Proofs.Build.LastTurn
import FeatureSynth.Proofs.Build.Recost
import FeatureSynth.Proofs.Schema.Back
import FeatureSynth.Proofs.Build.Arranged
import FeatureSynth.Proofs.Rule.Mates
import FeatureSynth.Proofs.Build.Extended
import FeatureSynth.Proofs.Build.SameBlock
import FeatureSynth.Proofs.Build.Learned
import FeatureSynth.Proofs.Build.Filed
import FeatureSynth.Proofs.Build.Orderly
import FeatureSynth.Proofs.Build.Behind
import FeatureSynth.Proofs.Build.BlockOrder
import FeatureSynth.Proofs.Space.Encoded
import FeatureSynth.Proofs.Space.UseCounts
import FeatureSynth.Proofs.Space.Operations
import FeatureSynth.Proofs.Space.Interned
import FeatureSynth.Proofs.Space.Reached
import FeatureSynth.Proofs.Build.Ledgerwise
import FeatureSynth.Proofs.Build.Collected
import FeatureSynth.Proofs.Partile.GroupCounts
import FeatureSynth.Proofs.Build.SelectedTable
import FeatureSynth.Proofs.Scalar.Number
import FeatureSynth.Proofs.Scalar.Rounds
import FeatureSynth.Proofs.Scalar.Arithmetic
import FeatureSynth.Proofs.Partile.Mean
import FeatureSynth.Proofs.Partile.Cuttable
import FeatureSynth.Proofs.Request.AllOrNothing
import FeatureSynth.Proofs.Partile.Tiling
import FeatureSynth.Proofs.Formula.Order
