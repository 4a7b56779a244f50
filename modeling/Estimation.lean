import Estimation.Command
import Estimation.Command.Display
import Estimation.Command.Options
import Estimation.Command.Settings
import Estimation.Compilation
import Estimation.Digest
import Estimation.Evaluation
import Estimation.Failure
import Estimation.Files
import Estimation.Graph
import Estimation.Json
import Estimation.Json.Reader
import Estimation.Library
import Estimation.Library.Arguments
import Estimation.Library.Dicts
import Estimation.Library.Distributions
import Estimation.Library.Lists
import Estimation.Library.Mathematics
import Estimation.Library.Operators
import Estimation.Link
import Estimation.Machine
import Estimation.Main
import Estimation.Module
import Estimation.Module.Error
import Estimation.Module.Path
import Estimation.Native
import Estimation.Number.Binary
import Estimation.Number.Decimal
import Estimation.Number.Notation
import Estimation.Number.Numeral
import Estimation.Output
import Estimation.Output.Id
import Estimation.Position
import Estimation.Project
import Estimation.Project.Computation
import Estimation.Project.Loading
import Estimation.Project.Sources
import Estimation.Project.Store
import Estimation.Random
import Estimation.Report
import Estimation.Report.Kind
import Estimation.Samples
import Estimation.Scope
import Estimation.Settings
import Estimation.Settings.Json
import Estimation.Syntax
import Estimation.Syntax.Cursor
import Estimation.Syntax.Grammar
import Estimation.Syntax.Json
import Estimation.Table
import Estimation.Text.Blank
import Estimation.Text.Pieces
import Estimation.Text.Quoted
import Estimation.Text.Visible
import Estimation.Token
import Estimation.Token.Lexer
import Estimation.Token.Magnitude
import Estimation.Token.Name
import Estimation.Value
import Estimation.Value.Path
import Estimation.Value.Tagged
import Estimation.Proofs.Alike
import Estimation.Proofs.Alike.Collections
import Estimation.Proofs.Alike.Distributions
import Estimation.Proofs.Steps
import Estimation.Proofs.Steps.Library
import Estimation.Proofs.Steps.Calls
import Estimation.Proofs.Steps.Code
import Estimation.Proofs.Naming
import Estimation.Proofs.Agreement
import Estimation.Proofs.Agreement.Expressions
import Estimation.Proofs.Bindings
import Estimation.Proofs.Agreement.Programs
import Estimation.Proofs.Meaning
import Estimation.Proofs.Faultless
import Estimation.Proofs.Derivation
import Estimation.Proofs.Invalidation
import Estimation.Proofs.Recomputation
import Estimation.Proofs.Renaming
import Estimation.Proofs.Caching
import Estimation.Proofs.Cycles
import Estimation.Proofs.Propagation
import Estimation.Proofs.Alike.Operators
import Estimation.Proofs.Graph
import Estimation.Proofs.History
import Estimation.Proofs.Identity
import Estimation.Proofs.Keeping
import Estimation.Proofs.Lowering
import Estimation.Proofs.Ordering
import Estimation.Proofs.Renaming.Compilation
import Estimation.Proofs.Renaming.Outputs
import Estimation.Proofs.Replies
import Estimation.Proofs.Requests
import Estimation.Proofs.Returning
import Estimation.Proofs.Standing
import Estimation.Proofs.Tables
import Estimation.Proofs.Unlinked
import Estimation.Proofs.Actions
import Estimation.Proofs.Heads
import Estimation.Proofs.Loads
import Estimation.Proofs.Pins
import Estimation.Proofs.Waiting
import Estimation.Proofs.Wholeness
import Estimation.Proofs.Confluence
import Estimation.Proofs.Fates
import Estimation.Proofs.Recall
import Estimation.Proofs.Ingredients
import Estimation.Proofs.Course
import Estimation.Proofs.Course.Interpreter
import Estimation.Proofs.Course.Agreement
import Estimation.Proofs.Restoration
import Estimation.Proofs.Layout
import Estimation.Proofs.Layout.Readers
import Estimation.Proofs.Locations
import Estimation.Proofs.Tiling
import Estimation.Proofs.Layout.Tree
import Estimation.Proofs.Recording
import Estimation.Proofs.Nesting
import Estimation.Proofs.Nesting.Limits
import Estimation.Proofs.Nesting.Readers
import Estimation.Proofs.Nesting.Programs
import Estimation.Proofs.Grouping
import Estimation.Proofs.Precedence
import Estimation.Proofs.Visibility
import Estimation.Proofs.Pipes
import Estimation.Proofs.Capturing
import Estimation.Proofs.Reordering
import Estimation.Proofs.Reordering.Compilation
import Estimation.Proofs.Reordering.Runs
import Estimation.Proofs.Reordering.Programs
import Estimation.Proofs.Chains
import Estimation.Proofs.Chains.Failures
import Estimation.Proofs.Chains.Adequacy
import Estimation.Proofs.Chains.Entries
import Estimation.Proofs.Paths
import Estimation.Proofs.Paths.Readers
import Estimation.Proofs.Paths.Places
import Estimation.Proofs.Paths.Values
import Estimation.Proofs.Repetition
import Estimation.Proofs.Executions
import Estimation.Proofs.Dependents
import Estimation.Proofs.Preloading
import Estimation.Proofs.Cleaning
import Estimation.Proofs.Cutting
import Estimation.Proofs.Breaking
import Estimation.Proofs.Drawing
import Estimation.Proofs.Completeness
import Estimation.Proofs.Completeness.Library
import Estimation.Proofs.Completeness.Evaluation
import Estimation.Proofs.Distributions
import Estimation.Proofs.FileNames
import Estimation.Proofs.Layers
import Estimation.Proofs.Numerals
import Estimation.Proofs.Doubles
import Estimation.Proofs.Rounding
import Estimation.Proofs.Counting
import Estimation.Proofs.Consistency
import Estimation.Proofs.Interruption
import Estimation.Proofs.Scoping
import Estimation.Proofs.Snapshots
