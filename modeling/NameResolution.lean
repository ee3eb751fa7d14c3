import NameResolution.Report
import NameResolution.Session
import NameResolution.Proofs.Text.Occurrence
import NameResolution.Proofs.Text.Walk
import NameResolution.Proofs.Declaration.Run
import NameResolution.Proofs.Import.State
import NameResolution.Proofs.Import.Completion
import NameResolution.Proofs.Import.Cycle
import NameResolution.Proofs.Resolution.Paths
import NameResolution.Proofs.Resolution.Run
import NameResolution.Proofs.Session
import NameResolution.Proofs.Import.Depth
import NameResolution.Proofs.Import.Outcome
import NameResolution.Proofs.Import.Rounds
import NameResolution.Proofs.Declaration.Outcome
import NameResolution.Proofs.Tables.Aliases
import NameResolution.Proofs.Tables.Sorts
import NameResolution.Proofs.Declaration.Sorts
import NameResolution.Proofs.Import.Ending
import NameResolution.Proofs.Import.Moves
import NameResolution.Proofs.Tables.Places
import NameResolution.Proofs.Import.Plain
import NameResolution.Proofs.Import.Tracing
import NameResolution.Proofs.Import.Run
import NameResolution.Proofs.Import.Failure
import NameResolution.Proofs.Import.Overloads
import NameResolution.Proofs.Declaration.Directives
import NameResolution.Proofs.Import.Trail
import NameResolution.Proofs.Import.Precedence
import NameResolution.Proofs.Import.Globs
import NameResolution.Proofs.Declaration.Owners
import NameResolution.Proofs.Resolution.Meaning
import NameResolution.Proofs.Import.Abreast
import NameResolution.Proofs.Import.Order
import NameResolution.Proofs.Declaration.Standing
import NameResolution.Proofs.Declaration.Redefinitions
import NameResolution.Proofs.Import.Paths
import NameResolution.Proofs.Import.Balance
import NameResolution.Proofs.Import.Settlement
import NameResolution.Proofs.Text.Tour
import NameResolution.Proofs.Resolution.Lookups
import NameResolution.Proofs.Resolution.Points
import NameResolution.Proofs.InStep
import NameResolution.Proofs.Text.Calls
import NameResolution.Proofs.Resolution.Segments
import NameResolution.Proofs.Resolution.Records
import NameResolution.Proofs.Resolution.Targets
import NameResolution.Proofs.Calls
import NameResolution.Proofs.Recorded
import NameResolution.Proofs.Tables.Writes
import NameResolution.Proofs.Tables.Chains
import NameResolution.Proofs.Tables.WriteOnce
import NameResolution.Proofs.Tables.Shape
import NameResolution.Proofs.Journal
import NameResolution.Proofs.Tables.Moments
import NameResolution.Proofs.Declaration.Writes
import NameResolution.Proofs.Import.Writes
import NameResolution.Proofs.Import.Underway
import NameResolution.Proofs.Import.Stack
import NameResolution.Proofs.Import.Congruence
import NameResolution.Proofs.Agreement
import NameResolution.Proofs.Import.Advice
import NameResolution.Proofs.Resolution.Advice
import NameResolution.Proofs.Advice
import NameResolution.Proofs.Resolution.Variables
import NameResolution.Proofs.Types
import NameResolution.Proofs.Text.Pieces
import NameResolution.Proofs.Declaration.Filing
import NameResolution.Proofs.Text.Arrangement
import NameResolution.Proofs.Text.Rearranged
import NameResolution.Proofs.Declaration.Mirror
import NameResolution.Proofs.Declaration.Clashes
import NameResolution.Proofs.Declaration.Rearranged
import NameResolution.Proofs.Resolution.Mirror
import NameResolution.Proofs.Rearranged
import NameResolution.Proofs.Tables.Mods
import NameResolution.Proofs.Resolution.Members
import NameResolution.Proofs.Climbing
import NameResolution.Proofs.Prefixes
import NameResolution.Proofs.Resolution.Warnings
import NameResolution.Proofs.Resolution.Visibility
import NameResolution.Proofs.Privacy
import NameResolution.Proofs.Text.Selves
import NameResolution.Proofs.Resolution.Selves
import NameResolution.Proofs.Selves
import NameResolution.Proofs.Tables.Consistency
import NameResolution.Proofs.Tables.Merging
import NameResolution.Proofs.Text.Leaves
import NameResolution.Proofs.Declaration.Leaves
import NameResolution.Proofs.Import.Lint
import NameResolution.Proofs.Import.Privacy
import NameResolution.Proofs.Tables.Listing
import NameResolution.Proofs.Resolution.Restored
import NameResolution.Proofs.Resolution.Absolute
import NameResolution.Proofs.Absolute
import NameResolution.Proofs.Resolution.Suggestions
import NameResolution.Proofs.Suggestions
import NameResolution.Proofs.Text.Labels
import NameResolution.Proofs.Declaration.Keys
