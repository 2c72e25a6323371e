import YamlEdit.CommandLine.Arguments
import YamlEdit.CommandLine.Files
import YamlEdit.CommandLine.Report
import YamlEdit.CommandLine.Run
import YamlEdit.Decimal.Shortest
import YamlEdit.Diff.Basic
import YamlEdit.Diff.Shortest
import YamlEdit.Diff.Slide
import YamlEdit.Diff.Unified
import YamlEdit.Edit.Editor
import YamlEdit.Edit.Error
import YamlEdit.Edit.Operation
import YamlEdit.Edit.Script
import YamlEdit.Edit.ScriptSchema
import YamlEdit.Edit.Snapshot
import YamlEdit.Edit.Splice
import YamlEdit.Event.Basic
import YamlEdit.Event.OfTokens
import YamlEdit.Json.Basic
import YamlEdit.Json.Pretty
import YamlEdit.Json.Read
import YamlEdit.Main
import YamlEdit.Node.Anchors
import YamlEdit.Node.Basic
import YamlEdit.Node.Extent
import YamlEdit.Node.Locate
import YamlEdit.Node.OfEvents
import YamlEdit.Plan.Block
import YamlEdit.Plan.Flow
import YamlEdit.Plan.Operation
import YamlEdit.Plan.Replace
import YamlEdit.Selector.Basic
import YamlEdit.Selector.Parse
import YamlEdit.Text.Basic
import YamlEdit.Text.Indentation
import YamlEdit.Text.LineIndex
import YamlEdit.Text.Printable
import YamlEdit.Text.Quoted
import YamlEdit.Token.Basic
import YamlEdit.Token.Property
import YamlEdit.Token.Scalar
import YamlEdit.Token.Scanner
import YamlEdit.Token.Stream
import YamlEdit.Value.Basic
import YamlEdit.Value.Fragment
import YamlEdit.Value.Plain
import YamlEdit.Value.Read
import YamlEdit.Value.Scalar
import YamlEdit.Value.Source.Complaint
import YamlEdit.Value.Source.Event
import YamlEdit.Value.Source.Property
import YamlEdit.Value.Source.Scalar
import YamlEdit.Value.Source.Scanner
import YamlEdit.Value.Source.Stream
import YamlEdit.Value.Write
import YamlEdit.Proofs.EventSteps
import YamlEdit.Proofs.EventNesting
import YamlEdit.Proofs.TreeOfEvents
import YamlEdit.Proofs.Paths
import YamlEdit.Proofs.Splicing
import YamlEdit.Proofs.Update
import YamlEdit.Proofs.Removal
import YamlEdit.Proofs.Insertion
import YamlEdit.Proofs.Rendering
import YamlEdit.Proofs.Histories
import YamlEdit.Proofs.Addition
import YamlEdit.Proofs.EventMarks
import YamlEdit.Proofs.InternalErrors
import YamlEdit.Proofs.SameTarget
import YamlEdit.Proofs.OffsetErrors
import YamlEdit.Proofs.AliasTargets
import YamlEdit.Proofs.Brackets
import YamlEdit.Proofs.Restoring
import YamlEdit.Proofs.Runs
import YamlEdit.Proofs.PathGrammar
import YamlEdit.Proofs.NamedPaths
import YamlEdit.Proofs.ScriptRoundTrip
import YamlEdit.Proofs.SoundSplices
import YamlEdit.Proofs.Separators
import YamlEdit.Proofs.LineEdits
import YamlEdit.Proofs.Overwriting
import YamlEdit.Proofs.WritingBack
import YamlEdit.Proofs.EventTrees
import YamlEdit.Proofs.MissingValues
import YamlEdit.Proofs.AnchorOrder
import YamlEdit.Proofs.PathReading
import YamlEdit.Proofs.PrintedPaths
import YamlEdit.Proofs.ScalarExtents
import YamlEdit.Proofs.LinePositions
import YamlEdit.Proofs.Reindenting
import YamlEdit.Proofs.WrittenLines
import YamlEdit.Proofs.EventDashes
import YamlEdit.Proofs.ItemMarkers
import YamlEdit.Proofs.QuotedFilters
import YamlEdit.Proofs.ClosingQuotes
import YamlEdit.Proofs.ClosingBrackets
import YamlEdit.Proofs.NodePositions
import YamlEdit.Proofs.Margins
import YamlEdit.Proofs.Outside
import YamlEdit.Proofs.Sheets
import YamlEdit.Proofs.SheetTokens
import YamlEdit.Proofs.SheetEvents
import YamlEdit.Proofs.SheetTrees
import YamlEdit.Proofs.SheetFrames
import YamlEdit.Proofs.SheetLines
import YamlEdit.Proofs.SheetFragments
import YamlEdit.Proofs.ValueMargins
import YamlEdit.Proofs.ValueTokens
import YamlEdit.Proofs.ValueSheets
import YamlEdit.Proofs.ValueEvents
import YamlEdit.Proofs.SheetValues
import YamlEdit.Proofs.SheetUpdates
import YamlEdit.Proofs.SheetInsertions
import YamlEdit.Proofs.SheetRemovals
import YamlEdit.Proofs.SheetParts
