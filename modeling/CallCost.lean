import CallCost.Binary64.Basic
import CallCost.Binary64.Decimal
import CallCost.Binary64.Numeral
import CallCost.Binary64.Shortest
import CallCost.Binary64.Text
import CallCost.CallTree.Basic
import CallCost.CallTree.Json
import CallCost.CallTree.Merge
import CallCost.CallTree.Render
import CallCost.CallTree.Rows
import CallCost.CallTree.Stored
import CallCost.CallTree.Summary
import CallCost.CallTree.Totals
import CallCost.CommandLine.Arguments
import CallCost.CommandLine.Run
import CallCost.CommandLine.Usage
import CallCost.Json.Basic
import CallCost.Json.FieldOrder
import CallCost.Json.Reader
import CallCost.Limits
import CallCost.Log
import CallCost.Main
import CallCost.Proofs.AllOrNothing
import CallCost.Proofs.ArgumentOrder
import CallCost.Proofs.ArgumentReading
import CallCost.Proofs.CallBalance
import CallCost.Proofs.CallSums
import CallCost.Proofs.CallWalk
import CallCost.Proofs.CanonicalTrace
import CallCost.Proofs.Concatenation
import CallCost.Proofs.CorrectRounding
import CallCost.Proofs.CountLanguage
import CallCost.Proofs.CountSpellings
import CallCost.Proofs.DecimalValues
import CallCost.Proofs.DeepTraces
import CallCost.Proofs.EntrySums
import CallCost.Proofs.ForestSums
import CallCost.Proofs.GlyphPlaces
import CallCost.Proofs.HarmlessSkipping
import CallCost.Proofs.JsonProjection
import CallCost.Proofs.JsonReading
import CallCost.Proofs.JsonWriting
import CallCost.Proofs.LabelSums
import CallCost.Proofs.LabelWalk
import CallCost.Proofs.LineEnds
import CallCost.Proofs.MalformedLines
import CallCost.Proofs.MarkerLines
import CallCost.Proofs.MergeLaws
import CallCost.Proofs.MergedTotals
import CallCost.Proofs.NestedBlocks
import CallCost.Proofs.NotedAnomalies
import CallCost.Proofs.NumberSettings
import CallCost.Proofs.NumeralLanguage
import CallCost.Proofs.Numerals
import CallCost.Proofs.Occurrences
import CallCost.Proofs.PathSums
import CallCost.Proofs.PreorderWalks
import CallCost.Proofs.Presentation
import CallCost.Proofs.ReportLines
import CallCost.Proofs.ReportStages
import CallCost.Proofs.RoundedSums
import CallCost.Proofs.ScanInvariant
import CallCost.Proofs.ScanSteps
import CallCost.Proofs.SectionTotals
import CallCost.Proofs.Sections
import CallCost.Proofs.SelfCosts
import CallCost.Proofs.SiblingOrder
import CallCost.Proofs.Siblings
import CallCost.Proofs.SilentLines
import CallCost.Proofs.SpanTallies
import CallCost.Proofs.StoredScans
import CallCost.Proofs.StoredTrees
import CallCost.Proofs.StrictSections
import CallCost.Proofs.TextConversion
import CallCost.Proofs.TraceFiles
import CallCost.Proofs.TreeCopy
import CallCost.Proofs.TreeEdits
import CallCost.Proofs.TreeLoop
import CallCost.Proofs.TreePaths
import CallCost.Proofs.TreeTables
import CallCost.Proofs.TreeUnion
import CallCost.Proofs.UnclosedSpans
import CallCost.Proofs.Utf8RoundTrip
import CallCost.Proofs.WholeNumbers
import CallCost.Proofs.WrittenLines
import CallCost.Settings.Basic
import CallCost.Settings.Environment
import CallCost.Settings.Numeral
import CallCost.Text.Blank
import CallCost.Text.Lines
import CallCost.Text.Literal
import CallCost.Text.Repeat
import CallCost.Text.Search
import CallCost.Text.Units
import CallCost.Text.UpperCase
import CallCost.Text.Utf8
import CallCost.Trace.CycleCount
import CallCost.Trace.Issue
import CallCost.Trace.Marker
import CallCost.Trace.Scan
import CallCost.Trace.StoredScan
import CallCost.TraceSource
