import ZoneHistory.Main
import ZoneHistory.Proofs.Batch.Offsets
import ZoneHistory.Proofs.Batch.RoundTrip
import ZoneHistory.Proofs.Batch.Validation
import ZoneHistory.Proofs.Calendar.DayCount
import ZoneHistory.Proofs.Calendar.Succession
import ZoneHistory.Proofs.Calendar.Weeks
import ZoneHistory.Proofs.Calendar.Words
import ZoneHistory.Proofs.Checks
import ZoneHistory.Proofs.Dictionary
import ZoneHistory.Proofs.Json.Records
import ZoneHistory.Proofs.Json.RoundTrip
import ZoneHistory.Proofs.ReadingOrder
import ZoneHistory.Proofs.Rendering
import ZoneHistory.Proofs.Run.Jobs
import ZoneHistory.Proofs.Run.Schedule
import ZoneHistory.Proofs.Run.Summary
import ZoneHistory.Proofs.Source.Amounts
import ZoneHistory.Proofs.Source.Blocks
import ZoneHistory.Proofs.Source.Columns
import ZoneHistory.Proofs.Source.Discipline
import ZoneHistory.Proofs.Source.Documents
import ZoneHistory.Proofs.Source.Ends
import ZoneHistory.Proofs.Source.Entries
import ZoneHistory.Proofs.Source.Failures
import ZoneHistory.Proofs.Source.Fields
import ZoneHistory.Proofs.Source.Grammar
import ZoneHistory.Proofs.Source.Lines
import ZoneHistory.Proofs.Source.Printing
import ZoneHistory.Proofs.Source.Reads
import ZoneHistory.Proofs.Source.Rounding
import ZoneHistory.Proofs.Source.Selectors
import ZoneHistory.Proofs.Table.Abbreviations
import ZoneHistory.Proofs.Table.History
import ZoneHistory.Proofs.Table.Invariant
import ZoneHistory.Proofs.Table.Loading
import ZoneHistory.Proofs.Table.Names
import ZoneHistory.Proofs.Table.Partition
import ZoneHistory.Proofs.Table.RoundTrip
import ZoneHistory.Proofs.Text.Bytes
import ZoneHistory.Proofs.Text.Digits
import ZoneHistory.Proofs.Text.Numerals
import ZoneHistory.Proofs.Text.Pieces
import ZoneHistory.Proofs.Text.Widths
import ZoneHistory.Proofs.WallTime
import ZoneHistory.Proofs.Zone.Advance
import ZoneHistory.Proofs.Zone.Counting
import ZoneHistory.Proofs.Zone.Exactness
import ZoneHistory.Proofs.Zone.History
import ZoneHistory.Proofs.Zone.Lookup
import ZoneHistory.Proofs.Zone.Picks
import ZoneHistory.Proofs.Zone.Recutting
import ZoneHistory.Proofs.Zone.Resolution
import ZoneHistory.Proofs.Zone.Showing
import ZoneHistory.Proofs.Zone.Transitions
import ZoneHistory.Proofs.Zone.Verdict
