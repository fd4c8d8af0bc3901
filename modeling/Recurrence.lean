import Recurrence.Journal.Basic
import Recurrence.Moment.Occurrences
import Recurrence.Proofs.Generators.CalendarPath
import Recurrence.Proofs.Odometer
import Recurrence.Rule.Meaning
import Recurrence.Set.Lines
import Recurrence.Proofs.Generators.Answers
import Recurrence.Proofs.Generators.Steppers
import Recurrence.Proofs.Calendar.Ascending
import Recurrence.Proofs.Generators.Listers
import Recurrence.Proofs.Generators.Filters
import Recurrence.Proofs.Generators.Years
import Recurrence.Proofs.Generators.Filtered
import Recurrence.Proofs.Generators.Chain
import Recurrence.Proofs.Course
import Recurrence.Proofs.Candidates
import Recurrence.Proofs.Meaning.Days
import Recurrence.Proofs.Meaning.Phase
import Recurrence.Proofs.Meaning.Fields
import Recurrence.Proofs.Meaning.Years
import Recurrence.Proofs.Meaning.Matches
import Recurrence.Proofs.Calendar.Steady
import Recurrence.Proofs.Meaning.Reach
import Recurrence.Proofs.Segment
import Recurrence.Proofs.Series.Patience
import Recurrence.Proofs.Series.Source
import Recurrence.Proofs.Series.Track
import Recurrence.Proofs.Series.Start
import Recurrence.Proofs.Series.Chain
import Recurrence.Proofs.Series.Allowance
import Recurrence.Proofs.Completeness
import Recurrence.Proofs.Series.Skip
import Recurrence.Proofs.Series.Advance
import Recurrence.Proofs.Skipping
import Recurrence.Proofs.Soundness
import Recurrence.Proofs.Positions
import Recurrence.Proofs.Meaning.Periods
import Recurrence.Proofs.Cursor.Calls
import Recurrence.Proofs.DateTargets
import Recurrence.Proofs.Cursor.Members
import Recurrence.Proofs.Cursor.Queue
import Recurrence.Proofs.Cursor.Union
import Recurrence.Proofs.Groups
import Recurrence.Proofs.Series.Gather
import Recurrence.Proofs.Series.Selected
import Recurrence.Proofs.SelectedInstances
import Recurrence.Proofs.Calendar.Shifts
import Recurrence.Proofs.Series.Targets
import Recurrence.Proofs.Series.Live
import Recurrence.Proofs.Series.Guarded
import Recurrence.Proofs.Safety
import Recurrence.Proofs.Series.Plays
import Recurrence.Proofs.Series.Instances
import Recurrence.Proofs.Series.Counted
import Recurrence.Proofs.CursorSemantics
import Recurrence.Proofs.Termination
import Recurrence.Proofs.UntilRestriction
import Recurrence.Proofs.Series.Credit
import Recurrence.Proofs.SkippingBudget
import Recurrence.Proofs.Series.Picks
import Recurrence.Proofs.SelectionBudget
import Recurrence.Proofs.Meaning.Restart
import Recurrence.Proofs.Resuming
import Recurrence.Proofs.Calendar.Overlaps
import Recurrence.Proofs.Outcomes
import Recurrence.Proofs.Calendar.Checked
import Recurrence.Proofs.ListedDates
import Recurrence.Proofs.Text.Pieces
import Recurrence.Proofs.Text.Capitals
import Recurrence.Proofs.Text.Numbers
import Recurrence.Proofs.Text.Spelled
import Recurrence.Proofs.Calendar.Written
import Recurrence.Proofs.Rule.Validity
import Recurrence.Proofs.Rule.Items
import Recurrence.Proofs.Rule.Telling
import Recurrence.Proofs.Rule.Segments
import Recurrence.Proofs.Rule.Spelling
import Recurrence.Proofs.Rule.CanonicalForm
import Recurrence.Proofs.Series.Passage
import Recurrence.Proofs.Moment.Instants
import Recurrence.Proofs.Moment.Iteration
import Recurrence.Proofs.Moment.Windows
import Recurrence.Proofs.WindowFiltering
import Recurrence.Proofs.SubsecondBounds
import Recurrence.Proofs.DateWindows
import Recurrence.Proofs.AwareStarts
import Recurrence.Proofs.Cursor.Patience
import Recurrence.Proofs.Cursor.Search
import Recurrence.Proofs.Series.Endless
import Recurrence.Proofs.SetSearch
import Recurrence.Proofs.UniformPeriods
import Recurrence.Proofs.Reachability
import Recurrence.Proofs.DayLists
import Recurrence.Proofs.Series.Lockstep
import Recurrence.Proofs.Generators.Alike
import Recurrence.Proofs.ListedSets
import Recurrence.Proofs.WeekStart
import Recurrence.Proofs.Formulations
import Recurrence.Proofs.Series.Agreement
import Recurrence.Proofs.SingleTime
import Recurrence.Proofs.ZoneConversions
import Recurrence.Proofs.Series.Likeness
import Recurrence.Proofs.Calendar.Cycle
import Recurrence.Proofs.DateSeries
import Recurrence.Proofs.Generators.Cycle
import Recurrence.Proofs.GregorianCycle
import Recurrence.Proofs.ContentLines
import Recurrence.Proofs.Cursor.ExcludedOrder
import Recurrence.Proofs.Cursor.Reordered
import Recurrence.Proofs.LineOrder
import Recurrence.Proofs.WeekNumbers
import Recurrence.Proofs.DistinctDates
import Recurrence.Proofs.PhaseKeeping
import Recurrence.Proofs.TreeEnumeration
import Recurrence.Proofs.YearPacing
import Recurrence.Proofs.CalendarArithmetic
import Recurrence.Proofs.RunSelection
