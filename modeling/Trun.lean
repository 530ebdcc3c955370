import Trun.Scheduler.IndexRuns
import Trun.Scheduler.Listings
import Trun.Scheduler.Answering
import Trun.Scheduler.Owners
import Trun.Scheduler.Reporting
import Trun.Scheduler.Starting
import Trun.Scheduler.Decreasing
import Trun.Scheduler.Ranking
import Trun.Scheduler.Attending
import Trun.Scheduler.Marking
import Trun.Scheduler.Needed
import Trun.Scheduler.BatchRuns
import Trun.Scheduler.Completing
import Trun.Scheduler.Disabling
import Trun.Scheduler.Choosing
import Trun.Scheduler.Limits
import Trun.Scheduler.Removal
import Trun.Scheduler.Repeating
import Trun.Worker.Results
import Trun.Worker.Steps
import Trun.Scheduler.Lone
import Trun.Register.Cache
import Trun.Lock.PidFile
import Trun.Config.Including
import Trun.Tools.Instants
import Trun.Finance.OpenOrders
import Trun.Finance.Ledger
import Trun.DateInterval.Texts
import Trun.Worker.Exploring
import Trun.Notifier.Sending
import Trun.Scheduler.Greedy
import Trun.Summary.Counting
import Trun.Register.StepIds
import Trun.Tools.Narrowing
import Trun.Summary.Upstream
import Trun.Scheduler.Upstream
import Trun.Scheduler.Graphs
import Trun.Worker.Unfulfilled
import Trun.Scheduler.Batching
import Trun.Scheduler.Sharing
import Trun.Scheduler.Failures
import Trun.Worker.Adding
import Trun.Summary.Exiting
import Trun.Register.Names
import Trun.Step.Structures
import Trun.Tools.Deps
import Trun.Format.Newlines
import Trun.Parameter.Durations
import Trun.Parameter.Tuples
import Trun.Parameter.Clamping
import Trun.Finance.Triggers
import Trun.Summary.Ranging
import Trun.Python.LinkedSet
import Trun.Register.Suggestions
import Trun.Config.Validating
import Trun.Config.Merging
import Trun.Sub.StepIds
import Trun.Sub.Namespaces
import Trun.Target.Leftovers
import Trun.Scheduler.Delivering
import Trun.Scheduler.Crew
import Trun.Scheduler.Recovering
import Trun.Register.Rebuilding
