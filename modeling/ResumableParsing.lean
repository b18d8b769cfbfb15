import ResumableParsing.Main
import ResumableParsing.Proofs.Direct.Program
import ResumableParsing.Proofs.Direct.Answered
import ResumableParsing.Proofs.Direct.Spec
import ResumableParsing.Proofs.Grammar.Library
import ResumableParsing.Proofs.Grammar.Scope
import ResumableParsing.Proofs.Reading.Behind
import ResumableParsing.Proofs.Reading.Bodies
import ResumableParsing.Proofs.Reading.Consumption
import ResumableParsing.Proofs.Transparency.Chunks
import ResumableParsing.Proofs.Sessions.Book
import ResumableParsing.Proofs.Sessions.Keeps
import ResumableParsing.Proofs.Sessions.Steps
import ResumableParsing.Proofs.Sessions.Drives
import ResumableParsing.Proofs.Sessions.Calls
import ResumableParsing.Proofs.Sessions.Counting
import ResumableParsing.Proofs.Sessions.Ending
import ResumableParsing.Proofs.Sessions.Handling
import ResumableParsing.Proofs.Sessions.Histories
import ResumableParsing.Proofs.Sessions.Completed
import ResumableParsing.Proofs.Direct.Replies
import ResumableParsing.Proofs.Repetition.Cells
import ResumableParsing.Proofs.Errors.Reports
import ResumableParsing.Proofs.Repetition.Agreement
import ResumableParsing.Proofs.Termination.Recursion
import ResumableParsing.Proofs.Backtracking.Agreement
import ResumableParsing.Proofs.Storage.Agreement
import ResumableParsing.Proofs.Repetition.Separated
import ResumableParsing.Proofs.Json.Conversion
import ResumableParsing.Proofs.Choice.Associativity
import ResumableParsing.Proofs.Binding.Laws
import ResumableParsing.Proofs.Sequence.Chains
import ResumableParsing.Proofs.Stream.Questions
import ResumableParsing.Proofs.Stream.Sharing
import ResumableParsing.Proofs.Repetition.Demand
import ResumableParsing.Proofs.Transparency.Extension
import ResumableParsing.Proofs.Transparency.Completion
import ResumableParsing.Proofs.Lineages.Plans
import ResumableParsing.Proofs.Lineages.Drives
import ResumableParsing.Proofs.Lineages.Pools
import ResumableParsing.Proofs.Lineages.Values
import ResumableParsing.Proofs.Lookahead.Avoidance
import ResumableParsing.Proofs.Lookahead.Discretion
import ResumableParsing.Proofs.Lookahead.Supply
import ResumableParsing.Proofs.Lookahead.Steps
import ResumableParsing.Proofs.Lookahead.Bound
import ResumableParsing.Proofs.Binding.Processes
import ResumableParsing.Proofs.Watching.Flags
import ResumableParsing.Proofs.Watching.Simulation
import ResumableParsing.Proofs.Watching.Crossing
import ResumableParsing.Proofs.Watching.Drives
import ResumableParsing.Proofs.Watching.Courses
import ResumableParsing.Proofs.Watching.Tasks
import ResumableParsing.Proofs.Watching.Ledger
import ResumableParsing.Proofs.Watching.Moments
import ResumableParsing.Proofs.Watching.Once
import ResumableParsing.Proofs.Grammar.Definitions
import ResumableParsing.Proofs.Deferred.Discipline
import ResumableParsing.Proofs.Concatenation.Laws
import ResumableParsing.Proofs.Logging.Declarations
