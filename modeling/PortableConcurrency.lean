import PortableConcurrency.Common.Runs
import PortableConcurrency.Common.Budget
import PortableConcurrency.Common.Tally
import PortableConcurrency.Common.Table
import PortableConcurrency.Common.Graph
import PortableConcurrency.Common.CondVar
import PortableConcurrency.Common.Calls
import PortableConcurrency.Stack.Model
import PortableConcurrency.Stack.Invariant
import PortableConcurrency.Stack.Steps
import PortableConcurrency.Stack.Deallocation
import PortableConcurrency.Stack.Linearizable
import PortableConcurrency.Stack.Progress
import PortableConcurrency.Continuations.Delivery
import PortableConcurrency.Continuations.Model
import PortableConcurrency.Continuations.Invariant
import PortableConcurrency.Continuations.ExactlyOnce
import PortableConcurrency.Futures.Model
import PortableConcurrency.Futures.Ownership
import PortableConcurrency.Futures.Lists
import PortableConcurrency.Futures.Storage
import PortableConcurrency.Futures.Claims
import PortableConcurrency.Futures.Unwrapping
import PortableConcurrency.Futures.Reading
import PortableConcurrency.Futures.Actions
import PortableConcurrency.Futures.UnwrapLaw
import PortableConcurrency.Futures.Registration
import PortableConcurrency.Futures.Inputs
import PortableConcurrency.Futures.Making
import PortableConcurrency.Futures.Producers
import PortableConcurrency.Futures.Closing
import PortableConcurrency.Futures.WhenAll
import PortableConcurrency.Futures.WhenAny
import PortableConcurrency.Futures.Tokens
import PortableConcurrency.Futures.Unique
import PortableConcurrency.Futures.Readiness
import PortableConcurrency.Futures.Orphans
import PortableConcurrency.Futures.Started
import PortableConcurrency.Futures.Release
import PortableConcurrency.Futures.Costs
import PortableConcurrency.Futures.Progress
import PortableConcurrency.Futures.Cancel
import PortableConcurrency.Futures.Reference
import PortableConcurrency.Futures.Trees
import PortableConcurrency.Futures.Wanted
import PortableConcurrency.Futures.TreeLaw
import PortableConcurrency.Futures.Sessions
import PortableConcurrency.Futures.Folds
import PortableConcurrency.Futures.Keepers
import PortableConcurrency.Futures.FoldLaw
import PortableConcurrency.Latch.Model
import PortableConcurrency.Latch.Wakeups
import PortableConcurrency.Latch.Progress
import PortableConcurrency.Latch.Destruction
import PortableConcurrency.Queue.Model
import PortableConcurrency.Queue.Fifo
import PortableConcurrency.Queue.Progress
import PortableConcurrency.Pool.Model
import PortableConcurrency.Pool.Schedule
import PortableConcurrency.Pool.Barrier
import PortableConcurrency.Pool.Tasks
import PortableConcurrency.Pool.Destructors
import PortableConcurrency.Pool.Drain
import PortableConcurrency.Pool.Attach
import PortableConcurrency.Pool.Lifetimes
import PortableConcurrency.Pool.Stop
import PortableConcurrency.Pool.Progress
import PortableConcurrency.Waiting.Model
import PortableConcurrency.Waiting.Law
import PortableConcurrency.Waiting.Progress
import PortableConcurrency.Timed.Model
import PortableConcurrency.Timed.Law
import PortableConcurrency.Timed.Progress
import PortableConcurrency.Coroutines.Model
import PortableConcurrency.Coroutines.Tables
import PortableConcurrency.Coroutines.Handles
import PortableConcurrency.Coroutines.Results
import PortableConcurrency.Coroutines.Law
import PortableConcurrency.Coroutines.Meaning
import PortableConcurrency.Coroutines.Progress
import PortableConcurrency.Async.Tasks
import PortableConcurrency.Async.Stop
import PortableConcurrency.Promise.Model
import PortableConcurrency.Promise.Reference
import PortableConcurrency.Promise.Protocol
import PortableConcurrency.Exceptions.Model
import PortableConcurrency.Exceptions.Execute
import PortableConcurrency.Exceptions.Routing
import PortableConcurrency.Tasks.Model
import PortableConcurrency.Tasks.Reference
import PortableConcurrency.Tasks.LifeCycle
import PortableConcurrency.Tasks.Reentry
import PortableConcurrency.Tasks.Referred
import PortableConcurrency.Actions.Model
import PortableConcurrency.Actions.Handover
import PortableConcurrency.Functions.Model
import PortableConcurrency.Functions.Ownership
import PortableConcurrency.Functions.Reference
import PortableConcurrency.Functions.Refinement
import PortableConcurrency.Functions.Owning
import PortableConcurrency.Programs.Model
import PortableConcurrency.Programs.Guarantee
import PortableConcurrency.Programs.Effects
import PortableConcurrency.Programs.Setting
import PortableConcurrency.Programs.Consuming
import PortableConcurrency.Programs.Assigning
import PortableConcurrency.Programs.Refinement
import PortableConcurrency.Programs.Failure
import PortableConcurrency.Programs.Observing
import PortableConcurrency.Alternatives.Model
import PortableConcurrency.Alternatives.Lifetimes
