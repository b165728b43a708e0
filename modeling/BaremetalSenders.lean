import BaremetalSenders.Foundation.Run
import BaremetalSenders.Foundation.IntrusiveList
import BaremetalSenders.Foundation.Ledger
import BaremetalSenders.Foundation.StableOrder
import BaremetalSenders.Foundation.Countdown
import BaremetalSenders.Foundation.Holdings
import BaremetalSenders.Foundation.ForwardList
import BaremetalSenders.Foundation.Storage
import BaremetalSenders.Foundation.Routine
import BaremetalSenders.Foundation.Resumption
import BaremetalSenders.Foundation.Crew
import BaremetalSenders.Foundation.Dispatch
import BaremetalSenders.Foundation.Sections
import BaremetalSenders.Schedulers.TriggerManager
import BaremetalSenders.Schedulers.TriggerQueue
import BaremetalSenders.Schedulers.TriggerRefinement
import BaremetalSenders.Schedulers.TriggerAccounting
import BaremetalSenders.Schedulers.TriggerInterrupt
import BaremetalSenders.Schedulers.TaskManager
import BaremetalSenders.Schedulers.TaskAccounting
import BaremetalSenders.Schedulers.TaskOrder
import BaremetalSenders.Schedulers.TaskService
import BaremetalSenders.Schedulers.TimerManager
import BaremetalSenders.Schedulers.TimerInvariant
import BaremetalSenders.Schedulers.TimerAccounting
import BaremetalSenders.Schedulers.TimerTask
import BaremetalSenders.Schedulers.TimerInterrupt
import BaremetalSenders.Schedulers.RunLoop
import BaremetalSenders.Schedulers.RunLoopLocks
import BaremetalSenders.Adaptors.Join
import BaremetalSenders.Adaptors.JoinCount
import BaremetalSenders.Adaptors.JoinStop
import BaremetalSenders.Adaptors.WhenAny
import BaremetalSenders.Adaptors.WhenAnyNostop
import BaremetalSenders.Adaptors.WhenAll
import BaremetalSenders.Adaptors.WhenAllOptimised
import BaremetalSenders.Adaptors.WhenAllCancel
import BaremetalSenders.Adaptors.Split
import BaremetalSenders.Adaptors.SplitCompletion
import BaremetalSenders.Adaptors.SplitResult
import BaremetalSenders.Adaptors.SplitReuse
import BaremetalSenders.Adaptors.Repeat
import BaremetalSenders.Adaptors.RepeatArguments
import BaremetalSenders.Adaptors.RepeatLoopFunction
import BaremetalSenders.Adaptors.RepeatIteration
import BaremetalSenders.Adaptors.RepeatPaths
import BaremetalSenders.Adaptors.SyncLoop
import BaremetalSenders.Adaptors.SyncLoopStorage
import BaremetalSenders.Adaptors.NestedRepeat
import BaremetalSenders.Adaptors.NestedRepeatProduct
import BaremetalSenders.Adaptors.RepeatLoops
import BaremetalSenders.Adaptors.Periodic
import BaremetalSenders.Adaptors.PeriodicStorage
import BaremetalSenders.Adaptors.PeriodicRepeat
import BaremetalSenders.Adaptors.PeriodicCount
import BaremetalSenders.Adaptors.PeriodicReuse
import BaremetalSenders.Adaptors.PeriodicDrift
import BaremetalSenders.Adaptors.PeriodicExpiry
import BaremetalSenders.Senders.Signatures
import BaremetalSenders.Senders.Expressions
import BaremetalSenders.Senders.Operations
import BaremetalSenders.Senders.OperationLoops
import BaremetalSenders.Senders.AdvertisedSignatures
import BaremetalSenders.Senders.Sequential
import BaremetalSenders.Senders.SequentialOperations
import BaremetalSenders.Senders.SequentialMeaning
import BaremetalSenders.Senders.CompletesSynchronously
import BaremetalSenders.Senders.Scheduled
import BaremetalSenders.Senders.ScheduledOperations
import BaremetalSenders.Senders.ScheduledSequential
import BaremetalSenders.Senders.ScheduledMeaning
import BaremetalSenders.Senders.ScheduledContexts
import BaremetalSenders.Senders.SyncWait
import BaremetalSenders.Senders.Executors
import BaremetalSenders.Senders.ScheduledDispatch
import BaremetalSenders.Adaptors.StopAdvertised
import BaremetalSenders.StopToken.StopCallbacks
import BaremetalSenders.StopToken.StopDelivery
import BaremetalSenders.StopToken.StopDeregistration
import BaremetalSenders.StopToken.StopObject
import BaremetalSenders.Schedulers.TimeScheduler
import BaremetalSenders.Schedulers.TimeSchedulerCallback
import BaremetalSenders.Schedulers.TimeSchedulerCompletion
import BaremetalSenders.Adaptors.TimeoutAfter
import BaremetalSenders.Adaptors.TimeoutAfterCompletion
import BaremetalSenders.Adaptors.TimeoutAfterStorage
import BaremetalSenders.Adaptors.TimeoutAfterProgress
import BaremetalSenders.Adaptors.StopTree
import BaremetalSenders.Adaptors.StopTreeParts
import BaremetalSenders.Adaptors.StopTreeLinks
import BaremetalSenders.Adaptors.StopTreeCancel
import BaremetalSenders.Adaptors.StopTreeCallbacks
import BaremetalSenders.Adaptors.StopTreeCompletion
import BaremetalSenders.Adaptors.StopTreeProgress
import BaremetalSenders.Adaptors.StopTreeTermination
import BaremetalSenders.StartDetached.Detached
import BaremetalSenders.StartDetached.DetachedStop
import BaremetalSenders.StartDetached.DetachedNames
import BaremetalSenders.StartDetached.StaticAllocator
import BaremetalSenders.System.CriticalSections
import BaremetalSenders.Adaptors.InciteOn
import BaremetalSenders.Adaptors.InciteOnOperation
import BaremetalSenders.Adaptors.InciteOnCompletion
import BaremetalSenders.Adaptors.InciteOnStop
import BaremetalSenders.Adaptors.InciteOnAnswer
import BaremetalSenders.Adaptors.InciteOnBegin
import BaremetalSenders.Adaptors.InciteOnTriggers
import BaremetalSenders.Adaptors.InciteOnFunction
import BaremetalSenders.Adaptors.InciteOnDelivery
import BaremetalSenders.System.Program
import BaremetalSenders.System.ProgramCompletion
