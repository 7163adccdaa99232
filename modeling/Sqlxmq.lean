import Sqlxmq.Library.PredecessorLinks
import Sqlxmq.Library.KeyedTable
import Sqlxmq.Library.LabelledRun
import Sqlxmq.Library.Null
import Sqlxmq.Library.NestedLimit
import Sqlxmq.Database.Error
import Sqlxmq.Database.Schema
import Sqlxmq.Database.Insert
import Sqlxmq.Database.Delete
import Sqlxmq.Database.Update
import Sqlxmq.Database.Poll
import Sqlxmq.Database.Transaction
import Sqlxmq.Database.RowStep
import Sqlxmq.Crate.JobBuilder
import Sqlxmq.Lifecycle.Retry
import Sqlxmq.Lifecycle.Schedule
import Sqlxmq.Lifecycle.NeverEarly
import Sqlxmq.Lifecycle.Checkpoint
import Sqlxmq.Order.Chains
import Sqlxmq.Order.ChainUpdates
import Sqlxmq.Order.Integrity
import Sqlxmq.Crate.Runner
import Sqlxmq.Crate.Registry
import Sqlxmq.Crate.Api
import Sqlxmq.Crate.Dispatch
import Sqlxmq.Crate.MainLoop
import Sqlxmq.Order.Queues
import Sqlxmq.Order.Delivery
import Sqlxmq.Lifecycle.TwoPhase
import Sqlxmq.Lifecycle.Uncommitted
import Sqlxmq.Crate.Casts
import Sqlxmq.Lifecycle.Wakeup
import Sqlxmq.Lifecycle.KeepAlive
import Sqlxmq.Lifecycle.WorkConserving
import Sqlxmq.Lifecycle.Drain
import Sqlxmq.Lifecycle.Contents
import Sqlxmq.Concurrency.Spawn
import Sqlxmq.Concurrency.Serial
import Sqlxmq.Concurrency.Poll
import Sqlxmq.Concurrency.InOrder
import Sqlxmq.Concurrency.Completion
import Sqlxmq.Concurrency.MainLoop
import Sqlxmq.Concurrency.Backoff
import Sqlxmq.Macros.JobOptions
import Sqlxmq.Macros.JobAttribute
import Sqlxmq.Macros.JobDefaults
import Sqlxmq.Macros.RegisteredJobs
import Sqlxmq.Migrations.LatestMessage
import Sqlxmq.Migrations.ConcurrentPoll
import Sqlxmq.Migrations.KeepNilMessage
import Sqlxmq.Lifecycle.Backlog
import Sqlxmq.Lifecycle.Exhausted
import Sqlxmq.Lifecycle.Isolation
import Sqlxmq.Crate.TestOne
import Sqlxmq.Concurrency.Worker
import Sqlxmq.Concurrency.Listener
import Sqlxmq.Concurrency.Contention
import Sqlxmq.Concurrency.Shutdown
import Sqlxmq.Lifecycle.Recovery
import Sqlxmq.Crate.Payload
import Sqlxmq.Concurrency.Executions
