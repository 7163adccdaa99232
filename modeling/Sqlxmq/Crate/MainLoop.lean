import Sqlxmq.Crate.Dispatch

/-! The main loop of a job runner, with everything that runs beside it. Jobs
are dropped by whoever executes them, and a listener passes on notifications
of the database, at any moment. -/
namespace Sqlxmq

/-- Type used to build a job runner. -/
structure JobRunnerOptions where
  minConcurrency : UInt64
  maxConcurrency : UInt64
  channelNames : Option (List String)

namespace JobRunnerOptions

def new : JobRunnerOptions where
  minConcurrency := 16
  maxConcurrency := 32
  channelNames := none

/-- `(options.max_concurrency - running_jobs) as i32` -/
def batchSize (options : JobRunnerOptions) (runningJobs : UInt64) : Int4 :=
  .ofBits ((options.maxConcurrency - runningJobs).toBitVec.setWidth 32)

/-- What `mq_poll` can return for this batch size, on some store. Any
statement can fail. -/
def PollReturns (options : JobRunnerOptions) (runningJobs : UInt64) :
    Except SqlxError (List PolledMessage) → Prop
  | .error _ => True
  | .ok messages => ∃ choice now s s', mqPoll choice now options.channelNames
      (options.batchSize runningJobs) s = .ok (s', messages)

end JobRunnerOptions

/-- `Duration::from_millis(50 << failures)`. A shift uses the low six bits of
its amount. -/
def failureDelay (failures : Int32) : Duration :=
  ((50 : UInt64) <<< failures.toUInt32.toUInt64).toNat * 1000

/-- Why the main loop waits. -/
inductive WaitReason where
  /-- Enough jobs were running. -/
  | full
  | polled
  | failed
deriving DecidableEq

inductive MainLoop where
  /-- About to load the number of running jobs. -/
  | top
  /-- Fewer jobs than the minimum were running. -/
  | polling (runningJobs : UInt64)
  /-- The poll has returned, and its rows are being dispatched. -/
  | dispatching (result : Except SqlxError Duration) (effects : List DispatchEffect)
  /-- Waits to be notified, or for the timeout to elapse. -/
  | waiting (reason : WaitReason) (duration : Duration)

structure JobRunner where
  runningJobs : UInt64
  /-- The permit of `notify`. -/
  permit : Bool
  failures : Int32
  loop : MainLoop
  /-- The jobs that were passed to `dispatch` and are not dropped. -/
  jobs : List CurrentJob
  /-- The drops that have yet to call `notify_one`. -/
  notifying : Nat

inductive RunnerEvent where
  | load
  | poll (poll : Except SqlxError (List PolledMessage)) (delete : List Uuid → Except SqlxError Unit)
  | effect
  | returned (result : Except SqlxError Duration)
  | drop (job : CurrentJob)
  | notifyOne
  | listener
  | notified
  | timeout

namespace JobRunner

def start : JobRunner where
  runningJobs := 0
  permit := false
  failures := 0
  loop := .top
  jobs := []
  notifying := 0

/-- One atomic step of the main loop, of a drop, or of the listener. -/
inductive Step (options : JobRunnerOptions) (x : JobRunner) : RunnerEvent → JobRunner → Prop where
  | below (atTop : x.loop = .top) (few : x.runningJobs < options.minConcurrency) :
      Step options x .load { x with loop := .polling x.runningJobs }
  | full (atTop : x.loop = .top) (enough : options.minConcurrency ≤ x.runningJobs) :
      Step options x .load { x with loop := .waiting .full (60 * 1000000) }
  | poll {runningJobs : UInt64} {poll : Except SqlxError (List PolledMessage)}
      {delete : List Uuid → Except SqlxError Unit} (polling : x.loop = .polling runningJobs)
      (returns : options.PollReturns runningJobs poll) :
      Step options x (.poll poll delete)
        { x with loop := .dispatching (pollAndDispatch poll delete).1 (pollAndDispatch poll delete).2 }
  | fetchAdd {result : Except SqlxError Duration} {rest : List DispatchEffect}
      (next : x.loop = .dispatching result (.fetchAdd :: rest)) :
      Step options x .effect
        { x with runningJobs := x.runningJobs + 1, loop := .dispatching result rest }
  | dispatch {result : Except SqlxError Duration} {job : CurrentJob} {rest : List DispatchEffect}
      (next : x.loop = .dispatching result (.dispatch job :: rest)) :
      Step options x .effect { x with jobs := job :: x.jobs, loop := .dispatching result rest }
  | succeeded {duration : Duration} (done : x.loop = .dispatching (.ok duration) []) :
      Step options x (.returned (.ok duration))
        { x with failures := 0, loop := .waiting .polled duration }
  | failed {e : SqlxError} (done : x.loop = .dispatching (.error e) []) :
      Step options x (.returned (.error e))
        { x with
          failures := x.failures + 1
          loop := .waiting .failed (failureDelay (x.failures + 1)) }
  /-- `running_jobs.fetch_sub(1)`, and the comparison with the value it saw. -/
  | drop {job : CurrentJob} (alive : job ∈ x.jobs) :
      Step options x (.drop job)
        { x with
          runningJobs := x.runningJobs - 1
          jobs := x.jobs.erase job
          notifying := if x.runningJobs = options.minConcurrency then x.notifying + 1 else x.notifying }
  | notifyOne {pending : Nat} (late : x.notifying = pending + 1) :
      Step options x .notifyOne { x with permit := true, notifying := pending }
  | listener : Step options x .listener { x with permit := true }
  | notified {reason : WaitReason} {duration : Duration} (waits : x.loop = .waiting reason duration)
      (stored : x.permit = true) : Step options x .notified { x with permit := false, loop := .top }
  | timeout {reason : WaitReason} {duration : Duration} (waits : x.loop = .waiting reason duration) :
      Step options x .timeout { x with loop := .top }

theorem Step.poll_of_eq {options : JobRunnerOptions} {x : JobRunner} {runningJobs : UInt64}
    {poll : Except SqlxError (List PolledMessage)} {delete : List Uuid → Except SqlxError Unit}
    {result : Except SqlxError Duration} {effects : List DispatchEffect}
    (polling : x.loop = .polling runningJobs) (returns : options.PollReturns runningJobs poll)
    (h : pollAndDispatch poll delete = (result, effects)) :
    Step options x (.poll poll delete) { x with loop := .dispatching result effects } := by
  have hStep : Step options x (.poll poll delete) _ := .poll polling returns
  rwa [h] at hStep

end JobRunner

end Sqlxmq
