import Sqlxmq.Concurrency.MainLoop

/-! The handle of a job runner. Its `stop` cancels the main loop where it
awaits, so never between a job's increment of the counter and its dispatch.
Jobs outlive the main loop, and `wait_jobs_finish` waits for them. -/
namespace Sqlxmq

open LabelledRun

/-- The main loop is not in the middle of its dispatching, where it awaits
nothing. -/
def MainLoop.Yields : MainLoop → Prop
  | .dispatching _ _ => False
  | _ => True

/-- What happens in jobs and in the listener. -/
def RunnerEvent.Beside : RunnerEvent → Prop
  | .drop _ | .notifyOne | .listener => True
  | _ => False

/-- The task of the main loop. -/
inductive LoopTask where
  | running
  /-- Its handle was stopped or dropped. -/
  | aborted
  | ended
deriving DecidableEq

/-- A call of `wait_jobs_finish`. -/
inductive WaitJobsFinish where
  | idle
  /-- About to load the number of running jobs. At least so much time has
  elapsed, over so many sleeps. -/
  | waiting (elapsed : Duration) (sleeps : Nat)
  | finished
  | timedOut

/-- A job runner with what its handle was used for. -/
structure JobRunnerHandle where
  runner : JobRunner
  task : LoopTask
  wait : WaitJobsFinish

inductive HandleEvent where
  | runner (event : RunnerEvent)
  | abort
  | cancelled
  | wait
  /-- An iteration of `wait_jobs_finish`. -/
  | check

namespace JobRunnerHandle

/-- Right after `run`. -/
def run : JobRunnerHandle := ⟨.start, .running, .idle⟩

/-- `Duration::from_millis(10)` -/
def waitStep : Duration := 10000

/-- One step of the runner, or of `stop` or `wait_jobs_finish` of its handle. -/
inductive Step (options : JobRunnerOptions) (timeout : Duration) (x : JobRunnerHandle) :
    HandleEvent → JobRunnerHandle → Prop where
  | runner {event : RunnerEvent} {y : JobRunner} (step : JobRunner.Step options x.runner event y)
      (alive : x.task = .ended → event.Beside) : Step options timeout x (.runner event) { x with runner := y }
  | abort (running : x.task = .running) : Step options timeout x .abort { x with task := .aborted }
  | cancelled (aborted : x.task = .aborted) (yields : x.runner.loop.Yields) :
      Step options timeout x .cancelled { x with task := .ended }
  | wait (idle : x.wait = .idle) : Step options timeout x .wait { x with wait := .waiting 0 0 }
  | finished {elapsed : Duration} {sleeps : Nat} (waits : x.wait = .waiting elapsed sleeps)
      (none : x.runner.runningJobs = 0) : Step options timeout x .check { x with wait := .finished }
  | timedOut {least elapsed : Duration} {sleeps : Nat} (waits : x.wait = .waiting least sleeps)
      (some : 0 < x.runner.runningJobs) (passed : least ≤ elapsed) (late : timeout ≤ elapsed) :
      Step options timeout x .check { x with wait := .timedOut }
  | slept {least elapsed : Duration} {sleeps : Nat} (waits : x.wait = .waiting least sleeps)
      (some : 0 < x.runner.runningJobs) (passed : least ≤ elapsed) (early : elapsed < timeout) :
      Step options timeout x .check { x with wait := .waiting (elapsed + waitStep) (sleeps + 1) }

variable {options : JobRunnerOptions} {timeout : Duration} {x y : JobRunnerHandle}
  {event : HandleEvent}

/-- A main loop that has ended was not in the middle of its dispatching. The
wait sleeps once for every ten milliseconds that have elapsed before its
timeout. -/
structure Sound (options : JobRunnerOptions) (timeout : Duration) (x : JobRunnerHandle) : Prop where
  bounded : JobRunner.Bounded options x.runner
  yielded : x.task = .ended → x.runner.loop.Yields
  slept : ∀ elapsed sleeps, x.wait = .waiting elapsed sleeps →
    sleeps * waitStep ≤ elapsed ∧ sleeps * waitStep < timeout + waitStep

theorem sound_run (options : JobRunnerOptions) (timeout : Duration) : Sound options timeout run where
  bounded := JobRunner.bounded_start options
  yielded := nofun
  slept := nofun

/-- Beside the main loop nothing moves it or starts a job. -/
theorem beside_step {x y : JobRunner} {event : RunnerEvent} (hBeside : event.Beside)
    (hStep : JobRunner.Step options x event y) : y.loop = x.loop ∧ y.jobs.Sublist x.jobs := by
  cases hStep with
  | drop alive => exact ⟨rfl, List.erase_sublist⟩
  | notifyOne late => exact ⟨rfl, List.Sublist.refl _⟩
  | listener => exact ⟨rfl, List.Sublist.refl _⟩
  | _ => exact hBeside.elim

theorem Sound.step (h : x.Sound options timeout) (hStep : Step options timeout x event y) :
    y.Sound options timeout := by
  cases hStep with
  | runner step alive =>
      refine ⟨h.bounded.step step, fun hEnded => ?_, h.slept⟩
      rw [(beside_step (alive hEnded) step).1]
      exact h.yielded hEnded
  | abort running => exact ⟨h.bounded, nofun, h.slept⟩
  | cancelled aborted yields => exact ⟨h.bounded, fun _ => yields, h.slept⟩
  | wait idle =>
      refine ⟨h.bounded, h.yielded, ?_⟩
      rintro _ _ ⟨⟩
      exact ⟨by omega, by simp [waitStep]⟩
  | finished waits none => exact ⟨h.bounded, h.yielded, nofun⟩
  | timedOut waits some passed late => exact ⟨h.bounded, h.yielded, nofun⟩
  | slept waits some passed early =>
      obtain ⟨hSlept, -⟩ := h.slept _ _ waits
      refine ⟨h.bounded, h.yielded, ?_⟩
      rintro _ _ ⟨⟩
      rw [Nat.succ_mul]
      have hElapsed := hSlept.trans passed
      exact ⟨Nat.add_le_add_right hElapsed _, Nat.add_lt_add_right (hElapsed.trans_lt early) _⟩

/-- Without its main loop the counter is the number of jobs. -/
theorem Sound.count (h : x.Sound options timeout) (hEnded : x.task = .ended) :
    x.runner.runningJobs.toNat = x.runner.jobs.length := by
  have hYields := h.yielded hEnded
  have hNone : x.runner.loop.handing = 0 := by
    cases hLoop : x.runner.loop with
    | dispatching result effects =>
        rw [hLoop] at hYields
        exact hYields.elim
    | _ => rfl
  rw [h.bounded.counted, JobRunner.handedOver, hNone, Nat.add_zero]

/-- What holds from the end of the main loop on. -/
structure Stopped (x y : JobRunnerHandle) : Prop where
  ended : y.task = .ended
  jobs : y.runner.jobs.Sublist x.runner.jobs
  finished : x.wait ≠ .finished → y.wait = .finished → y.runner.jobs = []

theorem Stopped.step {z : JobRunnerHandle} (h : Stopped x y) (hSound : y.Sound options timeout)
    (hStep : Step options timeout y event z) : Stopped x z := by
  cases hStep with
  | runner step alive =>
      have hJobs := (beside_step (alive h.ended) step).2
      refine ⟨h.ended, hJobs.trans h.jobs, fun hBefore hFinished => ?_⟩
      have hNone := h.finished hBefore hFinished
      rw [hNone] at hJobs
      exact List.sublist_nil.mp hJobs
  | abort running => exact absurd (running.symm.trans h.ended) (by decide)
  | cancelled aborted yields => exact ⟨rfl, h.jobs, h.finished⟩
  | wait idle => exact ⟨h.ended, h.jobs, nofun⟩
  | finished waits none =>
      refine ⟨h.ended, h.jobs, fun _ _ => List.length_eq_zero_iff.mp ?_⟩
      rw [← hSound.count h.ended, none]
      rfl
  | timedOut waits some passed late => exact ⟨h.ended, h.jobs, nofun⟩
  | slept waits some passed early => exact ⟨h.ended, h.jobs, nofun⟩

/-- After `stop` the main loop has ended, wherever it was. From then on no job
is started and the counter is exact, so when `wait_jobs_finish` returns before
its timeout, every job that was handed out has finished. It sleeps no more often
than fits its timeout. -/
theorem graceful_shutdown {before after : List HandleEvent}
    (run : Run (Step options timeout) run before x) (hEnded : x.task = .ended)
    (rest : Run (Step options timeout) x after y) :
    y.runner.jobs.Sublist x.runner.jobs ∧ y.runner.runningJobs.toNat = y.runner.jobs.length ∧
      (x.wait ≠ .finished → y.wait = .finished → y.runner.jobs = []) ∧
        ∀ elapsed sleeps, y.wait = .waiting elapsed sleeps → sleeps * waitStep < timeout + waitStep := by
  have hSound : x.Sound options timeout :=
    run.invariant (sound_run options timeout) fun _ _ _ h => h.step
  have hStart : Stopped x x := ⟨hEnded, List.Sublist.refl _, fun hNot hFinished => absurd hFinished hNot⟩
  obtain ⟨hAfter, hStopped⟩ : y.Sound options timeout ∧ Stopped x y := by
    refine rest.invariant (P := fun y => y.Sound options timeout ∧ Stopped x y) ⟨hSound, hStart⟩ ?_
    rintro y event z ⟨hSound, hStopped⟩ hStep
    exact ⟨hSound.step hStep, hStopped.step hSound hStep⟩
  exact ⟨hStopped.jobs, hAfter.count hStopped.ended, hStopped.finished,
    fun elapsed sleeps hWaiting => (hAfter.slept elapsed sleeps hWaiting).2⟩

/-- A runner whose handle is not used. -/
theorem run_unused {events : List RunnerEvent} {r : JobRunner}
    (h : Run (JobRunner.Step options) .start events r) :
    Run (Step options timeout) run (events.map .runner) { run with runner := r } := by
  induction h with
  | refl => exact .refl
  | snoc prior last ih =>
      rw [List.map_append]
      exact .snoc ih (.runner last nofun)

/-- The handle is stopped while its only job runs, and waits for it. -/
theorem graceful_shutdown_of_single : ∃ before after x y,
    Run (Step ⟨1, 1, none⟩ 10000000) run before x ∧ x.runner.jobs.length = 1 ∧
      Run (Step ⟨1, 1, none⟩ 10000000) x after y ∧ y.wait = .finished ∧ y.runner.jobs = [] := by
  obtain ⟨events, job, duration, single⟩ := JobRunner.single_run
  let x : JobRunnerHandle := ⟨{ JobRunner.start with
    runningJobs := 1, jobs := [job], loop := .waiting .polled duration }, .ended, .idle⟩
  have hAbort : Run (Step ⟨1, 1, none⟩ 10000000) run _ { x with task := .aborted } :=
    .snoc (run_unused single) (.abort rfl)
  have hEnded : Run (Step ⟨1, 1, none⟩ 10000000) run _ x := .snoc hAbort (.cancelled rfl trivial)
  have hAlive : job ∈ x.runner.jobs := List.mem_singleton_self job
  have hNone : (1 : UInt64) - 1 = 0 := by decide
  have rest : Run (Step ⟨1, 1, none⟩ 10000000) x [.wait, .check, .runner (.drop job), .check] _ :=
    .cons (.wait rfl) (.cons (.slept rfl (show (0 : UInt64) < 1 by decide) (Nat.le_refl 0) (by decide))
      (.cons (.runner (.drop hAlive) fun _ => trivial) (.cons (.finished rfl hNone) .refl)))
  have hShutdown := graceful_shutdown hEnded rfl rest
  exact ⟨_, _, _, _, hEnded, rfl, rest, rfl, hShutdown.2.2.1 nofun rfl⟩

end JobRunnerHandle

end Sqlxmq
