import Sqlxmq.Concurrency.MainLoop

/-! The listener task beside the main loop. It calls `notify_one` for what it
receives, and also after an error of the connection, when notifications may
have been missed. Either way the runner polls. -/
namespace Sqlxmq

open LabelledRun

/-- The state of the loop in `start_listener`. -/
structure Listener where
  numErrors : Int32
  /-- The pause after an error. -/
  sleeping : Option Duration

/-- `Duration::from_secs(1 << num_errors)` -/
def errorPause (numErrors : Int32) : Duration :=
  ((1 : UInt64) <<< numErrors.toUInt32.toUInt64).toNat * 1000000

/-- A job runner with its listener. -/
structure ListeningRunner where
  runner : JobRunner
  listener : Listener

inductive ListeningEvent where
  | runner (event : RunnerEvent)
  /-- `recv` returns a notification, or an error. -/
  | recv (ok : Bool)
  | slept
  /-- The iteration after an error, which does not call `recv`. -/
  | retry

namespace ListeningRunner

def start : ListeningRunner := ⟨.start, ⟨0, none⟩⟩

/-- One step of the runner without its listener, or one of the listener. -/
inductive Step (options : JobRunnerOptions) (x : ListeningRunner) :
    ListeningEvent → ListeningRunner → Prop where
  | runner {event : RunnerEvent} {y : JobRunner} (step : JobRunner.Step options x.runner event y)
      (other : event ≠ .listener) : Step options x (.runner event) { x with runner := y }
  | received {y : JobRunner} (awake : x.listener.sleeping = none) (noError : ¬ 0 < x.listener.numErrors)
      (notifies : JobRunner.Step options x.runner .listener y) :
      Step options x (.recv true) ⟨y, ⟨0, none⟩⟩
  | failed (awake : x.listener.sleeping = none) (noError : ¬ 0 < x.listener.numErrors) :
      Step options x (.recv false)
        { x with listener := { x.listener with sleeping := some (errorPause x.listener.numErrors) } }
  | slept {duration : Duration} (asleep : x.listener.sleeping = some duration) :
      Step options x .slept { x with listener := ⟨x.listener.numErrors + 1, none⟩ }
  | retry {y : JobRunner} (awake : x.listener.sleeping = none) (error : 0 < x.listener.numErrors)
      (notifies : JobRunner.Step options x.runner .listener y) :
      Step options x .retry ⟨y, ⟨0, none⟩⟩

end ListeningRunner

section Pace

/-- The listener counts at most one error. -/
inductive Listener.Paced : Listener → Prop where
  | receiving : Paced ⟨0, none⟩
  | pausing : Paced ⟨0, some 1000000⟩
  | retrying : Paced ⟨1, none⟩

theorem errorPause_zero : errorPause 0 = 1000000 := by decide +kernel

variable {options : JobRunnerOptions} {x y : ListeningRunner} {event : ListeningEvent}

theorem Listener.Paced.step (h : x.listener.Paced) (hStep : ListeningRunner.Step options x event y) :
    y.listener.Paced := by
  obtain ⟨runner, listener⟩ := x
  cases hStep with
  | runner step other => exact h
  | received awake noError notifies => exact .receiving
  | failed awake noError =>
      cases h with
      | receiving =>
          rw [errorPause_zero]
          exact .pausing
      | pausing => cases awake
      | retrying => exact absurd (show (0 : Int32) < 1 by decide) noError
  | slept asleep =>
      cases h with
      | pausing => exact .retrying
      | receiving => cases asleep
      | retrying => cases asleep
  | retry awake error notifies => exact .receiving

end Pace

namespace JobRunner

variable {options : JobRunnerOptions} {x y : JobRunner} {event : RunnerEvent}

/-- A round is about to begin, or will as soon as enough jobs have finished. -/
inductive RoundAhead (options : JobRunnerOptions) (x : JobRunner) : Prop where
  | permit (stored : x.permit = true)
  | top (atTop : x.loop = .top)
  | full {duration : Duration} (waits : x.loop = .waiting .full duration) (woken : Woken options x)

theorem RoundAhead.permit_of_busy (h : RoundAhead options x) (hTop : x.loop ≠ .top)
    (hFull : ∀ duration, x.loop ≠ .waiting .full duration) : x.permit = true := by
  cases h with
  | permit stored => exact stored
  | top atTop => exact absurd atTop hTop
  | full waits woken => exact absurd waits (hFull _)

theorem RoundAhead.step (h : RoundAhead options x) (hStep : Step options x event y) :
    RoundAhead options y ∨ event = .load ∧ ∃ runningJobs, y.loop = .polling runningJobs := by
  cases hStep with
  | below atTop few => exact Or.inr ⟨rfl, _, rfl⟩
  | full atTop enough => exact Or.inl (.full rfl fun _ _ => Or.inl enough)
  | notified waits stored => exact Or.inl (.top rfl)
  | timeout waits => exact Or.inl (.top rfl)
  | notifyOne late => exact Or.inl (.permit rfl)
  | listener => exact Or.inl (.permit rfl)
  | drop alive =>
      cases h with
      | permit stored => exact Or.inl (.permit stored)
      | top atTop => exact Or.inl (.top atTop)
      | full waits woken => exact Or.inl (.full waits (woken.drop _))
  -- In the middle of a round only a stored permit promises another one.
  | poll polling returns => exact Or.inl (.permit (h.permit_of_busy (by simp [polling]) (by simp [polling])))
  | fetchAdd next => exact Or.inl (.permit (h.permit_of_busy (by simp [next]) (by simp [next])))
  | dispatch next => exact Or.inl (.permit (h.permit_of_busy (by simp [next]) (by simp [next])))
  | succeeded done => exact Or.inl (.permit (h.permit_of_busy (by simp [done]) (by simp [done])))
  | failed done => exact Or.inl (.permit (h.permit_of_busy (by simp [done]) (by simp [done])))

/-- A round that has loaded the number of jobs below the minimum polls. -/
theorem polling_step {runningJobs : UInt64} (h : x.loop = .polling runningJobs)
    (hStep : Step options x event y) :
    (∃ poll delete, event = .poll poll delete) ∨ y.loop = .polling runningJobs := by
  cases hStep with
  | poll polling returns => exact Or.inl ⟨_, _, rfl⟩
  | drop alive => exact Or.inr h
  | notifyOne late => exact Or.inr h
  | listener => exact Or.inr h
  | below atTop few => simp [h] at atTop
  | full atTop enough => simp [h] at atTop
  | fetchAdd next => simp [h] at next
  | dispatch next => simp [h] at next
  | succeeded done => simp [h] at done
  | failed done => simp [h] at done
  | notified waits stored => simp [h] at waits
  | timeout waits => simp [h] at waits

/-- The main loop waits, and nothing is about to wake it although there is room
for jobs. -/
structure Idle (options : JobRunnerOptions) (x : JobRunner) : Prop where
  waits : ∃ reason duration, x.loop = .waiting reason duration
  room : x.runningJobs < options.minConcurrency
  noPermit : x.permit = false
  noDrop : x.notifying = 0

theorem Idle.settled (h : Idle options x) : ¬ RoundAhead options x := by
  intro hAhead
  obtain ⟨reason, duration, hLoop⟩ := h.waits
  cases hAhead with
  | permit stored =>
      rw [h.noPermit] at stored
      cases stored
  | top atTop => simp [hLoop] at atTop
  | full waits woken =>
      rcases woken _ waits with hEnough | hPermit | hPending
      · exact UInt64.not_lt.mpr hEnough h.room
      · rw [h.noPermit] at hPermit
        cases hPermit
      · rw [h.noDrop] at hPending
        exact Nat.lt_irrefl 0 hPending

end JobRunner

namespace ListeningRunner

variable {options : JobRunnerOptions} {x y : ListeningRunner} {event : ListeningEvent}

/-- The last outcome of `recv` has yet to be followed by a round. -/
inductive Owing (options : JobRunnerOptions) (x : ListeningRunner) : Prop where
  | runner (ahead : JobRunner.RoundAhead options x.runner)
  | sleeping {duration : Duration} (asleep : x.listener.sleeping = some duration)
  | error (error : x.listener.numErrors = 1)

/-- What follows an outcome of `recv`. -/
inductive Followed (options : JobRunnerOptions) (after : List ListeningEvent) (x : ListeningRunner) :
    Prop where
  | owing (owing : Owing options x)
  | loaded {runningJobs : UInt64} (load : .runner .load ∈ after)
      (polling : x.runner.loop = .polling runningJobs)
  | polled {poll : Except SqlxError (List PolledMessage)} {delete : List Uuid → Except SqlxError Unit}
      (round : [.runner .load, .runner (.poll poll delete)].Sublist after)

theorem Followed.of_recv {ok : Bool} (hStep : Step options x (.recv ok) y) : Followed options [] y := by
  cases hStep with
  | received awake noError notifies =>
      cases notifies with
      | listener => exact .owing (.runner (.permit rfl))
  | failed awake noError => exact .owing (.sleeping rfl)

theorem Owing.step (h : Owing options x) (hPaced : x.listener.Paced) (hStep : Step options x event y)
    (after : List ListeningEvent) : Followed options (after ++ [event]) y := by
  cases hStep with
  | runner step other =>
      cases h with
      | runner ahead =>
          rcases ahead.step step with hAhead | ⟨rfl, runningJobs, hPolling⟩
          · exact .owing (.runner hAhead)
          · exact .loaded (List.mem_append_right _ (List.mem_singleton_self _)) hPolling
      | sleeping asleep => exact .owing (.sleeping asleep)
      | error error => exact .owing (.error error)
  | received awake noError notifies =>
      cases notifies with
      | listener => exact .owing (.runner (.permit rfl))
  | failed awake noError => exact .owing (.sleeping rfl)
  | slept asleep =>
      obtain ⟨runner, listener⟩ := x
      cases hPaced with
      | pausing => exact .owing (.error rfl)
      | receiving => cases asleep
      | retrying => cases asleep
  | retry awake error notifies =>
      cases notifies with
      | listener => exact .owing (.runner (.permit rfl))

/-- The listener leaves the loop of the runner alone. -/
theorem Step.polling (hStep : Step options x event y) {runningJobs : UInt64}
    (h : x.runner.loop = .polling runningJobs) :
    (∃ poll delete, event = .runner (.poll poll delete)) ∨ y.runner.loop = .polling runningJobs := by
  cases hStep with
  | runner step other =>
      rcases JobRunner.polling_step h step with ⟨poll, delete, rfl⟩ | hStill
      · exact Or.inl ⟨poll, delete, rfl⟩
      · exact Or.inr hStill
  | received awake noError notifies =>
      cases notifies with
      | listener => exact Or.inr h
  | failed awake noError => exact Or.inr h
  | slept asleep => exact Or.inr h
  | retry awake error notifies =>
      cases notifies with
      | listener => exact Or.inr h

theorem Followed.step {after : List ListeningEvent} (h : Followed options after x)
    (hPaced : x.listener.Paced) (hStep : Step options x event y) :
    Followed options (after ++ [event]) y := by
  cases h with
  | owing owing => exact owing.step hPaced hStep after
  | loaded load polling =>
      rcases hStep.polling polling with ⟨poll, delete, rfl⟩ | hStill
      · exact .polled ((List.singleton_sublist.mpr load).append (List.Sublist.refl [_]))
      · exact .loaded (List.mem_append_left _ load) hStill
  | polled round => exact .polled (round.trans (List.sublist_append_left _ _))

theorem run_followed {events : List ListeningEvent} (run : Run (Step options) start events x) :
    x.listener.Paced ∧ ∀ before ok after, events = before ++ .recv ok :: after →
      Followed options after x := by
  induction run with
  | refl => exact ⟨.receiving, fun before ok after hEvents => by simp at hEvents⟩
  | snoc prior last ih =>
      obtain ⟨hPaced, hFollowed⟩ := ih
      refine ⟨hPaced.step last, fun before ok after hEvents => ?_⟩
      rcases List.eq_nil_or_concat' after with rfl | ⟨init, final, rfl⟩
      · obtain ⟨-, hLast⟩ := List.append_inj' hEvents rfl
        obtain rfl := List.singleton_inj.mp hLast
        exact .of_recv last
      · rw [← List.cons_append, ← List.append_assoc] at hEvents
        obtain ⟨hPrior, hLast⟩ := List.append_inj' hEvents rfl
        obtain rfl := List.singleton_inj.mp hLast
        exact (hFollowed before ok init hPrior).step hPaced last

/-- Neither a notification nor an error of the listener is lost. By the time the
runner idles with room for jobs and its listener calls `recv` again, a round has
begun and polled after each earlier outcome of `recv`. The pause after an error
is always one second. -/
theorem recv_polled {events : List ListeningEvent} (run : Run (Step options) start events x) :
    (∀ duration, x.listener.sleeping = some duration → duration = 1000000) ∧
      ∀ before ok after, events = before ++ .recv ok :: after →
        JobRunner.Idle options x.runner → x.listener.sleeping = none → ¬ 0 < x.listener.numErrors →
          ∃ poll delete, [.runner .load, .runner (.poll poll delete)].Sublist after := by
  obtain ⟨hPaced, hFollowed⟩ := run_followed run
  obtain ⟨runner, listener⟩ := x
  constructor
  · intro duration hSleeping
    cases hPaced with
    | pausing => exact (Option.some.inj hSleeping).symm
    | receiving => cases hSleeping
    | retrying => cases hSleeping
  · intro before ok after hEvents hIdle hAwake hNoError
    cases hFollowed before ok after hEvents with
    | polled round => exact ⟨_, _, round⟩
    | loaded load polling =>
        obtain ⟨reason, duration, hWaits⟩ := hIdle.waits
        rw [hWaits] at polling
        cases polling
    | owing owing =>
        cases owing with
        | runner ahead => exact absurd ahead hIdle.settled
        | sleeping asleep =>
            rw [hAwake] at asleep
            cases asleep
        | error error => exact absurd (error ▸ (show (0 : Int32) < 1 by decide)) hNoError

/-- A round whose poll fails. -/
def failedRound : List ListeningEvent :=
  [.runner .load, .runner (.poll (.error .other) fun _ => .ok ()), .runner (.returned (.error .other))]

theorem Run.failedRound {events : List ListeningEvent} (hAtTop : x.runner.loop = .top)
    (hRoom : x.runner.runningJobs < options.minConcurrency)
    (rest : Run (Step options) { x with runner := { x.runner with
      failures := x.runner.failures + 1
      loop := .waiting .failed (failureDelay (x.runner.failures + 1)) } } events y) :
    Run (Step options) x (failedRound ++ events) y :=
  .cons (.runner (.below hAtTop hRoom) nofun) (.cons (.runner (.poll_of_eq rfl trivial rfl) nofun)
    (.cons (.runner (.failed rfl) nofun) rest))

/-- The connection fails while the runner waits. -/
theorem recv_polled_of_error : ∃ poll delete, [.runner .load, .runner (.poll poll delete)].Sublist
    ([.slept, .retry, .runner .notified] ++ (failedRound ++ [])) := by
  have run : Run (Step ⟨1, 1, none⟩) start
      (failedRound ++ .recv false :: ([.slept, .retry, .runner .notified] ++ (failedRound ++ []))) _ :=
    Run.failedRound rfl (by decide) (.cons (.failed rfl (by decide)) (.cons (.slept rfl)
      (.cons (.retry rfl (by decide) .listener) (.cons (.runner (.notified rfl rfl) nofun)
        (Run.failedRound rfl (by decide) .refl)))))
  exact (recv_polled run).2 failedRound false _ rfl ⟨⟨_, _, rfl⟩, by decide, rfl, rfl⟩ rfl (by decide)

end ListeningRunner

end Sqlxmq
