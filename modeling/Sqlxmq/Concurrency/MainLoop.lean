import Sqlxmq.Crate.MainLoop

/-! The concurrency limits of a job runner. The number of running jobs that the
main loop loads is stale by the time its poll returns, since jobs are dropped
meanwhile. It only ever overestimates, because nobody else starts jobs. -/
namespace Sqlxmq

open KeyedTable LabelledRun

/-- The LIMITs of a poll bound what is dispatched of it. -/
theorem mqPoll_dispatched_length {choice : PollChoice} {now : Timestamp}
    {channelNames : Option (List String)} {batchSize : Int4} {s s' : Store}
    {messages : List PolledMessage}
    (h : mqPoll choice now channelNames batchSize s = .ok (s', messages)) :
    (dispatched messages).length ≤ batchSize.val.toNat := by
  obtain ⟨ids, rows, hIds, hUpdate, rfl⟩ := mqPoll_eq_ok h
  have hLimit : ids.length ≤ batchSize.val.toNat := by
    obtain ⟨active, -, hIds⟩ := bind_eq_ok_iff.mp hIds
    obtain ⟨perChannel, -, hIds⟩ := bind_eq_ok_iff.mp hIds
    rw [(limit_eq_ok_iff.mp hIds).2]
    exact List.length_take_le _ _
  have hRows : rows.length ≤ ids.length := by
    obtain ⟨-, -, -, rfl⟩ := pollUpdate_eq_ok hUpdate
    have hNodup : ((s.msgs.filter (pollSelects now ids)).map MqMsg.id).Nodup :=
      s.msgsPkey.sublist (List.filter_sublist.map _)
    have hSubset : (s.msgs.filter (pollSelects now ids)).map MqMsg.id ⊆ ids := by
      intro id hId
      obtain ⟨r, hr, rfl⟩ := List.mem_map.mp hId
      have hSelected := (List.mem_filter.mp hr).2
      simp only [pollSelects, decide_eq_true_eq] at hSelected
      exact hSelected.1
    simpa using (List.subperm_of_subset hNodup hSubset).length_le
  split
  · exact Nat.zero_le _
  · exact (List.length_filterMap_le _ _).trans (hRows.trans hLimit)

/-- A cast to `i32` that is not negative never exceeds the number. -/
theorem Int4.toNat_ofBits_le (n : UInt64) : (Int4.ofBits (n.toBitVec.setWidth 32)).val.toNat ≤ n.toNat := by
  have hLow : (n.toBitVec.setWidth 32).toNat ≤ n.toNat := by
    rw [BitVec.toNat_setWidth, UInt64.toNat_toBitVec]
    exact Nat.mod_le _ _
  have hSigned : (n.toBitVec.setWidth 32).toInt ≤ (n.toBitVec.setWidth 32).toNat := by
    rw [BitVec.toInt_eq_toNat_cond]
    split <;> omega
  have hVal : (Int4.ofBits (n.toBitVec.setWidth 32)).val = (n.toBitVec.setWidth 32).toInt := rfl
  omega

/-- The job for which the counter was just incremented and whose dispatch
comes next. -/
def MainLoop.handing : MainLoop → Nat
  | .dispatching _ (.dispatch _ :: _) => 1
  | _ => 0

/-- The rest of the effects of a poll. -/
def Remaining (effects : List DispatchEffect) : Prop :=
  (∃ jobs : List CurrentJob, effects = jobs.flatMap dispatchJob) ∨
    ∃ (job : CurrentJob) (jobs : List CurrentJob), effects = .dispatch job :: jobs.flatMap dispatchJob

theorem remaining_fetchAdd {rest : List DispatchEffect} (h : Remaining (.fetchAdd :: rest)) :
    ∃ (job : CurrentJob) (jobs : List CurrentJob), rest = .dispatch job :: jobs.flatMap dispatchJob := by
  rcases h with ⟨jobs, hEq⟩ | ⟨job, jobs, hEq⟩
  · cases jobs with
    | nil => cases hEq
    | cons job jobs => exact ⟨job, jobs, (List.cons.inj hEq).2⟩
  · cases hEq

theorem remaining_dispatch {job : CurrentJob} {rest : List DispatchEffect}
    (h : Remaining (.dispatch job :: rest)) : ∃ jobs : List CurrentJob, rest = jobs.flatMap dispatchJob := by
  rcases h with ⟨jobs, hEq⟩ | ⟨job, jobs, hEq⟩
  · cases jobs <;> cases hEq
  · exact ⟨jobs, (List.cons.inj hEq).2⟩

theorem handing_flatMap (result : Except SqlxError Duration) (jobs : List CurrentJob) :
    (MainLoop.dispatching result (jobs.flatMap dispatchJob)).handing = 0 := by
  cases jobs <;> rfl

namespace JobRunner

/-- The number of jobs in the hands of `dispatch`. -/
def handedOver (x : JobRunner) : Nat := x.jobs.length + x.loop.handing

/-- The number of jobs stays in step with its counter, and there is room for
everything that a poll still brings. -/
structure Bounded (options : JobRunnerOptions) (x : JobRunner) : Prop where
  counted : x.runningJobs.toNat = x.handedOver
  limit : x.handedOver ≤ options.maxConcurrency.toNat
  loaded : ∀ runningJobs, x.loop = .polling runningJobs →
    x.handedOver ≤ runningJobs.toNat ∧ runningJobs.toNat ≤ options.maxConcurrency.toNat
  room : ∀ result effects, x.loop = .dispatching result effects → Remaining effects ∧
    x.handedOver + effects.count .fetchAdd ≤ options.maxConcurrency.toNat

theorem bounded_start (options : JobRunnerOptions) : Bounded options start where
  counted := rfl
  limit := Nat.zero_le _
  loaded := nofun
  room := nofun

variable {options : JobRunnerOptions} {x y : JobRunner} {event : RunnerEvent}

/-- What a poll dispatches fits into what is left below the maximum. -/
theorem poll_fits {runningJobs : UInt64} (hLoaded : runningJobs ≤ options.maxConcurrency)
    {poll : Except SqlxError (List PolledMessage)} (hReturns : options.PollReturns runningJobs poll)
    (delete : List Uuid → Except SqlxError Unit) :
    ∃ jobs : List CurrentJob, (pollAndDispatch poll delete).2 = jobs.flatMap dispatchJob ∧
      jobs.length ≤ options.maxConcurrency.toNat - runningJobs.toNat := by
  rcases pollAndDispatch_effects poll delete with hNone | ⟨messages, rfl, hAll⟩
  · exact ⟨[], hNone, Nat.zero_le _⟩
  · obtain ⟨choice, now, s, s', hPoll⟩ := hReturns
    refine ⟨dispatched messages, hAll, ?_⟩
    calc
      (dispatched messages).length ≤ (options.batchSize runningJobs).val.toNat :=
        mqPoll_dispatched_length hPoll
      _ ≤ (options.maxConcurrency - runningJobs).toNat := Int4.toNat_ofBits_le _
      _ = options.maxConcurrency.toNat - runningJobs.toNat := UInt64.toNat_sub_of_le _ _ hLoaded

/-- A step of the main loop that starts no job. -/
theorem Bounded.moved (h : Bounded options x) (hRunning : y.runningJobs = x.runningJobs)
    (hJobs : y.jobs = x.jobs) (hHanding : y.loop.handing = x.loop.handing)
    (hLoaded : ∀ runningJobs, y.loop = .polling runningJobs →
      x.handedOver ≤ runningJobs.toNat ∧ runningJobs.toNat ≤ options.maxConcurrency.toNat)
    (hRoom : ∀ result effects, y.loop = .dispatching result effects → Remaining effects ∧
      x.handedOver + effects.count .fetchAdd ≤ options.maxConcurrency.toNat) : Bounded options y := by
  have hSame : y.handedOver = x.handedOver := by rw [handedOver, handedOver, hJobs, hHanding]
  refine ⟨?_, ?_, ?_, ?_⟩
  · rw [hRunning, hSame, h.counted]
  · rw [hSame]
    exact h.limit
  · rw [hSame]
    exact hLoaded
  · rw [hSame]
    exact hRoom

theorem Bounded.fetchAdd (h : Bounded options x) {result : Except SqlxError Duration}
    {rest : List DispatchEffect} (hNext : x.loop = .dispatching result (.fetchAdd :: rest)) :
    Bounded options { x with runningJobs := x.runningJobs + 1, loop := .dispatching result rest } := by
  obtain ⟨hRemaining, hRoom⟩ := h.room _ _ hNext
  obtain ⟨job, jobs, rfl⟩ := remaining_fetchAdd hRemaining
  have hBefore : x.handedOver = x.jobs.length := by simp [handedOver, hNext, MainLoop.handing]
  have hCounted := h.counted
  have hWord := options.maxConcurrency.toNat_lt
  simp only [List.count_cons_self, List.count_cons_of_ne, ne_eq, reduceCtorEq, not_false_eq_true,
    count_fetchAdd_flatMap] at hRoom
  refine ⟨?_, ?_, nofun, ?_⟩
  · simp only [handedOver, MainLoop.handing, UInt64.toNat_add, UInt64.toNat_one]
    omega
  · simp only [handedOver, MainLoop.handing]
    omega
  · rintro _ _ hLoop
    cases hLoop
    refine ⟨Or.inr ⟨job, jobs, rfl⟩, ?_⟩
    simp only [handedOver, MainLoop.handing, List.count_cons_of_ne, ne_eq, reduceCtorEq,
      not_false_eq_true, count_fetchAdd_flatMap]
    omega

theorem Bounded.dispatch (h : Bounded options x) {result : Except SqlxError Duration}
    {job : CurrentJob} {rest : List DispatchEffect}
    (hNext : x.loop = .dispatching result (.dispatch job :: rest)) :
    Bounded options { x with jobs := job :: x.jobs, loop := .dispatching result rest } := by
  obtain ⟨hRemaining, hRoom⟩ := h.room _ _ hNext
  obtain ⟨jobs, rfl⟩ := remaining_dispatch hRemaining
  have hSame : handedOver
      { x with jobs := job :: x.jobs, loop := .dispatching result (jobs.flatMap dispatchJob) } =
        x.handedOver := by
    rw [handedOver, handedOver, handing_flatMap, hNext]
    rfl
  refine ⟨hSame ▸ h.counted, hSame ▸ h.limit, nofun, ?_⟩
  rintro _ _ hLoop
  cases hLoop
  refine ⟨Or.inl ⟨jobs, rfl⟩, ?_⟩
  rw [hSame]
  simpa using hRoom

theorem Bounded.drop (h : Bounded options x) {job : CurrentJob} (hAlive : job ∈ x.jobs)
    (notifying : Nat) :
    Bounded options
      { x with runningJobs := x.runningJobs - 1, jobs := x.jobs.erase job, notifying } := by
  have hLength : (x.jobs.erase job).length + 1 = x.jobs.length := by
    rw [List.length_erase_of_mem hAlive]
    have hSome := List.length_pos_of_mem hAlive
    omega
  have hLess : handedOver
      { x with runningJobs := x.runningJobs - 1, jobs := x.jobs.erase job, notifying } + 1 =
        x.handedOver := by
    simp only [handedOver]
    omega
  have hCounted := h.counted
  have hLimit := h.limit
  refine ⟨?_, by omega, ?_, ?_⟩
  · have hOne : (1 : UInt64) ≤ x.runningJobs := by
      rw [UInt64.le_iff_toNat_le, UInt64.toNat_one]
      omega
    have hMinus : (x.runningJobs - 1).toNat = x.runningJobs.toNat - 1 :=
      UInt64.toNat_sub_of_le _ _ hOne
    show (x.runningJobs - 1).toNat = _
    omega
  · intro runningJobs hLoop
    have hLoaded := h.loaded runningJobs hLoop
    omega
  · intro result effects hLoop
    obtain ⟨hRemaining, hRoom⟩ := h.room result effects hLoop
    exact ⟨hRemaining, by omega⟩

theorem Bounded.step (h : Bounded options x) (hStep : Step options x event y) : Bounded options y := by
  cases hStep with
  | below atTop few =>
      refine h.moved rfl rfl (by rw [atTop]; rfl) ?_ nofun
      rintro _ hLoop
      cases hLoop
      exact ⟨h.counted.ge, h.counted.trans_le h.limit⟩
  | full atTop enough => exact h.moved rfl rfl (by rw [atTop]; rfl) nofun nofun
  | @poll runningJobs poll delete polling returns =>
      obtain ⟨hStale, hLoaded⟩ := h.loaded _ polling
      obtain ⟨jobs, hEffects, hFits⟩ := poll_fits (UInt64.le_iff_toNat_le.mpr hLoaded) returns delete
      rw [hEffects]
      refine h.moved rfl rfl (by rw [polling, handing_flatMap]; rfl) nofun ?_
      rintro _ _ hLoop
      cases hLoop
      refine ⟨Or.inl ⟨jobs, rfl⟩, ?_⟩
      rw [count_fetchAdd_flatMap]
      omega
  | fetchAdd next => exact h.fetchAdd next
  | dispatch next => exact h.dispatch next
  | succeeded done => exact h.moved rfl rfl (by rw [done]; rfl) nofun nofun
  | failed done => exact h.moved rfl rfl (by rw [done]; rfl) nofun nofun
  | drop alive => exact h.drop alive _
  | notifyOne late => exact h.moved rfl rfl rfl h.loaded h.room
  | listener => exact h.moved rfl rfl rfl h.loaded h.room
  | notified waits stored => exact h.moved rfl rfl (by rw [waits]; rfl) nofun nofun
  | timeout waits => exact h.moved rfl rfl (by rw [waits]; rfl) nofun nofun

/-- The counter of running jobs is exact, so it never falls below zero, and it
never exceeds the maximum, so the batch size never underflows. No poll
dispatches more jobs than the difference, whatever its cast makes of it. -/
theorem concurrency_limit {events : List RunnerEvent} (run : Run (Step options) start events x) :
    x.runningJobs.toNat = x.handedOver ∧ (x.jobs ≠ [] → 0 < x.runningJobs) ∧
      x.runningJobs ≤ options.maxConcurrency ∧
      ∀ runningJobs, x.loop = .polling runningJobs →
        runningJobs ≤ options.maxConcurrency ∧
        ∀ poll delete y, Step options x (.poll poll delete) y → ∃ result effects,
          y.loop = .dispatching result effects ∧
            (dispatchedJobs effects).length ≤ (options.maxConcurrency - runningJobs).toNat := by
  have h : Bounded options x := run.invariant (bounded_start options) fun _ _ _ h => h.step
  refine ⟨h.counted, ?_, ?_, ?_⟩
  · intro hSome
    have hLength := List.length_pos_of_ne_nil hSome
    rw [UInt64.lt_iff_toNat_lt, h.counted, handedOver, UInt64.toNat_zero]
    omega
  · rw [UInt64.le_iff_toNat_le, h.counted]
    exact h.limit
  · intro runningJobs hLoop
    have hLoaded : runningJobs ≤ options.maxConcurrency :=
      UInt64.le_iff_toNat_le.mpr (h.loaded runningJobs hLoop).2
    refine ⟨hLoaded, ?_⟩
    intro poll delete y hStep
    cases hStep with
    | poll polling returns =>
        obtain rfl := MainLoop.polling.inj (hLoop.symm.trans polling)
        obtain ⟨jobs, hEffects, hFits⟩ := poll_fits hLoaded returns delete
        refine ⟨_, _, rfl, ?_⟩
        rw [hEffects, dispatchedJobs_flatMap, UInt64.toNat_sub_of_le _ _ hLoaded]
        exact hFits

/-- While the main loop waits because enough jobs were running, a fall below
the minimum is about to end the wait. -/
def Woken (options : JobRunnerOptions) (x : JobRunner) : Prop :=
  ∀ duration, x.loop = .waiting .full duration →
    options.minConcurrency ≤ x.runningJobs ∨ x.permit = true ∨ 0 < x.notifying

/-- Nothing starts a job during the wait, so a fall below the minimum passes
a drop that sees exactly the minimum. -/
theorem Woken.drop (h : Woken options x) (jobs : List CurrentJob) :
    Woken options
      { x with
        runningJobs := x.runningJobs - 1
        jobs
        notifying := if x.runningJobs = options.minConcurrency then x.notifying + 1 else x.notifying } := by
  intro duration hLoop
  rcases h duration hLoop with hEnough | hPermit | hPending
  · by_cases hAt : x.runningJobs = options.minConcurrency
    · exact Or.inr (Or.inr (by simp [hAt]))
    · left
      have hAbove : options.minConcurrency < x.runningJobs := UInt64.lt_of_le_of_ne hEnough (Ne.symm hAt)
      have hOne : (1 : UInt64) ≤ x.runningJobs := by
        rw [UInt64.le_iff_toNat_le, UInt64.toNat_one]
        rw [UInt64.lt_iff_toNat_lt] at hAbove
        omega
      have hMinus : (x.runningJobs - 1).toNat = x.runningJobs.toNat - 1 :=
        UInt64.toNat_sub_of_le _ _ hOne
      show options.minConcurrency ≤ x.runningJobs - 1
      rw [UInt64.le_iff_toNat_le, hMinus]
      rw [UInt64.lt_iff_toNat_lt] at hAbove
      omega
  · exact Or.inr (Or.inl hPermit)
  · right
    right
    show 0 < if x.runningJobs = options.minConcurrency then x.notifying + 1 else x.notifying
    split
    · exact Nat.succ_pos _
    · exact hPending

theorem Woken.step (h : Woken options x) (hStep : Step options x event y) : Woken options y := by
  cases hStep with
  | full atTop enough => exact fun _ _ => Or.inl enough
  | drop alive => exact h.drop _
  | notifyOne late => exact fun _ _ => Or.inr (Or.inl rfl)
  | listener => exact fun _ _ => Or.inr (Or.inl rfl)
  | _ => exact nofun

/-- No wake-up is lost when jobs finish. -/
theorem no_lost_wakeup {events : List RunnerEvent} (run : Run (Step options) start events x)
    {duration : Duration} (hWaits : x.loop = .waiting .full duration)
    (hBelow : x.runningJobs < options.minConcurrency) : x.permit = true ∨ 0 < x.notifying := by
  have h : Woken options x := run.invariant (by exact nofun) fun _ _ _ h => h.step
  refine (h duration hWaits).resolve_left fun hEnough => ?_
  exact absurd hBelow (UInt64.not_lt.mpr hEnough)

/-- A runner of at most one job, and a run in which it dispatches that job. -/
theorem single_run : ∃ events job duration, Run (Step ⟨1, 1, none⟩) start events
    { start with runningJobs := 1, jobs := [job], loop := .waiting .polled duration } := by
  have hPolled : (mqPoll .physical 0 none (JobRunnerOptions.batchSize ⟨1, 1, none⟩ 0)
      mixedSession.store).map (fun result =>
        ((dispatched result.2).map CurrentJob.id, idsToDelete result.2)) = .ok ([1], []) := by
    decide +kernel
  obtain ⟨⟨s', messages⟩, hPoll, hResult⟩ := exists_of_map_eq_ok hPolled
  obtain ⟨hJobs, hNone⟩ := Prod.mk.inj hResult
  obtain ⟨job, hJob, -⟩ := List.map_eq_singleton_iff.mp hJobs
  have hEffects : pollAndDispatch (.ok messages) (fun _ => .ok ()) =
      (.ok (waitDuration messages), [.fetchAdd, .dispatch job]) := by
    rw [pollAndDispatch_of_deleted (Or.inl hNone), hJob]
    rfl
  have hBelow : Step ⟨1, 1, none⟩ start .load { start with loop := .polling 0 } :=
    .below rfl (by decide)
  have hReturns : JobRunnerOptions.PollReturns ⟨1, 1, none⟩ 0 (.ok messages) :=
    ⟨.physical, 0, mixedSession.store, s', hPoll⟩
  have hPollStep : Step ⟨1, 1, none⟩ { start with loop := .polling 0 }
      (.poll (.ok messages) fun _ => .ok ())
      { start with loop := .dispatching (.ok (waitDuration messages)) [.fetchAdd, .dispatch job] } :=
    .poll_of_eq rfl hReturns hEffects
  exact ⟨_, job, waitDuration messages, .cons hBelow (.cons hPollStep (.cons (.fetchAdd rfl)
    (.cons (.dispatch rfl) (.cons (.succeeded rfl) .refl))))⟩

theorem concurrency_limit_of_single : ∃ events x, Run (Step ⟨1, 1, none⟩) start events x ∧
    x.jobs.length = 1 ∧ x.runningJobs.toNat = x.handedOver ∧ x.runningJobs ≤ 1 := by
  obtain ⟨events, job, duration, run⟩ := single_run
  obtain ⟨hCounted, -, hLimit, -⟩ := concurrency_limit run
  exact ⟨events, _, run, rfl, hCounted, hLimit⟩

/-- The job is dropped while the main loop waits, and its drop has not called
`notify_one` yet. -/
theorem no_lost_wakeup_of_drop : ∃ events x duration, Run (Step ⟨1, 1, none⟩) start events x ∧
    x.loop = .waiting .full duration ∧ x.runningJobs = 0 ∧ (x.permit = true ∨ 0 < x.notifying) := by
  obtain ⟨events, job, duration, run⟩ := single_run
  have hTimeout := Run.snoc run (.timeout rfl)
  have hFull := Run.snoc hTimeout (.full rfl (UInt64.le_refl 1))
  have hDrop := Run.snoc hFull (.drop (List.mem_singleton_self job))
  exact ⟨_, _, _, hDrop, rfl, show (1 : UInt64) - 1 = 0 by decide,
    no_lost_wakeup hDrop rfl (show (1 : UInt64) - 1 < 1 by decide)⟩

end JobRunner

end Sqlxmq
