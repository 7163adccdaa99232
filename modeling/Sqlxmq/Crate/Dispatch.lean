import Sqlxmq.Crate.Api

/-! One poll of the job runner. The poll has taken an attempt from every row
that it returned before the runner deletes what has expired and dispatches the
rest, and the deletion can fail. -/
namespace Sqlxmq

open KeyedTable LabelledRun

/-- What a poll does to the runner, in order. -/
inductive DispatchEffect where
  /-- `running_jobs.fetch_add(1)` -/
  | fetchAdd
  | dispatch (job : CurrentJob)
deriving DecidableEq

def DispatchEffect.job : DispatchEffect → Option CurrentJob
  | .fetchAdd => none
  | .dispatch job => some job

/-- The body of the loop over the rows of a poll. -/
def dispatchMsg (msg : PolledMessage) : List DispatchEffect :=
  match msg.currentJob with
  | some job => [.fetchAdd, .dispatch job]
  | none => []

/-- One poll of the runner, from the outcome of `mq_poll` and that of
`mq_delete`. An error of either returns early. -/
def pollAndDispatch (poll : Except SqlxError (List PolledMessage))
    (delete : List Uuid → Except SqlxError Unit) : Except SqlxError Duration × List DispatchEffect :=
  match poll with
  | .error e => (.error e, [])
  | .ok messages =>
      match if idsToDelete messages = [] then .ok () else delete (idsToDelete messages) with
      | .error e => (.error e, [])
      | .ok () => (.ok (waitDuration messages), messages.flatMap dispatchMsg)

/-- The jobs that were passed to `dispatch`. -/
def dispatchedJobs (effects : List DispatchEffect) : List CurrentJob :=
  effects.filterMap DispatchEffect.job

/-- The effects for one job. -/
def dispatchJob (job : CurrentJob) : List DispatchEffect := [.fetchAdd, .dispatch job]

theorem flatMap_dispatchMsg (messages : List PolledMessage) :
    messages.flatMap dispatchMsg = (dispatched messages).flatMap dispatchJob := by
  induction messages with
  | nil => rfl
  | cons msg rest ih =>
      rw [dispatched] at ih
      cases hJob : msg.currentJob <;> simp [dispatched, dispatchMsg, dispatchJob, hJob, ih]

@[simp] theorem dispatchedJobs_flatMap (jobs : List CurrentJob) :
    dispatchedJobs (jobs.flatMap dispatchJob) = jobs := by
  induction jobs with
  | nil => rfl
  | cons job rest ih =>
      rw [dispatchedJobs] at ih
      simp [dispatchedJobs, dispatchJob, List.filterMap_cons, DispatchEffect.job, ih]

@[simp] theorem count_fetchAdd_flatMap (jobs : List CurrentJob) :
    (jobs.flatMap dispatchJob).count .fetchAdd = jobs.length := by
  induction jobs with
  | nil => rfl
  | cons job rest ih => simp [dispatchJob, ih]

theorem pollAndDispatch_of_deleted {messages : List PolledMessage}
    {delete : List Uuid → Except SqlxError Unit}
    (h : idsToDelete messages = [] ∨ delete (idsToDelete messages) = .ok ()) :
    pollAndDispatch (.ok messages) delete =
      (.ok (waitDuration messages), (dispatched messages).flatMap dispatchJob) := by
  have hDeleted :
      (if idsToDelete messages = [] then .ok () else delete (idsToDelete messages)) = .ok () := by
    split
    · rfl
    · exact h.resolve_left ‹_›
  rw [pollAndDispatch, hDeleted, flatMap_dispatchMsg]

theorem pollAndDispatch_of_not_deleted {messages : List PolledMessage}
    {delete : List Uuid → Except SqlxError Unit} (hSome : idsToDelete messages ≠ []) {e : SqlxError}
    (hFailed : delete (idsToDelete messages) = .error e) :
    pollAndDispatch (.ok messages) delete = (.error e, []) := by
  rw [pollAndDispatch, if_neg hSome, hFailed]

/-- Whatever the outcomes, jobs are dispatched for all rows or for none. -/
theorem pollAndDispatch_effects (poll : Except SqlxError (List PolledMessage))
    (delete : List Uuid → Except SqlxError Unit) :
    (pollAndDispatch poll delete).2 = [] ∨ ∃ messages, poll = .ok messages ∧
      (pollAndDispatch poll delete).2 = (dispatched messages).flatMap dispatchJob := by
  cases poll with
  | error e => exact Or.inl rfl
  | ok messages =>
      by_cases hDeleted : idsToDelete messages = [] ∨ delete (idsToDelete messages) = .ok ()
      · exact Or.inr ⟨messages, rfl, by rw [pollAndDispatch_of_deleted hDeleted]⟩
      · obtain ⟨hSome, hNotDeleted⟩ := not_or.mp hDeleted
        cases hResult : delete (idsToDelete messages) with
        | ok done => exact absurd hResult hNotDeleted
        | error e => exact Or.inl (by rw [pollAndDispatch_of_not_deleted hSome hResult])

/-- Every committed row of a poll was passed to `dispatch` exactly once, with
the counter incremented for each of them, and no uncommitted row was. -/
structure FullyDispatched (messages : List PolledMessage) (effects : List DispatchEffect) : Prop where
  committed : ∀ msg ∈ messages, msg.isCommitted = some true →
    ∃ job, msg.currentJob = some job ∧ (dispatchedJobs effects).filter (·.id = job.id) = [job]
  uncommitted : ∀ msg ∈ messages, msg.isCommitted = some false →
    ∀ job ∈ dispatchedJobs effects, msg.id ≠ some job.id
  counted : effects.count .fetchAdd = (dispatchedJobs effects).length

/-- The jobs of one message come from its rows. -/
theorem filter_dispatched (messages : List PolledMessage) (id : Uuid) :
    (dispatched messages).filter (·.id = id) = dispatched (returnedFor id messages) := by
  rw [dispatched, dispatched, returnedFor, List.filter_filterMap, List.filterMap_filter]
  apply List.filterMap_congr
  intro msg _
  cases hJob : msg.currentJob with
  | none => simp
  | some job => simp [(currentJob_id hJob).1, Option.filter]

/-- Each row of a poll is the only one of its message. -/
theorem returnedFor_eq_singleton {choice : PollChoice} {now : Timestamp}
    {channelNames : Option (List String)} {batchSize : Int4} {s s' : Store}
    {messages : List PolledMessage}
    (hPoll : mqPoll choice now channelNames batchSize s = .ok (s', messages)) {msg : PolledMessage}
    (hMsg : msg ∈ messages) {id : Uuid} (hId : msg.id = some id) :
    returnedFor id messages = [msg] := by
  have hIn : msg ∈ returnedFor id messages := List.mem_filter.mpr ⟨hMsg, by simp [hId]⟩
  rcases mqPoll_row hPoll id with ⟨r, r', -, -, -, -, hReturned⟩ | ⟨-, hNone⟩
  · rw [hReturned, List.mem_singleton] at hIn
    rw [hReturned, hIn]
  · rw [hNone] at hIn
    cases hIn

/-- When nothing is in the way, a poll of intact tables is fully dispatched. -/
theorem Integrity.fullyDispatched {choice : PollChoice} {now : Timestamp}
    {channelNames : Option (List String)} {batchSize : Int4} {s s' : Store}
    {messages : List PolledMessage} (h : Integrity s)
    (hPoll : mqPoll choice now channelNames batchSize s = .ok (s', messages)) :
    FullyDispatched messages ((dispatched messages).flatMap dispatchJob) := by
  refine ⟨?_, ?_, ?_⟩
  · intro msg hMsg hCommitted
    obtain ⟨-, -, -, hPattern⟩ := (h.intact.polled hPoll msg hMsg).2 hCommitted
    obtain ⟨job, hJob⟩ := Option.isSome_iff_exists.mp hPattern
    refine ⟨job, hJob, ?_⟩
    rw [dispatchedJobs_flatMap, filter_dispatched,
      returnedFor_eq_singleton hPoll hMsg (currentJob_id hJob).1]
    simp [dispatched, hJob]
  · intro msg hMsg hOpen job hJob hId
    rw [dispatchedJobs_flatMap] at hJob
    obtain ⟨other, hOther, hPattern⟩ := List.mem_filterMap.mp hJob
    obtain ⟨hOtherId, hCommitted⟩ := currentJob_id hPattern
    have hSame := returnedFor_eq_singleton hPoll hMsg hId
    rw [returnedFor_eq_singleton hPoll hOther hOtherId, List.singleton_inj] at hSame
    rw [hSame, hOpen] at hCommitted
    cases hCommitted
  · rw [count_fetchAdd_flatMap, dispatchedJobs_flatMap]

/-- Whether a batch is fully dispatched depends on the deletion of its expired
messages: a batch with a committed row is lost when that fails. -/
theorem pollAndDispatch_fullyDispatched_iff [JsonbCast] {migratedAt : Timestamp} {ops : List Op}
    {x : Session} (run : Run (Session.Step fun _ op => op.sparesNil) (.start migratedAt) ops x)
    {choice : PollChoice} {now : Timestamp} {channelNames : Option (List String)} {batchSize : Int4}
    {s' : Store} {messages : List PolledMessage}
    (hPoll : mqPoll choice now channelNames batchSize x.store = .ok (s', messages))
    (delete : List Uuid → Except SqlxError Unit) :
    FullyDispatched messages (pollAndDispatch (.ok messages) delete).2 ↔
      idsToDelete messages = [] ∨ delete (idsToDelete messages) = .ok () ∨
        ∀ msg ∈ messages, msg.isCommitted ≠ some true := by
  have hIntegrity : Integrity x.store := (Session.run_integrity run fun _ _ _ hOp => hOp).1
  by_cases hDeleted : idsToDelete messages = [] ∨ delete (idsToDelete messages) = .ok ()
  · rw [pollAndDispatch_of_deleted hDeleted]
    exact iff_of_true (hIntegrity.fullyDispatched hPoll) (or_assoc.mp (Or.inl hDeleted))
  · obtain ⟨hSome, hNotDeleted⟩ := not_or.mp hDeleted
    cases hResult : delete (idsToDelete messages) with
    | ok done => exact absurd hResult hNotDeleted
    | error e =>
        rw [pollAndDispatch_of_not_deleted hSome hResult]
        constructor
        · intro hFull
          refine Or.inr (Or.inr fun msg hMsg hCommitted => ?_)
          obtain ⟨job, -, hOnce⟩ := hFull.committed msg hMsg hCommitted
          cases hOnce
        · rintro (hNone | hDone | hOpen)
          · exact absurd hNone hSome
          · cases hDone
          · exact ⟨fun msg hMsg hCommitted => absurd hCommitted (hOpen msg hMsg), by simp [dispatchedJobs],
              rfl⟩

/-- A job on its only attempt, and one that is never committed. -/
def mixedSession : Session :=
  @Session.call .nullOnly (.insert 0 [lastAttempt, JobBuilder.reservedMessage 2 "job"]) (.start 0)

theorem mixedSession_run :
    Run (@Session.Step .nullOnly fun _ op => op.sparesNil) (.start 0)
      [.insert 0 [lastAttempt, JobBuilder.reservedMessage 2 "job"]] mixedSession :=
  .cons ⟨trivial, rfl⟩ .refl

theorem pollAndDispatch_fullyDispatched_of_deleted :
    ∃ s' messages, mqPoll .physical second none (.ofBits 2) mixedSession.store = .ok (s', messages) ∧
      messages.length = 2 ∧
      FullyDispatched messages (pollAndDispatch (.ok messages) fun _ => .ok ()).2 := by
  have hPolled : (mqPoll .physical second none (.ofBits 2) mixedSession.store).map (·.2.length) =
      .ok 2 := by decide +kernel
  obtain ⟨⟨s', messages⟩, hPoll, hLength⟩ := exists_of_map_eq_ok hPolled
  exact ⟨s', messages, hPoll, hLength,
    (@pollAndDispatch_fullyDispatched_iff .nullOnly 0 _ _ mixedSession_run _ _ _ _ _ _ hPoll _).mpr
      (Or.inr (Or.inl rfl))⟩

/-- One poll takes the only attempt of a job and finds another one expired.
The deletion of that one fails, and the job is never run. -/
theorem pollAndDispatch_not_fullyDispatched :
    ∃ s' messages, mqPoll .physical second none (.ofBits 2) mixedSession.store = .ok (s', messages) ∧
      messages.map (fun msg => (msg.id, msg.isCommitted)) =
        [(some 1, some true), (some 2, some false)] ∧
      (s'.row 1).map (fun r => (r.attempts.val, r.attemptAt)) = some (0, none) ∧
      pollAndDispatch (.ok messages) (fun _ => .error .other) = (.error .other, []) ∧
      ¬ FullyDispatched messages (pollAndDispatch (.ok messages) fun _ => .error .other).2 := by
  have hPolled : (mqPoll .physical second none (.ofBits 2) mixedSession.store).map (fun result =>
      (result.2.map (fun msg => (msg.id, msg.isCommitted)),
        (result.1.row 1).map fun r => (r.attempts.val, r.attemptAt))) =
      .ok ([(some 1, some true), (some 2, some false)], some (0, none)) := by decide +kernel
  obtain ⟨⟨s', messages⟩, hPoll, hResult⟩ := exists_of_map_eq_ok hPolled
  obtain ⟨hRows, hParked⟩ := Prod.mk.inj hResult
  obtain ⟨committed, rest, rfl, hFirst, hRest⟩ := List.map_eq_cons_iff.mp hRows
  obtain ⟨expired, rfl, hSecond⟩ := List.map_eq_singleton_iff.mp hRest
  obtain ⟨hId, hCommitted⟩ := Prod.mk.inj hFirst
  obtain ⟨hExpiredId, hOpen⟩ := Prod.mk.inj hSecond
  have hSome : idsToDelete [committed, expired] ≠ [] :=
    List.ne_nil_of_mem (mem_idsToDelete.mpr ⟨expired, by simp, hOpen, hExpiredId⟩)
  have hFailed : pollAndDispatch (.ok [committed, expired]) (fun _ => .error .other) =
      (.error .other, []) := pollAndDispatch_of_not_deleted hSome rfl
  refine ⟨s', _, hPoll, hRows, hParked, hFailed, ?_⟩
  rw [hFailed]
  intro hFull
  obtain ⟨job, -, hOnce⟩ := hFull.committed committed List.mem_cons_self hCommitted
  cases hOnce

end Sqlxmq
