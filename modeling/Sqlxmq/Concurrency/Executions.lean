import Sqlxmq.Crate.Runner
import Sqlxmq.Lifecycle.KeepAlive

/-! All the executions of a queue's jobs, each with the task that keeps it
alive. As long as no task is late, a job is never executed twice at a time,
however many runners poll. -/
namespace Sqlxmq

open KeyedTable LabelledRun

/-- The execution of a job: the server time of the last call of its task, or of
the poll that handed out the job, and the interval that its task holds. -/
structure KeptExecution where
  id : Uuid
  last : Timestamp
  interval : Duration
deriving DecidableEq

/-- The task of an execution, beside the store. -/
def KeptExecution.loop (e : KeptExecution) (s : Store) : KeepAliveLoop := ⟨s, e.last, e.interval⟩

/-- What is dispatched for a row of a poll. -/
def PolledMessage.execution (now : Timestamp) (msg : PolledMessage) : Option KeptExecution := do
  let job ← msg.currentJob
  let retryBackoff ← msg.retryBackoff
  some ⟨job.id, now, toDuration retryBackoff⟩

structure Executions where
  store : Store
  live : List KeptExecution

inductive ExecutionEvent where
  | poll (choice : PollChoice) (now : Timestamp) (channelNames : Option (List String)) (batchSize : Int4)
  | round (e : KeptExecution) (now : Timestamp)
  | ended (e : KeptExecution)
  | call (op : Op)

namespace Executions

variable [JsonbCast]

/-- A poll of some runner starts executions for its rows, or none if its
clean-up fails. Each task sleeps between its rounds, and no poll finds one late.
An execution may end at any moment. Other calls do not reuse identifiers, and
no checkpoint starts a live job again after its last attempt. -/
inductive Step (x : Executions) : ExecutionEvent → Executions → Prop where
  | poll {choice : PollChoice} {now : Timestamp} {channelNames : Option (List String)} {batchSize : Int4}
      {s' : Store} {polled : List PolledMessage} {started : List KeptExecution}
      (polls : mqPoll choice now channelNames batchSize x.store = .ok (s', polled))
      (starts : started.Sublist (polled.filterMap (PolledMessage.execution now)))
      (onTime : ∀ e ∈ x.live, (e.loop x.store).OnTime now) :
      Step x (.poll choice now channelNames batchSize) ⟨s', started ++ x.live⟩
  | round {e : KeptExecution} {now : Timestamp} (live : e ∈ x.live)
      (slept : (e.loop x.store).Slept now) :
      Step x (.round e now)
        ⟨mqKeepAlive now [e.id] (e.interval * 2 : Nat) x.store,
          ⟨e.id, now, e.interval * 2⟩ :: x.live.erase e⟩
  | ended {e : KeptExecution} (live : e ∈ x.live) : Step x (.ended e) { x with live := x.live.erase e }
  | call {op : Op} (noPoll : op.isPoll = false) (spares : op.sparesNil) (durations : op.SendsDurations)
      (fresh : ∀ e ∈ x.live, ∀ m ∈ op.batches.flatten, m.id ≠ e.id)
      (noRevival : ∀ e ∈ x.live, ∀ now duration newPayloadJson newPayloadBytes extraRetries,
        op = .checkpoint now e.id duration newPayloadJson newPayloadBytes extraRetries →
          ∀ r, x.store.row e.id = some r → r.attemptAt ≠ none) :
      Step x (.call op) { x with store := (transact op x.store).1 }

end Executions

section Started

variable {choice : PollChoice} {now : Timestamp} {channelNames : Option (List String)}
  {batchSize : Int4} {s s' : Store} {polled : List PolledMessage}

theorem execution_eq_some {msg : PolledMessage} {e : KeptExecution} (h : msg.execution now = some e) :
    msg.id = some e.id ∧ msg.isCommitted = some true ∧
      ∃ retryBackoff, msg.retryBackoff = some retryBackoff ∧
        e = ⟨e.id, now, toDuration retryBackoff⟩ := by
  obtain ⟨job, hJob, h⟩ := Option.bind_eq_some_iff.mp h
  obtain ⟨retryBackoff, hBackoff, h⟩ := Option.bind_eq_some_iff.mp h
  cases h
  exact ⟨(currentJob_id hJob).1, (currentJob_id hJob).2, retryBackoff, hBackoff, rfl⟩

theorem executions_ids (polled : List PolledMessage) :
    ((polled.filterMap (PolledMessage.execution now)).map KeptExecution.id).Sublist
      (polled.filterMap PolledMessage.id) := by
  induction polled with
  | nil => exact List.Sublist.refl _
  | cons msg rest ih =>
      cases hStarted : msg.execution now with
      | none =>
          rw [List.filterMap_cons_none hStarted]
          exact ih.trans ((List.sublist_cons_self msg rest).filterMap _)
      | some e =>
          rw [List.filterMap_cons_some hStarted, List.map_cons,
            List.filterMap_cons_some (execution_eq_some hStarted).1]
          exact ih.cons_cons _

/-- The lease of an execution begins with its poll. -/
theorem execution_holds (hTimed : Timed s)
    (hPoll : mqPoll choice now channelNames batchSize s = .ok (s', polled)) {e : KeptExecution}
    (hStarted : e ∈ polled.filterMap (PolledMessage.execution now)) :
    (e.loop s').Holds e.id := by
  obtain ⟨m, hm, hExecution⟩ := List.mem_filterMap.mp hStarted
  obtain ⟨hId, hCommitted, retryBackoff, hBackoff, hEq⟩ := execution_eq_some hExecution
  obtain ⟨r, hr, -, -, r', -, hRow, rfl⟩ := mqPoll_polled hPoll hm hId
  have hNonneg : 0 ≤ retryBackoff := by
    cases hBackoff
    rw [(pollRow_eq_ok hRow).2]
    exact Int.ediv_nonneg (Int.mul_nonneg (hTimed.backoff r hr) (by decide)) (by decide)
  have hDuration : (returning s r').retryBackoff = some ((toDuration retryBackoff : Duration) : Interval) := by
    rw [hBackoff, toDuration, Int.toNat_of_nonneg hNonneg]
  rw [hEq]
  exact (KeepAliveLoop.holds_start hPoll hm hId hCommitted hDuration).1

end Started

namespace Executions

/-- Every execution holds the lease of its job, and each job has but one. -/
structure Exclusive (x : Executions) : Prop where
  timed : Timed x.store
  distinct : (x.live.map KeptExecution.id).Nodup
  holds : ∀ e ∈ x.live, (e.loop x.store).Holds e.id

section Steps

variable {x y : Executions} {event : ExecutionEvent}

/-- A poll finds none of the jobs that are being executed. -/
theorem Exclusive.not_polled (h : x.Exclusive) {choice : PollChoice} {now : Timestamp}
    {channelNames : Option (List String)} {batchSize : Int4} {s' : Store} {polled : List PolledMessage}
    (hPoll : mqPoll choice now channelNames batchSize x.store = .ok (s', polled)) {e : KeptExecution}
    (he : e ∈ x.live) (hOnTime : (e.loop x.store).OnTime now) :
    ∀ m ∈ polled, m.id ≠ some e.id := by
  intro m hm hId
  obtain ⟨r, hr, hRowId, hReady, -⟩ := mqPoll_polled hPoll hm hId
  have hRow : x.store.row e.id = some r := Store.row_eq_some_iff.mpr ⟨hr, hRowId⟩
  exact (h.holds e he).notReady hRow hOnTime channelNames hReady

variable [JsonbCast]

theorem Exclusive.call (h : x.Exclusive) {op : Op} {s' : Store} {reply : Reply}
    (hExec : exec op x.store = .ok (s', reply)) {e : KeptExecution} (he : e ∈ x.live)
    (hOnTime : ∀ choice now channelNames batchSize,
      op = .poll choice now channelNames batchSize → (e.loop x.store).OnTime now)
    (hFresh : ∀ m ∈ op.batches.flatten, m.id ≠ e.id)
    (hNoRevival : ∀ now duration newPayloadJson newPayloadBytes extraRetries,
      op = .checkpoint now e.id duration newPayloadJson newPayloadBytes extraRetries →
        ∀ r, x.store.row e.id = some r → r.attemptAt ≠ none) :
    (e.loop s').Holds e.id :=
  ((h.holds e he).call hExec hOnTime hFresh hNoRevival).1

theorem Exclusive.poll (h : x.Exclusive) {choice : PollChoice} {now : Timestamp}
    {channelNames : Option (List String)} {batchSize : Int4} {s' : Store} {polled : List PolledMessage}
    (hPoll : mqPoll choice now channelNames batchSize x.store = .ok (s', polled))
    {started : List KeptExecution}
    (hStarts : started.Sublist (polled.filterMap (PolledMessage.execution now)))
    (hOnTime : ∀ e ∈ x.live, (e.loop x.store).OnTime now) : Exclusive ⟨s', started ++ x.live⟩ := by
  have hExec : exec (.poll choice now channelNames batchSize) x.store = .ok (s', ⟨[], polled⟩) :=
    exec_poll hPoll
  have hNil : (Op.poll choice now channelNames batchSize).sparesNil := trivial
  refine ⟨h.timed.of_exec hNil (by simp [Op.SendsDurations, Op.batches]) hExec, ?_, ?_⟩
  · have hIds := (hStarts.map KeptExecution.id).trans (executions_ids polled)
    rw [List.map_append, List.nodup_append]
    refine ⟨(mqPoll_ids_nodup hPoll).sublist hIds, h.distinct, ?_⟩
    rintro id hStarted _ hLive rfl
    obtain ⟨m, hm, hId⟩ := List.mem_filterMap.mp (hIds.subset hStarted)
    obtain ⟨e, he, rfl⟩ := List.mem_map.mp hLive
    exact h.not_polled hPoll he (hOnTime e he) m hm hId
  · intro e he
    rcases List.mem_append.mp he with hStarted | hLive
    · exact execution_holds h.timed hPoll (hStarts.subset hStarted)
    · refine h.call hExec hLive ?_ (by simp [Op.batches]) ?_
      · intro choice now channelNames batchSize hSame
        cases hSame
        exact hOnTime e hLive
      · intro _ _ _ _ _ hSame
        cases hSame

theorem Exclusive.round (h : x.Exclusive) {e : KeptExecution} (he : e ∈ x.live) (now : Timestamp) :
    Exclusive ⟨mqKeepAlive now [e.id] (e.interval * 2 : Nat) x.store,
      ⟨e.id, now, e.interval * 2⟩ :: x.live.erase e⟩ := by
  have hExec : exec (.keepAlive now [e.id] (e.interval * 2 : Nat)) x.store =
      .ok (mqKeepAlive now [e.id] (e.interval * 2 : Nat) x.store, .silent) := rfl
  have hNil : (Op.keepAlive now [e.id] (e.interval * 2 : Nat)).sparesNil := trivial
  refine ⟨h.timed.of_exec hNil (by simp [Op.SendsDurations, Op.batches]) hExec, ?_, ?_⟩
  · have hSame := (List.perm_cons_erase he).map KeptExecution.id
    exact hSame.nodup_iff.mp h.distinct
  · intro e' he'
    rcases List.mem_cons.mp he' with rfl | hOther
    · exact ((h.holds e he).keepJobAlive now).1
    · refine h.call hExec (List.mem_of_mem_erase hOther) ?_ (by simp [Op.batches]) ?_
      · intro _ _ _ _ hSame
        cases hSame
      · intro _ _ _ _ _ hSame
        cases hSame

theorem Exclusive.step (h : x.Exclusive) (hStep : Step x event y) : y.Exclusive := by
  cases hStep with
  | poll polls starts onTime => exact h.poll polls starts onTime
  | round live slept => exact h.round live _
  | ended live =>
      exact ⟨h.timed, h.distinct.sublist (List.erase_sublist.map _), fun e he =>
        h.holds e (List.mem_of_mem_erase he)⟩
  | @call op noPoll spares durations fresh noRevival =>
      refine transact_keeps (P := fun s' => Exclusive { x with store := s' }) h fun s' reply hExec => ?_
      refine ⟨h.timed.of_exec spares durations hExec, h.distinct, fun e he => ?_⟩
      refine h.call hExec he ?_ (fresh e he) (noRevival e he)
      rintro _ _ _ _ rfl
      cases noPoll

/-- No job is executed twice at a time. However many runners poll, and whatever
else is called, as long as the tasks make their rounds in time the executions
at any moment are of different jobs, and no poll returns a job that is being
executed. -/
theorem one_execution_at_a_time {migratedAt : Timestamp} {events : List ExecutionEvent}
    (run : Run Step ⟨.initial migratedAt, []⟩ events x) :
    (x.live.map KeptExecution.id).Nodup ∧
      ∀ choice now channelNames batchSize s' polled,
        mqPoll choice now channelNames batchSize x.store = .ok (s', polled) →
          ∀ e ∈ x.live, (e.loop x.store).OnTime now → ∀ m ∈ polled, m.id ≠ some e.id := by
  have hTimed : Timed (Store.initial migratedAt) := ⟨.initial migratedAt, by simp [Store.initial]⟩
  have h : x.Exclusive := run.invariant ⟨hTimed, List.nodup_nil, by simp⟩ fun _ _ _ h => h.step
  exact ⟨h.distinct, fun _ _ _ _ _ _ hPoll _ he hOnTime => h.not_polled hPoll he hOnTime⟩

end Steps

/-- Two jobs are handed out, the task of one of them makes its first round, and
another runner polls after two seconds. -/
theorem one_execution_at_a_time_of_two :
    let _ : JsonbCast := .nullOnly
    ∃ events x, Run Step ⟨.initial 0, []⟩ events x ∧ x.live.map KeptExecution.id = [1, 2] ∧
      ∀ choice channelNames batchSize s' polled,
        mqPoll choice (2 * second) channelNames batchSize x.store = .ok (s', polled) →
          ∀ m ∈ polled, m.id ≠ some 1 := by
  intro _
  let jobs := [(JobBuilder.newWithId 1 "job").message, (JobBuilder.newWithId 2 "job").message]
  let s : Store := (transact (.insert 0 jobs) (.initial 0)).1
  have hPolled : (mqPoll .physical 0 none (.ofBits 5) s).map (fun result =>
      result.2.filterMap (PolledMessage.execution 0)) = .ok [⟨1, 0, 1000000⟩, ⟨2, 0, 1000000⟩] := by
    decide +kernel
  obtain ⟨⟨s', polled⟩, hPoll, hStarted⟩ := exists_of_map_eq_ok hPolled
  have hInsert : Step ⟨.initial 0, []⟩ (.call (.insert 0 jobs)) ⟨s, []⟩ :=
    .call rfl trivial (by simp [Op.SendsDurations, Op.batches, jobs, JobBuilder.message]) nofun nofun
  have hStarts : [⟨1, 0, 1000000⟩, ⟨2, 0, 1000000⟩].Sublist
      (polled.filterMap (PolledMessage.execution 0)) := by
    rw [← hStarted]
  have hPollStep : Step ⟨s, []⟩ (.poll .physical 0 none (.ofBits 5))
      ⟨s', [⟨1, 0, 1000000⟩, ⟨2, 0, 1000000⟩] ++ []⟩ := .poll hPoll hStarts (by simp)
  let y : Executions := ⟨mqKeepAlive 600000 [1] (1000000 * 2 : Nat) s',
    [⟨1, 600000, 1000000 * 2⟩, ⟨2, 0, 1000000⟩]⟩
  have hRound : Step ⟨s', [⟨1, 0, 1000000⟩, ⟨2, 0, 1000000⟩]⟩ (.round ⟨1, 0, 1000000⟩ 600000) y :=
    .round List.mem_cons_self (by simp [KeptExecution.loop, KeepAliveLoop.Slept])
  have run := Run.cons hInsert (.cons hPollStep (.cons hRound .refl))
  refine ⟨_, y, run, rfl, fun choice channelNames batchSize t others hOther => ?_⟩
  have hOnTime : ((⟨1, 600000, 1000000 * 2⟩ : KeptExecution).loop y.store).OnTime (2 * second) := by
    simp only [KeptExecution.loop, KeepAliveLoop.OnTime]
    decide
  exact (one_execution_at_a_time run).2 _ _ _ _ _ _ hOther _ List.mem_cons_self hOnTime

end Executions

end Sqlxmq
