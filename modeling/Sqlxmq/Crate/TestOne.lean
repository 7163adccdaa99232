import Sqlxmq.Crate.Dispatch
import Sqlxmq.Lifecycle.WorkConserving

/-! `test_one`, which runs a single job and returns. It polls as a job runner
does that has room for one more job. The two part on a message whose commit
interval has elapsed: the runner deletes it, and `test_one` leaves it behind. -/
namespace Sqlxmq

open KeyedTable LabelledRun

/-- How `test_one` ends, once the job that it dispatched has ended. -/
inductive TestResult where
  | returned (job : Option CurrentJob)
  | failed (e : SqlxError)
  /-- `assert_eq!(messages.len(), 1)` -/
  | panicked
deriving DecidableEq

/-- The pattern of `test_one` does not ask for a backoff. -/
def PolledMessage.testJob (msg : PolledMessage) : Option CurrentJob :=
  match msg.id, msg.isCommitted, msg.name with
  | some id, some true, some name =>
      some { id, name, payloadJson := msg.payloadJson, payloadBytes := msg.payloadBytes }
  | _, _, _ => none

/-- Run a single job and then return. -/
def testOne (poll : Except SqlxError (List PolledMessage)) : TestResult :=
  match poll with
  | .error e => .failed e
  | .ok [msg] => .returned msg.testJob
  | .ok _ => .panicked

/-- A poll took an attempt from this message, and from no other. -/
structure Handed (now : Timestamp) (s s' : Store) (r : MqMsg) : Prop where
  row : ∃ r', pollRow now r = .ok r' ∧ s'.row r.id = some r'
  others : ∀ id, id ≠ r.id → s'.row id = s.row id

/-- What became of the message that was polled, if there was one. -/
inductive Tested (now : Timestamp) (channelNames : Option (List String)) (s s' : Store)
    (messages : List PolledMessage) : Option CurrentJob → Prop where
  | idle (nothing : readyMsgs now channelNames s = []) (same : s' = s) :
      Tested now channelNames s s' messages none
  | ran {r : MqMsg} {job : CurrentJob} (ready : r ∈ readyMsgs now channelNames s)
      (committed : r.commitInterval = none) (id : job.id = r.id)
      (payload : s.payload r.id = some ⟨r.id, job.name, job.payloadJson, job.payloadBytes⟩)
      (handed : Handed now s s' r) : Tested now channelNames s s' messages (some job)
  /-- The runner would delete it. -/
  | expired {r : MqMsg} (ready : r ∈ readyMsgs now channelNames s)
      (uncommitted : r.commitInterval ≠ none) (toDelete : idsToDelete messages = [r.id])
      (handed : Handed now s s' r) : Tested now channelNames s s' messages none

/-- The two patterns accept the same rows of messages, which have a backoff. -/
theorem testJob_eq {msg : PolledMessage} (h : msg.retryBackoff.isSome) :
    msg.testJob = msg.currentJob := by
  obtain ⟨id, isCommitted, name, payloadJson, payloadBytes, retryBackoff, waitTime⟩ := msg
  obtain ⟨backoff, rfl⟩ := Option.isSome_iff_exists.mp h
  rcases isCommitted with _ | _ | _ <;> cases id <;> cases name <;> rfl

section Polled

variable {choice : PollChoice} {now : Timestamp} {channelNames : Option (List String)}
  {s s' : Store} {messages : List PolledMessage}

/-- A poll for one message returns one row, whether or not it finds one. -/
theorem mqPoll_one (hPoll : mqPoll choice now channelNames ⟨1, by decide, by decide⟩ s =
    .ok (s', messages)) :
    (readyMsgs now channelNames s = [] ∧ s' = s ∧ messages = [waitRow now channelNames s]) ∨
      ∃ r ∈ readyMsgs now channelNames s, Handed now s s' r ∧
        ∃ r', pollRow now r = .ok r' ∧ messages = [returning s r'] := by
  by_cases hNone : readyMsgs now channelNames s = []
  · rw [mqPoll_idle (by decide) hNone] at hPoll
    cases hPoll
    exact Or.inl ⟨hNone, rfl, rfl⟩
  · have hBatch := mqPoll_fullBatch (by decide) hNone hPoll
    have hReady := List.length_pos_iff.mpr hNone
    have hOne : messages.length = 1 := by
      rw [hBatch.count]
      show min 1 _ = 1
      omega
    obtain ⟨msg, rfl⟩ := List.length_eq_one_iff.mp hOne
    obtain ⟨r, hr, hId⟩ := hBatch.ready msg (List.mem_singleton_self _)
    have hStored : s.row r.id = some r := Store.row_of_mem (mem_readyMsgs.mp hr).1
    have hReturned (id : Uuid) : returnedFor id [msg] = if id = r.id then [msg] else [] := by
      by_cases hEq : id = r.id
      · simp [returnedFor, hId, hEq]
      · simp [returnedFor, hId, hEq, Ne.symm hEq]
    have hOthers : ∀ id, id ≠ r.id → s'.row id = s.row id := by
      intro id hOther
      rcases hBatch.rows id with ⟨_, _, -, -, -, -, hSome⟩ | ⟨hSame, -⟩
      · rw [hReturned, if_neg hOther] at hSome
        cases hSome
      · exact hSame
    rcases hBatch.rows r.id with ⟨r₀, r', hr₀, hr', -, hRow, hMsg⟩ | ⟨-, hNot⟩
    · obtain rfl := Option.some.inj (hr₀.symm.trans hStored)
      rw [hReturned, if_pos rfl] at hMsg
      exact Or.inr ⟨r₀, hr, ⟨⟨r', hRow, hr'⟩, hOthers⟩, r', hRow, hMsg⟩
    · rw [hReturned, if_pos rfl] at hNot
      cases hNot

end Polled

/-- The assertion of `test_one` holds in every state, also when no message is
ready: it then returns without having run anything. It runs what the runner
would run, and it keeps the expired message that the runner would delete. -/
theorem testOne_tested [JsonbCast] {migratedAt : Timestamp} {ops : List Op} {x : Session}
    (run : Run (Session.Step fun _ op => op.sparesNil) (.start migratedAt) ops x)
    {choice : PollChoice} {now : Timestamp} {channelNames : Option (List String)} {s' : Store}
    {messages : List PolledMessage}
    (hPoll : mqPoll choice now channelNames ⟨1, by decide, by decide⟩ x.store = .ok (s', messages)) :
    ∃ job, testOne (.ok messages) = .returned job ∧ dispatched messages = job.toList ∧
      Tested now channelNames x.store s' messages job := by
  have hIntegrity : Integrity x.store := (Session.run_integrity run fun _ _ _ hOp => hOp).1
  rcases mqPoll_one hPoll with ⟨hNone, rfl, rfl⟩ | ⟨r, hr, hHanded, r', hRow, rfl⟩
  · exact ⟨none, rfl, rfl, .idle hNone rfl⟩
  · refine ⟨_, rfl, ?_, ?_⟩
    · rw [testJob_eq rfl]
      cases hJob : (returning x.store r').currentJob <;> simp [dispatched, hJob]
    · have hId : r'.id = r.id := (pollRow_sameIdentity _ _ hRow).id
      have hCommit : r'.commitInterval = r.commitInterval := by rw [(pollRow_eq_ok hRow).2]
      obtain ⟨q, hq⟩ : ∃ q, x.store.payload r.id = some q := by
        rw [← Option.isSome_iff_exists]
        refine lookup_isSome_iff.mpr ((hIntegrity.payloads r.id).mpr ?_)
        exact ⟨Store.mem_ids_of_mem (mem_readyMsgs.mp hr).1, (mem_readyMsgs.mp hr).2.notNil⟩
      have hKey : q.id = r.id := key_of_lookup hq
      by_cases hCommitted : r.commitInterval = none
      · have hJob : (returning x.store r').testJob =
            some ⟨r.id, q.name, q.payloadJson, q.payloadBytes⟩ := by
          simp [returning, PolledMessage.testJob, hId, hCommit, hCommitted, hq]
        rw [hJob]
        exact .ran hr hCommitted rfl (by rw [hq, ← hKey]) hHanded
      · have hJob : (returning x.store r').testJob = none := by
          simp [returning, PolledMessage.testJob, hId, hCommit, hCommitted, hq]
        rw [hJob]
        refine .expired hr hCommitted ?_ hHanded
        simp [idsToDelete, returning, hId, hCommit, hCommitted]

/-- A message that is never committed. -/
def reservedJob : MqNew := JobBuilder.reservedMessage 2 "job"

def reservedSession : Session := @Session.call .nullOnly (.insert 0 [reservedJob]) (.start 0)

theorem testOne_tested_of_reserved :
    ∃ s' messages, mqPoll .physical second none ⟨1, by decide, by decide⟩ reservedSession.store =
        .ok (s', messages) ∧
      testOne (.ok messages) = .returned none ∧ idsToDelete messages = [2] ∧ s'.ids = [0, 2] := by
  have hPolled : (mqPoll .physical second none ⟨1, by decide, by decide⟩ reservedSession.store).map
      (fun result => (dispatched result.2, idsToDelete result.2, result.1.ids)) =
        .ok ([], [2], [0, 2]) := by decide +kernel
  obtain ⟨⟨s', messages⟩, hPoll, hResult⟩ := exists_of_map_eq_ok hPolled
  obtain ⟨hNone, hRest⟩ := Prod.mk.inj hResult
  obtain ⟨hDelete, hIds⟩ := Prod.mk.inj hRest
  have run : Run (@Session.Step .nullOnly fun _ op => op.sparesNil) (.start 0)
      [.insert 0 [reservedJob]] reservedSession := .cons ⟨trivial, rfl⟩ .refl
  obtain ⟨job, hTest, hJob, -⟩ := @testOne_tested .nullOnly 0 _ _ run _ _ _ _ _ hPoll
  rw [hNone] at hJob
  obtain rfl : job = none := Option.toList_eq_nil_iff.mp hJob.symm
  exact ⟨s', messages, hPoll, hTest, hDelete, hIds⟩

end Sqlxmq
