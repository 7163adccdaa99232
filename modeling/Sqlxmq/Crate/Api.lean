import Sqlxmq.Crate.Runner
import Sqlxmq.Order.Integrity

/-! The public operations of the crate, each a transaction of its own. The
arguments of spawning, committing and clearing are the caller's choice. The
remaining operations refer to messages that the runner received. -/
namespace Sqlxmq

open KeyedTable PredecessorLinks LabelledRun

/-- Type used to checkpoint a running job. -/
structure Checkpoint where
  duration : Duration
  extraRetries : UInt64
  payloadJson : Option String
  payloadBytes : Option (List UInt8)

inductive CrateCall where
  | spawn (now : Timestamp) (job : JobBuilder)
  | commit (jobIds : List Uuid)
  | clear (channelNames : List String)
  | clearAll
  | poll (choice : PollChoice) (now : Timestamp) (channelNames : Option (List String))
      (batchSize : Int4)
  | deleteExpired (idsToDelete : List Uuid)
  | complete (jobId : Uuid)
  | checkpoint (now : Timestamp) (jobId : Uuid) (checkpoint : Checkpoint)
  | keepAlive (now : Timestamp) (jobId : Uuid) (duration : Duration)

/-- The database function that an operation calls. -/
def CrateCall.op : CrateCall → Op
  | .spawn now job => .insert now [job.message]
  | .commit jobIds => .commit jobIds
  | .clear channelNames => .clear channelNames
  | .clearAll => .clearAll
  | .poll choice now channelNames batchSize => .poll choice now channelNames batchSize
  | .deleteExpired idsToDelete => .delete idsToDelete
  | .complete jobId => .delete [jobId]
  | .checkpoint now jobId c => .checkpoint now jobId c.duration c.payloadJson c.payloadBytes
      (some (.ofBits (c.extraRetries.toBitVec.setWidth 32)))
  | .keepAlive now jobId duration => .keepAlive now [jobId] duration

namespace Session

/-- The jobs that were handed out so far. -/
def handedOut (x : Session) : List Uuid :=
  x.replies.flatMap fun reply => (dispatched reply.polled).map CurrentJob.id

/-- A handle to a job is only obtained from the runner, and the runner only
deletes what one of its polls found expired. -/
def Issues (x : Session) : CrateCall → Prop
  | .deleteExpired ids => ∃ reply ∈ x.replies, ids = idsToDelete reply.polled
  | .complete jobId | .checkpoint _ jobId _ | .keepAlive _ jobId _ => jobId ∈ x.handedOut
  | _ => True

/-- A call of a database function that the crate makes. -/
def CrateAllows (x : Session) (op : Op) : Prop := ∃ call : CrateCall, x.Issues call ∧ call.op = op

theorem handedOut_subset_delivered {x : Session} {id : Uuid} (h : id ∈ x.handedOut) :
    id ∈ x.delivered := by
  obtain ⟨reply, hReply, hIn⟩ := List.mem_flatMap.mp h
  obtain ⟨job, hJob, rfl⟩ := List.mem_map.mp hIn
  obtain ⟨m, hm, hPattern⟩ := List.mem_filterMap.mp hJob
  exact List.mem_flatMap.mpr ⟨reply, hReply, List.mem_filterMap.mpr ⟨m, hm, (currentJob_id hPattern).1⟩⟩

theorem idsToDelete_subset_delivered {x : Session} {reply : Reply} (hReply : reply ∈ x.replies)
    {id : Uuid} (h : id ∈ idsToDelete reply.polled) : id ∈ x.delivered := by
  obtain ⟨m, hm, -, hId⟩ := mem_idsToDelete.mp h
  exact List.mem_flatMap.mpr ⟨reply, hReply, List.mem_filterMap.mpr ⟨m, hm, hId⟩⟩

/-- The crate only deletes what was delivered. -/
theorem CrateAllows.delivered {x : Session} {msgIds : List Uuid} (h : x.CrateAllows (.delete msgIds)) :
    ∀ id ∈ msgIds, id ∈ x.delivered := by
  obtain ⟨call, hIssues, hOp⟩ := h
  cases call <;> simp only [CrateCall.op, Op.delete.injEq, reduceCtorEq] at hOp
  · obtain ⟨reply, hReply, hIds⟩ := hIssues
    rw [← hOp, hIds]
    exact fun id hId => idsToDelete_subset_delivered hReply hId
  · rw [← hOp]
    intro id hId
    rw [List.mem_singleton.mp hId]
    exact handedOut_subset_delivered hIssues

theorem CrateAllows.sparesNil {x : Session} {op : Op} (h : x.CrateAllows op)
    (hNil : uuidNil ∉ x.delivered) : op.sparesNil := by
  cases op with
  | delete msgIds => exact fun hIn => hNil (h.delivered _ hIn)
  | _ => trivial

end Session

/-- What the tables promise to each other and to the runner. -/
structure Intact (s : Store) : Prop where
  nilRow : ∃ r, s.msgs.filter (·.id = uuidNil) = [r] ∧ r.afterMessageId = none
  links : ∀ r ∈ s.msgs, ∀ a ∈ r.afterMessageId,
    a = uuidNil ∨ ∃ r₀ ∈ s.msgs, r₀.id = a ∧ r₀.channel = r.channel
  payloads : ∀ id, id ∈ s.payloads.map MqPayload.id ↔ id ∈ s.ids ∧ id ≠ uuidNil
  /-- Every row of a poll that is committed has all that its dispatch needs. -/
  polled : ∀ {choice now channelNames batchSize s' polled},
    mqPoll choice now channelNames batchSize s = .ok (s', polled) → ∀ m ∈ polled,
      m.id ≠ some uuidNil ∧ (m.isCommitted = some true →
        m.id.isSome ∧ m.name.isSome ∧ m.retryBackoff.isSome ∧ m.currentJob.isSome)

theorem Integrity.polled_name {s s' : Store} (h : Integrity s) {choice : PollChoice}
    {now : Timestamp} {channelNames : Option (List String)} {batchSize : Int4}
    {polled : List PolledMessage}
    (hPoll : mqPoll choice now channelNames batchSize s = .ok (s', polled)) {m : PolledMessage}
    (hm : m ∈ polled) {id : Uuid} (hId : m.id = some id) :
    id ≠ uuidNil ∧ m.name.isSome ∧ m.retryBackoff.isSome := by
  obtain ⟨r, hr, rfl, hReady, r', -, hRow, rfl⟩ := mqPoll_polled hPoll hm hId
  refine ⟨hReady.notNil, ?_, rfl⟩
  have hStored : r'.id ∈ s.payloads.map MqPayload.id := by
    rw [(pollRow_sameIdentity _ _ hRow).id, h.payloads]
    exact ⟨Store.mem_ids_of_mem hr, hReady.notNil⟩
  simpa [returning, Store.payload] using lookup_isSome_iff.mpr hStored

theorem Integrity.intact {s : Store} (h : Integrity s) : Intact s where
  nilRow := by
    obtain ⟨r, hr, hId, hAfter⟩ := h.nilRow
    refine ⟨r, ?_, hAfter⟩
    have hOnly : s.msgs.filter (·.id = uuidNil) = s.msgs.filter (· = r) := by
      apply List.filter_congr
      intro r₀ hr₀
      rw [decide_eq_decide, ← hId]
      exact ⟨List.inj_on_of_nodup_map s.msgsPkey hr₀ hr, congrArg MqMsg.id⟩
    rw [hOnly, List.filter_eq, List.count_eq_one_of_mem s.msgsPkey.of_map hr]
    rfl
  links := h.pred_stored
  payloads := h.payloads
  polled := by
    intro choice now channelNames batchSize s' polled hPoll m hm
    rcases mqPoll_mem hPoll hm with rfl | hSome
    · simp [waitRow]
    · obtain ⟨id, hId⟩ := Option.isSome_iff_exists.mp hSome
      obtain ⟨hNotNil, hName, hBackoff⟩ := h.polled_name hPoll hm hId
      refine ⟨by simp [hId, hNotNil], fun hCommitted => ?_⟩
      exact ⟨hSome, hName, hBackoff, currentJob_isSome_iff.mpr ⟨hCommitted, hSome, hName, hBackoff⟩⟩

/-- Every state that the public operations can lead to is intact. -/
theorem crate_keeps_intact [JsonbCast] {migratedAt : Timestamp} {ops : List Op} {x : Session}
    (run : Run (Session.Step Session.CrateAllows) (.start migratedAt) ops x) : Intact x.store :=
  (Session.run_integrity run fun _ _ hNil hOp => hOp.sparesNil hNil).1.intact

theorem crate_keeps_intact_after_complete :
    let job := { JobBuilder.newWithId 1 "job" with ordered := true }
    let x := @Session.call .nullOnly (.delete [1])
      (@Session.call .nullOnly (.poll .physical 0 none ⟨5, by decide, by decide⟩)
        (@Session.call .nullOnly (.insert 0 [job.message]) (.start 0)))
    Intact x.store := by
  intro job x
  have hPolled : (1 : Uuid) ∈ Session.handedOut (@Session.call .nullOnly
      (.poll .physical 0 none ⟨5, by decide, by decide⟩)
      (@Session.call .nullOnly (.insert 0 [job.message]) (.start 0))) := by
    decide +kernel
  exact @crate_keeps_intact .nullOnly 0
    [.insert 0 [job.message], .poll .physical 0 none ⟨5, by decide, by decide⟩, .delete [1]] x
    (.cons ⟨⟨.spawn 0 job, trivial, rfl⟩, rfl⟩
      (.cons ⟨⟨.poll .physical 0 none ⟨5, by decide, by decide⟩, trivial, rfl⟩, rfl⟩
        (.cons ⟨⟨.complete 1, hPolled, rfl⟩, rfl⟩ .refl)))

end Sqlxmq
