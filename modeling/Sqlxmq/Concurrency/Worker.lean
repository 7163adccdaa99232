import Sqlxmq.Lifecycle.Isolation
import Sqlxmq.Order.Delivery

/-! A job that was handed out belongs to its worker. Until a poll finds it due
again, the calls of others, for other jobs, are not noticed by the worker. -/
namespace Sqlxmq

open KeyedTable SqlNull LabelledRun PredecessorLinks

/-- The calls that a worker makes for its job. -/
def Op.OfWorker (jobId : Uuid) : Op → Prop
  | .delete msgIds => msgIds = [jobId]
  | .keepAlive _ msgIds _ => msgIds = [jobId]
  | .checkpoint _ msgId _ _ _ _ => msgId = jobId
  | _ => False

/-- A call that does not concern a job: it does not name it, and a poll does
not find it due. -/
def Op.Spares (jobId : Uuid) (s : Store) : Op → Prop
  | .insert _ newMessages => jobId ∉ newMessages.map MqNew.id
  | .poll _ now channelNames _ => ∀ r, s.row jobId = some r → ¬ Ready now channelNames r
  | .commit msgIds => jobId ∉ msgIds
  | .delete msgIds => jobId ∉ msgIds ∧ uuidNil ∉ msgIds
  | .keepAlive _ msgIds _ => jobId ∉ msgIds
  | .checkpoint _ msgId _ _ _ _ => msgId ≠ jobId
  | .clear channelNames => ∀ r, s.row jobId = some r → r.channelName ∉ channelNames
  | .clearAll => s.row jobId = none

/-- Nothing precedes the job, so it may be worked on. -/
structure Working (jobId : Uuid) (s : Store) : Prop where
  integrity : Integrity s
  notNil : jobId ≠ uuidNil
  first : ∀ r, s.row jobId = some r → mqUuidExists r.afterMessageId = false

/-- The stores agree on a job. -/
structure SameJob (jobId : Uuid) (s t : Store) : Prop where
  row : t.row jobId = s.row jobId
  payload : t.payload jobId = s.payload jobId

section Other

variable {jobId : Uuid} {s s' : Store} {op : Op} {reply : Reply}

theorem Op.Spares.sparesNil (h : op.Spares jobId s) : op.sparesNil := by
  cases op with
  | delete msgIds => exact h.2
  | _ => trivial

theorem Op.Spares.not_removes (h : op.Spares jobId s) {r : MqMsg} (hr : s.row jobId = some r) :
    op.removes r = false := by
  obtain ⟨-, hId⟩ := Store.row_eq_some_iff.mp hr
  cases op with
  | delete msgIds => simpa [Op.removes, hId] using h.1
  | clear channelNames => simpa [Op.removes, Op.clears] using fun hIn => absurd hIn (h r hr)
  | clearAll =>
      rw [show s.row jobId = none from h] at hr
      cases hr
  | _ => rfl

variable [JsonbCast]

/-- The row of the job stays as it is. -/
theorem Working.row_other (h : Working jobId s) (hSpares : op.Spares jobId s)
    (hExec : exec op s = .ok (s', reply)) : s'.row jobId = s.row jobId := by
  cases hr : s.row jobId with
  | none =>
      refine (exec_row_none hExec hr ?_).1
      cases op with
      | insert now newMessages =>
          intro m hm hId
          exact hSpares (hId ▸ List.mem_map_of_mem (by simpa [Op.batches] using hm))
      | _ => simp [Op.batches]
  | some r =>
      obtain ⟨-, rfl⟩ := Store.row_eq_some_iff.mp hr
      rcases exec_row hExec hr with ⟨r', hr', hStep⟩ | ⟨hGone, -⟩
      · rw [hr']
        congr 1
        cases hStep with
        | poll ready row returned => exact absurd ready (hSpares r hr)
        | commit => exact if_neg fun hTakes => hSpares hTakes.1
        | keepAlive => exact if_neg fun hTakes => hSpares hTakes.1
        | checkpoint row => exact absurd rfl hSpares
        | relink gone noGrant notReturned =>
            -- a link to the nil row is not moved
            have hLink : (setDefault gone r).afterMessageId = r.afterMessageId := by
              rw [setDefault_afterMessageId]
              rcases mqUuidExists_eq_false_iff.mp (h.first r hr) with hNone | hNil
              · simp [hNone]
              · simp [hNil]
            rw [setDefault_eq, hLink]
      · rw [hSpares.not_removes hr] at hGone
        cases hGone

/-- Nor does the call do anything to what the job carries. -/
theorem Op.Spares.onContents (h : op.Spares jobId s) :
    op.onContents s.contents jobId = s.contents jobId := by
  cases op with
  | insert now newMessages =>
      have hNone : lookup MqNew.id newMessages jobId = none :=
        lookup_eq_none_iff.mpr fun m hm hId => h (hId ▸ List.mem_map_of_mem hm)
      simp [Op.onContents, hNone]
  | delete msgIds => simp [Op.onContents, h.1]
  | checkpoint now msgId duration newPayloadJson newPayloadBytes extraRetries =>
      exact if_neg (Ne.symm h)
  | clear channelNames =>
      simp only [Op.onContents]
      rw [Store.contents_eq]
      cases hr : s.row jobId with
      | none => rfl
      | some r =>
          have hKept : r.channel.name ∉ channelNames := h r hr
          cases s.payload jobId with
          | none => rfl
          | some q => simp [Option.filter, contentOf, hKept]
  | clearAll =>
      rw [Store.contents_eq, show s.row jobId = none from h]
      rfl
  | _ => rfl

omit [JsonbCast] in
theorem Working.payload_none (h : Working jobId s) (hr : s.row jobId = none) :
    s.payload jobId = none := by
  rw [Store.row_eq_none_iff] at hr
  rw [← Option.not_isSome_iff_eq_none]
  exact fun hSome => hr ((h.integrity.payloads jobId).mp (lookup_isSome_iff.mp hSome)).1

/-- Another caller's transaction leaves the job alone. -/
theorem Working.transact_other (h : Working jobId s) (hSpares : op.Spares jobId s) :
    Working jobId (transact op s).1 ∧ SameJob jobId s (transact op s).1 := by
  refine transact_keeps (P := fun s' => Working jobId s' ∧ SameJob jobId s s') ⟨h, rfl, rfl⟩ ?_
  intro s' reply hExec
  have hRow := h.row_other hSpares hExec
  have hWorking : Working jobId s' :=
    ⟨h.integrity.of_exec hSpares.sparesNil hExec, h.notNil, fun r hr => h.first r (hRow ▸ hr)⟩
  refine ⟨hWorking, hRow, ?_⟩
  cases hr : s.row jobId with
  | none => rw [h.payload_none hr, hWorking.payload_none (hRow.trans hr)]
  | some r =>
      apply payload_eq_of_contents (hRow.trans hr) hr
      rw [h.integrity.exec_contents hExec, hSpares.onContents]

end Other

section Own

variable {jobId : Uuid} {s t : Store}

/-- A job that may be worked on can be deleted: if it is ordered, it is the
first of its channel. -/
theorem Working.deletable (h : Working jobId s) : s.queues.Deletable [jobId] := by
  intro ch
  apply contiguous_of_tail
  intro b hb
  refine decide_eq_false fun hIn => ?_
  obtain rfl := List.mem_singleton.mp hIn
  have hChained := h.integrity.chained
  have hIn : b ∈ s.fifo ch := List.mem_of_mem_tail hb
  obtain ⟨r, hr, rfl⟩ := List.mem_map.mp (hChained.mem_ids_of_mem_fifo hIn)
  obtain ⟨rest, hFifo⟩ := List.head?_eq_some_iff.mp
    (hChained.head_of_first hr (h.first r (Store.row_of_mem hr)) hIn)
  have hNodup := (List.nodup_cons.mp (hChained ch).nodup).2
  have hRest : r.id ∈ (s.fifo ch).tail := hb
  rw [hFifo] at hNodup hRest
  exact (List.nodup_cons.mp hNodup).1 hRest

/-- What is announced when the job is deleted depends on its row. -/
theorem announced_singleton (s : Store) (jobId : Uuid) :
    announced [jobId] s = (s.row jobId).toList.filter fun r => r.afterMessageId = some uuidNil := by
  rw [Store.row, ← filter_key s.msgsPkey, List.filter_filter, announced]
  refine List.filter_congr fun r _ => ?_
  simp [Bool.and_comm]

variable (jobId) in
theorem Store.updateMsgs_lookup {f : MqMsg → Except DbError MqMsg}
    (hf : ∀ r r', f r = .ok r' → MqMsg.SameIdentity r r') (s : Store) :
    (s.updateMsgs (·.id = jobId) f hf).map (fun s' => (s'.row jobId, s'.payload jobId)) =
      ((s.row jobId).elim (.ok none) fun r => (f r).map some).map fun row =>
        (row, s.payload jobId) := by
  rw [Store.row, ← update_lookup s.msgsPkey fun r r' hr => (hf r r' hr).id]
  unfold Store.updateMsgs
  cases hUpdate : update (fun r : MqMsg => decide (r.id = jobId)) f s.msgs with
  | error e => rfl
  | ok rows =>
      obtain ⟨rfl, -⟩ := update_eq_ok hUpdate
      rfl

variable (jobId) in
theorem Store.updatePayloads_lookup {f : MqPayload → Except DbError MqPayload}
    (hf : ∀ q q', f q = .ok q' → q'.id = q.id) (s : Store) :
    (s.updatePayloads (·.id = jobId) f hf).map (fun s' => (s'.row jobId, s'.payload jobId)) =
      ((s.payload jobId).elim (.ok none) fun q => (f q).map some).map fun payload =>
        (s.row jobId, payload) := by
  rw [Store.payload, ← update_lookup s.payloadsPkey hf]
  unfold Store.updatePayloads
  cases hUpdate : update (fun q : MqPayload => decide (q.id = jobId)) f s.payloads with
  | error e => rfl
  | ok rows =>
      obtain ⟨rfl, -⟩ := update_eq_ok hUpdate
      rfl

variable [JsonbCast]

/-- The outcome of a checkpoint depends on the row and the payload. -/
theorem SameJob.mqCheckpoint (h : SameJob jobId s t) (now : Timestamp) (duration : Interval)
    (newPayloadJson : Option String) (newPayloadBytes : Option (List UInt8))
    (extraRetries : Option Int4) :
    (mqCheckpoint now jobId duration newPayloadJson newPayloadBytes extraRetries t).map
        (fun t' => (t'.row jobId, t'.payload jobId)) =
      (mqCheckpoint now jobId duration newPayloadJson newPayloadBytes extraRetries s).map
        fun s' => (s'.row jobId, s'.payload jobId) := by
  have hMsgs (u : Store) := u.updateMsgs_lookup jobId (f := checkpointRow now duration extraRetries)
    checkpointRow_sameIdentity
  have hPayloads (u : Store) := u.updatePayloads_lookup jobId
    (f := checkpointPayload newPayloadJson newPayloadBytes) checkpointPayload_id
  have hSame := hMsgs t
  rw [h.row, h.payload, ← hMsgs s] at hSame
  unfold Sqlxmq.mqCheckpoint
  cases hs : s.updateMsgs (·.id = jobId) (checkpointRow now duration extraRetries)
      checkpointRow_sameIdentity with
  | error e =>
      cases ht : t.updateMsgs (·.id = jobId) (checkpointRow now duration extraRetries)
          checkpointRow_sameIdentity with
      | ok t' => simp [hs, ht, Except.map] at hSame
      | error e' =>
          have hEq : e' = e := by simpa [hs, ht, Except.map] using hSame
          rw [hEq]
  | ok s' =>
      cases ht : t.updateMsgs (·.id = jobId) (checkpointRow now duration extraRetries)
          checkpointRow_sameIdentity with
      | error e' => simp [hs, ht, Except.map] at hSame
      | ok t' =>
          obtain ⟨hRow, hPayload⟩ : t'.row jobId = s'.row jobId ∧ t'.payload jobId = s'.payload jobId := by
            simpa [hs, ht, Except.map] using hSame
          refine (hPayloads t').trans (Eq.trans ?_ (hPayloads s').symm)
          rw [hRow, hPayload]

/-- The worker's own transaction is answered from the job alone. -/
theorem Working.transact_own (hs : Working jobId s) (ht : Working jobId t) (h : SameJob jobId s t)
    {op : Op} (hOwn : op.OfWorker jobId) :
    (transact op t).2 = (transact op s).2 ∧ SameJob jobId (transact op s).1 (transact op t).1 := by
  cases op with
  | delete msgIds =>
      obtain rfl : msgIds = [jobId] := hOwn
      have hNil : uuidNil ∉ [jobId] := fun hIn => hs.notNil (List.mem_singleton.mp hIn).symm
      have hDelete {u : Store} (hu : Working jobId u) : ∃ u' notifications,
          transact (.delete [jobId]) u = (u', .ok ⟨notifications, []⟩) ∧
            pgNotify (groups MqMsg.channelName (announced [jobId] u)) = .ok notifications ∧
            u'.row jobId = none ∧ u'.payload jobId = none := by
        rcases hu.integrity.mqDelete_cases hNil with ⟨-, u', notifications, hDelete⟩ | ⟨hNot, -⟩
        · have hGone : u'.row jobId = none :=
            Store.row_eq_none_iff.mpr fun hIn => ((mem_ids_mqDelete hDelete).mp hIn).2 (by simp)
          have hExec : exec (.delete [jobId]) u = .ok (u', ⟨notifications, []⟩) :=
            exec_delete_eq_ok_iff.mpr ⟨hDelete, rfl⟩
          have hSpares : (Op.delete [jobId]).sparesNil := hNil
          have hIntegrity := hu.integrity.of_exec hSpares hExec
          refine ⟨u', notifications, by simp [transact, hExec], (mqDelete_eq_ok_iff.mp hDelete).1, hGone, ?_⟩
          exact Working.payload_none ⟨hIntegrity, hu.notNil, fun r hr => by simp [hGone] at hr⟩ hGone
        · exact absurd hu.deletable hNot
      obtain ⟨s', notifications, hS, hNotes, hRow, hPayload⟩ := hDelete hs
      obtain ⟨t', notifications', hT, hNotes', hRow', hPayload'⟩ := hDelete ht
      rw [announced_singleton, h.row, ← announced_singleton, hNotes] at hNotes'
      rw [hS, hT, Except.ok.inj hNotes']
      exact ⟨rfl, hRow'.trans hRow.symm, hPayload'.trans hPayload.symm⟩
  | keepAlive now msgIds duration =>
      refine ⟨rfl, ?_, h.payload⟩
      show (mqKeepAlive now msgIds duration t).row jobId = (mqKeepAlive now msgIds duration s).row jobId
      rw [mqKeepAlive, mqKeepAlive, Store.mapMsgs_row, Store.mapMsgs_row, h.row]
  | checkpoint now msgId duration newPayloadJson newPayloadBytes extraRetries =>
      obtain rfl : msgId = jobId := hOwn
      have hCheckpoint := h.mqCheckpoint now duration newPayloadJson newPayloadBytes extraRetries
      cases hS : Sqlxmq.mqCheckpoint now msgId duration newPayloadJson newPayloadBytes extraRetries s with
      | error e =>
          cases hT : Sqlxmq.mqCheckpoint now msgId duration newPayloadJson newPayloadBytes extraRetries t with
          | ok t' => simp [hS, hT, Except.map] at hCheckpoint
          | error e' =>
              have hEq : e' = e := by simpa [hS, hT, Except.map] using hCheckpoint
              simpa [transact, exec, hS, hT, hEq, bind, Except.bind] using h
      | ok s' =>
          cases hT : Sqlxmq.mqCheckpoint now msgId duration newPayloadJson newPayloadBytes extraRetries t with
          | error e' => simp [hS, hT, Except.map] at hCheckpoint
          | ok t' =>
              obtain ⟨hRow, hPayload⟩ :
                  t'.row msgId = s'.row msgId ∧ t'.payload msgId = s'.payload msgId := by
                simpa [hS, hT, Except.map] using hCheckpoint
              simpa [transact, exec, hS, hT, bind, Except.bind] using ⟨hRow, hPayload⟩
  | _ => exact hOwn.elim

theorem Working.own (h : Working jobId s) {op : Op} (hOwn : op.OfWorker jobId) :
    Working jobId (transact op s).1 := by
  refine transact_keeps h fun s' reply hExec => ?_
  have hNil : op.sparesNil := by
    cases op with
    | delete msgIds =>
        obtain rfl : msgIds = [jobId] := hOwn
        exact fun hIn => h.notNil (List.mem_singleton.mp hIn).symm
    | _ => trivial
  refine ⟨h.integrity.of_exec hNil hExec, h.notNil, fun r' hr' => ?_⟩
  obtain ⟨hIn, hId⟩ := Store.row_eq_some_iff.mp hr'
  rcases exec_row_origin hExec hIn with ⟨r, hr, hContinues⟩ | ⟨_, _, rfl, -⟩
  · exact hContinues.first (h.first r (Store.row_eq_some_iff.mpr ⟨hr, hContinues.id.symm.trans hId⟩))
  · exact hOwn.elim

end Own

section Runs

variable {jobId : Uuid}

/-- Every message that a poll has returned may be worked on. -/
theorem Session.Recorded.working {x : Session} (h : x.Recorded) (hDelivered : jobId ∈ x.delivered) :
    Working jobId x.store := by
  obtain ⟨hNotNil, -, hFirst⟩ := h.delivered jobId hDelivered
  refine ⟨h.integrity, hNotNil, fun r hr => ?_⟩
  obtain ⟨hIn, hId⟩ := Store.row_eq_some_iff.mp hr
  exact hFirst r hIn hId

variable [JsonbCast]

/-- The worker of a job, and everybody else, who spares it. -/
inductive WorkerStep (jobId : Uuid) (x : Shared) : SharedCall → Shared → Prop where
  | own {op : Op} (ofWorker : op.OfWorker jobId) : WorkerStep jobId x (.own op) (x.own op)
  | other {op : Op} (spares : op.Spares jobId x.store) :
      WorkerStep jobId x (.other op) (x.other op)

/-- A worker is answered as if it were alone with its job. Whatever others send,
poll, commit, complete or clear in between, as long as it does not concern the
job, leaves the same answers, the same row and the same payload. -/
theorem worker_undisturbed {migratedAt : Timestamp} {ops : List Op} {x : Session}
    (run : Run (Session.Step fun x op => x.Fresh op ∧ op.sparesNil) (.start migratedAt) ops x)
    (hDelivered : jobId ∈ x.delivered) {calls : List SharedCall} {y : Shared}
    (shared : Run (WorkerStep jobId) ⟨x.store, []⟩ calls y) :
    ∃ z, Run (WorkerStep jobId) ⟨x.store, []⟩ (calls.filter SharedCall.isOwn) z ∧
      z.heard = y.heard ∧ SameJob jobId y.store z.store := by
  have hRecorded : x.Recorded := Session.recorded_of_run run fun _ _ _ hOp => hOp
  have hWorking := hRecorded.working hDelivered
  suffices hBeside : Working jobId y.store ∧ ∃ z, Working jobId z.store ∧
      Run (WorkerStep jobId) ⟨x.store, []⟩ (calls.filter SharedCall.isOwn) z ∧
        z.heard = y.heard ∧ SameJob jobId y.store z.store by
    obtain ⟨-, z, -, hAlone⟩ := hBeside
    exact ⟨z, hAlone⟩
  induction shared with
  | refl => exact ⟨hWorking, ⟨x.store, []⟩, hWorking, .refl, rfl, rfl, rfl⟩
  | snoc prior last ih =>
      obtain ⟨hs, z, ht, alone, hHeard, hSame⟩ := ih
      rw [List.filter_append]
      cases last with
      | own ofWorker =>
          obtain ⟨hReply, hKept⟩ := hs.transact_own ht hSame ofWorker
          refine ⟨hs.own ofWorker, z.own _, ht.own ofWorker, .snoc alone (.own ofWorker), ?_, hKept⟩
          rw [Shared.own, Shared.own, hHeard, hReply]
      | other spares =>
          obtain ⟨hKept, hLeft⟩ := hs.transact_other spares
          refine ⟨hKept, z, ht, ?_, hHeard, hSame.row.trans hLeft.row.symm,
            hSame.payload.trans hLeft.payload.symm⟩
          rw [show [SharedCall.other _].filter SharedCall.isOwn = [] from rfl, List.append_nil]
          exact alone

end Runs

/-- Two jobs in a channel, of which the first is handed out, and one beside them. -/
def busySession : Session :=
  @Session.call .nullOnly (.pollOne 0) (@Session.call .nullOnly (.insert 0
    [JobBuilder.orderedMessage 1 "first", JobBuilder.orderedMessage 2 "second",
      (JobBuilder.newWithId 3 "other").message]) (.start 0))

/-- Another runner polls while the first job is being worked on. -/
theorem worker_undisturbed_of_poll :
    let _ : JsonbCast := .nullOnly
    ∃ y z, Run (WorkerStep 1) ⟨busySession.store, []⟩ [.own (.keepAlive 0 [1] (60 * second)),
        .other (.pollOne second), .own (.delete [1])] y ∧
      Run (WorkerStep 1) ⟨busySession.store, []⟩
        [.own (.keepAlive 0 [1] (60 * second)), .own (.delete [1])] z ∧
      z.heard = y.heard ∧ y.heard.length = 2 ∧ z.store.row 1 = none := by
  intro _
  have run : Run (Session.Step fun x op => x.Fresh op ∧ op.sparesNil) (.start 0)
      [.insert 0 [JobBuilder.orderedMessage 1 "first", JobBuilder.orderedMessage 2 "second",
        (JobBuilder.newWithId 3 "other").message], .pollOne 0] busySession :=
    .cons ⟨⟨fun _ _ => by simp [Session.start, Session.usedIds], trivial⟩, rfl⟩
      (.cons ⟨⟨trivial, trivial⟩, rfl⟩ .refl)
  have hSpares : Op.Spares 1 ((Shared.mk busySession.store []).own
      (.keepAlive 0 [1] (60 * second))).store (.pollOne second) := by
    intro r hr hReady
    have hLease : (((Shared.mk busySession.store []).own (.keepAlive 0 [1] (60 * second))).store.row 1).map
        MqMsg.attemptAt = some (some (60 * second)) := by decide +kernel
    have hDue := hReady.due
    rw [hr, Option.map_some, Option.some.injEq] at hLease
    rw [hLease] at hDue
    cases hDue
  have shared : Run (WorkerStep 1) ⟨busySession.store, []⟩ [.own (.keepAlive 0 [1] (60 * second)),
      .other (.pollOne second), .own (.delete [1])] ((((Shared.mk busySession.store []).own
        (.keepAlive 0 [1] (60 * second))).other (.pollOne second)).own (.delete [1])) :=
    .cons (.own rfl) (.cons (.other hSpares) (.cons (.own rfl) .refl))
  obtain ⟨z, alone, hHeard, hSame⟩ := worker_undisturbed run (by decide +kernel) shared
  refine ⟨_, z, shared, alone, hHeard, rfl, hSame.row.trans ?_⟩
  decide +kernel

end Sqlxmq
