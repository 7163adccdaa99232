import Sqlxmq.Database.Transaction

/-! The life of one message. Whatever a call does to the tables, it does one
of few things to the row of a given message. -/
namespace Sqlxmq

open KeyedTable SqlNull

/-- The stored rows that a call removes. -/
def Op.removes : Op → MqMsg → Bool
  | .delete msgIds, r => r.id ∈ msgIds
  | op, r => match op.clears with
      | some p => p r
      | none => false

/-- The extra retries that a call grants to a stored message. -/
def Op.grants (id : Uuid) : Op → Int
  | .checkpoint _ msgId _ _ _ extraRetries =>
      if msgId = id then (extraRetries.map Int4.val).getD 0 else 0
  | _ => 0

def Op.isPoll : Op → Bool
  | .poll .. => true
  | _ => false

/-- What a call can do to a row that it does not remove. -/
inductive RowStep (r : MqMsg) : Op → Reply → MqMsg → Prop where
  | poll {choice : PollChoice} {now : Timestamp} {channelNames : Option (List String)}
      {batchSize : Int4} {reply : Reply} {s : Store} {r' : MqMsg}
      (ready : Ready now channelNames r) (row : pollRow now r = .ok r')
      (returned : returnedFor r.id reply.polled = [returning s r']) :
      RowStep r (.poll choice now channelNames batchSize) reply r'
  | commit {msgIds : List Uuid} : RowStep r (.commit msgIds) .silent (commitRow msgIds r)
  | keepAlive {now : Timestamp} {msgIds : List Uuid} {duration : Interval} :
      RowStep r (.keepAlive now msgIds duration) .silent (keepAliveRow now msgIds duration r)
  | checkpoint {now : Timestamp} {duration : Interval} {newPayloadJson : Option String}
      {newPayloadBytes : Option (List UInt8)} {extraRetries : Option Int4} {r' : MqMsg}
      (row : checkpointRow now duration extraRetries r = .ok r') :
      RowStep r (.checkpoint now r.id duration newPayloadJson newPayloadBytes extraRetries)
        .silent r'
  /-- At most the link moves, when predecessors are deleted. -/
  | relink {op : Op} {reply : Reply} (gone : List Uuid) (noGrant : op.grants r.id = 0)
      (notReturned : returnedFor r.id reply.polled = []) : RowStep r op reply (setDefault gone r)

@[simp] theorem setDefault_nil (r : MqMsg) : setDefault [] r = r := by
  unfold setDefault
  split <;> simp

/-- A call that leaves a row alone. -/
theorem RowStep.same {r : MqMsg} {op : Op} {reply : Reply} (hGrant : op.grants r.id = 0)
    (hReturned : returnedFor r.id reply.polled = []) : RowStep r op reply r := by
  simpa using RowStep.relink [] hGrant hReturned

theorem Store.deleteMsgs_row {p : MqMsg → Bool} {s t : Store} (h : s.deleteMsgs p = .ok t)
    (id : Uuid) : t.row id = ((s.row id).filter fun r => !p r).map (setDefault (s.selectedIds p)) := by
  rw [row, (deleteMsgs_eq_ok h).1, remaining, lookup_map _ (setDefault_id _),
    lookup_filter s.msgsPkey]
  rfl

namespace RowStep

variable {r r' : MqMsg} {op : Op} {reply : Reply}

theorem continues (h : RowStep r op reply r') : Continues r r' := by
  have hKeeps {r' : MqMsg} (hSame : r.SameIdentity r') : Continues r r' :=
    ⟨hSame.id, hSame.channel, Or.inl hSame.afterMessageId⟩
  cases h with
  | poll ready row returned => exact hKeeps (pollRow_sameIdentity _ _ row)
  | commit => exact hKeeps (commitRow_sameIdentity _ r)
  | keepAlive => exact hKeeps (keepAliveRow_sameIdentity _ _ _ r)
  | checkpoint row => exact hKeeps (checkpointRow_sameIdentity _ _ row)
  | relink gone noGrant notReturned => exact setDefault_continues gone r

/-- A message is created once. -/
theorem createdAt (h : RowStep r op reply r') : r'.createdAt = r.createdAt := by
  cases h with
  | poll ready row returned => rw [(pollRow_eq_ok row).2]
  | commit => rw [commitRow_eq]
  | keepAlive => rw [keepAliveRow_eq]
  | checkpoint row => rw [(checkpointRow_eq_ok row).2]
  | relink gone noGrant notReturned => rw [setDefault_eq]

/-- Only a poll that returns a message can leave it without an attempt. -/
theorem scheduled (h : RowStep r op reply r') (hNotReturned : returnedFor r.id reply.polled = [])
    (hScheduled : r.attemptAt ≠ none) : r'.attemptAt ≠ none := by
  obtain ⟨t, ht⟩ := Option.ne_none_iff_exists'.mp hScheduled
  cases h with
  | poll ready row returned =>
      rw [returned] at hNotReturned
      cases hNotReturned
  | commit =>
      unfold commitRow
      split
      · rename_i hTakes
        obtain ⟨c, hc⟩ := Option.ne_none_iff_exists'.mp hTakes.2
        simp [ht, hc]
      · exact hScheduled
  | keepAlive =>
      unfold keepAliveRow
      split
      · simp
      · exact hScheduled
  | checkpoint row =>
      rw [(checkpointRow_eq_ok row).2]
      exact greatest_ne_none _ _
  | relink gone noGrant notReturned =>
      rw [setDefault_eq]
      exact hScheduled

/-- A committed message stays committed. -/
theorem committed (h : RowStep r op reply r') (hCommitted : r.commitInterval = none) :
    r'.commitInterval = none := by
  cases h with
  | poll ready row returned =>
      rw [(pollRow_eq_ok row).2]
      exact hCommitted
  | commit =>
      unfold commitRow
      split
      · rfl
      · exact hCommitted
  | keepAlive =>
      unfold keepAliveRow
      split
      · simp [hCommitted]
      · exact hCommitted
  | checkpoint row =>
      rw [(checkpointRow_eq_ok row).2]
      exact hCommitted
  | relink gone noGrant notReturned =>
      rw [setDefault_eq]
      exact hCommitted

/-- Each return of the message by a poll costs exactly one attempt. -/
theorem attempts (h : RowStep r op reply r') :
    r'.attempts.val + (returnedFor r.id reply.polled).length = r.attempts.val + op.grants r.id := by
  cases h with
  | poll ready row returned =>
      rw [returned, (pollRow_eq_ok row).1]
      simp [Op.grants]
  | commit =>
      rw [commitRow_eq]
      simp [Reply.silent, Op.grants]
  | keepAlive =>
      rw [keepAliveRow_eq]
      simp [Reply.silent, Op.grants]
  | checkpoint row => simp [(checkpointRow_eq_ok row).1, Reply.silent, Op.grants]
  | relink gone noGrant notReturned =>
      rw [setDefault_eq, notReturned, noGrant]
      simp

/-- Only a poll returns a message. -/
theorem notReturned (h : RowStep r op reply r') (hNoPoll : op.isPoll = false) :
    returnedFor r.id reply.polled = [] := by
  cases h with
  | poll ready row returned => cases hNoPoll
  | relink gone noGrant notReturned => exact notReturned
  | _ => rfl

/-- Only a poll doubles the backoff. -/
theorem backoff (h : RowStep r op reply r') (hNoPoll : op.isPoll = false) :
    r'.retryBackoff = r.retryBackoff := by
  cases h with
  | poll ready row returned => cases hNoPoll
  | commit => rw [commitRow_eq]
  | keepAlive => rw [keepAliveRow_eq]
  | checkpoint row => rw [(checkpointRow_eq_ok row).2]
  | relink gone noGrant notReturned => rw [setDefault_eq]

/-- A job that is not due is only put off. -/
theorem postponed (h : RowStep r op reply r')
    (hCommitted : r.commitInterval = none)
    (hNotReady : ∀ choice now channelNames batchSize,
      op = .poll choice now channelNames batchSize → ¬ Ready now channelNames r)
    (hNoRevival : ∀ now duration newPayloadJson newPayloadBytes extraRetries,
      op = .checkpoint now r.id duration newPayloadJson newPayloadBytes extraRetries →
        r.attemptAt ≠ none) : r.Postponed r' := by
  cases h with
  | poll ready row returned => exact absurd ready (hNotReady _ _ _ _ rfl)
  | commit => exact MqMsg.postponed_of_eq (by simp [commitRow, hCommitted])
  | keepAlive => exact keepAliveRow_postponed _ _ _ r
  | checkpoint row => exact checkpointRow_postponed row (hNoRevival _ _ _ _ _ rfl)
  | relink gone noGrant notReturned => exact MqMsg.postponed_of_eq (by rw [setDefault_eq])

end RowStep

/-- A delete or a clear removes the rows that it names. -/
theorem rowStep_of_deleteMsgs {op : Op} {s s' t : Store} {reply : Reply} {p : MqMsg → Bool}
    {r : MqMsg} (hr : s.row r.id = some r) (hDelete : s.deleteMsgs p = .ok t)
    (hRows : s'.msgs = t.msgs) (hp : op.removes r = p r) (hGrant : op.grants r.id = 0)
    (hPolled : reply.polled = []) :
    (∃ r', s'.row r.id = some r' ∧ RowStep r op reply r') ∨
      (op.removes r = true ∧ s'.row r.id = none ∧ reply.polled = []) := by
  have hRow : s'.row r.id = ((some r).filter fun r => !p r).map (setDefault (s.selectedIds p)) := by
    rw [← hr, ← Store.deleteMsgs_row hDelete, Store.row, Store.row, hRows]
  rw [hp]
  cases hCase : p r with
  | false =>
      refine Or.inl ⟨setDefault (s.selectedIds p) r, ?_, .relink _ hGrant ?_⟩
      · simp [hRow, hCase]
      · simp [hPolled, returnedFor]
  | true => exact Or.inr ⟨rfl, by simp [hRow, hCase], hPolled⟩

section Calls

variable [JsonbCast] {op : Op} {s s' : Store} {reply : Reply}
  (hExec : exec op s = .ok (s', reply))
include hExec

/-- A stored message is removed by a call that says so, or makes a step. -/
theorem exec_row {id : Uuid} {r : MqMsg} (hr : s.row id = some r) :
    (∃ r', s'.row id = some r' ∧ RowStep r op reply r') ∨
      (op.removes r = true ∧ s'.row id = none ∧ reply.polled = []) := by
  obtain ⟨hIn, rfl⟩ := Store.row_eq_some_iff.mp hr
  cases op with
  | insert now newMessages =>
      obtain ⟨⟨t, notifications⟩, hInsert, hEq⟩ := bind_eq_ok_iff.mp hExec
      obtain ⟨-, new, -, hRows⟩ := mqInsert_eq_ok_iff.mp hInsert
      cases hEq
      refine Or.inl ⟨r, ?_, .same rfl rfl⟩
      rw [Store.row_eq_some_iff, (insertRows_eq_ok hRows).1]
      exact ⟨List.mem_append_left _ hIn, rfl⟩
  | poll choice now channelNames batchSize =>
      obtain ⟨⟨t, polled⟩, hPoll, hEq⟩ := bind_eq_ok_iff.mp hExec
      cases hEq
      rcases mqPoll_row hPoll r.id with ⟨r₀, r', hr₀, hr', hReady, hRow, hReturned⟩ | ⟨hSame, hNot⟩
      · obtain rfl := Option.some.inj (hr.symm.trans hr₀)
        exact Or.inl ⟨r', hr', .poll hReady hRow hReturned⟩
      · exact Or.inl ⟨r, hSame.trans hr, .same rfl hNot⟩
  | commit msgIds =>
      cases hExec
      exact Or.inl ⟨_, by simp [mqCommit, Store.mapMsgs_row, hr], .commit⟩
  | delete msgIds =>
      obtain ⟨⟨t, notifications⟩, hDelete, hEq⟩ := bind_eq_ok_iff.mp hExec
      obtain ⟨-, u, hMsgs, hPayloads⟩ := mqDelete_eq_ok_iff.mp hDelete
      cases hEq
      exact rowStep_of_deleteMsgs hr hMsgs (by simp [hPayloads]) rfl rfl rfl
  | keepAlive now msgIds duration =>
      cases hExec
      exact Or.inl ⟨_, by simp [mqKeepAlive, Store.mapMsgs_row, hr], .keepAlive⟩
  | checkpoint now msgId duration newPayloadJson newPayloadBytes extraRetries =>
      obtain ⟨t, hCheckpoint, hEq⟩ := bind_eq_ok_iff.mp hExec
      obtain ⟨f, hMsgs, hSame, hOther, hRow, -⟩ := mqCheckpoint_eq_ok hCheckpoint
      cases hEq
      have hNew : s'.row r.id = some (f r) := by
        rw [Store.row_eq_some_iff, hMsgs]
        exact ⟨List.mem_map_of_mem hIn, (hSame r).id⟩
      by_cases hId : r.id = msgId
      · subst hId
        exact Or.inl ⟨f r, hNew, .checkpoint (hRow r hIn rfl)⟩
      · rw [hOther r hId] at hNew
        exact Or.inl ⟨r, hNew, .same (by simp [Op.grants, Ne.symm hId]) rfl⟩
  | clear channelNames =>
      obtain ⟨t, hClear, hEq⟩ := bind_eq_ok_iff.mp hExec
      obtain ⟨u, hMsgs, hPayloads⟩ := bind_eq_ok_iff.mp hClear
      cases hEq
      cases hPayloads
      exact rowStep_of_deleteMsgs hr hMsgs rfl rfl rfl rfl
  | clearAll =>
      obtain ⟨t, hClear, hEq⟩ := bind_eq_ok_iff.mp hExec
      obtain ⟨u, hMsgs, hPayloads⟩ := bind_eq_ok_iff.mp hClear
      cases hEq
      cases hPayloads
      exact rowStep_of_deleteMsgs hr hMsgs rfl rfl rfl rfl

/-- A message that is stored before and after a call made a step. -/
theorem exec_row_step {id : Uuid} {r r' : MqMsg} (hr : s.row id = some r)
    (hr' : s'.row id = some r') : RowStep r op reply r' := by
  rcases exec_row hExec hr with ⟨r₁, hr₁, hStep⟩ | ⟨-, hGone, -⟩
  · have hSame : r₁ = r' := Option.some.inj (hr₁.symm.trans hr')
    exact hSame ▸ hStep
  · rw [hGone] at hr'
    cases hr'

/-- Every row after a call made a step or belongs to a new message. -/
theorem exec_row_cases {r' : MqMsg} (hr' : r' ∈ s'.msgs) :
    (∃ r ∈ s.msgs, RowStep r op reply r') ∨ ∃ now newMessages, op = .insert now newMessages ∧
      ∃ m ∈ newMessages, ∃ previous, newMsg now (m, previous) = .ok r' := by
  rcases exec_row_origin hExec hr' with ⟨r, hr, hContinues⟩ | hNew
  · have hRow' : s'.row r.id = some r' := hContinues.id ▸ Store.row_of_mem hr'
    exact Or.inl ⟨r, hr, exec_row_step hExec (Store.row_of_mem hr) hRow'⟩
  · exact Or.inr hNew

/-- A message that is not stored only comes into being by an insert. -/
theorem exec_row_none {id : Uuid} (hr : s.row id = none)
    (hNew : ∀ m ∈ op.batches.flatten, m.id ≠ id) :
    s'.row id = none ∧ returnedFor id reply.polled = [] := by
  rw [Store.row_eq_none_iff] at hr ⊢
  rw [returnedFor_eq_nil_iff]
  constructor
  · intro hIn
    obtain ⟨r', hr', rfl⟩ := List.mem_map.mp hIn
    rcases exec_row_origin hExec hr' with ⟨r, hrIn, hContinues⟩ | ⟨now, ms, rfl, m, hm, _, hRow⟩
    · exact hr (hContinues.id ▸ Store.mem_ids_of_mem hrIn)
    · apply hNew m (by simpa [Op.batches] using hm)
      rw [(newMsg_eq_ok hRow).2]
  · intro m hm hId
    obtain ⟨choice, now, channelNames, batchSize, -, hPoll⟩ := exec_polled hExec hm
    obtain ⟨r, hrIn, rfl, -⟩ := mqPoll_polled hPoll hm hId
    exact hr (Store.mem_ids_of_mem hrIn)

/-- Only a poll returns rows. -/
theorem exec_polled_eq_nil (hNoPoll : op.isPoll = false) : reply.polled = [] := by
  rw [List.eq_nil_iff_forall_not_mem]
  intro m hm
  obtain ⟨_, _, _, _, rfl, -⟩ := exec_polled hExec hm
  cases hNoPoll

end Calls

end Sqlxmq
