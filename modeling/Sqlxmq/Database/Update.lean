import Mathlib.Data.Option.NAry
import Sqlxmq.Database.Insert
import Sqlxmq.Library.Null

/-! The functions that change messages in place. -/
namespace Sqlxmq

open KeyedTable SqlNull

theorem updated_sameIdentity {f : MqMsg → Except DbError MqMsg}
    (hf : ∀ r r', f r = .ok r' → MqMsg.SameIdentity r r') (p : MqMsg → Bool) (r : MqMsg) :
    r.SameIdentity (updated p f r) := by
  unfold updated
  split
  · split
    · exact hf _ _ ‹_›
    · exact .refl r
  · exact .refl r

namespace Store

/-- UPDATE of messages, for expressions that can fail. -/
def updateMsgs (p : MqMsg → Bool) (f : MqMsg → Except DbError MqMsg)
    (hf : ∀ r r', f r = .ok r' → MqMsg.SameIdentity r r') (s : Store) : Except DbError Store :=
  match update p f s.msgs with
  | .error e => .error e
  | .ok _ => .ok <| s.mapMsgs (updated p f) (updated_sameIdentity hf p)

/-- UPDATE of payloads, for expressions that can fail. -/
def updatePayloads (p : MqPayload → Bool) (f : MqPayload → Except DbError MqPayload)
    (hf : ∀ q q', f q = .ok q' → q'.id = q.id) (s : Store) : Except DbError Store :=
  match update p f s.payloads with
  | .error e => .error e
  | .ok _ => .ok <| s.mapPayloads (updated p f) fun q => by
      unfold updated
      split
      · split
        · exact hf _ _ ‹_›
        · rfl
      · rfl

theorem updateMsgs_eq_ok {p : MqMsg → Bool} {f : MqMsg → Except DbError MqMsg}
    {hf : ∀ r r', f r = .ok r' → MqMsg.SameIdentity r r'} {s s' : Store}
    (h : s.updateMsgs p f hf = .ok s') :
    s'.msgs = s.msgs.map (updated p f) ∧ s'.payloads = s.payloads ∧
      (∀ r, MqMsg.SameIdentity r (updated p f r)) ∧
      ∀ r ∈ s.msgs, p r = true → f r = .ok (updated p f r) := by
  unfold updateMsgs at h
  split at h
  · cases h
  · rename_i out hUpdate
    rw [← Except.ok.inj h]
    exact ⟨rfl, rfl, updated_sameIdentity hf p, (update_eq_ok hUpdate).2⟩

theorem updateMsgs_total {p : MqMsg → Bool} {f : MqMsg → Except DbError MqMsg}
    (hf : ∀ r r', f r = .ok r' → MqMsg.SameIdentity r r') {s : Store}
    (h : ∀ r ∈ s.msgs, p r = true → ∃ r', f r = .ok r') : ∃ s', s.updateMsgs p f hf = .ok s' := by
  obtain ⟨out, hUpdate⟩ := update_total h
  exact ⟨s.mapMsgs (updated p f) (updated_sameIdentity hf p), by simp [updateMsgs, hUpdate]⟩

theorem updatePayloads_eq_ok {p : MqPayload → Bool} {f : MqPayload → Except DbError MqPayload}
    {hf : ∀ q q', f q = .ok q' → q'.id = q.id} {s s' : Store}
    (h : s.updatePayloads p f hf = .ok s') :
    s'.msgs = s.msgs ∧ s'.payloads = s.payloads.map (updated p f) ∧
      (∀ q, (updated p f q).id = q.id) ∧
      ∀ q ∈ s.payloads, p q = true → f q = .ok (updated p f q) := by
  unfold updatePayloads at h
  split at h
  · cases h
  · rename_i out hUpdate
    rw [← Except.ok.inj h]
    refine ⟨rfl, rfl, ?_, (update_eq_ok hUpdate).2⟩
    intro q
    unfold updated
    split
    · split
      · exact hf _ _ ‹_›
      · rfl
    · rfl

end Store

/-- The row after `mq_commit`. -/
def commitRow (msgIds : List Uuid) (r : MqMsg) : MqMsg :=
  if r.id ∈ msgIds ∧ r.commitInterval ≠ none then
    { r with
      attemptAt := Option.map₂ (· - ·) r.attemptAt r.commitInterval
      commitInterval := none }
  else r

/-- A commit only sets the schedule. -/
theorem commitRow_eq (msgIds : List Uuid) (r : MqMsg) : commitRow msgIds r =
    { r with
      attemptAt := (commitRow msgIds r).attemptAt
      commitInterval := (commitRow msgIds r).commitInterval } := by
  unfold commitRow
  split <;> rfl

theorem commitRow_sameIdentity (msgIds : List Uuid) (r : MqMsg) :
    r.SameIdentity (commitRow msgIds r) := by
  rw [commitRow_eq]
  exact ⟨rfl, rfl, rfl, rfl, rfl⟩

/-- Commits messages previously created with a non-NULL commit interval. -/
def mqCommit (msgIds : List Uuid) (s : Store) : Store :=
  s.mapMsgs (commitRow msgIds) (commitRow_sameIdentity msgIds)

/-- The row after `mq_keep_alive`. -/
def keepAliveRow (now : Timestamp) (msgIds : List Uuid) (duration : Interval) (r : MqMsg) : MqMsg :=
  if r.id ∈ msgIds ∧ isLt r.attemptAt (now + duration) then
    { r with
      attemptAt := some (now + duration)
      commitInterval := Option.map₂ (fun c a => c + ((now + duration) - a))
        r.commitInterval r.attemptAt }
  else r

/-- Keeping a message alive only sets its schedule. -/
theorem keepAliveRow_eq (now : Timestamp) (msgIds : List Uuid) (duration : Interval) (r : MqMsg) :
    keepAliveRow now msgIds duration r =
      { r with
        attemptAt := (keepAliveRow now msgIds duration r).attemptAt
        commitInterval := (keepAliveRow now msgIds duration r).commitInterval } := by
  unfold keepAliveRow
  split <;> rfl

theorem keepAliveRow_sameIdentity (now : Timestamp) (msgIds : List Uuid) (duration : Interval)
    (r : MqMsg) : r.SameIdentity (keepAliveRow now msgIds duration r) := by
  rw [keepAliveRow_eq]
  exact ⟨rfl, rfl, rfl, rfl, rfl⟩

/-- Indicates that the caller is still active and will prevent either the
commit interval elapsing or the message being retried for the specified
interval. -/
def mqKeepAlive (now : Timestamp) (msgIds : List Uuid) (duration : Interval) (s : Store) : Store :=
  s.mapMsgs (keepAliveRow now msgIds duration) (keepAliveRow_sameIdentity now msgIds duration)

/-- The message columns set by `mq_checkpoint`. -/
def checkpointRow (now : Timestamp) (duration : Interval) (extraRetries : Option Int4) (r : MqMsg) :
    Except DbError MqMsg := do
  let attempts ← Int4.ofInt (r.attempts.val + (extraRetries.map Int4.val).getD 0)
  .ok { r with attemptAt := greatest r.attemptAt (now + duration), attempts }

theorem checkpointRow_eq_ok {now : Timestamp} {duration : Interval} {extraRetries : Option Int4}
    {r r' : MqMsg} (h : checkpointRow now duration extraRetries r = .ok r') :
    r'.attempts.val = r.attempts.val + (extraRetries.map Int4.val).getD 0 ∧
      r' = { r with attemptAt := greatest r.attemptAt (now + duration), attempts := r'.attempts } := by
  obtain ⟨attempts, hAttempts, hRow⟩ := bind_eq_ok_iff.mp h
  rw [← Except.ok.inj hRow]
  exact ⟨Int4.ofInt_eq_ok_iff.mp hAttempts, rfl⟩

theorem checkpointRow_sameIdentity {now : Timestamp} {duration : Interval}
    {extraRetries : Option Int4} (r r' : MqMsg)
    (h : checkpointRow now duration extraRetries r = .ok r') : r.SameIdentity r' := by
  rw [(checkpointRow_eq_ok h).2]
  exact ⟨rfl, rfl, rfl, rfl, rfl⟩

/-- The next attempt is not earlier, or there was none and there is none. -/
def MqMsg.Postponed (r r' : MqMsg) : Prop := Option.Rel (· ≤ ·) r.attemptAt r'.attemptAt

namespace MqMsg

variable {r r' r'' : MqMsg}

theorem postponed_of_eq (h : r'.attemptAt = r.attemptAt) : r.Postponed r' := by
  rw [Postponed, h]
  cases r.attemptAt with
  | none => exact .none
  | some a => exact .some le_rfl

theorem Postponed.trans (h : r.Postponed r') (h' : r'.Postponed r'') : r.Postponed r'' := by
  unfold Postponed at *
  generalize r.attemptAt = a, r'.attemptAt = b, r''.attemptAt = c at *
  cases h with
  | none => exact h'
  | some hFirst =>
      cases h' with
      | some hSecond => exact .some (hFirst.trans hSecond)

theorem Postponed.exists_le (h : r.Postponed r') {b : Timestamp} (hb : r'.attemptAt = some b) :
    ∃ a, r.attemptAt = some a ∧ a ≤ b := by
  rw [Postponed, hb] at h
  generalize r.attemptAt = a at *
  cases h with
  | @some a _ hLater => exact ⟨a, rfl, hLater⟩

end MqMsg

theorem keepAliveRow_postponed (now : Timestamp) (msgIds : List Uuid) (duration : Interval) (r : MqMsg) :
    r.Postponed (keepAliveRow now msgIds duration r) := by
  unfold keepAliveRow
  split
  · rename_i hTakes
    obtain ⟨a, ha, hLater⟩ := isLt_iff.mp hTakes.2
    rw [MqMsg.Postponed, ha]
    exact .some hLater.le
  · exact MqMsg.postponed_of_eq rfl

/-- A scheduled attempt is not brought forward. -/
theorem checkpointRow_postponed {now : Timestamp} {duration : Interval}
    {extraRetries : Option Int4} {r r' : MqMsg}
    (h : checkpointRow now duration extraRetries r = .ok r') (hScheduled : r.attemptAt ≠ none) :
    r.Postponed r' := by
  obtain ⟨a, ha⟩ := Option.ne_none_iff_exists'.mp hScheduled
  rw [(checkpointRow_eq_ok h).2, MqMsg.Postponed, ha]
  exact .some (le_max_left _ _)

/-- The payload columns set by `mq_checkpoint`. -/
def checkpointPayload [JsonbCast] (newPayloadJson : Option String)
    (newPayloadBytes : Option (List UInt8)) (q : MqPayload) : Except DbError MqPayload := do
  let json ← jsonb newPayloadJson
  .ok { q with
    payloadJson := json.or q.payloadJson
    payloadBytes := newPayloadBytes.or q.payloadBytes }

theorem checkpointPayload_id [JsonbCast] {newPayloadJson : Option String}
    {newPayloadBytes : Option (List UInt8)} (q q' : MqPayload)
    (h : checkpointPayload newPayloadJson newPayloadBytes q = .ok q') : q'.id = q.id := by
  obtain ⟨json, _, hRow⟩ := bind_eq_ok_iff.mp h
  rw [← Except.ok.inj hRow]

/-- Called during lengthy processing of a message to checkpoint the progress.
As well as behaving like `mq_keep_alive`, the message payload can be updated. -/
def mqCheckpoint [JsonbCast] (now : Timestamp) (msgId : Uuid) (duration : Interval)
    (newPayloadJson : Option String) (newPayloadBytes : Option (List UInt8))
    (extraRetries : Option Int4) (s : Store) : Except DbError Store := do
  let s' ← s.updateMsgs (·.id = msgId) (checkpointRow now duration extraRetries)
    checkpointRow_sameIdentity
  s'.updatePayloads (·.id = msgId) (checkpointPayload newPayloadJson newPayloadBytes)
    checkpointPayload_id

/-- A checkpoint rewrites the one row and keeps the payload identifiers. -/
theorem mqCheckpoint_eq_ok [JsonbCast] {now : Timestamp} {msgId : Uuid} {duration : Interval}
    {newPayloadJson : Option String} {newPayloadBytes : Option (List UInt8)}
    {extraRetries : Option Int4} {s s' : Store}
    (h : mqCheckpoint now msgId duration newPayloadJson newPayloadBytes extraRetries s = .ok s') :
    ∃ f : MqMsg → MqMsg, s'.msgs = s.msgs.map f ∧ (∀ r, MqMsg.SameIdentity r (f r)) ∧
      (∀ r, r.id ≠ msgId → f r = r) ∧
      (∀ r ∈ s.msgs, r.id = msgId → checkpointRow now duration extraRetries r = .ok (f r)) ∧
      s'.payloads.map MqPayload.id = s.payloads.map MqPayload.id := by
  obtain ⟨t, hMsgs, hPayloads⟩ := bind_eq_ok_iff.mp h
  obtain ⟨htMsgs, htPayloads, hSame, hOk⟩ := Store.updateMsgs_eq_ok hMsgs
  obtain ⟨hsMsgs, hsPayloads, hIds, -⟩ := Store.updatePayloads_eq_ok hPayloads
  refine ⟨_, hsMsgs.trans htMsgs, hSame, ?_, ?_, ?_⟩
  · intro r hr
    simp [updated, hr]
  · intro r hr hId
    exact hOk r hr (by simpa using hId)
  · rw [hsPayloads, htPayloads, List.map_map]
    exact List.map_congr_left fun q _ => hIds q

/-- A checkpoint rewrites the one payload. -/
theorem mqCheckpoint_payload [JsonbCast] {now : Timestamp} {msgId : Uuid} {duration : Interval}
    {newPayloadJson : Option String} {newPayloadBytes : Option (List UInt8)}
    {extraRetries : Option Int4} {s s' : Store}
    (h : mqCheckpoint now msgId duration newPayloadJson newPayloadBytes extraRetries s = .ok s') :
    ∃ f : MqPayload → MqPayload, (∀ id, s'.payload id = (s.payload id).map f) ∧
      (∀ q, q.id ≠ msgId → f q = q) ∧
      ∀ q ∈ s.payloads, q.id = msgId →
        checkpointPayload newPayloadJson newPayloadBytes q = .ok (f q) := by
  obtain ⟨t, hMsgs, hPayloads⟩ := bind_eq_ok_iff.mp h
  obtain ⟨-, htPayloads, -⟩ := Store.updateMsgs_eq_ok hMsgs
  obtain ⟨-, hsPayloads, hIds, hOk⟩ := Store.updatePayloads_eq_ok hPayloads
  refine ⟨updated (·.id = msgId) (checkpointPayload newPayloadJson newPayloadBytes), ?_, ?_, ?_⟩
  · intro id
    rw [Store.payload, hsPayloads, htPayloads]
    exact lookup_map _ hIds
  · intro q hq
    simp [updated, hq]
  · intro q hq hId
    exact hOk q (htPayloads ▸ hq) (by simpa using hId)

end Sqlxmq
