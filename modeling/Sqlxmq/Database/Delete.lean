import Sqlxmq.Database.Schema

/-! Removing messages. The foreign key on `after_message_id` hands the
successors of deleted rows over to the nil row. -/
namespace Sqlxmq

open KeyedTable

/-- `ON DELETE SET DEFAULT`, for a row that is not deleted itself. -/
def setDefault (gone : List Uuid) (r : MqMsg) : MqMsg :=
  match r.afterMessageId with
  | none => r
  | some a => if a ∈ gone then { r with afterMessageId := some uuidNil } else r

@[simp] theorem setDefault_id (gone : List Uuid) (r : MqMsg) : (setDefault gone r).id = r.id := by
  unfold setDefault
  split
  · rfl
  · split <;> rfl

@[simp] theorem setDefault_channel (gone : List Uuid) (r : MqMsg) :
    (setDefault gone r).channel = r.channel := by
  unfold setDefault
  split
  · rfl
  · split <;> rfl

@[simp] theorem setDefault_afterMessageId (gone : List Uuid) (r : MqMsg) :
    (setDefault gone r).afterMessageId =
      r.afterMessageId.map fun a => if a ∈ gone then uuidNil else a := by
  unfold setDefault
  split
  · simp [*]
  · split <;> simp [*]

/-- Everything but the link is kept. -/
theorem setDefault_eq (gone : List Uuid) (r : MqMsg) :
    setDefault gone r = { r with afterMessageId := (setDefault gone r).afterMessageId } := by
  unfold setDefault
  split
  · rfl
  · split <;> rfl

namespace Store

/-- The identifiers of the rows a condition selects. -/
def selectedIds (p : MqMsg → Bool) (s : Store) : List Uuid := (s.msgs.filter p).map MqMsg.id

theorem mem_selectedIds {p : MqMsg → Bool} {s : Store} {r : MqMsg} (hr : r ∈ s.msgs) :
    r.id ∈ s.selectedIds p ↔ p r = true := by
  constructor
  · intro h
    obtain ⟨r', hr', hId⟩ := List.mem_map.mp h
    obtain ⟨hIn, hp⟩ := List.mem_filter.mp hr'
    rw [← List.inj_on_of_nodup_map s.msgsPkey hIn hr hId]
    exact hp
  · exact fun h => List.mem_map_of_mem (List.mem_filter.mpr ⟨hr, h⟩)

/-- What is left of the messages after a DELETE and its foreign key action. -/
def remaining (p : MqMsg → Bool) (s : Store) : List MqMsg :=
  (s.msgs.filter fun r => !p r).map (setDefault (s.selectedIds p))

theorem map_id_remaining (p : MqMsg → Bool) (s : Store) :
    (s.remaining p).map MqMsg.id = (s.msgs.filter fun r => !p r).map MqMsg.id := by
  simp [remaining, Function.comp_def]

/-- `DELETE FROM mq_msgs`. The links are rewritten at the end of the
statement, subject to the unique index and to the presence of the nil row. -/
def deleteMsgs (p : MqMsg → Bool) (s : Store) : Except DbError Store :=
  if hIdx : UniqueOn MqMsg.orderKey (s.remaining p) then
    if hAfter : ∀ r ∈ s.remaining p, AfterExists ((s.remaining p).map MqMsg.id) r then
      .ok { msgs := s.remaining p
            payloads := s.payloads
            msgsPkey := by
              rw [map_id_remaining]
              exact s.msgsPkey.sublist (List.filter_sublist.map _)
            payloadsPkey := s.payloadsPkey
            afterIdx := hIdx
            afterFkey := hAfter }
    else .error (.foreignKeyViolation mqMsgsAfterMessageIdFkey)
  else .error (.uniqueViolation mqMsgsAfterMessageIdIdx)

/-- `DELETE FROM mq_payloads WHERE id = ANY(ids)` -/
def deletePayloads (ids : List Uuid) (s : Store) : Store :=
  { s with
    payloads := s.payloads.filter (·.id ∉ ids)
    payloadsPkey := s.payloadsPkey.sublist (List.filter_sublist.map _) }

@[simp] theorem deletePayloads_msgs (ids : List Uuid) (s : Store) :
    (s.deletePayloads ids).msgs = s.msgs := rfl

@[simp] theorem deletePayloads_ids (ids : List Uuid) (s : Store) :
    (s.deletePayloads ids).ids = s.ids := rfl

theorem mem_deletePayloads_ids {ids : List Uuid} {s : Store} {id : Uuid} :
    id ∈ (s.deletePayloads ids).payloads.map MqPayload.id ↔
      id ∈ s.payloads.map MqPayload.id ∧ id ∉ ids := by
  simp only [deletePayloads, List.mem_map, List.mem_filter, decide_eq_true_eq]
  constructor
  · rintro ⟨q, ⟨hq, hKept⟩, rfl⟩
    exact ⟨⟨q, hq, rfl⟩, hKept⟩
  · rintro ⟨⟨q, hq, rfl⟩, hKept⟩
    exact ⟨q, ⟨hq, hKept⟩, rfl⟩

theorem deleteMsgs_eq_ok {p : MqMsg → Bool} {s s' : Store} (h : s.deleteMsgs p = .ok s') :
    s'.msgs = s.remaining p ∧ s'.payloads = s.payloads := by
  unfold deleteMsgs at h
  split at h
  · split at h
    · rw [← Except.ok.inj h]
      exact ⟨rfl, rfl⟩
    · cases h
  · cases h

theorem mem_ids_deleteMsgs {p : MqMsg → Bool} {s t : Store}
    (hDelete : s.deleteMsgs p = .ok t) {id : Uuid} :
    id ∈ t.ids ↔ id ∈ s.ids ∧ id ∉ s.selectedIds p := by
  rw [Store.ids, (deleteMsgs_eq_ok hDelete).1, map_id_remaining]
  constructor
  · intro hId
    obtain ⟨r, hr, rfl⟩ := List.mem_map.mp hId
    obtain ⟨hIn, hKept⟩ := List.mem_filter.mp hr
    refine ⟨mem_ids_of_mem hIn, fun hSelected => ?_⟩
    rw [mem_selectedIds hIn] at hSelected
    simp [hSelected] at hKept
  · rintro ⟨hId, hNot⟩
    obtain ⟨r, hr, rfl⟩ := List.mem_map.mp hId
    rw [mem_selectedIds hr] at hNot
    exact List.mem_map_of_mem (List.mem_filter.mpr ⟨hr, by simpa using hNot⟩)

/-- A DELETE moves a link only when it removes what the link points to. -/
theorem deleteMsgs_relinks {p : MqMsg → Bool} {s t : Store} (h : s.deleteMsgs p = .ok t)
    {r r' : MqMsg} (hr : r ∈ s.msgs) (hr' : r' ∈ t.msgs) (hId : r'.id = r.id)
    (hMoved : r'.afterMessageId ≠ r.afterMessageId) :
    p r = false ∧ ∃ a, r.afterMessageId = some a ∧ a ∈ s.selectedIds p := by
  rw [(deleteMsgs_eq_ok h).1] at hr'
  obtain ⟨r₀, hr₀, rfl⟩ := List.mem_map.mp hr'
  obtain ⟨hIn, hKept⟩ := List.mem_filter.mp hr₀
  obtain rfl := List.inj_on_of_nodup_map s.msgsPkey hIn hr (by simpa using hId)
  refine ⟨by simpa using hKept, ?_⟩
  cases hAfter : r₀.afterMessageId with
  | none => simp [hAfter] at hMoved
  | some a =>
      refine ⟨a, rfl, ?_⟩
      by_contra hOther
      exact hMoved (by simp [hAfter, hOther])

theorem remaining_afterExists {p : MqMsg → Bool} {s : Store}
    (hNil : ∃ r ∈ s.msgs, r.id = uuidNil ∧ p r = false) :
    ∀ r ∈ s.remaining p, AfterExists ((s.remaining p).map MqMsg.id) r := by
  obtain ⟨nilRow, hNilRow, hNilId, hKept⟩ := hNil
  rw [map_id_remaining]
  intro r hr a ha
  obtain ⟨old, hOld, rfl⟩ := List.mem_map.mp hr
  have hOldIn := (List.mem_filter.mp hOld).1
  rw [setDefault_afterMessageId, Option.mem_map] at ha
  obtain ⟨b, hb, rfl⟩ := ha
  split
  · rw [← hNilId]
    exact List.mem_map_of_mem (List.mem_filter.mpr ⟨hNilRow, by simp [hKept]⟩)
  · rename_i hNotGone
    obtain ⟨target, hTarget, rfl⟩ := List.mem_map.mp (s.afterFkey old hOldIn b hb)
    have hTargetKept : p target = false := by
      simpa using mt (mem_selectedIds hTarget).mpr hNotGone
    exact List.mem_map_of_mem (List.mem_filter.mpr ⟨hTarget, by simp [hTargetKept]⟩)

/-- While the nil row stays, only the unique index can refuse a DELETE. -/
theorem deleteMsgs_cases {p : MqMsg → Bool} {s : Store}
    (hNil : ∃ r ∈ s.msgs, r.id = uuidNil ∧ p r = false) :
    (UniqueOn MqMsg.orderKey (s.remaining p) ∧ ∃ s', s.deleteMsgs p = .ok s') ∨
      (¬ UniqueOn MqMsg.orderKey (s.remaining p) ∧
        s.deleteMsgs p = .error (.uniqueViolation mqMsgsAfterMessageIdIdx)) := by
  unfold deleteMsgs
  by_cases hIdx : UniqueOn MqMsg.orderKey (s.remaining p)
  · refine Or.inl ⟨hIdx, ?_⟩
    rw [dif_pos hIdx, dif_pos (remaining_afterExists hNil)]
    exact ⟨_, rfl⟩
  · exact Or.inr ⟨hIdx, by rw [dif_neg hIdx]⟩

end Store

/-- The rows whose removal `mq_delete` announces: the heads among them. -/
def announced (msgIds : List Uuid) (s : Store) : List MqMsg :=
  s.msgs.filter fun r => r.id ∈ msgIds ∧ r.afterMessageId = some uuidNil

/-- Deletes messages from the queue. This occurs when a message has been
processed, or when it expires without being processed. -/
def mqDelete (msgIds : List Uuid) (s : Store) : Except DbError (Store × List String) := do
  let notifications ← pgNotify (groups MqMsg.channelName (announced msgIds s))
  let s' ← s.deleteMsgs (·.id ∈ msgIds)
  .ok (s'.deletePayloads msgIds, notifications)

/-- Deletes all messages with corresponding payloads from a list of channel
names. -/
def mqClear (channelNames : List String) (s : Store) : Except DbError Store := do
  let p : MqMsg → Bool := fun r => r.channelName ∈ channelNames ∧ r.id ≠ uuidNil
  let s' ← s.deleteMsgs p
  .ok (s'.deletePayloads (s.selectedIds p))

/-- Deletes all messages with corresponding payloads. -/
def mqClearAll (s : Store) : Except DbError Store := do
  let p : MqMsg → Bool := fun r => r.id ≠ uuidNil
  let s' ← s.deleteMsgs p
  .ok (s'.deletePayloads (s.selectedIds p))

theorem mqDelete_eq_ok_iff {msgIds : List Uuid} {s s' : Store} {notifications : List String} :
    mqDelete msgIds s = .ok (s', notifications) ↔
      pgNotify (groups MqMsg.channelName (announced msgIds s)) = .ok notifications ∧
        ∃ t, s.deleteMsgs (·.id ∈ msgIds) = .ok t ∧ s' = t.deletePayloads msgIds := by
  unfold mqDelete
  simp only [bind_eq_ok_iff, Except.ok.injEq, Prod.mk.injEq]
  constructor
  · rintro ⟨notes, hNotes, t, ht, rfl, rfl⟩
    exact ⟨hNotes, t, ht, rfl⟩
  · rintro ⟨hNotes, t, ht, rfl⟩
    exact ⟨notifications, hNotes, t, ht, rfl, rfl⟩

/-- What is stored after a delete. -/
theorem mem_ids_mqDelete {msgIds : List Uuid} {s s' : Store} {notifications : List String}
    (h : mqDelete msgIds s = .ok (s', notifications)) {id : Uuid} :
    id ∈ s'.ids ↔ id ∈ s.ids ∧ id ∉ msgIds := by
  obtain ⟨-, t, hDelete, rfl⟩ := mqDelete_eq_ok_iff.mp h
  rw [Store.deletePayloads_ids, Store.mem_ids_deleteMsgs hDelete]
  apply and_congr_right
  intro hId
  obtain ⟨r, hr, rfl⟩ := List.mem_map.mp hId
  simp [Store.mem_selectedIds hr]

end Sqlxmq
