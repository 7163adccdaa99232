import Mathlib.Data.Set.Basic
import Sqlxmq.Crate.JobBuilder
import Sqlxmq.Order.Integrity

/-! What the queue is for: every channel has a list of ordered messages and a
set of messages without an order. The store with its links refines this. -/
namespace Sqlxmq

open KeyedTable PredecessorLinks LabelledRun

@[ext] structure Queues where
  ordered : Channel → List Uuid
  unordered : Channel → Set Uuid

namespace Queues

def empty : Queues := ⟨fun _ => [], fun _ => ∅⟩

/-- The ordered messages of a batch join the end of their channel in
ascending order of their identifiers. -/
def insert (batch : List MqNew) (q : Queues) : Queues where
  ordered ch := q.ordered ch ++
    ((batch.filter fun m => m.channel = ch ∧ m.ordered = true).map MqNew.id).insertionSort (· ≤ ·)
  unordered ch := q.unordered ch ∪
    {id | ∃ m ∈ batch, m.channel = ch ∧ m.ordered = false ∧ m.id = id}

def delete (ids : List Uuid) (q : Queues) : Queues where
  ordered ch := (q.ordered ch).filter (· ∉ ids)
  unordered ch := {id ∈ q.unordered ch | id ∉ ids}

/-- No message in a channel may be deleted between two that stay. -/
def Deletable (ids : List Uuid) (q : Queues) : Prop :=
  ∀ ch, Contiguous (· ∈ ids) (q.ordered ch)

def clear (cleared : Channel → Bool) (q : Queues) : Queues where
  ordered ch := if cleared ch then [] else q.ordered ch
  unordered ch := if cleared ch then ∅ else q.unordered ch

/-- A message belongs to a channel. -/
def Contains (q : Queues) (ch : Channel) (id : Uuid) : Prop :=
  id ∈ q.ordered ch ∨ id ∈ q.unordered ch

/-- Only the deleted messages that are there matter. -/
theorem delete_congr {q : Queues} {ids ids' : List Uuid}
    (h : ∀ ch id, q.Contains ch id → (id ∈ ids ↔ id ∈ ids')) : q.delete ids = q.delete ids' := by
  refine Queues.ext (funext fun ch => ?_) (funext fun ch => Set.ext fun id => ?_)
  · apply List.filter_congr
    intro id hId
    rw [decide_eq_decide, h ch id (Or.inl hId)]
  · exact and_congr_right fun hId => not_congr (h ch id (Or.inr hId))

theorem deletable_congr {q : Queues} {ids ids' : List Uuid}
    (h : ∀ ch id, q.Contains ch id → (id ∈ ids ↔ id ∈ ids')) :
    q.Deletable ids ↔ q.Deletable ids' := by
  apply forall_congr'
  intro ch
  refine forall₃_congr fun a b c => imp_congr_right fun hTriple => ?_
  have hIn {d : Uuid} (hd : d ∈ [a, b, c]) : (d ∈ ids ↔ d ∈ ids') :=
    h ch d (Or.inl (hTriple.subset hd))
  simp [hIn]

section Clear

variable {q : Queues} {ids : List Uuid} {cleared : Channel → Bool}
  (h : ∀ ch id, q.Contains ch id → (id ∈ ids ↔ cleared ch = true))
include h

/-- Clearing channels is deleting what they contain. -/
theorem delete_eq_clear : q.delete ids = q.clear cleared := by
  refine Queues.ext (funext fun ch => ?_) (funext fun ch => Set.ext fun id => ?_)
  · cases hCleared : cleared ch with
    | true =>
        have hNone : (q.ordered ch).filter (· ∉ ids) = [] := by
          rw [List.filter_eq_nil_iff]
          intro id hId
          simpa using (h ch id (Or.inl hId)).mpr hCleared
        simpa [delete, clear, hCleared] using hNone
    | false =>
        have hAll : (q.ordered ch).filter (· ∉ ids) = q.ordered ch := by
          rw [List.filter_eq_self]
          intro id hId
          simpa [hCleared] using h ch id (Or.inl hId)
        simpa [delete, clear, hCleared] using hAll
  · cases hCleared : cleared ch with
    | true => simpa [delete, clear, hCleared] using fun hId => (h ch id (Or.inr hId)).mpr hCleared
    | false =>
        simp only [delete, clear, hCleared, Set.mem_ofPred_eq]
        exact and_iff_left_of_imp fun hId => by simpa [hCleared] using h ch id (Or.inr hId)

/-- Whole channels leave no gap. -/
theorem deletable_of_clear : q.Deletable ids := by
  intro ch a b c hTriple ha _
  have hIn {d : Uuid} (hd : d ∈ [a, b, c]) : d ∈ ids ↔ cleared ch = true :=
    h ch d (Or.inl (hTriple.subset hd))
  rw [decide_eq_false_iff_not, hIn (by simp)] at ha ⊢
  exact ha

end Clear

end Queues

/-- The abstraction of a store. -/
def Store.queues (s : Store) : Queues where
  ordered := s.fifo
  unordered ch := {id | ∃ r ∈ s.msgs, r.channel = ch ∧ r.afterMessageId = none ∧
    r.id ≠ uuidNil ∧ r.id = id}

/-- Initially every queue is empty. -/
theorem Store.initial_queues (migratedAt : Timestamp) :
    (Store.initial migratedAt).queues = Queues.empty := by
  refine Queues.ext (funext fun ch => ?_) (funext fun ch => Set.ext fun id => ?_)
  · have hNone : linksIn ch (Store.initial migratedAt).msgs = [] := by
      simp [linksIn, Store.initial, MqMsg.link]
    exact Store.fifo_eq (hNone ▸ .empty uuidNil)
  · simp [Store.queues, Store.initial, Queues.empty]

namespace Integrity

variable {s s' t : Store} (h : Integrity s)
include h

/-- The queues contain every message but the nil row, in its own channel. -/
theorem contains_iff {ch : Channel} {id : Uuid} :
    s.queues.Contains ch id ↔ id ≠ uuidNil ∧ ∃ r ∈ s.msgs, r.channel = ch ∧ r.id = id := by
  simp only [Queues.Contains, Store.queues, Set.mem_ofPred_eq, h.chained.mem_fifo_iff]
  constructor
  · rintro (⟨r, hr, hChannel, rfl, p, hAfter⟩ | ⟨r, hr, hChannel, -, hNil, rfl⟩)
    · refine ⟨fun hNil => ?_, r, hr, hChannel, rfl⟩
      rw [h.nilRow_unordered hr hNil] at hAfter
      cases hAfter
    · exact ⟨hNil, r, hr, hChannel, rfl⟩
  · rintro ⟨hNil, r, hr, hChannel, rfl⟩
    cases hAfter : r.afterMessageId with
    | none => exact Or.inr ⟨r, hr, hChannel, hAfter, hNil, rfl⟩
    | some p => exact Or.inl ⟨r, hr, hChannel, rfl, p, hAfter⟩

end Integrity

section Insert

theorem orderedIds_eq_insertionSort (batch : List MqNew) (ch : Channel) :
    orderedIds batch ch = ((batch.filter fun m => m.channel = ch ∧ m.ordered = true).map
      MqNew.id).insertionSort (· ≤ ·) := by
  have hPartition : (batch.filter fun m => decide (m.partitionKey = (ch.name, ch.args, true))) =
      batch.filter fun m => decide (m.channel = ch ∧ m.ordered = true) := by
    apply List.filter_congr
    intro m _
    simp [MqNew.partitionKey, MqNew.channel, Channel.ext_iff, and_assoc]
  rw [orderedIds, windowPartition, hPartition]
  exact List.map_insertionSort _ _ _ _ fun _ _ _ _ => Iff.rfl

variable [JsonbCast] {now : Timestamp} {batch : List MqNew} {s s' : Store}

/-- The batch fits the notification channels and the columns. -/
structure Insertable (batch : List MqNew) : Prop where
  names : ∀ m ∈ batch, NotifyAccepts ("mq_" ++ m.channelName)
  retries : ∀ m ∈ batch, m.retries.val + 1 < 2 ^ 31
  payloads : ∀ m ∈ batch, ∃ value, jsonb m.payloadJson = .ok value

theorem newRows_total (s : Store) (h : Insertable batch) : ∃ new, newRows now batch s = .ok new := by
  obtain ⟨payloads, hPayloads⟩ : ∃ payloads, evaluate newPayload batch = .ok payloads := by
    apply evaluate_total
    intro m hm
    obtain ⟨value, hValue⟩ := h.payloads m hm
    exact ⟨_, bind_eq_ok_iff.mpr ⟨value, hValue, rfl⟩⟩
  obtain ⟨msgs, hMsgs⟩ : ∃ msgs, evaluate (newMsg now) (lagged s batch) = .ok msgs := by
    apply evaluate_total
    intro e he
    have hm : e.1 ∈ batch := by
      rw [← (map_fst_lagged_perm s batch).mem_iff]
      exact List.mem_map_of_mem he
    have hLower := e.1.retries.lower
    have hAttempts : Int4.ofInt (e.1.retries.val + 1) =
        .ok ⟨e.1.retries.val + 1, by omega, h.retries e.1 hm⟩ :=
      Int4.ofInt_eq_ok_iff.mpr rfl
    exact ⟨_, bind_eq_ok_iff.mpr ⟨_, hAttempts, rfl⟩⟩
  exact ⟨⟨payloads, msgs⟩, newRows_eq_ok_iff.mpr ⟨hPayloads, hMsgs⟩⟩

/-- A batch of distinct unused identifiers is refused only for what does not
fit. -/
theorem Integrity.mqInsert_total (h : Integrity s) (hBatch : Insertable batch)
    (hNodup : (batch.map MqNew.id).Nodup) (hFresh : ∀ m ∈ batch, m.id ∉ s.ids) :
    ∃ s' notifications, mqInsert now batch s = .ok (s', notifications) := by
  obtain ⟨new, hNew⟩ : ∃ new, newRows now batch s = .ok new := newRows_total s hBatch
  obtain ⟨s', hInsert⟩ := h.insertRows_total hNew hNodup hFresh
  refine ⟨s', _, mqInsert_eq_ok_iff.mpr ⟨pgNotify_eq_ok_iff.mpr ⟨?_, rfl⟩, new, hNew, hInsert⟩⟩
  intro name hName
  obtain ⟨m, hm, rfl⟩ := mem_groups.mp hName
  exact hBatch.names m hm

theorem insertable_of_newRows {notifications : List String} {new : NewRows}
    (hNotes : pgNotify (groups MqNew.channelName batch) = .ok notifications)
    (hNew : newRows now batch s = .ok new) : Insertable batch := by
  refine ⟨fun m hm => ?_, fun m hm => ?_, fun m hm => ?_⟩
  · exact (pgNotify_eq_ok_iff.mp hNotes).1 _ (mem_groups.mpr ⟨m, hm, rfl⟩)
  · obtain ⟨r, -, previous, hRow⟩ := newRows_exists hNew hm
    rw [← (newMsg_eq_ok hRow).1]
    exact r.attempts.upper
  · obtain ⟨q, -, hPayload⟩ := evaluate_exists (newRows_eq_ok_iff.mp hNew).1 hm
    obtain ⟨value, hValue, -⟩ := bind_eq_ok_iff.mp hPayload
    exact ⟨value, hValue⟩

theorem Integrity.mqInsert_queues (h : Integrity s) {notifications : List String}
    (hInsert : mqInsert now batch s = .ok (s', notifications)) :
    s'.queues = s.queues.insert batch := by
  obtain ⟨-, new, hNew, hRows⟩ := mqInsert_eq_ok_iff.mp hInsert
  refine Queues.ext (funext fun ch => ?_) (funext fun ch => Set.ext fun id => ?_)
  · apply (Store.fifo_eq (h.chained.insert h.nil_mem_ids hNew hRows ch)).trans
    rw [orderedIds_eq_insertionSort]
    rfl
  · obtain ⟨hMsgs, -⟩ := insertRows_eq_ok hRows
    have hFresh := (insertRows_fresh hNew hRows).2
    simp only [Store.queues, Queues.insert, Set.mem_union, Set.mem_ofPred_eq, hMsgs]
    constructor
    · rintro ⟨r, hr, rfl, hAfter, hNil, rfl⟩
      rcases List.mem_append.mp hr with hOld | hNewRow
      · exact Or.inl ⟨r, hOld, rfl, hAfter, hNil, rfl⟩
      · obtain ⟨m, hm, previous, hRow⟩ := newRows_mem hNew hNewRow
        rw [(newMsg_eq_ok hRow).2] at hAfter ⊢
        exact Or.inr ⟨m, hm, rfl, by simpa using hAfter, rfl⟩
    · rintro (⟨r, hr, hRest⟩ | ⟨m, hm, rfl, hOrdered, rfl⟩)
      · exact ⟨r, List.mem_append_left _ hr, hRest⟩
      · obtain ⟨r, hr, previous, hRow⟩ := newRows_exists hNew hm
        refine ⟨r, List.mem_append_right _ hr, ?_⟩
        have hNotNil : m.id ≠ uuidNil := fun hNil => hFresh m hm (hNil ▸ h.nil_mem_ids)
        rw [(newMsg_eq_ok hRow).2]
        exact ⟨rfl, by simp [hOrdered], hNotNil, rfl⟩

end Insert

section Delete

variable {s s' t : Store}

/-- Deleting rows deletes their identifiers from the queues. -/
theorem Integrity.deleteMsgs_queues (h : Integrity s) {p : MqMsg → Bool}
    (hNil : ∀ r : MqMsg, r.id = uuidNil → p r = false) (hDelete : s.deleteMsgs p = .ok t) :
    t.queues = s.queues.delete (s.selectedIds p) := by
  have hMsgs := (Store.deleteMsgs_eq_ok hDelete).1
  refine Queues.ext (funext fun ch => ?_) (funext fun ch => Set.ext fun id => ?_)
  · exact Store.fifo_eq (h.chained.deleteMsgs (nil_not_selected hNil) hDelete ch)
  · simp only [Store.queues, Queues.delete, Set.mem_ofPred_eq, hMsgs, Store.remaining,
      List.mem_map, List.mem_filter]
    constructor
    · rintro ⟨_, ⟨r, ⟨hr, hKept⟩, rfl⟩, hChannel, hAfter, hNotNil, rfl⟩
      rw [setDefault_channel] at hChannel
      rw [setDefault_id] at hNotNil ⊢
      refine ⟨⟨r, hr, hChannel, by simpa using hAfter, hNotNil, rfl⟩, ?_⟩
      simpa [Store.mem_selectedIds hr] using hKept
    · rintro ⟨⟨r, hr, hChannel, hAfter, hNotNil, rfl⟩, hKept⟩
      rw [Store.mem_selectedIds hr] at hKept
      exact ⟨setDefault (s.selectedIds p) r, ⟨r, ⟨hr, by simpa using hKept⟩, rfl⟩,
        by simpa using hChannel, by simp [hAfter], by simpa using hNotNil, setDefault_id _ _⟩

/-- A row condition that depends on the identifier only selects the named
messages that are there. -/
theorem Integrity.mem_selectedIds_iff (h : Integrity s) {msgIds : List Uuid} {ch : Channel}
    {id : Uuid} (hId : s.queues.Contains ch id) :
    id ∈ s.selectedIds (fun r => decide (r.id ∈ msgIds)) ↔ id ∈ msgIds := by
  obtain ⟨-, r, hr, -, rfl⟩ := h.contains_iff.mp hId
  simp [Store.mem_selectedIds hr]

/-- The deletion of any messages but the nil row succeeds exactly when it
leaves no gap in a channel. -/
theorem Integrity.mqDelete_cases (h : Integrity s) {msgIds : List Uuid} (hNil : uuidNil ∉ msgIds) :
    (s.queues.Deletable msgIds ∧ ∃ s' notifications, mqDelete msgIds s = .ok (s', notifications)) ∨
      (¬ s.queues.Deletable msgIds ∧
        mqDelete msgIds s = .error (.uniqueViolation mqMsgsAfterMessageIdIdx)) := by
  have hSpares : ∀ r : MqMsg, r.id = uuidNil → decide (r.id ∈ msgIds) = false := by
    intro r hId
    simpa [hId] using hNil
  have hDeletable : s.queues.Deletable msgIds ↔
      UniqueOn MqMsg.orderKey (s.remaining fun r => decide (r.id ∈ msgIds)) := by
    rw [h.chained.uniqueOn_remaining_iff (nil_not_selected hSpares)]
    exact (Queues.deletable_congr fun ch id hId => h.mem_selectedIds_iff hId).symm
  obtain ⟨notifications, hNotes⟩ : ∃ notifications,
      pgNotify (groups MqMsg.channelName (announced msgIds s)) = .ok notifications := by
    refine ⟨_, pgNotify_eq_ok_iff.mpr ⟨fun name hName => ?_, rfl⟩⟩
    obtain ⟨r, hr, rfl⟩ := mem_groups.mp hName
    exact h.names r (List.mem_filter.mp hr).1
  obtain ⟨nilRow, hNilRow, hNilId, -⟩ := h.nilRow
  rw [hDeletable]
  have hKept : ∃ r ∈ s.msgs, r.id = uuidNil ∧ decide (r.id ∈ msgIds) = false :=
    ⟨nilRow, hNilRow, hNilId, hSpares nilRow hNilId⟩
  rcases Store.deleteMsgs_cases hKept with ⟨hIdx, t, ht⟩ | ⟨hIdx, hError⟩
  · exact Or.inl ⟨hIdx, _, _, mqDelete_eq_ok_iff.mpr ⟨hNotes, t, ht, rfl⟩⟩
  · refine Or.inr ⟨hIdx, ?_⟩
    simp [mqDelete, hNotes, hError, bind, Except.bind]

theorem Integrity.mqDelete_queues (h : Integrity s) {msgIds : List Uuid} (hNil : uuidNil ∉ msgIds)
    {notifications : List String} (hDelete : mqDelete msgIds s = .ok (s', notifications)) :
    s'.queues = s.queues.delete msgIds := by
  obtain ⟨-, t, ht, rfl⟩ := mqDelete_eq_ok_iff.mp hDelete
  have hQueues := h.deleteMsgs_queues (fun r hId => by simpa [hId] using hNil) ht
  exact hQueues.trans (Queues.delete_congr fun ch id hId => h.mem_selectedIds_iff hId)

/-- A deletion announces exactly the channel names with a deleted head. -/
theorem Integrity.mqDelete_notifies (h : Integrity s) {msgIds : List Uuid}
    {notifications : List String} (hDelete : mqDelete msgIds s = .ok (s', notifications))
    (name : String) : "mq_" ++ name ∈ notifications ↔
      ∃ ch, ch.name = name ∧ ∃ id ∈ msgIds, (s.queues.ordered ch).head? = some id := by
  rw [mem_pgNotify_iff (mqDelete_eq_ok_iff.mp hDelete).1, mem_groups]
  simp only [announced, List.mem_filter, decide_eq_true_eq]
  constructor
  · rintro ⟨r, ⟨hr, hIn, hAfter⟩, rfl⟩
    exact ⟨r.channel, rfl, r.id, hIn, (h.chained.head_iff hr).mp hAfter⟩
  · rintro ⟨ch, rfl, id, hIn, hHead⟩
    obtain ⟨r, hr, rfl, rfl, hAfter⟩ := mem_linksIn.mp (((h.chained ch).head_iff id).mpr hHead)
    exact ⟨r, ⟨hr, hIn, hAfter⟩, rfl⟩

/-- Whoever is promoted to the head of a channel, its listeners hear of it. -/
theorem Integrity.mqDelete_promoted (h : Integrity s) {msgIds : List Uuid} (hNil : uuidNil ∉ msgIds)
    {notifications : List String} (hDelete : mqDelete msgIds s = .ok (s', notifications))
    {r : MqMsg} (hr : r ∈ s.msgs) (hKept : r.id ∉ msgIds) {a : Uuid}
    (hAfter : r.afterMessageId = some a) (ha : a ∈ msgIds) :
    "mq_" ++ r.channelName ∈ notifications ∧ "mq" ∈ notifications := by
  obtain ⟨hNotes, t, ht, -⟩ := mqDelete_eq_ok_iff.mp hDelete
  have hSpares : ∀ r : MqMsg, r.id = uuidNil → decide (r.id ∈ msgIds) = false := by
    intro r hId
    simpa [hId] using hNil
  have hGone : a ∈ s.selectedIds fun r => decide (r.id ∈ msgIds) := by
    obtain ⟨r₀, hr₀, rfl⟩ := List.mem_map.mp (s.afterFkey r hr a hAfter)
    simpa [Store.mem_selectedIds hr₀] using ha
  obtain ⟨head, hHead, hIn, hChannel, hFirst⟩ := h.chained.head_deleted
    (nil_not_selected hSpares) ht hr (by simpa using hKept) hAfter hGone
  have hName : r.channelName ∈ groups MqMsg.channelName (announced msgIds s) := by
    refine mem_groups.mpr ⟨head, List.mem_filter.mpr ⟨hHead, ?_⟩, congrArg Channel.name hChannel⟩
    simpa [hFirst] using hIn
  exact ⟨(mem_pgNotify_iff hNotes _).mpr hName, mq_mem_pgNotify hNotes hName⟩

/-- A new head of a channel followed a deleted message. -/
theorem Integrity.head_after_delete (h : Integrity s) {msgIds : List Uuid}
    (hNil : uuidNil ∉ msgIds) {notifications : List String}
    (hDelete : mqDelete msgIds s = .ok (s', notifications)) {ch : Channel} {id : Uuid}
    (hHead : (s'.queues.ordered ch).head? = some id)
    (hOther : (s.queues.ordered ch).head? ≠ some id) :
    ∃ r ∈ s.msgs, r.channel = ch ∧ r.id ∉ msgIds ∧ ∃ a ∈ msgIds, r.afterMessageId = some a := by
  obtain ⟨-, t, ht, rfl⟩ := mqDelete_eq_ok_iff.mp hDelete
  have hSpares : ∀ r : MqMsg, r.id = uuidNil → decide (r.id ∈ msgIds) = false := by
    intro r hId
    simpa [hId] using hNil
  have hChain := h.chained.deleteMsgs (nil_not_selected hSpares) ht ch
  have hLink : (id, uuidNil) ∈ linksIn ch t.msgs := by
    rw [hChain.head_iff, ← Store.fifo_eq hChain]
    exact hHead
  rw [(Store.deleteMsgs_eq_ok ht).1, linksIn_remaining] at hLink
  obtain ⟨⟨b, p⟩, hIn, hRelinked⟩ := List.mem_map.mp hLink
  obtain ⟨hOld, hKept⟩ := List.mem_filter.mp hIn
  simp only [decide_eq_true_eq, Prod.mk.injEq] at hRelinked
  obtain ⟨rfl, hNilPred⟩ := hRelinked
  obtain ⟨r, hr, hChannel, rfl, hAfter⟩ := mem_linksIn.mp hOld
  have hKeptId : r.id ∉ msgIds := by
    simpa [Store.mem_selectedIds hr] using hKept
  refine ⟨r, hr, hChannel, hKeptId, p, ?_, hAfter⟩
  by_contra hPred
  have hNotGone : p ∉ s.selectedIds fun r => decide (r.id ∈ msgIds) := by
    intro hGone
    obtain ⟨r₀, hr₀, rfl⟩ := List.mem_map.mp hGone
    exact hPred (by simpa using (List.mem_filter.mp hr₀).2)
  rw [if_neg hNotGone] at hNilPred
  subst hChannel
  exact hOther ((h.chained.head_iff hr).mp (hNilPred ▸ hAfter))

/-- Clearing always succeeds and empties exactly the given channels. -/
theorem Integrity.clear_queues (h : Integrity s) {p : MqMsg → Bool} {cleared : Channel → Bool}
    (hp : ∀ r : MqMsg, p r = decide (cleared r.channel = true ∧ r.id ≠ uuidNil)) :
    ∃ t, s.deleteMsgs p = .ok t ∧ t.queues = s.queues.clear cleared := by
  have hSpares : ∀ r : MqMsg, r.id = uuidNil → p r = false := by
    intro r hId
    simp [hp, hId]
  have hSelected : ∀ ch id, s.queues.Contains ch id →
      (id ∈ s.selectedIds p ↔ cleared ch = true) := by
    intro ch id hId
    obtain ⟨hNotNil, r, hr, rfl, rfl⟩ := h.contains_iff.mp hId
    simp [Store.mem_selectedIds hr, hp, hNotNil]
  obtain ⟨nilRow, hNilRow, hNilId, -⟩ := h.nilRow
  rcases Store.deleteMsgs_cases ⟨nilRow, hNilRow, hNilId, hSpares nilRow hNilId⟩ with
    ⟨-, t, ht⟩ | ⟨hIdx, -⟩
  · exact ⟨t, ht, (h.deleteMsgs_queues hSpares ht).trans (Queues.delete_eq_clear hSelected)⟩
  · refine absurd ((h.chained.uniqueOn_remaining_iff (nil_not_selected hSpares)).mpr ?_) hIdx
    exact Queues.deletable_of_clear hSelected

end Delete
section Refinement

/-- The effect that a call is meant to have on the queues. -/
def Op.onQueues : Op → Queues → Queues
  | .insert _ newMessages, q => q.insert newMessages
  | .delete msgIds, q => q.delete msgIds
  | .clear channelNames, q => q.clear fun ch => ch.name ∈ channelNames
  | .clearAll, _ => .empty
  | _, q => q

theorem Op.onQueues_clears {op : Op} {p : MqMsg → Bool} (h : op.clears = some p) :
    ∃ cleared : Channel → Bool,
      (∀ r : MqMsg, p r = decide (cleared r.channel = true ∧ r.id ≠ uuidNil)) ∧
        ∀ q, op.onQueues q = q.clear cleared := by
  cases op <;> simp only [Op.clears, Option.some.injEq, reduceCtorEq] at h
  · rename_i channelNames
    refine ⟨fun ch => ch.name ∈ channelNames, fun r => ?_, fun q => rfl⟩
    rw [← h, decide_eq_decide, decide_eq_true_eq]
    rfl
  · refine ⟨fun _ => true, fun r => ?_, fun q => ?_⟩
    · simp [← h]
    · simp [Op.onQueues, Queues.clear, Queues.empty]

variable [JsonbCast]

/-- A successful call does to the queues what it is meant to do. -/
theorem Integrity.exec_queues {op : Op} {s s' : Store} {reply : Reply} (h : Integrity s)
    (hNil : op.sparesNil) (hExec : exec op s = .ok (s', reply)) :
    s'.queues = op.onQueues s.queues := by
  cases exec_effect hExec with
  | insert notified prepared inserted =>
      exact h.mqInsert_queues (mqInsert_eq_ok_iff.mpr ⟨notified, _, prepared, inserted⟩)
  | delete notified deleted payloads =>
      exact h.mqDelete_queues hNil (mqDelete_eq_ok_iff.mpr ⟨notified, _, deleted, payloads⟩)
  | clear selects deleted payloads silent =>
      obtain ⟨cleared, hp, hQueues⟩ := Op.onQueues_clears selects
      obtain ⟨t, ht, hCleared⟩ := h.clear_queues hp
      rw [deleted, Except.ok.injEq] at ht
      rw [payloads, hQueues, ← hCleared, ← ht]
      rfl
  | @rewrite _ _ f inPlace msgs same payloads silent =>
      have hSame : op.onQueues s.queues = s.queues := by
        cases op <;> first | rfl | cases inPlace
      rw [hSame]
      refine Queues.ext (funext fun ch => ?_) (funext fun ch => Set.ext fun id => ?_)
      · apply Store.fifo_eq
        rw [msgs, linksIn_map same]
        exact h.chained ch
      · simp only [Store.queues, Set.mem_ofPred_eq, msgs]
        constructor
        · rintro ⟨_, hr', hRest⟩
          obtain ⟨r, hr, rfl⟩ := List.mem_map.mp hr'
          rw [(same r).channel, (same r).afterMessageId, (same r).id] at hRest
          exact ⟨r, hr, hRest⟩
        · rintro ⟨r, hr, hRest⟩
          refine ⟨f r, List.mem_map_of_mem hr, ?_⟩
          rwa [(same r).channel, (same r).afterMessageId, (same r).id]

/-- Without an insert a channel only loses messages. -/
theorem Integrity.fifo_sublist {op : Op} {s s' : Store} {reply : Reply} (h : Integrity s)
    (hNoInsert : op.batches = []) (hNil : op.sparesNil) (hExec : exec op s = .ok (s', reply))
    (ch : Channel) : (s'.fifo ch).Sublist (s.fifo ch) := by
  have hFifo : s'.fifo ch = (op.onQueues s.queues).ordered ch :=
    congrFun (congrArg Queues.ordered (h.exec_queues hNil hExec)) ch
  rw [hFifo]
  cases op with
  | insert now newMessages => cases hNoInsert
  | delete msgIds => exact List.filter_sublist
  | clear channelNames =>
      simp only [Op.onQueues, Queues.clear]
      split
      · exact List.nil_sublist _
      · exact List.Sublist.refl _
  | clearAll => exact List.nil_sublist _
  | _ => exact List.Sublist.refl _

/-- The store behaves as the queues it represents. -/
structure RefinesQueues (s : Store) : Prop where
  step : ∀ {op s' reply}, op.sparesNil → exec op s = .ok (s', reply) →
    s'.queues = op.onQueues s.queues
  /-- Alone in its transaction, a fresh batch is accepted whenever it fits. -/
  insert : ∀ {now batch}, (batch.map MqNew.id).Nodup → (∀ m ∈ batch, m.id ∉ s.ids) →
    ((∃ s' reply, exec (.insert now batch) s = .ok (s', reply)) ↔ Insertable batch)
  delete : ∀ {msgIds}, uuidNil ∉ msgIds →
    ((∃ s' reply, exec (.delete msgIds) s = .ok (s', reply)) ↔ s.queues.Deletable msgIds)
  delete_error : ∀ {msgIds}, uuidNil ∉ msgIds → ¬ s.queues.Deletable msgIds →
    transact (.delete msgIds) s = (s, .error (.uniqueViolation mqMsgsAfterMessageIdIdx))
  delete_notifies : ∀ {msgIds s' reply}, exec (.delete msgIds) s = .ok (s', reply) → ∀ name,
    "mq_" ++ name ∈ reply.notifications ↔
      ∃ ch, ch.name = name ∧ ∃ id ∈ msgIds, (s.queues.ordered ch).head? = some id
  /-- Listeners hear of every new head of a channel. -/
  delete_promotes : ∀ {msgIds s' reply}, uuidNil ∉ msgIds →
    exec (.delete msgIds) s = .ok (s', reply) → ∀ ch id,
      (s'.queues.ordered ch).head? = some id → (s.queues.ordered ch).head? ≠ some id →
        "mq_" ++ ch.name ∈ reply.notifications ∧ "mq" ∈ reply.notifications
  clear : ∀ op p, op.clears = some p → ∃ s', exec op s = .ok (s', .silent)

theorem exec_delete_eq_ok_iff {msgIds : List Uuid} {s s' : Store} {reply : Reply} :
    exec (.delete msgIds) s = .ok (s', reply) ↔
      mqDelete msgIds s = .ok (s', reply.notifications) ∧ reply.polled = [] := by
  obtain ⟨notifications, polled⟩ := reply
  cases h : mqDelete msgIds s with
  | error e => simp [exec, h, bind, Except.bind]
  | ok result => simp [exec, h, bind, Except.bind, Prod.ext_iff, and_assoc, eq_comm]

theorem Integrity.refinesQueues {s : Store} (h : Integrity s) : RefinesQueues s where
  step := h.exec_queues
  insert := by
    intro now batch hNodup hFresh
    constructor
    · rintro ⟨s', reply, hExec⟩
      obtain ⟨⟨t, notifications⟩, hInsert, -⟩ := bind_eq_ok_iff.mp hExec
      obtain ⟨hNotes, new, hNew, -⟩ := mqInsert_eq_ok_iff.mp hInsert
      exact insertable_of_newRows hNotes hNew
    · intro hBatch
      obtain ⟨s', notifications, hInsert⟩ := h.mqInsert_total hBatch hNodup hFresh
      exact ⟨s', ⟨notifications, []⟩, bind_eq_ok_iff.mpr ⟨_, hInsert, rfl⟩⟩
  delete := by
    intro msgIds hNil
    constructor
    · rintro ⟨s', reply, hExec⟩
      rcases h.mqDelete_cases hNil with ⟨hDeletable, -⟩ | ⟨-, hError⟩
      · exact hDeletable
      · rw [exec_delete_eq_ok_iff, hError] at hExec
        cases hExec.1
    · intro hDeletable
      rcases h.mqDelete_cases hNil with ⟨-, s', notifications, hDelete⟩ | ⟨hNot, -⟩
      · exact ⟨s', ⟨notifications, []⟩, exec_delete_eq_ok_iff.mpr ⟨hDelete, rfl⟩⟩
      · exact absurd hDeletable hNot
  delete_error := by
    intro msgIds hNil hNot
    rcases h.mqDelete_cases hNil with ⟨hDeletable, -⟩ | ⟨-, hError⟩
    · exact absurd hDeletable hNot
    · simp [transact, exec, hError, bind, Except.bind]
  delete_notifies := by
    intro msgIds s' reply hExec
    exact h.mqDelete_notifies (exec_delete_eq_ok_iff.mp hExec).1
  delete_promotes := by
    intro msgIds s' reply hNil hExec ch id hHead hOther
    have hDelete := (exec_delete_eq_ok_iff.mp hExec).1
    obtain ⟨r, hr, rfl, hKept, a, ha, hAfter⟩ := h.head_after_delete hNil hDelete hHead hOther
    exact h.mqDelete_promoted hNil hDelete hr hKept hAfter ha
  clear := by
    intro op p hSelects
    obtain ⟨cleared, hp, -⟩ := Op.onQueues_clears hSelects
    obtain ⟨t, ht, -⟩ := h.clear_queues hp
    cases op <;> simp only [Op.clears, Option.some.injEq, reduceCtorEq] at hSelects <;>
      subst hSelects
    · exact ⟨_, bind_eq_ok_iff.mpr ⟨_, bind_eq_ok_iff.mpr ⟨t, ht, rfl⟩, rfl⟩⟩
    · exact ⟨_, bind_eq_ok_iff.mpr ⟨_, bind_eq_ok_iff.mpr ⟨t, ht, rfl⟩, rfl⟩⟩

/-- Every store that calls can lead to, whatever messages they delete except
for the nil row, refines the queues. -/
theorem reachable_refinesQueues {migratedAt : Timestamp} {ops : List Op} {x : Session}
    (run : Run (Session.Step fun _ op => op.sparesNil) (.start migratedAt) ops x) :
    RefinesQueues x.store :=
  (Session.run_integrity run fun _ _ _ h => h).1.refinesQueues

end Refinement

theorem reachable_refinesQueues_after_insert :
    @RefinesQueues .nullOnly (@Session.call .nullOnly
      (.insert 0 [JobBuilder.orderedMessage 1 "job"]) (.start 0)).store :=
  @reachable_refinesQueues .nullOnly 0 [.insert 0 [JobBuilder.orderedMessage 1 "job"]] _
    (.cons ⟨trivial, rfl⟩ .refl)

/-- A fresh message on an accepted channel name and without a payload. One
attempt more than its retries is no `INT`, so its insert is refused, and the
queues stay as they are. -/
theorem insert_refused_of_retries :
    let _ : JsonbCast := .nullOnly
    let m : MqNew :=
      { JobBuilder.orderedMessage 1 "job" with retries := ⟨2147483647, by decide, by decide⟩ }
    let s := (Session.start 0).store
    ([m].map MqNew.id).Nodup ∧ (m.id ∉ s.ids ∧ m.id ≠ uuidNil) ∧
      NotifyAccepts ("mq_" ++ m.channelName) ∧ jsonb m.payloadJson = .ok none ∧
      transact (.insert 0 [m]) s = (s, .error .numericValueOutOfRange) ∧
      (transact (.insert 0 [m]) s).1.queues ≠ s.queues.insert [m] := by
  intro _ m s
  have hFails : (exec (.insert 0 [m]) s).map Prod.snd = .error .numericValueOutOfRange := by
    decide +kernel
  have hTransact : transact (.insert 0 [m]) s = (s, .error .numericValueOutOfRange) := by
    rw [transact, eq_error_of_map_eq_error hFails]
  refine ⟨by decide, by decide, by decide +kernel, rfl, hTransact, ?_⟩
  rw [hTransact, show s.queues = Queues.empty from Store.initial_queues 0]
  intro hQueues
  have hLength : [] = (Queues.empty.insert [m]).ordered m.channel :=
    congrFun (congrArg Queues.ordered hQueues) m.channel
  exact absurd hLength (by decide)

end Sqlxmq
