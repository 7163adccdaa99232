import Sqlxmq.Database.Transaction
import Sqlxmq.Order.ChainUpdates

/-! What every reachable store satisfies beyond the declared constraints:
the two tables belong together, and the links form chains. -/
namespace Sqlxmq

open KeyedTable PredecessorLinks LabelledRun

structure Integrity (s : Store) : Prop where
  /-- The dummy message that makes the nil UUID referenceable. -/
  nilRow : ∃ r ∈ s.msgs, r.id = uuidNil ∧ r.afterMessageId = none
  chained : Chained s
  payloads : ∀ id, id ∈ s.payloads.map MqPayload.id ↔ id ∈ s.ids ∧ id ≠ uuidNil
  /-- Every stored channel name was announced when its message was inserted. -/
  names : ∀ r ∈ s.msgs, NotifyAccepts ("mq_" ++ r.channelName)

namespace Integrity

variable {s s' : Store}

theorem nil_mem_ids (h : Integrity s) : uuidNil ∈ s.ids := by
  obtain ⟨r, hr, hId, -⟩ := h.nilRow
  exact hId ▸ Store.mem_ids_of_mem hr

/-- The nil row precedes messages but follows none. -/
theorem nilRow_unordered (h : Integrity s) {r : MqMsg} (hr : r ∈ s.msgs) (hId : r.id = uuidNil) :
    r.afterMessageId = none := by
  obtain ⟨r₀, hr₀, hId₀, hAfter⟩ := h.nilRow
  rwa [List.inj_on_of_nodup_map s.msgsPkey hr₀ hr (hId₀.trans hId.symm)] at hAfter

/-- A link leads to the nil row or to a stored message of the same channel. -/
theorem pred_stored (h : Integrity s) : ∀ r ∈ s.msgs, ∀ a ∈ r.afterMessageId,
    a = uuidNil ∨ ∃ r₀ ∈ s.msgs, r₀.id = a ∧ r₀.channel = r.channel := by
  intro r hr a hAfter
  rcases h.chained.pred_mem_fifo hr hAfter with hNil | hIn
  · exact Or.inl hNil
  · obtain ⟨r₀, hr₀, hChannel, hId, -⟩ := h.chained.mem_fifo_iff.mp hIn
    exact Or.inr ⟨r₀, hr₀, hId, hChannel⟩

theorem initial (migratedAt : Timestamp) : Integrity (Store.initial migratedAt) where
  nilRow := ⟨_, List.mem_singleton_self _, rfl, rfl⟩
  chained := by
    refine chained_of_represents (fun _ => []) fun ch => ?_
    have hNone : linksIn ch (Store.initial migratedAt).msgs = [] := by
      simp [linksIn, Store.initial, MqMsg.link]
    rw [hNone]
    exact .empty uuidNil
  payloads := by simp [Store.initial, Store.ids]
  names := by
    intro r hr
    obtain rfl := List.mem_singleton.mp hr
    simp only [NotifyAccepts]
    decide

/-- Rewriting rows in place, with their payloads kept by identifier. -/
theorem rewrite (h : Integrity s) {f : MqMsg → MqMsg} (hMsgs : s'.msgs = s.msgs.map f)
    (hSame : ∀ r, MqMsg.SameIdentity r (f r))
    (hPayloads : s'.payloads.map MqPayload.id = s.payloads.map MqPayload.id) : Integrity s' where
  nilRow := by
    obtain ⟨r, hr, hId, hAfter⟩ := h.nilRow
    exact ⟨f r, hMsgs ▸ List.mem_map_of_mem hr, (hSame r).id.trans hId,
      (hSame r).afterMessageId.trans hAfter⟩
  chained := by
    apply chained_of_represents s.fifo
    intro ch
    rw [hMsgs, linksIn_map hSame]
    exact h.chained ch
  payloads := by
    have hIds : s'.ids = s.ids := by
      simp [Store.ids, hMsgs, Function.comp_def, (hSame _).id]
    rw [hPayloads, hIds]
    exact h.payloads
  names := by
    rw [hMsgs]
    intro r' hr'
    obtain ⟨r, hr, rfl⟩ := List.mem_map.mp hr'
    rw [(hSame r).channelName]
    exact h.names r hr

section Insert

variable [JsonbCast] {now : Timestamp} {newMessages : List MqNew} {snapshot : Store} {new : NewRows}
  {notifications : List String}

/-- Inserting rows that were prepared from an earlier snapshot. -/
theorem insertRows (h : Integrity s)
    (hNotify : pgNotify (groups MqNew.channelName newMessages) = .ok notifications)
    (hNew : newRows now newMessages snapshot = .ok new)
    (hInsert : Sqlxmq.insertRows s new = .ok s')
    (hChain : ∀ ch, Represents (linksIn ch s'.msgs) uuidNil
      (s.fifo ch ++ orderedIds newMessages ch)) : Integrity s' where
  nilRow := by
    obtain ⟨r, hr, hNil⟩ := h.nilRow
    rw [(insertRows_eq_ok hInsert).1]
    exact ⟨r, List.mem_append_left _ hr, hNil⟩
  chained := chained_of_represents _ hChain
  payloads := by
    obtain ⟨hMsgs, hPayloads⟩ := insertRows_eq_ok hInsert
    intro id
    have hNotNil : id ∈ newMessages.map MqNew.id → id ≠ uuidNil := by
      intro hId hEq
      obtain ⟨m, hm, rfl⟩ := List.mem_map.mp hId
      exact (insertRows_fresh hNew hInsert).2 m hm (hEq ▸ h.nil_mem_ids)
    have hOld := h.payloads id
    rw [Store.ids, hMsgs, hPayloads, List.map_append, List.map_append, List.mem_append,
      List.mem_append, newRows_payload_ids hNew, (newRows_msg_ids hNew).mem_iff, hOld, Store.ids]
    tauto
  names := by
    rw [(insertRows_eq_ok hInsert).1]
    intro r hr
    rcases List.mem_append.mp hr with hOld | hNewRow
    · exact h.names r hOld
    · obtain ⟨m, hm, previous, hRow⟩ := newRows_mem hNew hNewRow
      rw [(newMsg_eq_ok hRow).2]
      exact (pgNotify_eq_ok_iff.mp hNotify).1 _ (mem_groups.mpr ⟨m, hm, rfl⟩)

/-- Distinct unused identifiers satisfy both primary keys. -/
theorem ids_nodup_of_fresh (h : Integrity s) (hNew : newRows now newMessages snapshot = .ok new)
    (hNodup : (newMessages.map MqNew.id).Nodup) (hFresh : ∀ m ∈ newMessages, m.id ∉ s.ids) :
    ((s.payloads ++ new.payloads).map MqPayload.id).Nodup ∧
      ((s.msgs ++ new.msgs).map MqMsg.id).Nodup := by
  constructor
  · rw [List.map_append, List.nodup_append, newRows_payload_ids hNew]
    refine ⟨s.payloadsPkey, hNodup, ?_⟩
    rintro a ha _ hb rfl
    obtain ⟨m, hm, rfl⟩ := List.mem_map.mp hb
    exact hFresh m hm ((h.payloads m.id).mp ha).1
  · rw [List.map_append, List.nodup_append]
    refine ⟨s.msgsPkey, (newRows_msg_ids hNew).nodup_iff.mpr hNodup, ?_⟩
    rintro a ha _ hb rfl
    obtain ⟨m, hm, rfl⟩ := List.mem_map.mp ((newRows_msg_ids hNew).mem_iff.mp hb)
    exact hFresh m hm ha

/-- Alone, a batch of distinct unused identifiers is always accepted. -/
theorem insertRows_total (h : Integrity s) (hNew : newRows now newMessages s = .ok new)
    (hNodup : (newMessages.map MqNew.id).Nodup) (hFresh : ∀ m ∈ newMessages, m.id ∉ s.ids) :
    ∃ s', Sqlxmq.insertRows s new = .ok s' := by
  have hChain : ∀ ch, Represents (linksIn ch (s.msgs ++ new.msgs)) uuidNil
      (s.fifo ch ++ orderedIds newMessages ch) := fun ch =>
    h.chained.append_newRows h.nil_mem_ids hNew hNodup hFresh fun _ => h.chained.mqLatestMessage_eq ch
  obtain ⟨hPayloads, hMsgs⟩ := h.ids_nodup_of_fresh hNew hNodup hFresh
  have hIdx : UniqueOn MqMsg.orderKey (s.msgs ++ new.msgs) :=
    uniqueOn_orderKey_iff.mpr fun ch => (hChain ch).snd_nodup
  apply Sqlxmq.insertRows_total hPayloads hMsgs hIdx
  intro r hr a hAfter
  have hLink : (r.id, a) ∈ linksIn r.channel (s.msgs ++ new.msgs) :=
    mem_linksIn.mpr ⟨r, List.mem_append_right _ hr, rfl, rfl, hAfter⟩
  rcases (hChain r.channel).pred_mem hLink with rfl | hIn
  · rw [List.map_append]
    exact List.mem_append_left _ h.nil_mem_ids
  · obtain ⟨p, hPred⟩ := ((hChain r.channel).mem_iff a).mp hIn
    obtain ⟨r₀, hr₀, -, rfl, -⟩ := mem_linksIn.mp hPred
    exact List.mem_map_of_mem hr₀

end Insert

section Delete

variable {p : MqMsg → Bool} {gone : List Uuid} {t : Store}

theorem nil_not_selected (hNil : ∀ r : MqMsg, r.id = uuidNil → p r = false) :
    uuidNil ∉ s.selectedIds p := by
  intro hIn
  obtain ⟨r, hr, hId⟩ := List.mem_map.mp hIn
  have := (List.mem_filter.mp hr).2
  rw [hNil r hId] at this
  cases this

/-- Deleting messages with the payloads of the same identifiers. -/
theorem deleteMsgs (h : Integrity s) (hNil : ∀ r : MqMsg, r.id = uuidNil → p r = false)
    (hDelete : s.deleteMsgs p = .ok t) (hGone : ∀ r ∈ s.msgs, r.id ∈ gone ↔ p r = true) :
    Integrity (t.deletePayloads gone) where
  nilRow := by
    obtain ⟨r, hr, hId, hAfter⟩ := h.nilRow
    refine ⟨setDefault (s.selectedIds p) r, ?_, by simpa using hId, by simp [hAfter]⟩
    rw [Store.deletePayloads_msgs, (Store.deleteMsgs_eq_ok hDelete).1]
    exact List.mem_map_of_mem (List.mem_filter.mpr ⟨hr, by simp [hNil r hId]⟩)
  chained := by
    refine chained_of_represents (fun ch => (s.fifo ch).filter (· ∉ s.selectedIds p)) ?_
    intro ch
    rw [Store.deletePayloads_msgs]
    exact h.chained.deleteMsgs (nil_not_selected hNil) hDelete ch
  payloads := by
    intro id
    have hSelected : id ∈ s.ids → (id ∈ gone ↔ id ∈ s.selectedIds p) := by
      intro hId
      obtain ⟨r, hr, rfl⟩ := List.mem_map.mp hId
      rw [hGone r hr, Store.mem_selectedIds hr]
    rw [Store.mem_deletePayloads_ids, (Store.deleteMsgs_eq_ok hDelete).2, h.payloads,
      Store.deletePayloads_ids, Store.mem_ids_deleteMsgs hDelete]
    tauto
  names := by
    rw [Store.deletePayloads_msgs, (Store.deleteMsgs_eq_ok hDelete).1]
    intro r' hr'
    obtain ⟨r, hr, rfl⟩ := List.mem_map.mp hr'
    rw [setDefault_eq]
    exact h.names r (List.mem_filter.mp hr).1

end Delete

end Integrity

/-- The nil row may not be deleted. Every other call is harmless. -/
def Op.sparesNil : Op → Prop
  | .delete msgIds => uuidNil ∉ msgIds
  | _ => True

theorem clears_sparesNil {op : Op} {p : MqMsg → Bool} (h : op.clears = some p) (r : MqMsg)
    (hId : r.id = uuidNil) : p r = false := by
  cases op <;> simp only [Op.clears, Option.some.injEq, reduceCtorEq] at h <;> simp [← h, hId]

/-- Each call restores all clauses at once. -/
theorem Integrity.of_exec [JsonbCast] {op : Op} {s s' : Store} {reply : Reply} (h : Integrity s)
    (hNil : op.sparesNil) (hExec : exec op s = .ok (s', reply)) : Integrity s' := by
  cases exec_effect hExec with
  | insert notified prepared inserted =>
      exact h.insertRows notified prepared inserted
        (h.chained.insert h.nil_mem_ids prepared inserted)
  | @delete msgIds _ t notified deleted payloads =>
      rw [payloads]
      refine h.deleteMsgs (fun r hId => ?_) deleted fun r _ => by simp
      rw [hId]
      exact decide_eq_false hNil
  | clear selects deleted payloads silent =>
      rw [payloads]
      exact h.deleteMsgs (clears_sparesNil selects) deleted fun r hr => Store.mem_selectedIds hr
  | rewrite inPlace msgs same payloads silent => exact h.rewrite msgs same payloads

/-- In every run that spares the nil row the clauses hold throughout, and
polls never return the nil UUID. -/
theorem Session.run_integrity [JsonbCast] {allowed : Session → Op → Prop}
    {migratedAt : Timestamp} {ops : List Op} {x : Session}
    (run : Run (Step allowed) (start migratedAt) ops x)
    (hAllowed : ∀ x op, uuidNil ∉ x.delivered → allowed x op → op.sparesNil) :
    Integrity x.store ∧ uuidNil ∉ x.delivered := by
  refine run_invariant (P := fun x => Integrity x.store ∧ uuidNil ∉ x.delivered) run
    ⟨.initial migratedAt, by simp [start, delivered]⟩ ?_
  rintro x op s' reply ⟨hIntegrity, hDelivered⟩ hOp hExec
  refine ⟨hIntegrity.of_exec (hAllowed x op hDelivered hOp) hExec, fun hNil => ?_⟩
  rcases mem_delivered_append.mp hNil with hOld | ⟨m, hm, hId⟩
  · exact hDelivered hOld
  · obtain ⟨choice, now, channelNames, batchSize, -, hPoll⟩ := exec_polled hExec hm
    obtain ⟨r, -, hNilId, hReady, -⟩ := mqPoll_polled hPoll hm hId
    exact hReady.notNil hNilId

end Sqlxmq
