import Sqlxmq.Concurrency.Serial
import Sqlxmq.Lifecycle.Contents

/-! Channels are isolated. Those who name their channels and work with the
messages in them hear what they would hear if nobody else used the database.
A poll of all channels and `mq_clear_all` are not made by such callers. -/
namespace Sqlxmq

open KeyedTable SqlNull LabelledRun PredecessorLinks

/-- Whatever is stored under these identifiers is in channels of a kind. -/
def Store.Owns (s : Store) (kind : String → Prop) (ids : List Uuid) : Prop :=
  uuidNil ∉ ids ∧ ∀ r ∈ s.msgs, r.id ∈ ids → kind r.channelName

/-- A call that names only channels of a kind and messages in them. -/
def Op.Within (kind : String → Prop) (s : Store) : Op → Prop
  | .insert _ newMessages =>
      (∀ m ∈ newMessages, kind m.channelName) ∧ s.Owns kind (newMessages.map MqNew.id)
  | .poll _ _ channelNames _ => ∃ names, channelNames = some names ∧ ∀ name ∈ names, kind name
  | .commit msgIds => s.Owns kind msgIds
  | .delete msgIds => s.Owns kind msgIds
  | .keepAlive _ msgIds _ => s.Owns kind msgIds
  | .checkpoint _ msgId _ _ _ _ => s.Owns kind [msgId]
  | .clear channelNames => ∀ name ∈ channelNames, kind name
  | .clearAll => False

variable {mine : String → Bool}

/-- The messages in one's own channels, and the nil row. -/
def visible (mine : String → Bool) (r : MqMsg) : Bool :=
  mine r.channelName = true ∨ r.id = uuidNil

/-- The store as it would be if nobody else used it. -/
structure Restricts (mine : String → Bool) (s t : Store) : Prop where
  msgs : t.msgs = s.msgs.filter (visible mine)
  contents : ∀ id, t.contents id = (s.contents id).filter fun content => mine content.channel.name

section Rows

theorem visible_congr {r r' : MqMsg} (h : Continues r r') : visible mine r' = visible mine r := by
  have hName : r'.channelName = r.channelName := congrArg Channel.name h.channel
  rw [visible, visible, hName, h.id]

theorem MqMsg.SameIdentity.continues {r r' : MqMsg} (h : r.SameIdentity r') : Continues r r' :=
  ⟨h.id, h.channel, Or.inl h.afterMessageId⟩

theorem filter_visible_map {f : MqMsg → MqMsg} (hf : ∀ r, Continues r (f r)) (rows : List MqMsg) :
    (rows.map f).filter (visible mine) = (rows.filter (visible mine)).map f := by
  rw [List.filter_map]
  congr 2
  funext r
  exact visible_congr (hf r)

/-- An update of rows that are not visible. -/
theorem filter_visible_map_other {f : MqMsg → MqMsg} (hf : ∀ r, Continues r (f r)) {rows : List MqMsg}
    (hOther : ∀ r ∈ rows, visible mine r = true → f r = r) :
    (rows.map f).filter (visible mine) = rows.filter (visible mine) := by
  rw [filter_visible_map hf]
  refine (List.map_congr_left fun r hr => ?_).trans (List.map_id _)
  exact hOther r (List.mem_filter.mp hr).1 (List.mem_filter.mp hr).2

/-- A query for visible rows does not see the others. -/
theorem filter_visible {rows : List MqMsg} {p : MqMsg → Bool}
    (hp : ∀ r ∈ rows, p r = true → visible mine r = true) :
    (rows.filter (visible mine)).filter p = rows.filter p := by
  rw [List.filter_filter]
  refine List.filter_congr fun r hr => ?_
  cases hSelected : p r with
  | false => rfl
  | true => simp [hp r hr hSelected]

theorem Store.Owns.mine_of_mem {s : Store} {ids : List Uuid}
    (h : s.Owns (fun name => mine name = true) ids) {r : MqMsg} (hr : r ∈ s.msgs)
    (hId : r.id ∈ ids) : visible mine r = true := by
  simp [visible, h.2 r hr hId]

theorem Store.Owns.not_mem {s : Store} {ids : List Uuid} (h : s.Owns (fun name => mine name = false) ids)
    {r : MqMsg} (hr : r ∈ s.msgs) (hVisible : visible mine r = true) : r.id ∉ ids := by
  intro hId
  rw [visible, decide_eq_true_eq, h.2 r hr hId] at hVisible
  exact h.1 (hVisible.resolve_left Bool.false_ne_true ▸ hId)

/-- The payload of a message can be read off its contents. -/
theorem payload_eq_of_contents {s t : Store} {id : Uuid} {r : MqMsg} (ht : t.row id = some r)
    (hs : s.row id = some r) (hContents : t.contents id = s.contents id) :
    t.payload id = s.payload id := by
  rw [Store.contents_eq, Store.contents_eq, ht, hs, Option.bind_some, Option.bind_some] at hContents
  have hKey {u : Store} {q : MqPayload} (hq : u.payload id = some q) : q.id = id := key_of_lookup hq
  cases hT : t.payload id with
  | none =>
      cases hS : s.payload id with
      | none => rfl
      | some q => simp [hT, hS] at hContents
  | some q =>
      cases hS : s.payload id with
      | none => simp [hT, hS] at hContents
      | some q' =>
          have hId := (hKey hT).trans (hKey hS).symm
          obtain ⟨qId, name, json, bytes⟩ := q
          obtain ⟨qId', name', json', bytes'⟩ := q'
          obtain rfl : qId = qId' := hId
          simpa [hT, hS, contentOf] using hContents

end Rows

namespace Restricts

variable {s t : Store} (h : Restricts mine s t)
include h

theorem mem_iff {r : MqMsg} : r ∈ t.msgs ↔ r ∈ s.msgs ∧ visible mine r = true := by
  rw [h.msgs, List.mem_filter]

theorem owns {kind : String → Prop} {ids : List Uuid} (hOwns : s.Owns kind ids) : t.Owns kind ids :=
  ⟨hOwns.1, fun r hr => hOwns.2 r (h.mem_iff.mp hr).1⟩

theorem within {kind : String → Prop} {op : Op} (hWithin : op.Within kind s) : op.Within kind t := by
  cases op with
  | insert now newMessages => exact ⟨hWithin.1, h.owns hWithin.2⟩
  | commit msgIds => exact h.owns hWithin
  | delete msgIds => exact h.owns hWithin
  | keepAlive now msgIds duration => exact h.owns hWithin
  | checkpoint now msgId duration newPayloadJson newPayloadBytes extraRetries => exact h.owns hWithin
  | poll choice now channelNames batchSize => exact hWithin
  | clear channelNames => exact hWithin
  | clearAll => exact hWithin

theorem filter {p : MqMsg → Bool} (hp : ∀ r ∈ s.msgs, p r = true → visible mine r = true) :
    t.msgs.filter p = s.msgs.filter p := by
  rw [h.msgs, filter_visible hp]

/-- The links of one's own channels are all there. -/
theorem fifo {ch : Channel} (hMine : mine ch.name = true) : t.fifo ch = s.fifo ch := by
  have hLinks : linksIn ch t.msgs = linksIn ch s.msgs := by
    rw [h.msgs, linksIn, linksIn, List.filterMap_filter]
    apply List.filterMap_congr
    intro r _
    split
    · rfl
    · rename_i hHidden
      symm
      rw [Option.eq_none_iff_forall_ne_some]
      rintro e hLink
      obtain ⟨rfl, -, -⟩ := MqMsg.link_eq_some_iff.mp hLink
      exact hHidden (decide_eq_true (Or.inl hMine))
  rw [Store.fifo, Store.fifo, hLinks]

/-- One's own messages have the same payloads. -/
theorem payload {r : MqMsg} (hr : r ∈ t.msgs) (hMine : mine r.channelName = true) :
    t.payload r.id = s.payload r.id := by
  have hStored := Store.row_of_mem (h.mem_iff.mp hr).1
  apply payload_eq_of_contents (Store.row_of_mem hr) hStored
  rw [h.contents, Store.contents_eq, hStored]
  cases s.payload r.id with
  | none => rfl
  | some q => simp [contentOf, MqMsg.channel, Option.filter, hMine]

end Restricts

section Statements

variable {s t : Store} (h : Restricts mine s t)
include h

/-- An UPDATE of one's own rows has the same outcome. -/
theorem Restricts.updateMsgs {p : MqMsg → Bool} {f : MqMsg → Except DbError MqMsg}
    (hf : ∀ r r', f r = .ok r' → MqMsg.SameIdentity r r')
    (hp : ∀ r ∈ s.msgs, p r = true → visible mine r = true) :
    (t.updateMsgs p f hf).map Store.msgs =
      (s.updateMsgs p f hf).map fun s' => s'.msgs.filter (visible mine) := by
  have hUpdate : update p f t.msgs = (update p f s.msgs).map (List.filter (visible mine)) := by
    rw [h.msgs]
    exact update_filter hp fun r r' hr => visible_congr (hf r r' hr).continues
  unfold Store.updateMsgs
  rw [hUpdate]
  cases update p f s.msgs with
  | error e => rfl
  | ok rows =>
      show Except.ok (t.msgs.map (updated p f)) = Except.ok ((s.msgs.map (updated p f)).filter _)
      rw [h.msgs, filter_visible_map fun r => (updated_sameIdentity hf p r).continues]

/-- A DELETE of one's own rows has the same outcome. -/
theorem Restricts.deleteMsgs (hs : Integrity s) (ht : Integrity t) {p : MqMsg → Bool}
    (hp : ∀ r ∈ s.msgs, p r = true → visible mine r = true)
    (hNil : ∀ r : MqMsg, r.id = uuidNil → p r = false) :
    (t.deleteMsgs p).map Store.msgs =
      (s.deleteMsgs p).map fun s' => s'.msgs.filter (visible mine) := by
  have hSelected : t.selectedIds p = s.selectedIds p := by
    rw [Store.selectedIds, Store.selectedIds, h.filter hp]
  have hRemaining : t.remaining p = (s.remaining p).filter (visible mine) := by
    rw [Store.remaining, Store.remaining, filter_visible_map (setDefault_continues _), hSelected,
      h.msgs, List.filter_filter, List.filter_filter]
    congr 2
    funext r
    exact Bool.and_comm _ _
  have hUnique : UniqueOn MqMsg.orderKey (t.remaining p) ↔ UniqueOn MqMsg.orderKey (s.remaining p) := by
    rw [ht.chained.uniqueOn_remaining_iff (Integrity.nil_not_selected hNil),
      hs.chained.uniqueOn_remaining_iff (Integrity.nil_not_selected hNil)]
    refine forall_congr' fun ch => ?_
    cases hMine : mine ch.name with
    | true => rw [h.fifo hMine, hSelected]
    | false =>
        -- nothing is selected in somebody else's channel
        have hOther {u : Store} (hChained : Chained u) (hSub : ∀ r ∈ u.msgs, r ∈ s.msgs) :
            Contiguous (· ∈ u.selectedIds p) (u.fifo ch) := by
          intro a b c hTriple _ _
          rw [decide_eq_false_iff_not]
          intro hIn
          obtain ⟨r, hr, hChannel, rfl, -⟩ := hChained.mem_fifo_iff.mp (hTriple.subset (by simp) : b ∈ _)
          rw [Store.mem_selectedIds hr] at hIn
          have hVisible := hp r (hSub r hr) hIn
          rw [visible, decide_eq_true_eq] at hVisible
          rcases hVisible with hName | hId
          · have hEq : r.channelName = ch.name := congrArg Channel.name hChannel
            rw [hEq, hMine] at hName
            cases hName
          · rw [hNil r hId] at hIn
            cases hIn
        exact iff_of_true (hOther ht.chained fun r hr => (h.mem_iff.mp hr).1)
          (hOther hs.chained fun r hr => hr)
  have hKept {u : Store} (hu : Integrity u) : ∃ r ∈ u.msgs, r.id = uuidNil ∧ p r = false := by
    obtain ⟨r, hr, hId, -⟩ := hu.nilRow
    exact ⟨r, hr, hId, hNil r hId⟩
  rcases Store.deleteMsgs_cases (hKept hs) with ⟨hIdx, s', hs'⟩ | ⟨hIdx, hError⟩
  · rcases Store.deleteMsgs_cases (hKept ht) with ⟨-, t', ht'⟩ | ⟨hNot, -⟩
    · rw [hs', ht', Except.map, Except.map, (Store.deleteMsgs_eq_ok hs').1,
        (Store.deleteMsgs_eq_ok ht').1, hRemaining]
    · exact absurd (hUnique.mpr hIdx) hNot
  · rcases Store.deleteMsgs_cases (hKept ht) with ⟨hIdx', -⟩ | ⟨-, hError'⟩
    · exact absurd (hUnique.mp hIdx') hIdx
    · rw [hError, hError', Except.map, Except.map]

end Statements

section Poll

variable {s t : Store} (h : Restricts mine s t) {choice : PollChoice} {now : Timestamp}
  {names : List String} {batchSize : Int4} (hNames : ∀ name ∈ names, mine name = true)
include h hNames

omit h in
theorem visible_of_selected {r : MqMsg} (hSelected : channelSelected (some names) r.channelName = true) :
    visible mine r = true :=
  decide_eq_true (Or.inl (hNames _ (of_decide_eq_true hSelected)))

theorem Restricts.mqActiveChannels :
    mqActiveChannels choice now (some names) batchSize t =
      mqActiveChannels choice now (some names) batchSize s := by
  unfold Sqlxmq.mqActiveChannels
  rw [h.filter]
  intro r _ hReady
  exact visible_of_selected hNames (of_decide_eq_true hReady).2.2.1

theorem Restricts.messagesToUpdate :
    messagesToUpdate choice now (some names) batchSize t =
      messagesToUpdate choice now (some names) batchSize s := by
  unfold Sqlxmq.messagesToUpdate
  rw [h.mqActiveChannels hNames]
  cases hActive : Sqlxmq.mqActiveChannels choice now (some names) batchSize s with
  | error e => rfl
  | ok active =>
      have hReady : evaluate (readyMessages choice now batchSize t) active =
          evaluate (readyMessages choice now batchSize s) active := by
        apply evaluate_congr
        intro ch hCh
        have hMine : mine ch.name = true := by
          rw [(limit_eq_ok_iff.mp hActive).2] at hCh
          have hIn := (choice.shuffle_perm _).mem_iff.mp (List.mem_of_mem_take hCh)
          obtain ⟨r, hr, rfl⟩ := mem_groups.mp hIn
          have hSelected := (of_decide_eq_true (List.mem_filter.mp hr).2).2.2.1
          exact hNames _ (of_decide_eq_true hSelected)
        unfold readyMessages
        rw [h.filter]
        intro r _ hSelected
        have hName := (of_decide_eq_true hSelected).2.2.1
        exact decide_eq_true (Or.inl (hName ▸ hMine))
      show (evaluate _ active >>= _) = (evaluate _ active >>= _)
      rw [hReady]

/-- A poll of one's own channels has the same outcome. -/
theorem Restricts.mqPoll :
    (mqPoll choice now (some names) batchSize t).map (fun result => (result.1.msgs, result.2)) =
      (mqPoll choice now (some names) batchSize s).map fun result =>
        (result.1.msgs.filter (visible mine), result.2) := by
  cases hIds : Sqlxmq.messagesToUpdate choice now (some names) batchSize s with
  | error e => simp [Sqlxmq.mqPoll, h.messagesToUpdate hNames, hIds, bind, Except.bind, Except.map]
  | ok ids =>
      have hSelects : ∀ r ∈ s.msgs, pollSelects now ids r = true →
          mine r.channelName = true ∧ visible mine r = true := by
        intro r hr hSelected
        obtain ⟨r₀, hr₀, hId, hReady⟩ := messagesToUpdate_ready hIds (of_decide_eq_true hSelected).1
        obtain rfl := List.inj_on_of_nodup_map s.msgsPkey hr₀ hr hId
        exact ⟨hNames _ (of_decide_eq_true hReady.selected), visible_of_selected hNames hReady.selected⟩
      have hFilter := h.filter fun r hr hSelected => (hSelects r hr hSelected).2
      have hReturned : (t.msgs.filter (pollSelects now ids)).map (fun r =>
            returning t (updated (pollSelects now ids) (pollRow now) r)) =
          (s.msgs.filter (pollSelects now ids)).map fun r =>
            returning s (updated (pollSelects now ids) (pollRow now) r) := by
        rw [hFilter]
        refine List.map_congr_left fun r hr => ?_
        obtain ⟨hIn, hSelected⟩ := List.mem_filter.mp hr
        obtain ⟨hMine, hVisible⟩ := hSelects r hIn hSelected
        have hSame := updated_sameIdentity (f := pollRow now) pollRow_sameIdentity (pollSelects now ids) r
        rw [returning, returning, hSame.id, h.payload (h.mem_iff.mpr ⟨hIn, hVisible⟩) hMine]
      have hUpdate := h.updateMsgs (f := pollRow now) pollRow_sameIdentity fun r hr hSelected =>
        (hSelects r hr hSelected).2
      cases hs : s.updateMsgs (pollSelects now ids) (pollRow now) pollRow_sameIdentity with
      | error e =>
          cases ht : t.updateMsgs (pollSelects now ids) (pollRow now) pollRow_sameIdentity with
          | ok t' => simp [hs, ht, Except.map] at hUpdate
          | error e' =>
              have hEq : e' = e := by simpa [hs, ht, Except.map] using hUpdate
              simp [Sqlxmq.mqPoll, h.messagesToUpdate hNames, hIds, pollUpdate, hs, ht, hEq, bind,
                Except.bind, Except.map]
      | ok s' =>
          cases ht : t.updateMsgs (pollSelects now ids) (pollRow now) pollRow_sameIdentity with
          | error e' => simp [hs, ht, Except.map] at hUpdate
          | ok t' =>
              have hMsgs : t'.msgs = s'.msgs.filter (visible mine) := by
                simpa [hs, ht, Except.map] using hUpdate
              have hWait : waitRow now (some names) t' = waitRow now (some names) s' := by
                unfold waitRow waitTime
                rw [hMsgs, filter_visible]
                intro r _ hWaits
                exact visible_of_selected hNames (of_decide_eq_true hWaits).2.2
              simp only [Sqlxmq.mqPoll, h.messagesToUpdate hNames, hIds, pollUpdate, hs, ht, bind,
                Except.bind, Except.map, hReturned, hMsgs, hWait]

end Poll

section Insert

variable [JsonbCast] {s t : Store} {now : Timestamp} {newMessages : List MqNew}

/-- Identifiers that are used twice are refused with the payloads, which are
inserted first. -/
theorem Integrity.insertRows_refused (h : Integrity s) {snapshot : Store} {new : NewRows}
    (hNew : newRows now newMessages snapshot = .ok new) (hNil : uuidNil ∉ newMessages.map MqNew.id)
    (hClash : ¬ ((newMessages.map MqNew.id).Nodup ∧ ∀ m ∈ newMessages, m.id ∉ s.ids)) :
    Sqlxmq.insertRows s new = .error (.uniqueViolation mqPayloadsPkey) := by
  unfold Sqlxmq.insertRows
  split
  · rename_i e hPayloads
    obtain ⟨before, q, after, -, hCheck⟩ := insertAll_eq_error hPayloads
    unfold checkPayload at hCheck
    split at hCheck
    · rw [Option.some.inj hCheck]
    · cases hCheck
  · rename_i payloads hPayloads
    have hUnique := ((uniqueOn_some MqPayload.id s.payloads).mpr s.payloadsPkey).insertAll
      (fun _ _ hFree => checkPayload_eq_none hFree) hPayloads
    rw [insertAll_eq_append hPayloads, uniqueOn_some, List.map_append, List.nodup_append,
      newRows_payload_ids hNew] at hUnique
    obtain ⟨-, hNodup, hDisjoint⟩ := hUnique
    refine absurd ⟨hNodup, fun m hm hIn => ?_⟩ hClash
    have hNotNil : m.id ≠ uuidNil := fun hEq => hNil (hEq ▸ List.mem_map_of_mem hm)
    exact hDisjoint _ ((h.payloads m.id).mpr ⟨hIn, hNotNil⟩) _ (List.mem_map_of_mem hm) rfl

/-- A batch for one's own channels has the same outcome. -/
theorem Restricts.mqInsert (h : Restricts mine s t) (hs : Integrity s) (ht : Integrity t)
    (hWithin : (Op.insert now newMessages).Within (fun name => mine name = true) s) :
    (mqInsert now newMessages t).map (fun result => (result.1.msgs, result.2)) =
      (mqInsert now newMessages s).map fun result =>
        (result.1.msgs.filter (visible mine), result.2) := by
  obtain ⟨hChannels, hOwns⟩ := hWithin
  have hTails : SameTails newMessages t s := by
    intro ch hOrdered
    obtain ⟨a, ha⟩ := List.exists_mem_of_ne_nil _ hOrdered
    obtain ⟨m, hm, rfl, -, -⟩ := mem_orderedIds.mp ha
    rw [ht.chained.mqLatestMessage_eq, hs.chained.mqLatestMessage_eq, h.fifo (hChannels m hm)]
  have hIds : (∀ m ∈ newMessages, m.id ∉ t.ids) ↔ ∀ m ∈ newMessages, m.id ∉ s.ids := by
    refine forall₂_congr fun m hm => not_congr ?_
    rw [Store.ids, h.msgs]
    constructor
    · exact fun hIn => (List.filter_sublist.map _).subset hIn
    · intro hIn
      obtain ⟨r, hr, hId⟩ := List.mem_map.mp hIn
      have hVisible := hOwns.mine_of_mem hr (hId ▸ List.mem_map_of_mem hm)
      exact hId ▸ List.mem_map_of_mem (List.mem_filter.mpr ⟨hr, hVisible⟩)
  unfold Sqlxmq.mqInsert
  rw [newRows_congr now hTails]
  cases pgNotify (groups MqNew.channelName newMessages) with
  | error e => rfl
  | ok notifications =>
      cases hNew : newRows now newMessages s with
      | error e => rfl
      | ok new =>
          have hNewT : newRows now newMessages t = .ok new := (newRows_congr now hTails).trans hNew
          by_cases hFree : (newMessages.map MqNew.id).Nodup ∧ ∀ m ∈ newMessages, m.id ∉ s.ids
          · obtain ⟨s', hs'⟩ := hs.insertRows_total hNew hFree.1 hFree.2
            obtain ⟨t', ht'⟩ := ht.insertRows_total hNewT hFree.1 (hIds.mpr hFree.2)
            have hVisible : new.msgs.filter (visible mine) = new.msgs := by
              rw [List.filter_eq_self]
              intro r hr
              obtain ⟨m, hm, previous, hRow⟩ := newRows_mem hNew hr
              rw [(newMsg_eq_ok hRow).2]
              exact decide_eq_true (Or.inl (hChannels m hm))
            simp [hs', ht', bind, Except.bind, Except.map, (insertRows_eq_ok hs').1,
              (insertRows_eq_ok ht').1, h.msgs, hVisible]
          · have hFreeT : ¬ ((newMessages.map MqNew.id).Nodup ∧ ∀ m ∈ newMessages, m.id ∉ t.ids) := by
              rwa [hIds]
            simp [hs.insertRows_refused hNew hOwns.1 hFree, ht.insertRows_refused hNewT hOwns.1 hFreeT,
              bind, Except.bind, Except.map]

end Insert

section Checkpoint

variable [JsonbCast] {s t : Store} {msgId : Uuid} {newPayloadJson : Option String}
  {newPayloadBytes : Option (List UInt8)}

variable (msgId newPayloadJson newPayloadBytes) in
/-- The text of a checkpoint is cast when there is a payload to update. -/
theorem Store.updatePayloads_checkpoint (view : List MqMsg → List MqMsg) (s : Store) :
    (s.updatePayloads (·.id = msgId) (checkpointPayload newPayloadJson newPayloadBytes)
      checkpointPayload_id).map (fun s' => view s'.msgs) =
        if msgId ∈ s.payloads.map MqPayload.id then (jsonb newPayloadJson).map fun _ => view s.msgs
        else .ok (view s.msgs) := by
  have hValue (q : MqPayload) : checkpointPayload newPayloadJson newPayloadBytes q =
      (jsonb newPayloadJson).map fun json => { q with
        payloadJson := json.or q.payloadJson
        payloadBytes := newPayloadBytes.or q.payloadBytes } := by
    unfold checkpointPayload
    cases jsonb newPayloadJson <;> rfl
  unfold Store.updatePayloads
  cases hUpdate : update (fun q => decide (q.id = msgId))
      (checkpointPayload newPayloadJson newPayloadBytes) s.payloads with
  | error e =>
      obtain ⟨q, hq, hId, hError⟩ := update_eq_error hUpdate
      have hIn : msgId ∈ s.payloads.map MqPayload.id :=
        of_decide_eq_true hId ▸ List.mem_map_of_mem hq
      rw [hValue] at hError
      rw [if_pos hIn]
      cases hJson : jsonb newPayloadJson with
      | error e' => simpa [hJson, Except.map] using hError.symm
      | ok json => simp [hJson, Except.map] at hError
  | ok rows =>
      show Except.ok (view s.msgs) = _
      split
      · rename_i hIn
        obtain ⟨q, hq, hId⟩ := List.mem_map.mp hIn
        have hOk := (update_eq_ok hUpdate).2 q hq (decide_eq_true hId)
        rw [hValue] at hOk
        cases hJson : jsonb newPayloadJson with
        | error e => simp [hJson, Except.map] at hOk
        | ok json => rfl
      · rfl

/-- A checkpoint of one's own message has the same outcome. -/
theorem Restricts.mqCheckpoint (h : Restricts mine s t) (hs : Integrity s) (ht : Integrity t)
    {now : Timestamp} {duration : Interval} {extraRetries : Option Int4}
    (hOwns : s.Owns (fun name => mine name = true) [msgId]) :
    (mqCheckpoint now msgId duration newPayloadJson newPayloadBytes extraRetries t).map Store.msgs =
      (mqCheckpoint now msgId duration newPayloadJson newPayloadBytes extraRetries s).map fun s' =>
        s'.msgs.filter (visible mine) := by
  have hIn : msgId ∈ t.payloads.map MqPayload.id ↔ msgId ∈ s.payloads.map MqPayload.id := by
    rw [ht.payloads, hs.payloads, Store.ids, h.msgs]
    refine and_congr_left fun _ => ⟨fun hIn => (List.filter_sublist.map _).subset hIn, fun hIn => ?_⟩
    obtain ⟨r, hr, rfl⟩ := List.mem_map.mp hIn
    exact List.mem_map_of_mem (List.mem_filter.mpr ⟨hr, hOwns.mine_of_mem hr (by simp)⟩)
  have hUpdate := h.updateMsgs (p := (·.id = msgId)) (f := checkpointRow now duration extraRetries)
    checkpointRow_sameIdentity fun r hr hId => hOwns.mine_of_mem hr (by simpa using hId)
  unfold Sqlxmq.mqCheckpoint
  cases hs' : s.updateMsgs (·.id = msgId) (checkpointRow now duration extraRetries)
      checkpointRow_sameIdentity with
  | error e =>
      cases ht' : t.updateMsgs (·.id = msgId) (checkpointRow now duration extraRetries)
          checkpointRow_sameIdentity with
      | ok t' => simp [hs', ht', Except.map] at hUpdate
      | error e' =>
          have hEq : e' = e := by simpa [hs', ht', Except.map] using hUpdate
          rw [hEq]
          rfl
  | ok s' =>
      cases ht' : t.updateMsgs (·.id = msgId) (checkpointRow now duration extraRetries)
          checkpointRow_sameIdentity with
      | error e' => simp [hs', ht', Except.map] at hUpdate
      | ok t' =>
          have hMsgs : t'.msgs = s'.msgs.filter (visible mine) := by
            simpa [hs', ht', Except.map] using hUpdate
          have hInS : msgId ∈ s'.payloads.map MqPayload.id ↔ msgId ∈ s.payloads.map MqPayload.id := by
            rw [(Store.updateMsgs_eq_ok hs').2.1]
          have hInT : msgId ∈ t'.payloads.map MqPayload.id ↔ msgId ∈ t.payloads.map MqPayload.id := by
            rw [(Store.updateMsgs_eq_ok ht').2.1]
          have hS := s'.updatePayloads_checkpoint msgId newPayloadJson newPayloadBytes
            (List.filter (visible mine))
          have hT := t'.updatePayloads_checkpoint msgId newPayloadJson newPayloadBytes id
          refine hT.trans (Eq.trans ?_ hS.symm)
          simp only [hInS, hInT, hIn, hMsgs, id_eq]

end Checkpoint

section Own

/-- A call adds its reply to what its function returns. -/
theorem map_replied {β : Type} (reply : β → Reply) {x y : Except DbError (Store × β)}
    (h : x.map (fun result => (result.1.msgs, result.2)) =
      y.map fun result => (result.1.msgs.filter (visible mine), result.2)) :
    (x >>= fun result => .ok (result.1, reply result.2)).map (fun result => (result.1.msgs, result.2)) =
      (y >>= fun result => .ok (result.1, reply result.2)).map fun result =>
        (result.1.msgs.filter (visible mine), result.2) := by
  have hReply := congrArg (Except.map fun result => (result.1, reply result.2)) h
  cases x <;> cases y <;> exact hReply

theorem map_silent {x y : Except DbError Store}
    (h : x.map Store.msgs = y.map fun s' => s'.msgs.filter (visible mine)) :
    (x >>= fun s' => .ok (s', Reply.silent)).map (fun result => (result.1.msgs, result.2)) =
      (y >>= fun s' => .ok (s', Reply.silent)).map fun result =>
        (result.1.msgs.filter (visible mine), result.2) := by
  have hReply := congrArg (Except.map fun rows => (rows, Reply.silent)) h
  cases x <;> cases y <;> exact hReply

variable [JsonbCast] {s t : Store}

/-- A call within one's own channels has the same outcome, error or reply. -/
theorem Restricts.exec_own (h : Restricts mine s t) (hs : Integrity s) (ht : Integrity t) {op : Op}
    (hWithin : op.Within (fun name => mine name = true) s) :
    (exec op t).map (fun result => (result.1.msgs, result.2)) =
      (exec op s).map fun result => (result.1.msgs.filter (visible mine), result.2) := by
  have hClear {p : MqMsg → Bool} (hp : ∀ r ∈ s.msgs, p r = true → visible mine r = true)
      (hNil : ∀ r : MqMsg, r.id = uuidNil → p r = false) {β : Type} (finish : List MqMsg → β) :
      ((t.deleteMsgs p).map fun t' => finish t'.msgs) =
        (s.deleteMsgs p).map fun s' => finish (s'.msgs.filter (visible mine)) := by
    have hDelete := congrArg (Except.map finish) (h.deleteMsgs hs ht hp hNil)
    cases hS : s.deleteMsgs p <;> cases hT : t.deleteMsgs p <;> rw [hS, hT] at hDelete <;>
      exact hDelete
  cases op with
  | insert now newMessages =>
      exact map_replied (fun notifications => ⟨notifications, []⟩) (h.mqInsert hs ht hWithin)
  | poll choice now channelNames batchSize =>
      obtain ⟨names, rfl, hNames⟩ := hWithin
      exact map_replied (fun polled => ⟨[], polled⟩) (h.mqPoll hNames)
  | commit msgIds =>
      show Except.ok (t.msgs.map _, Reply.silent) = Except.ok ((s.msgs.map _).filter _, Reply.silent)
      rw [h.msgs, filter_visible_map fun r => (commitRow_sameIdentity msgIds r).continues]
  | keepAlive now msgIds duration =>
      show Except.ok (t.msgs.map _, Reply.silent) = Except.ok ((s.msgs.map _).filter _, Reply.silent)
      rw [h.msgs, filter_visible_map fun r => (keepAliveRow_sameIdentity now msgIds duration r).continues]
  | checkpoint now msgId duration newPayloadJson newPayloadBytes extraRetries =>
      exact map_silent (h.mqCheckpoint hs ht hWithin)
  | delete msgIds =>
      have hMine : ∀ r ∈ s.msgs, decide (r.id ∈ msgIds) = true → visible mine r = true :=
        fun r hr hId => hWithin.mine_of_mem hr (of_decide_eq_true hId)
      have hSpares : ∀ r : MqMsg, r.id = uuidNil → decide (r.id ∈ msgIds) = false :=
        fun r hId => decide_eq_false (hId ▸ hWithin.1)
      have hAnnounced : announced msgIds t = announced msgIds s :=
        h.filter fun r hr hHead => hMine r hr (decide_eq_true (of_decide_eq_true hHead).1)
      apply map_replied fun notifications => ⟨notifications, []⟩
      unfold mqDelete
      rw [hAnnounced]
      cases pgNotify (groups MqMsg.channelName (announced msgIds s)) with
      | error e => rfl
      | ok notifications =>
          have hDelete := hClear hMine hSpares fun rows => (rows, notifications)
          cases hS : s.deleteMsgs (·.id ∈ msgIds) <;> cases hT : t.deleteMsgs (·.id ∈ msgIds) <;>
            rw [hS, hT] at hDelete <;> exact hDelete
  | clear channelNames =>
      have hMine : ∀ r ∈ s.msgs, decide (r.channelName ∈ channelNames ∧ r.id ≠ uuidNil) = true →
          visible mine r = true := by
        intro r _ hCleared
        exact decide_eq_true (Or.inl (hWithin _ (of_decide_eq_true hCleared).1))
      have hSpares : ∀ r : MqMsg, r.id = uuidNil →
          decide (r.channelName ∈ channelNames ∧ r.id ≠ uuidNil) = false :=
        fun r hId => decide_eq_false fun hCleared => hCleared.2 hId
      have hDelete := hClear hMine hSpares fun rows => (rows, Reply.silent)
      unfold exec mqClear
      dsimp only
      cases hS : s.deleteMsgs _ <;> cases hT : t.deleteMsgs _ <;> rw [hS, hT] at hDelete <;>
        exact hDelete
  | clearAll => exact hWithin.elim

end Own

section Other

variable {s s' : Store}

/-- A DELETE of rows that are not visible. -/
theorem Integrity.filter_visible_remaining (h : Integrity s) {p : MqMsg → Bool}
    (hOther : ∀ r ∈ s.msgs, visible mine r = true → p r = false) :
    (s.remaining p).filter (visible mine) = s.msgs.filter (visible mine) := by
  rw [Store.remaining, filter_visible_map_other (setDefault_continues _), List.filter_filter]
  · refine List.filter_congr fun r hr => ?_
    cases hVisible : visible mine r with
    | false => rfl
    | true => simp [hOther r hr hVisible]
  · intro r hr hVisible
    have hIn := (List.mem_filter.mp hr).1
    cases hAfter : r.afterMessageId with
    | none => simp [setDefault, hAfter]
    | some a =>
        have hNotGone : a ∉ s.selectedIds p := by
          rcases h.pred_stored r hIn a hAfter with rfl | ⟨r₀, hr₀, rfl, hChannel⟩
          · obtain ⟨nilRow, hNilRow, hNilId, -⟩ := h.nilRow
            rw [← hNilId, Store.mem_selectedIds hNilRow, hOther nilRow hNilRow (decide_eq_true (Or.inr hNilId))]
            exact Bool.false_ne_true
          · have hName : r₀.channelName = r.channelName := congrArg Channel.name hChannel
            have hNotNil : r.id ≠ uuidNil := fun hId => by
              rw [h.nilRow_unordered hIn hId] at hAfter
              cases hAfter
            have hMine := (of_decide_eq_true hVisible).resolve_right hNotNil
            rw [Store.mem_selectedIds hr₀, hOther r₀ hr₀ (decide_eq_true (Or.inl (hName ▸ hMine)))]
            exact Bool.false_ne_true
        simp [setDefault, hAfter, hNotGone]

/-- A poll of other channels. -/
theorem mqPoll_hidden {choice : PollChoice} {now : Timestamp} {names : List String} {batchSize : Int4}
    {polled : List PolledMessage} (hNames : ∀ name ∈ names, mine name = false)
    (hPoll : mqPoll choice now (some names) batchSize s = .ok (s', polled)) :
    s'.msgs.filter (visible mine) = s.msgs.filter (visible mine) := by
  obtain ⟨ids, rows, hIds, hUpdate, -⟩ := mqPoll_eq_ok hPoll
  rw [(pollUpdate_eq_ok hUpdate).1]
  apply filter_visible_map_other fun r => (updated_sameIdentity pollRow_sameIdentity _ r).continues
  intro r hr hVisible
  unfold updated
  split
  · rename_i hSelected
    obtain ⟨r₀, hr₀, hId, hReady⟩ := messagesToUpdate_ready hIds (of_decide_eq_true hSelected).1
    obtain rfl := List.inj_on_of_nodup_map s.msgsPkey hr₀ hr hId
    have hMine := (of_decide_eq_true hVisible).resolve_right hReady.notNil
    rw [hNames _ (of_decide_eq_true hReady.selected)] at hMine
    cases hMine
  · rfl

variable [JsonbCast]

/-- An INSERT into other channels. -/
theorem insertRows_hidden {now : Timestamp} {newMessages : List MqNew} {new : NewRows}
    (hOther : ∀ m ∈ newMessages, mine m.channelName = false)
    (hNil : uuidNil ∉ newMessages.map MqNew.id) (hNew : newRows now newMessages s = .ok new)
    (hRows : insertRows s new = .ok s') :
    s'.msgs.filter (visible mine) = s.msgs.filter (visible mine) := by
  have hNone : new.msgs.filter (visible mine) = [] := by
    rw [List.filter_eq_nil_iff]
    intro r hr hVisible
    obtain ⟨m, hm, previous, hRow⟩ := newRows_mem hNew hr
    rw [(newMsg_eq_ok hRow).2, visible, decide_eq_true_eq, hOther m hm] at hVisible
    exact hNil (hVisible.resolve_left Bool.false_ne_true ▸ List.mem_map_of_mem hm)
  rw [(insertRows_eq_ok hRows).1, List.filter_append, hNone, List.append_nil]

/-- A call within other channels does not touch what is visible. -/
theorem Integrity.exec_other (hs : Integrity s) {op : Op} {reply : Reply}
    (hWithin : op.Within (fun name => mine name = false) s) (hExec : exec op s = .ok (s', reply)) :
    s'.msgs.filter (visible mine) = s.msgs.filter (visible mine) := by
  cases op with
  | insert now newMessages =>
      obtain ⟨⟨t, notifications⟩, hInsert, hEq⟩ := bind_eq_ok_iff.mp hExec
      obtain ⟨-, new, hNew, hRows⟩ := mqInsert_eq_ok_iff.mp hInsert
      cases hEq
      exact insertRows_hidden hWithin.1 hWithin.2.1 hNew hRows
  | poll choice now channelNames batchSize =>
      obtain ⟨names, rfl, hNames⟩ := hWithin
      obtain ⟨⟨t, polled⟩, hPoll, hEq⟩ := bind_eq_ok_iff.mp hExec
      cases hEq
      exact mqPoll_hidden hNames hPoll
  | commit msgIds =>
      cases hExec
      apply filter_visible_map_other fun r => (commitRow_sameIdentity msgIds r).continues
      intro r hr hVisible
      simp [commitRow, hWithin.not_mem hr hVisible]
  | keepAlive now msgIds duration =>
      cases hExec
      apply filter_visible_map_other fun r => (keepAliveRow_sameIdentity now msgIds duration r).continues
      intro r hr hVisible
      simp [keepAliveRow, hWithin.not_mem hr hVisible]
  | checkpoint now msgId duration newPayloadJson newPayloadBytes extraRetries =>
      obtain ⟨t, hCheckpoint, hEq⟩ := bind_eq_ok_iff.mp hExec
      obtain ⟨f, hMsgs, hSame, hOther, -, -⟩ := mqCheckpoint_eq_ok hCheckpoint
      cases hEq
      rw [hMsgs]
      apply filter_visible_map_other fun r => (hSame r).continues
      intro r hr hVisible
      exact hOther r (by simpa using hWithin.not_mem hr hVisible)
  | delete msgIds =>
      obtain ⟨⟨t, notifications⟩, hDelete, hEq⟩ := bind_eq_ok_iff.mp hExec
      obtain ⟨-, u, hMsgs, rfl⟩ := mqDelete_eq_ok_iff.mp hDelete
      cases hEq
      rw [Store.deletePayloads_msgs, (Store.deleteMsgs_eq_ok hMsgs).1]
      apply hs.filter_visible_remaining
      intro r hr hVisible
      exact decide_eq_false (hWithin.not_mem hr hVisible)
  | clear channelNames =>
      obtain ⟨t, hClear, hEq⟩ := bind_eq_ok_iff.mp hExec
      obtain ⟨u, hMsgs, hPayloads⟩ := bind_eq_ok_iff.mp hClear
      cases hEq
      cases hPayloads
      rw [Store.deletePayloads_msgs, (Store.deleteMsgs_eq_ok hMsgs).1]
      apply hs.filter_visible_remaining
      intro r hr hVisible
      refine decide_eq_false fun hCleared => ?_
      have hMine := (of_decide_eq_true hVisible).resolve_right hCleared.2
      rw [hWithin _ hCleared.1] at hMine
      cases hMine
  | clearAll => exact hWithin.elim

end Other

section Contents

variable {s s' : Store}

theorem Store.Owns.contents_hidden {ids : List Uuid} (h : s.Owns (fun name => mine name = false) ids)
    {id : Uuid} (hId : id ∈ ids) {content : Content} (hContent : s.contents id = some content) :
    mine content.channel.name = false := by
  rw [Store.contents_eq, Option.bind_eq_some_iff] at hContent
  obtain ⟨r, hr, hq⟩ := hContent
  obtain ⟨q, -, rfl⟩ := Option.map_eq_some_iff.mp hq
  obtain ⟨hIn, rfl⟩ := Store.row_eq_some_iff.mp hr
  exact h.2 r hIn hId

variable [JsonbCast]

/-- A call within one's own channels does to them what it does to the whole. -/
theorem Op.onContents_own {op : Op} (hWithin : op.Within (fun name => mine name = true) s)
    (c : Contents) (id : Uuid) :
    op.onContents (fun id => (c id).filter fun content => mine content.channel.name) id =
      (op.onContents c id).filter fun content => mine content.channel.name := by
  cases op with
  | insert now newMessages =>
      simp only [Op.onContents]
      cases hFound : lookup MqNew.id newMessages id with
      | none => rfl
      | some m =>
          have hMine := hWithin.1 m (mem_of_lookup hFound)
          simp [MqNew.content, MqNew.channel, hMine, Option.filter]
  | delete msgIds =>
      simp only [Op.onContents]
      split <;> rfl
  | checkpoint now msgId duration newPayloadJson newPayloadBytes extraRetries =>
      simp only [Op.onContents]
      split
      · cases c id with
        | none => rfl
        | some content => cases hMine : mine content.channel.name <;>
            simp [Option.filter, Content.checkpoint, hMine]
      · rfl
  | clear channelNames =>
      simp only [Op.onContents]
      rw [Option.filter_filter, Option.filter_filter]
      simp [Bool.and_comm]
  | clearAll => exact hWithin.elim
  | _ => rfl

/-- A call within other channels does nothing to one's own. -/
theorem Op.onContents_other {op : Op} {reply : Reply}
    (hWithin : op.Within (fun name => mine name = false) s) (hExec : exec op s = .ok (s', reply))
    (id : Uuid) :
    (op.onContents s.contents id).filter (fun content => mine content.channel.name) =
      (s.contents id).filter fun content => mine content.channel.name := by
  cases op with
  | insert now newMessages =>
      simp only [Op.onContents]
      cases hFound : lookup MqNew.id newMessages id with
      | none => rfl
      | some m =>
          have hm := mem_of_lookup hFound
          obtain rfl := key_of_lookup hFound
          obtain ⟨⟨t, notifications⟩, hInsert, hEq⟩ := bind_eq_ok_iff.mp hExec
          obtain ⟨-, new, hNew, hRows⟩ := mqInsert_eq_ok_iff.mp hInsert
          have hAbsent : s.row m.id = none :=
            Store.row_eq_none_iff.mpr ((insertRows_fresh hNew hRows).2 m hm)
          rw [Store.contents_eq, hAbsent]
          simp [MqNew.content, MqNew.channel, hWithin.1 m hm, Option.filter]
  | delete msgIds =>
      simp only [Op.onContents]
      split
      · rename_i hId
        cases hContent : s.contents id with
        | none => rfl
        | some content => simp [Option.filter, hWithin.contents_hidden hId hContent]
      · rfl
  | checkpoint now msgId duration newPayloadJson newPayloadBytes extraRetries =>
      simp only [Op.onContents]
      split
      · rename_i hId
        cases hContent : s.contents id with
        | none => rfl
        | some content =>
            have hHidden := hWithin.contents_hidden (by simp [hId]) hContent
            simp [Option.filter, Content.checkpoint, hHidden]
      · rfl
  | clear channelNames =>
      simp only [Op.onContents]
      rw [Option.filter_filter]
      congr 1
      funext content
      by_cases hCleared : content.channel.name ∈ channelNames
      · simp [hCleared, hWithin _ hCleared]
      · simp [hCleared]
  | clearAll => exact hWithin.elim
  | _ => rfl

end Contents

section Runs

/-- A call of the caller one looks at, or of somebody else. -/
inductive SharedCall where
  | own (op : Op)
  | other (op : Op)

def SharedCall.isOwn : SharedCall → Bool
  | .own _ => true
  | .other _ => false

/-- A store, and what that caller was answered. -/
structure Shared where
  store : Store
  heard : List (Except DbError Reply)

theorem Op.Within.sparesNil {kind : String → Prop} {s : Store} {op : Op} (h : op.Within kind s) :
    op.sparesNil := by
  cases op with
  | delete msgIds => exact h.1
  | _ => trivial

def Shared.start (migratedAt : Timestamp) : Shared := ⟨.initial migratedAt, []⟩

variable [JsonbCast]

def Shared.own (op : Op) (x : Shared) : Shared :=
  ⟨(transact op x.store).1, x.heard ++ [(transact op x.store).2]⟩

def Shared.other (op : Op) (x : Shared) : Shared := { x with store := (transact op x.store).1 }

/-- The caller keeps to its own channels, and the others to the others. -/
inductive SharedStep (mine : String → Bool) (x : Shared) : SharedCall → Shared → Prop where
  | own {op : Op} (within : op.Within (fun name => mine name = true) x.store) :
      SharedStep mine x (.own op) (x.own op)
  | other {op : Op} (within : op.Within (fun name => mine name = false) x.store) :
      SharedStep mine x (.other op) (x.other op)

theorem Integrity.transact {kind : String → Prop} {s : Store} (h : Integrity s) {op : Op}
    (hWithin : op.Within kind s) : Integrity (Sqlxmq.transact op s).1 :=
  transact_keeps h fun _ _ hExec => h.of_exec hWithin.sparesNil hExec

section Step

variable {s t : Store} (h : Restricts mine s t) (hs : Integrity s)
include h hs

/-- Another caller's transaction is not seen. -/
theorem Restricts.transact_other {op : Op} (hWithin : op.Within (fun name => mine name = false) s) :
    Restricts mine (transact op s).1 t := by
  refine transact_keeps (P := fun s' => Restricts mine s' t) h fun s' reply hExec => ⟨?_, fun id => ?_⟩
  · rw [hs.exec_other hWithin hExec, h.msgs]
  · rw [hs.exec_contents hExec, Op.onContents_other hWithin hExec, h.contents]

/-- One's own transaction is answered in the same way. -/
theorem Restricts.transact_own (ht : Integrity t) {op : Op}
    (hWithin : op.Within (fun name => mine name = true) s) :
    (transact op t).2 = (transact op s).2 ∧ Restricts mine (transact op s).1 (transact op t).1 := by
  have hOwn := h.exec_own hs ht hWithin
  unfold transact
  cases hS : exec op s with
  | error e =>
      cases hT : exec op t with
      | ok result => simp [hS, hT, Except.map] at hOwn
      | error e' =>
          have hEq : e' = e := by simpa [hS, hT, Except.map] using hOwn
          exact ⟨congrArg Except.error hEq, h⟩
  | ok result =>
      obtain ⟨s', reply⟩ := result
      cases hT : exec op t with
      | error e' => simp [hS, hT, Except.map] at hOwn
      | ok result' =>
          obtain ⟨t', reply'⟩ := result'
          obtain ⟨hMsgs, hReply⟩ : t'.msgs = s'.msgs.filter (visible mine) ∧ reply' = reply := by
            simpa [hS, hT, Except.map] using hOwn
          refine ⟨congrArg Except.ok hReply, hMsgs, fun id => ?_⟩
          rw [hs.exec_contents hS, ht.exec_contents hT, funext h.contents]
          exact Op.onContents_own hWithin s.contents id

end Step

/-- Whoever keeps to its channels, and names no identifiers of messages in
others, is answered as if nobody else used the database. -/
theorem channels_isolated {migratedAt : Timestamp} {calls : List SharedCall} {x : Shared}
    (run : Run (SharedStep mine) (.start migratedAt) calls x) :
    ∃ y, Run (SharedStep mine) (.start migratedAt) (calls.filter SharedCall.isOwn) y ∧
      y.heard = x.heard ∧ Restricts mine x.store y.store := by
  have hStart : Restricts mine (.initial migratedAt) (.initial migratedAt) := by
    refine ⟨(List.filter_eq_self.mpr fun r hr => ?_).symm, fun id => ?_⟩
    · obtain rfl := List.mem_singleton.mp hr
      exact decide_eq_true (Or.inr rfl)
    · simp [Store.contents_eq, Store.initial, Store.payload, lookup]
  suffices hBeside : Integrity x.store ∧ ∃ y, Integrity y.store ∧
      Run (SharedStep mine) (.start migratedAt) (calls.filter SharedCall.isOwn) y ∧
        y.heard = x.heard ∧ Restricts mine x.store y.store by
    obtain ⟨-, y, -, hAlone⟩ := hBeside
    exact ⟨y, hAlone⟩
  induction run with
  | refl => exact ⟨.initial migratedAt, .start migratedAt, .initial migratedAt, .refl, rfl, hStart⟩
  | snoc prior last ih =>
      obtain ⟨hs, y, ht, alone, hHeard, h⟩ := ih
      rw [List.filter_append]
      cases last with
      | own within =>
          obtain ⟨hReply, hRestricts⟩ := h.transact_own hs ht within
          have hWithin := h.within within
          refine ⟨hs.transact within, _, ht.transact hWithin, .snoc alone (.own hWithin), ?_,
            hRestricts⟩
          rw [Shared.own, Shared.own, hHeard, hReply]
      | other within =>
          refine ⟨hs.transact within, y, ht, ?_, hHeard, h.transact_other hs within⟩
          rw [show [SharedCall.other _].filter SharedCall.isOwn = [] from rfl, List.append_nil]
          exact alone

end Runs

section Example

def mailJob : MqNew := { JobBuilder.orderedMessage 1 "greeting" with channelName := "mail" }

def logJob : MqNew := { JobBuilder.orderedMessage 2 "entry" with channelName := "log" }

def pollChannel (now : Timestamp) (name : String) : Op :=
  .poll .physical now (some [name]) ⟨8, by decide, by decide⟩

/-- A store in which a mail was sent after a log entry. -/
def mailAndLog : Shared :=
  @Shared.own .nullOnly (.insert 0 [mailJob]) (@Shared.other .nullOnly (.insert 0 [logJob]) (.start 0))

/-- The mail is delivered and completed beside a log entry that is never completed. -/
theorem channels_isolated_of_mail :
    let _ : JsonbCast := .nullOnly
    ∃ x y, Run (SharedStep (· = "mail")) (.start 0)
        [.other (.insert 0 [logJob]), .own (.insert 0 [mailJob]), .own (pollChannel 0 "mail"),
          .own (.delete [1])] x ∧
      Run (SharedStep (· = "mail")) (.start 0)
        [.own (.insert 0 [mailJob]), .own (pollChannel 0 "mail"), .own (.delete [1])] y ∧
      y.heard = x.heard ∧ x.store.ids = [0, 2] ∧ y.store.ids = [0] := by
  intro _
  have run : Run (SharedStep (· = "mail")) (.start 0)
      [.other (.insert 0 [logJob]), .own (.insert 0 [mailJob]), .own (pollChannel 0 "mail"),
        .own (.delete [1])] ((mailAndLog.own (pollChannel 0 "mail")).own (.delete [1])) :=
    .cons (.other ⟨by decide, by decide, by decide +kernel⟩) <|
      .cons (.own ⟨by decide, by decide, by decide +kernel⟩) <|
        .cons (.own ⟨_, rfl, by decide⟩) <|
          .cons (.own ⟨by decide, by decide +kernel⟩) .refl
  obtain ⟨y, alone, hHeard, hRestricts⟩ := channels_isolated run
  refine ⟨_, y, run, alone, hHeard, by decide +kernel, ?_⟩
  rw [Store.ids, hRestricts.msgs]
  decide +kernel

end Example

end Sqlxmq
