import Mathlib.Data.List.Sort
import Sqlxmq.Database.Schema
import Sqlxmq.Library.PredecessorLinks

/-! Spawning messages. A new ordered message is linked behind the one before
it in its batch, and the first of a batch behind the tail of its channel. -/
namespace Sqlxmq

open KeyedTable PredecessorLinks

/-- Ordered messages of a channel that no other message is linked behind. -/
def tailCandidates (s : Store) (channelName channelArgs : String) : List MqMsg :=
  s.msgs.filter fun r =>
    r.channelName = channelName ∧ r.channelArgs = channelArgs ∧ r.afterMessageId ≠ none ∧
      r.id ≠ uuidNil ∧ ¬ ∃ r2 ∈ s.msgs, r2.afterMessageId = some r.id

/-- `ORDER BY created_at DESC` -/
def MqMsg.newerFirst (a b : MqMsg) : Prop := b.createdAt ≤ a.createdAt

instance : DecidableRel MqMsg.newerFirst := fun a b => Int.decLe b.createdAt a.createdAt

/-- The most recently added message in a queue. Among several candidates the
latest creation time decides; which of two equal ones is unspecified. -/
def mqLatestMessage (s : Store) (fromChannelName fromChannelArgs : String) : Uuid :=
  (((tailCandidates s fromChannelName fromChannelArgs).insertionSort MqMsg.newerFirst).head?.map
    MqMsg.id).getD uuidNil

/-- `LAG(id, 1, previous)` over a sorted partition. -/
def lag : Uuid → List MqNew → List (MqNew × Uuid)
  | _, [] => []
  | previous, m :: rest => (m, previous) :: lag m.id rest

/-- `PARTITION BY channel_name, channel_args, ordered` -/
def MqNew.partitionKey (m : MqNew) : String × String × Bool :=
  (m.channelName, m.channelArgs, m.ordered)

/-- One partition of the window, in the order of `ORDER BY id`. -/
def windowPartition (newMessages : List MqNew) (key : String × String × Bool) : List MqNew :=
  (newMessages.filter (·.partitionKey = key)).insertionSort fun a b => a.id ≤ b.id

/-- Every new message with the value of the window function. -/
def lagged (s : Store) (newMessages : List MqNew) : List (MqNew × Uuid) :=
  (groups MqNew.partitionKey newMessages).flatMap fun key =>
    lag (mqLatestMessage s key.1 key.2.1) (windowPartition newMessages key)

/-- The values inserted for one new message. -/
def newMsg (now : Timestamp) (e : MqNew × Uuid) : Except DbError MqMsg := do
  let attempts ← Int4.ofInt (e.1.retries.val + 1)
  .ok { id := e.1.id
        createdAt := now
        attemptAt := some (now + e.1.delay + e.1.commitInterval.getD 0)
        attempts := attempts
        retryBackoff := e.1.retryBackoff
        channelName := e.1.channelName
        channelArgs := e.1.channelArgs
        commitInterval := e.1.commitInterval
        afterMessageId := if e.1.ordered then some e.2 else none }

/-- `payload_json::JSONB` -/
def jsonb [JsonbCast] : Option String → Except DbError (Option String)
  | none => .ok none
  | some text => match JsonbCast.cast text with
      | none => .error .invalidTextRepresentation
      | some value => .ok (some value)

def newPayload [JsonbCast] (m : MqNew) : Except DbError MqPayload := do
  let payloadJson ← jsonb m.payloadJson
  .ok { id := m.id, name := m.name, payloadJson, payloadBytes := m.payloadBytes }

/-- The rows of both INSERT statements. Only the links depend on the store
they are computed from. -/
structure NewRows where
  payloads : List MqPayload
  msgs : List MqMsg
deriving DecidableEq

def newRows [JsonbCast] (now : Timestamp) (newMessages : List MqNew) (s : Store) :
    Except DbError NewRows := do
  let payloads ← evaluate newPayload newMessages
  let msgs ← evaluate (newMsg now) (lagged s newMessages)
  .ok { payloads, msgs }

def checkPayload (rows : List MqPayload) (p : MqPayload) : Option DbError :=
  if p.id ∈ rows.map MqPayload.id then some (.uniqueViolation mqPayloadsPkey) else none

def checkMsg (rows : List MqMsg) (r : MqMsg) : Option DbError :=
  if r.id ∈ rows.map MqMsg.id then some (.uniqueViolation mqMsgsPkey)
  else if conflicts MqMsg.orderKey rows r then some (.uniqueViolation mqMsgsAfterMessageIdIdx)
  else none

theorem checkPayload_eq_none {rows : List MqPayload} {p : MqPayload}
    (h : checkPayload rows p = none) : conflicts (fun p => some p.id) rows p = false := by
  simpa [checkPayload, conflicts] using h

theorem checkMsg_eq_none_iff {rows : List MqMsg} {r : MqMsg} :
    checkMsg rows r = none ↔
      conflicts (fun r => some r.id) rows r = false ∧ conflicts MqMsg.orderKey rows r = false := by
  unfold checkMsg
  split
  · simp_all [conflicts]
  · split <;> simp_all [conflicts]

/-- Insert prepared rows, subject to every constraint. The foreign key is
checked last, against the rows of the same statement as well. -/
def insertRows (s : Store) (new : NewRows) : Except DbError Store :=
  match hPayloads : insertAll checkPayload s.payloads new.payloads with
  | .error e => .error e
  | .ok payloads => match hMsgs : insertAll checkMsg s.msgs new.msgs with
      | .error e => .error e
      | .ok msgs =>
          if hAfter : ∀ r ∈ new.msgs, AfterExists (msgs.map MqMsg.id) r then
            .ok { msgs, payloads
                  msgsPkey := (uniqueOn_some MqMsg.id msgs).mp <|
                    ((uniqueOn_some _ _).mpr s.msgsPkey).insertAll
                      (fun _ _ h => (checkMsg_eq_none_iff.mp h).1) hMsgs
                  payloadsPkey := (uniqueOn_some MqPayload.id payloads).mp <|
                    ((uniqueOn_some _ _).mpr s.payloadsPkey).insertAll
                      (fun _ _ h => checkPayload_eq_none h) hPayloads
                  afterIdx := s.afterIdx.insertAll
                    (fun _ _ h => (checkMsg_eq_none_iff.mp h).2) hMsgs
                  afterFkey := by
                    intro r hr
                    rw [insertAll_eq_append hMsgs] at hr ⊢
                    rcases List.mem_append.mp hr with hOld | hNew
                    · intro a ha
                      rw [List.map_append]
                      exact List.mem_append_left _ (s.afterFkey r hOld a ha)
                    · rw [insertAll_eq_append hMsgs] at hAfter
                      exact hAfter r hNew }
          else .error (.foreignKeyViolation mqMsgsAfterMessageIdFkey)

/-- Creates new messages. -/
def mqInsert [JsonbCast] (now : Timestamp) (newMessages : List MqNew) (s : Store) :
    Except DbError (Store × List String) := do
  let notifications ← pgNotify (groups MqNew.channelName newMessages)
  let new ← newRows now newMessages s
  let s' ← insertRows s new
  .ok (s', notifications)

section Links

theorem map_lag_links (previous : Uuid) (ms : List MqNew) :
    (lag previous ms).map (fun e => (e.1.id, e.2)) = links previous (ms.map MqNew.id) := by
  induction ms generalizing previous with
  | nil => rfl
  | cons m rest ih => simp [lag, links, ih]

theorem map_fst_lag (previous : Uuid) (ms : List MqNew) :
    (lag previous ms).map Prod.fst = ms := by
  induction ms generalizing previous with
  | nil => rfl
  | cons m rest ih => simp [lag, ih]

theorem windowPartition_perm (newMessages : List MqNew) (key : String × String × Bool) :
    (windowPartition newMessages key).Perm (newMessages.filter (·.partitionKey = key)) :=
  List.perm_insertionSort _ _

theorem mem_windowPartition {newMessages : List MqNew} {key : String × String × Bool} {m : MqNew} :
    m ∈ windowPartition newMessages key ↔ m ∈ newMessages ∧ m.partitionKey = key := by
  rw [(windowPartition_perm newMessages key).mem_iff]
  simp

/-- Every new message is inserted exactly once. -/
theorem map_fst_lagged_perm (s : Store) (newMessages : List MqNew) :
    ((lagged s newMessages).map Prod.fst).Perm newMessages := by
  refine List.Perm.trans ?_ (flatMap_groups_perm MqNew.partitionKey newMessages)
  rw [lagged, List.map_flatMap]
  apply List.Perm.flatMap_left _
  intro key _
  rw [map_fst_lag]
  exact windowPartition_perm newMessages key

/-- The identifiers a batch appends to a channel, in ascending order. -/
def orderedIds (newMessages : List MqNew) (ch : Channel) : List Uuid :=
  (windowPartition newMessages (ch.name, ch.args, true)).map MqNew.id

theorem mem_orderedIds {newMessages : List MqNew} {ch : Channel} {a : Uuid} :
    a ∈ orderedIds newMessages ch ↔
      ∃ m ∈ newMessages, m.channel = ch ∧ m.ordered = true ∧ m.id = a := by
  simp only [orderedIds, List.mem_map, mem_windowPartition, MqNew.partitionKey, Prod.mk.injEq,
    MqNew.channel, Channel.ext_iff]
  constructor
  · rintro ⟨m, ⟨hm, hName, hArgs, hOrdered⟩, hId⟩
    exact ⟨m, hm, ⟨hName, hArgs⟩, hOrdered, hId⟩
  · rintro ⟨m, hm, ⟨hName, hArgs⟩, hOrdered, hId⟩
    exact ⟨m, ⟨hm, hName, hArgs, hOrdered⟩, hId⟩

theorem orderedIds_nodup {newMessages : List MqNew} (h : (newMessages.map MqNew.id).Nodup) (ch : Channel) :
    (orderedIds newMessages ch).Nodup := by
  rw [orderedIds, ((windowPartition_perm newMessages _).map MqNew.id).nodup_iff]
  exact h.sublist (List.filter_sublist.map _)

/-- The link of a new message, when it is an ordered one of the channel. -/
def newLink (ch : Channel) (e : MqNew × Uuid) : Option (Uuid × Uuid) :=
  if e.1.channel = ch ∧ e.1.ordered = true then some (e.1.id, e.2) else none

/-- Within a channel the new links continue the tail by the ordered messages
of the batch. -/
theorem lagged_links (s : Store) (newMessages : List MqNew) (ch : Channel) :
    (lagged s newMessages).filterMap (newLink ch) =
      links (mqLatestMessage s ch.name ch.args) (orderedIds newMessages ch) := by
  have hOther : ∀ key, key ≠ (ch.name, ch.args, true) → ∀ previous,
      (lag previous (windowPartition newMessages key)).filterMap (newLink ch) = [] := by
    intro key hKey previous
    rw [List.filterMap_eq_nil_iff]
    intro e he
    have hIn : e.1 ∈ windowPartition newMessages key := by
      rw [← map_fst_lag previous (windowPartition newMessages key)]
      exact List.mem_map_of_mem he
    have hPartition := (mem_windowPartition.mp hIn).2
    unfold newLink
    rw [if_neg]
    rintro ⟨rfl, hOrdered⟩
    exact hKey (by rw [← hPartition, MqNew.partitionKey, hOrdered]; rfl)
  have hSelf : ∀ previous, (lag previous (windowPartition newMessages
      (ch.name, ch.args, true))).filterMap (newLink ch) =
        links previous (orderedIds newMessages ch) := by
    intro previous
    rw [orderedIds, ← map_lag_links, ← List.filterMap_eq_map]
    apply List.filterMap_congr
    intro e he
    have hIn : e.1 ∈ windowPartition newMessages (ch.name, ch.args, true) := by
      rw [← map_fst_lag previous (windowPartition newMessages _)]
      exact List.mem_map_of_mem he
    have hPartition := (mem_windowPartition.mp hIn).2
    simp only [MqNew.partitionKey, Prod.mk.injEq] at hPartition
    simp [newLink, MqNew.channel, hPartition]
  rw [lagged, flatMap_filterMap_single (groups_nodup _ _) _ _ (ch.name, ch.args, true)
    (fun key hKey => hOther key hKey _)]
  · exact hSelf _
  · intro hAbsent
    have hEmpty : windowPartition newMessages (ch.name, ch.args, true) = [] := by
      rw [List.eq_nil_iff_forall_not_mem]
      intro m hm
      obtain ⟨hIn, hKey⟩ := mem_windowPartition.mp hm
      exact hAbsent (mem_groups.mpr ⟨m, hIn, hKey⟩)
    simp [hEmpty, lag]

end Links

section Rows

variable {now : Timestamp} {newMessages : List MqNew} {s s' : Store} {new : NewRows}

theorem newMsg_eq_ok {e : MqNew × Uuid} {r : MqMsg} (h : newMsg now e = .ok r) :
    r.attempts.val = e.1.retries.val + 1 ∧
      r = { id := e.1.id
            createdAt := now
            attemptAt := some (now + e.1.delay + e.1.commitInterval.getD 0)
            attempts := r.attempts
            retryBackoff := e.1.retryBackoff
            channelName := e.1.channelName
            channelArgs := e.1.channelArgs
            commitInterval := e.1.commitInterval
            afterMessageId := if e.1.ordered then some e.2 else none } := by
  obtain ⟨attempts, hAttempts, hRow⟩ := bind_eq_ok_iff.mp h
  have hEq := Except.ok.inj hRow
  subst hEq
  exact ⟨Int4.ofInt_eq_ok_iff.mp hAttempts, rfl⟩

theorem insertRows_eq_ok (h : insertRows s new = .ok s') :
    s'.msgs = s.msgs ++ new.msgs ∧ s'.payloads = s.payloads ++ new.payloads := by
  unfold insertRows at h
  split at h
  · cases h
  · rename_i payloads hPayloads
    split at h
    · cases h
    · rename_i msgs hMsgs
      split at h
      · rw [← Except.ok.inj h]
        exact ⟨insertAll_eq_append hMsgs, insertAll_eq_append hPayloads⟩
      · cases h

/-- With fresh identifiers only the two constraints on `after_message_id`
can fail. -/
theorem insertRows_eq_error {e : DbError}
    (hPayloads : ((s.payloads ++ new.payloads).map MqPayload.id).Nodup)
    (hMsgs : ((s.msgs ++ new.msgs).map MqMsg.id).Nodup) (h : insertRows s new = .error e) :
    e = .uniqueViolation mqMsgsAfterMessageIdIdx ∧
        ¬ UniqueOn MqMsg.orderKey (s.msgs ++ new.msgs) ∨
      e = .foreignKeyViolation mqMsgsAfterMessageIdFkey ∧
        ¬ ∀ r ∈ new.msgs, AfterExists ((s.msgs ++ new.msgs).map MqMsg.id) r := by
  unfold insertRows at h
  split at h
  · rename_i e' hInsert
    obtain ⟨before, p, after, hSplit, hCheck⟩ := insertAll_eq_error hInsert
    have hFree : conflicts (fun p => some p.id) (s.payloads ++ before) p = false := by
      rw [hSplit, ← List.append_assoc] at hPayloads
      exact ((uniqueOn_some MqPayload.id _).mpr hPayloads).no_conflict
    have hNotId : p.id ∉ (s.payloads ++ before).map MqPayload.id := by
      simpa [conflicts] using hFree
    rw [checkPayload, if_neg hNotId] at hCheck
    cases hCheck
  · split at h
    · rename_i e' hInsert
      obtain ⟨before, r, after, hSplit, hCheck⟩ := insertAll_eq_error hInsert
      have hFree : conflicts (fun r => some r.id) (s.msgs ++ before) r = false := by
        rw [hSplit, ← List.append_assoc] at hMsgs
        exact ((uniqueOn_some MqMsg.id _).mpr hMsgs).no_conflict
      have hNotId : r.id ∉ (s.msgs ++ before).map MqMsg.id := by
        simpa [conflicts] using hFree
      rw [checkMsg, if_neg hNotId] at hCheck
      split at hCheck
      · rename_i hConflict
        refine Or.inl ⟨?_, ?_⟩
        · rw [← Except.error.inj h, ← Option.some.inj hCheck]
        · intro hUnique
          rw [hSplit, ← List.append_assoc] at hUnique
          simp [hUnique.no_conflict] at hConflict
      · cases hCheck
    · rename_i msgs hInsert
      split at h
      · cases h
      · rename_i hAfter
        rw [insertAll_eq_append hInsert] at hAfter
        exact Or.inr ⟨(Except.error.inj h).symm, hAfter⟩

/-- Conversely, rows that respect every constraint are accepted. -/
theorem insertRows_total
    (hPayloads : ((s.payloads ++ new.payloads).map MqPayload.id).Nodup)
    (hMsgs : ((s.msgs ++ new.msgs).map MqMsg.id).Nodup)
    (hIdx : UniqueOn MqMsg.orderKey (s.msgs ++ new.msgs))
    (hAfter : ∀ r ∈ new.msgs, AfterExists ((s.msgs ++ new.msgs).map MqMsg.id) r) :
    ∃ s', insertRows s new = .ok s' := by
  cases h : insertRows s new with
  | ok s' => exact ⟨s', rfl⟩
  | error e =>
      rcases insertRows_eq_error hPayloads hMsgs h with ⟨_, hNot⟩ | ⟨_, hNot⟩
      · exact absurd hIdx hNot
      · exact absurd hAfter hNot

variable [JsonbCast]

theorem newRows_eq_ok_iff : newRows now newMessages s = .ok new ↔
    evaluate newPayload newMessages = .ok new.payloads ∧
      evaluate (newMsg now) (lagged s newMessages) = .ok new.msgs := by
  unfold newRows
  constructor
  · intro h
    obtain ⟨payloads, hPayloads, h⟩ := bind_eq_ok_iff.mp h
    obtain ⟨msgs, hMsgs, h⟩ := bind_eq_ok_iff.mp h
    have hEq := Except.ok.inj h
    subst hEq
    exact ⟨hPayloads, hMsgs⟩
  · rintro ⟨hPayloads, hMsgs⟩
    simp [hPayloads, hMsgs, bind, Except.bind]

theorem newRows_payload_ids (h : newRows now newMessages s = .ok new) :
    new.payloads.map MqPayload.id = newMessages.map MqNew.id := by
  refine evaluate_map MqPayload.id MqNew.id ?_ (newRows_eq_ok_iff.mp h).1
  intro m p hp
  obtain ⟨json, _, hRow⟩ := bind_eq_ok_iff.mp hp
  rw [← Except.ok.inj hRow]

theorem newRows_msg_ids (h : newRows now newMessages s = .ok new) :
    (new.msgs.map MqMsg.id).Perm (newMessages.map MqNew.id) := by
  have hIds : new.msgs.map MqMsg.id = (lagged s newMessages).map (MqNew.id ∘ Prod.fst) := by
    refine evaluate_map MqMsg.id _ ?_ (newRows_eq_ok_iff.mp h).2
    intro e r hr
    rw [(newMsg_eq_ok hr).2]
    rfl
  rw [hIds, ← List.map_map]
  exact (map_fst_lagged_perm s newMessages).map MqNew.id

/-- Every inserted row is the row of a new message. -/
theorem newRows_mem (h : newRows now newMessages s = .ok new) {r : MqMsg} (hr : r ∈ new.msgs) :
    ∃ m ∈ newMessages, ∃ previous, newMsg now (m, previous) = .ok r := by
  obtain ⟨⟨m, previous⟩, he, hRow⟩ := evaluate_mem (newRows_eq_ok_iff.mp h).2 hr
  refine ⟨m, ?_, previous, hRow⟩
  rw [← (map_fst_lagged_perm s newMessages).mem_iff]
  exact List.mem_map_of_mem (f := Prod.fst) he

/-- Every new message has a row. -/
theorem newRows_exists (h : newRows now newMessages s = .ok new) {m : MqNew}
    (hm : m ∈ newMessages) : ∃ r ∈ new.msgs, ∃ previous, newMsg now (m, previous) = .ok r := by
  rw [← (map_fst_lagged_perm s newMessages).mem_iff] at hm
  obtain ⟨⟨m, previous⟩, he, rfl⟩ := List.mem_map.mp hm
  obtain ⟨r, hr, hRow⟩ := evaluate_exists (newRows_eq_ok_iff.mp h).2 he
  exact ⟨r, hr, previous, hRow⟩

theorem mqInsert_eq_ok_iff {notifications : List String} :
    mqInsert now newMessages s = .ok (s', notifications) ↔
      pgNotify (groups MqNew.channelName newMessages) = .ok notifications ∧
        ∃ new, newRows now newMessages s = .ok new ∧ insertRows s new = .ok s' := by
  unfold mqInsert
  simp only [bind_eq_ok_iff, Except.ok.injEq, Prod.mk.injEq]
  constructor
  · rintro ⟨notes, hNotes, new, hNew, t, hInsert, rfl, rfl⟩
    exact ⟨hNotes, new, hNew, hInsert⟩
  · rintro ⟨hNotes, new, hNew, hInsert⟩
    exact ⟨notifications, hNotes, new, hNew, s', hInsert, rfl, rfl⟩

end Rows

end Sqlxmq
