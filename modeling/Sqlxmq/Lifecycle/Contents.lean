import Sqlxmq.Database.RowStep
import Sqlxmq.Lifecycle.Checkpoint
import Sqlxmq.Order.Queues

/-! What messages carry. The two tables of the queue, read together, are a
partial map from identifiers to contents, and each call does to it what its
name says. The latest accepted write of a payload is the one that polls see. -/
namespace Sqlxmq

open KeyedTable LabelledRun

/-- The part of a message that its job works with. -/
structure Content where
  channel : Channel
  name : String
  payloadJson : Option String
  payloadBytes : Option (List UInt8)

abbrev Contents := Uuid → Option Content

def contentOf (r : MqMsg) (q : MqPayload) : Content :=
  ⟨r.channel, q.name, q.payloadJson, q.payloadBytes⟩

/-- The abstraction of a store. -/
def Store.contents (s : Store) : Contents := fun id =>
  Option.map₂ contentOf (s.row id) (s.payload id)

/-- Check if a job with that ID exists. -/
def jobExists (id : Uuid) (s : Store) : Bool := s.msgs.any fun r => r.id = id

section Abstract

variable [JsonbCast]

/-- A payload is read back as the cast leaves it. -/
def MqNew.content (m : MqNew) : Content :=
  ⟨m.channel, m.name, m.payloadJson.bind JsonbCast.cast, m.payloadBytes⟩

/-- A checkpoint keeps the parts of the payload that it does not give. -/
def Content.checkpoint (newPayloadJson : Option String) (newPayloadBytes : Option (List UInt8))
    (c : Content) : Content :=
  { c with
    payloadJson := (newPayloadJson.bind JsonbCast.cast).or c.payloadJson
    payloadBytes := newPayloadBytes.or c.payloadBytes }

/-- The effect that a call is meant to have on the contents. -/
def Op.onContents : Op → Contents → Contents
  | .insert _ newMessages, c => fun id =>
      ((lookup MqNew.id newMessages id).map MqNew.content).or (c id)
  | .delete msgIds, c => fun id => if id ∈ msgIds then none else c id
  | .checkpoint _ msgId _ newPayloadJson newPayloadBytes _, c => fun id =>
      if id = msgId then (c id).map (Content.checkpoint newPayloadJson newPayloadBytes) else c id
  | .clear channelNames, c => fun id => (c id).filter fun content =>
      content.channel.name ∉ channelNames
  | .clearAll, _ => fun _ => none
  | _, c => c

end Abstract

section Lookups

variable {s s' : Store} {id : Uuid}

theorem Store.contents_eq (s : Store) (id : Uuid) :
    s.contents id = (s.row id).bind fun r => (s.payload id).map (contentOf r) := by
  rw [Store.contents]
  cases s.row id with
  | none => rfl
  | some r => cases s.payload id <;> rfl

/-- In intact tables every message but the nil row has contents. -/
theorem Integrity.contents_isSome_iff (h : Integrity s) :
    (s.contents id).isSome ↔ id ∈ s.ids ∧ id ≠ uuidNil := by
  have hRow : (s.row id).isSome ↔ id ∈ s.ids := Store.row_isSome_iff
  have hPayload : (s.payload id).isSome ↔ id ∈ s.ids ∧ id ≠ uuidNil :=
    lookup_isSome_iff.trans (h.payloads id)
  rw [Store.contents]
  cases hr : s.row id with
  | none =>
      rw [hr, Option.isSome_none] at hRow
      simpa using fun hIn => absurd (hRow.mpr hIn) Bool.false_ne_true
  | some r =>
      cases hq : s.payload id with
      | none => simpa [hq] using hPayload
      | some q => simpa [hq] using hPayload

theorem contents_of_same (hRow : (s'.row id).map MqMsg.channel = (s.row id).map MqMsg.channel)
    (hPayload : s'.payload id = s.payload id) : s'.contents id = s.contents id := by
  simp only [Store.contents_eq, hPayload]
  cases hr : s.row id with
  | none =>
      rw [hr, Option.map_none, Option.map_eq_none_iff] at hRow
      rw [hRow]
  | some r =>
      rw [hr, Option.map_some, Option.map_eq_some_iff] at hRow
      obtain ⟨r', hr', hChannel⟩ := hRow
      rw [hr', Option.bind_some, Option.bind_some]
      congr 1
      funext q
      simp [contentOf, hChannel]

/-- Rewriting rows in place does not change what they carry. -/
theorem contents_of_rewrite {f : MqMsg → MqMsg} (hMsgs : s'.msgs = s.msgs.map f)
    (hSame : ∀ r, MqMsg.SameIdentity r (f r)) (hPayloads : s'.payloads = s.payloads) :
    s'.contents = s.contents := by
  funext id
  apply contents_of_same
  · rw [Store.row, hMsgs, lookup_map f fun r => (hSame r).id, ← Store.row, Option.map_map]
    congr 1
    funext r
    exact (hSame r).channel
  · rw [Store.payload, hPayloads, ← Store.payload]

/-- A DELETE of messages with the payloads of the same identifiers. -/
theorem deleteMsgs_contents {p : MqMsg → Bool} {t : Store} (hDelete : s.deleteMsgs p = .ok t)
    {gone : List Uuid} (hGone : ∀ r ∈ s.msgs, r.id ∈ gone ↔ p r = true) (id : Uuid) :
    (t.deletePayloads gone).contents id =
      ((s.row id).filter fun r => !p r).bind fun r => (s.payload id).map (contentOf r) := by
  have hRow : (t.deletePayloads gone).row id =
      ((s.row id).filter fun r => !p r).map (setDefault (s.selectedIds p)) :=
    Store.deleteMsgs_row hDelete id
  have hPayload : (t.deletePayloads gone).payload id = (s.payload id).filter (·.id ∉ gone) := by
    rw [Store.payload, Store.payload, ← (Store.deleteMsgs_eq_ok hDelete).2]
    exact lookup_filter t.payloadsPkey _
  rw [Store.contents_eq, hRow, hPayload]
  cases hr : s.row id with
  | none => rfl
  | some r =>
      obtain ⟨hIn, rfl⟩ := Store.row_eq_some_iff.mp hr
      cases hp : p r with
      | true => simp [Option.filter, hp]
      | false =>
          have hKept : r.id ∉ gone := by simp [hGone r hIn, hp]
          cases hq : s.payload r.id with
          | none => simp [Option.filter, hp]
          | some q =>
              have hId : q.id = r.id := key_of_lookup hq
              simp [Option.filter, hp, hId, hKept, contentOf]

/-- Clearing channels clears the contents of their messages. -/
theorem Integrity.clear_contents (h : Integrity s) {p : MqMsg → Bool} (cleared : Channel → Bool)
    (hp : ∀ r : MqMsg, p r = decide (cleared r.channel = true ∧ r.id ≠ uuidNil)) {t : Store}
    (hDelete : s.deleteMsgs p = .ok t) (id : Uuid) :
    (t.deletePayloads (s.selectedIds p)).contents id =
      (s.contents id).filter fun content => !cleared content.channel := by
  rw [deleteMsgs_contents hDelete fun r hr => Store.mem_selectedIds hr, Store.contents_eq]
  cases hr : s.row id with
  | none => rfl
  | some r =>
      obtain ⟨-, rfl⟩ := Store.row_eq_some_iff.mp hr
      cases hq : s.payload r.id with
      | none => cases hCase : p r <;> simp [Option.filter, hCase]
      | some q =>
          have hIn : r.id ∈ s.payloads.map MqPayload.id := lookup_isSome_iff.mp (by
            rw [← Store.payload, hq]
            rfl)
          have hNotNil : r.id ≠ uuidNil := ((h.payloads r.id).mp hIn).2
          have hCase : p r = cleared r.channel := by simp [hp, hNotNil]
          cases hCleared : cleared r.channel <;>
            simp [Option.filter, hCase, hCleared, contentOf]

end Lookups

section Calls

variable [JsonbCast] {s s' : Store}

theorem jsonb_eq_ok {text json : Option String} (h : jsonb text = .ok json) :
    json = text.bind JsonbCast.cast := by
  cases text with
  | none =>
      cases h
      rfl
  | some text =>
      cases hCast : JsonbCast.cast text with
      | none => simp [jsonb, hCast] at h
      | some value =>
          simp only [jsonb, hCast, Except.ok.injEq] at h
          simp [← h, hCast]

theorem insertRows_contents {now : Timestamp} {newMessages : List MqNew} {new : NewRows}
    (hNew : newRows now newMessages s = .ok new) (hInsert : insertRows s new = .ok s') :
    s'.contents = Op.onContents (.insert now newMessages) s.contents := by
  obtain ⟨hMsgs, hPayloads⟩ := insertRows_eq_ok hInsert
  funext id
  show s'.contents id = ((lookup MqNew.id newMessages id).map MqNew.content).or (s.contents id)
  cases hFound : lookup MqNew.id newMessages id with
  | none =>
      have hOther : ∀ m ∈ newMessages, m.id ≠ id := lookup_eq_none_iff.mp hFound
      have hOtherRow : lookup MqMsg.id new.msgs id = none := by
        refine lookup_eq_none_iff.mpr fun r hr hId => ?_
        obtain ⟨m, hm, previous, hRow⟩ := newRows_mem hNew hr
        rw [(newMsg_eq_ok hRow).2] at hId
        exact hOther m hm hId
      have hOtherPayload : lookup MqPayload.id new.payloads id = none := by
        refine lookup_eq_none_iff.mpr fun q hq hId => ?_
        have hIn : q.id ∈ newMessages.map MqNew.id :=
          newRows_payload_ids hNew ▸ List.mem_map_of_mem hq
        obtain ⟨m, hm, hEq⟩ := List.mem_map.mp hIn
        exact hOther m hm (hEq.trans hId)
      apply contents_of_same
      · rw [Store.row, hMsgs, lookup, List.find?_append]
        rw [lookup] at hOtherRow
        rw [hOtherRow, Option.or_none]
        rfl
      · rw [Store.payload, hPayloads, lookup, List.find?_append]
        rw [lookup] at hOtherPayload
        rw [hOtherPayload, Option.or_none]
        rfl
  | some m =>
      have hm := mem_of_lookup hFound
      obtain rfl := key_of_lookup hFound
      obtain ⟨r, hr, previous, hRow⟩ := newRows_exists hNew hm
      obtain ⟨q, hq, hPayload⟩ := evaluate_exists (newRows_eq_ok_iff.mp hNew).1 hm
      obtain ⟨json, hJson, hEq⟩ := bind_eq_ok_iff.mp hPayload
      have hRowEq := (newMsg_eq_ok hRow).2
      have hRow' : s'.row m.id = some r :=
        Store.row_eq_some_iff.mpr ⟨hMsgs ▸ List.mem_append_right _ hr, by rw [hRowEq]⟩
      have hPayload' : s'.payload m.id = some q :=
        (lookup_eq_some_iff s'.payloadsPkey).mpr
          ⟨hPayloads ▸ List.mem_append_right _ hq, by rw [← Except.ok.inj hEq]⟩
      rw [Store.contents, hRow', hPayload', ← Except.ok.inj hEq, hRowEq, jsonb_eq_ok hJson]
      rfl

theorem mqDelete_contents {msgIds : List Uuid} {notifications : List String}
    (hDelete : mqDelete msgIds s = .ok (s', notifications)) :
    s'.contents = Op.onContents (.delete msgIds) s.contents := by
  obtain ⟨-, u, hMsgs, hPayloads⟩ := mqDelete_eq_ok_iff.mp hDelete
  funext id
  rw [hPayloads, deleteMsgs_contents hMsgs (by simp)]
  show _ = if id ∈ msgIds then none else s.contents id
  rw [Store.contents_eq]
  cases hr : s.row id with
  | none => simp
  | some r =>
      obtain ⟨-, rfl⟩ := Store.row_eq_some_iff.mp hr
      by_cases hIn : r.id ∈ msgIds
      · simp [Option.filter, hIn]
      · simp [Option.filter, hIn]

theorem mqCheckpoint_contents {now : Timestamp} {msgId : Uuid} {duration : Interval}
    {newPayloadJson : Option String} {newPayloadBytes : Option (List UInt8)} {extraRetries : Option Int4}
    (hCheckpoint : mqCheckpoint now msgId duration newPayloadJson newPayloadBytes extraRetries s = .ok s') :
    s'.contents =
      Op.onContents (.checkpoint now msgId duration newPayloadJson newPayloadBytes extraRetries)
        s.contents := by
  obtain ⟨f, hMsgs, hSame, -⟩ := mqCheckpoint_eq_ok hCheckpoint
  have hRow (id : Uuid) : s'.row id = (s.row id).map f := by
    rw [Store.row, hMsgs]
    exact lookup_map f fun r => (hSame r).id
  funext id
  show s'.contents id = if id = msgId then
    (s.contents id).map (Content.checkpoint newPayloadJson newPayloadBytes) else s.contents id
  split
  · rename_i hId
    subst hId
    rw [Store.contents_eq, Store.contents_eq, hRow]
    cases hq : s.payload id with
    | none =>
        have hNone : s'.payload id = none := by
          obtain ⟨g, hPayload, -⟩ := mqCheckpoint_payload hCheckpoint
          simp [hPayload, hq]
        simp [hNone]
    | some q =>
        obtain ⟨json, hJson, hPayload⟩ := mqCheckpoint_setPayload hCheckpoint hq
        rw [hPayload, jsonb_eq_ok hJson]
        cases s.row id with
        | none => rfl
        | some r => simp [contentOf, Content.checkpoint, (hSame r).channel]
  · rename_i hOther
    apply contents_of_same
    · rw [mqCheckpoint_otherRow hCheckpoint hOther]
    · exact mqCheckpoint_otherPayload hCheckpoint hOther

/-- A successful call does to the contents what it is meant to do. -/
theorem Integrity.exec_contents (h : Integrity s) {op : Op} {reply : Reply}
    (hExec : exec op s = .ok (s', reply)) : s'.contents = op.onContents s.contents := by
  cases op with
  | insert now newMessages =>
      obtain ⟨⟨t, notifications⟩, hInsert, hEq⟩ := bind_eq_ok_iff.mp hExec
      obtain ⟨-, new, hNew, hRows⟩ := mqInsert_eq_ok_iff.mp hInsert
      cases hEq
      exact insertRows_contents hNew hRows
  | poll choice now channelNames batchSize =>
      obtain ⟨⟨t, polled⟩, hPoll, hEq⟩ := bind_eq_ok_iff.mp hExec
      obtain ⟨ids, rows, -, hUpdate, -⟩ := mqPoll_eq_ok hPoll
      obtain ⟨hMsgs, hPayloads, -⟩ := pollUpdate_eq_ok hUpdate
      cases hEq
      exact contents_of_rewrite hMsgs (updated_sameIdentity pollRow_sameIdentity _) hPayloads
  | commit msgIds =>
      cases hExec
      exact contents_of_rewrite rfl (commitRow_sameIdentity msgIds) rfl
  | delete msgIds =>
      obtain ⟨⟨t, notifications⟩, hDelete, hEq⟩ := bind_eq_ok_iff.mp hExec
      cases hEq
      exact mqDelete_contents hDelete
  | keepAlive now msgIds duration =>
      cases hExec
      exact contents_of_rewrite rfl (keepAliveRow_sameIdentity now msgIds duration) rfl
  | checkpoint now msgId duration newPayloadJson newPayloadBytes extraRetries =>
      obtain ⟨t, hCheckpoint, hEq⟩ := bind_eq_ok_iff.mp hExec
      cases hEq
      exact mqCheckpoint_contents hCheckpoint
  | clear channelNames =>
      obtain ⟨t, hClear, hEq⟩ := bind_eq_ok_iff.mp hExec
      obtain ⟨u, hMsgs, hPayloads⟩ := bind_eq_ok_iff.mp hClear
      cases hEq
      cases hPayloads
      funext id
      have hp (r : MqMsg) : decide (r.channelName ∈ channelNames ∧ r.id ≠ uuidNil) =
          decide (decide (r.channel.name ∈ channelNames) = true ∧ r.id ≠ uuidNil) := by
        rw [decide_eq_decide, decide_eq_true_eq]
        rfl
      rw [h.clear_contents (fun ch => ch.name ∈ channelNames) hp hMsgs]
      simp [Op.onContents]
  | clearAll =>
      obtain ⟨t, hClear, hEq⟩ := bind_eq_ok_iff.mp hExec
      obtain ⟨u, hMsgs, hPayloads⟩ := bind_eq_ok_iff.mp hClear
      cases hEq
      cases hPayloads
      funext id
      rw [h.clear_contents (fun _ => true) (by simp) hMsgs]
      simp [Op.onContents]

/-- A call keeps the names and channels of the contents, but for those that it
brings in. -/
theorem Op.onContents_origin {op : Op} {c : Contents} {id : Uuid} {content : Content}
    (h : op.onContents c id = some content) :
    (∃ m ∈ op.batches.flatten, m.id = id ∧ content = m.content) ∨
      ∃ before, c id = some before ∧ content.name = before.name ∧ content.channel = before.channel := by
  cases op with
  | insert now newMessages =>
      cases hFound : lookup MqNew.id newMessages id with
      | none => exact Or.inr ⟨content, by simpa [onContents, hFound] using h, rfl, rfl⟩
      | some m =>
          refine Or.inl ⟨m, ?_, key_of_lookup hFound, ?_⟩
          · simpa [Op.batches] using mem_of_lookup hFound
          · simpa [onContents, hFound, eq_comm] using h
  | delete msgIds =>
      refine Or.inr ⟨content, ?_, rfl, rfl⟩
      simp only [onContents] at h
      split at h
      · cases h
      · exact h
  | checkpoint now msgId duration newPayloadJson newPayloadBytes extraRetries =>
      simp only [onContents] at h
      split at h
      · obtain ⟨before, hBefore, rfl⟩ := Option.map_eq_some_iff.mp h
        exact Or.inr ⟨before, hBefore, rfl, rfl⟩
      · exact Or.inr ⟨content, h, rfl, rfl⟩
  | clear channelNames =>
      exact Or.inr ⟨content, (Option.filter_eq_some_iff.mp h).1, rfl, rfl⟩
  | clearAll => cases h
  | _ => exact Or.inr ⟨content, h, rfl, rfl⟩

/-- What is stored under an identifier was sent under it. -/
theorem Session.contents_inserted {migratedAt : Timestamp} {ops : List Op} {x : Session}
    (run : Run (Session.Step fun _ op => op.sparesNil) (.start migratedAt) ops x) {id : Uuid}
    {content : Content} (h : x.store.contents id = some content) :
    ∃ m ∈ x.inserted.flatten, m.id = id ∧ m.name = content.name ∧ m.channel = content.channel := by
  induction run generalizing content with
  | refl =>
      have hNone : (Session.start migratedAt).store.payload id = none := rfl
      simp [Store.contents_eq, hNone] at h
  | @snoc ops x y op prior last ih =>
      obtain ⟨-, rfl⟩ := last
      have hIntegrity : Integrity x.store := (Session.run_integrity prior fun _ _ _ hOp => hOp).1
      cases hExec : exec op x.store with
      | error e =>
          simp only [Session.call, hExec] at h ⊢
          exact ih h
      | ok result =>
          obtain ⟨s', reply⟩ := result
          rw [Session.call_eq hExec] at h ⊢
          rw [hIntegrity.exec_contents hExec] at h
          rw [List.flatten_append]
          rcases Op.onContents_origin h with ⟨m, hm, hId, rfl⟩ | ⟨before, hBefore, hName, hChannel⟩
          · exact ⟨m, List.mem_append_right _ hm, hId, rfl, rfl⟩
          · obtain ⟨m, hm, hId, hSent, hSentTo⟩ := ih hBefore
            exact ⟨m, List.mem_append_left _ hm, hId, hSent.trans hName.symm, hSentTo.trans hChannel.symm⟩

/-- The rows of a poll carry what the store holds for their messages. -/
theorem Integrity.polled_contents (h : Integrity s) {op : Op} {reply : Reply}
    (hExec : exec op s = .ok (s', reply)) {m : PolledMessage} (hm : m ∈ reply.polled) {id : Uuid}
    (hId : m.id = some id) : ∃ content, s.contents id = some content ∧
      m.name = some content.name ∧ m.payloadJson = content.payloadJson ∧
      m.payloadBytes = content.payloadBytes := by
  obtain ⟨choice, now, channelNames, batchSize, -, hPoll⟩ := exec_polled hExec hm
  obtain ⟨r, hr, rfl, hReady, r', -, hRow, rfl⟩ := mqPoll_polled hPoll hm hId
  have hSame := (pollRow_sameIdentity _ _ hRow).id
  obtain ⟨content, hContent⟩ := Option.isSome_iff_exists.mp
    (h.contents_isSome_iff.mpr ⟨Store.mem_ids_of_mem hr, hReady.notNil⟩)
  refine ⟨content, hContent, ?_⟩
  rw [Store.contents_eq, Store.row_of_mem hr, Option.bind_some, Option.map_eq_some_iff] at hContent
  obtain ⟨q, hq, rfl⟩ := hContent
  simp [returning, hSame, hq, contentOf]

/-- Those calls of a sequence that succeed. -/
def acceptedOps : List Op → Session → List Op
  | [], _ => []
  | op :: rest, x => match exec op x.store with
      | .ok _ => op :: acceptedOps rest (x.call op)
      | .error _ => acceptedOps rest (x.call op)

theorem acceptedOps_append (ops more : List Op) (x : Session) :
    acceptedOps (ops ++ more) x =
      acceptedOps ops x ++ acceptedOps more (ops.foldl (fun x op => x.call op) x) := by
  induction ops generalizing x with
  | nil => rfl
  | cons op rest ih =>
      cases hExec : exec op x.store <;> simp [acceptedOps, hExec, ih]

theorem Session.run_eq_foldl {allowed : Session → Op → Prop} {x y : Session} {ops : List Op}
    (run : Run (Session.Step allowed) x ops y) : y = ops.foldl (fun x op => x.call op) x := by
  induction run with
  | refl => rfl
  | snoc prior last ih =>
      obtain ⟨-, rfl⟩ := last
      rw [List.foldl_append, ← ih]
      rfl

/-- The queue stores what it is given. In every reachable state its contents
are what the accepted calls make of none at all, one after another; `exists`
tells which messages have contents, and polls return nothing else. -/
theorem reachable_contents {migratedAt : Timestamp} {ops : List Op} {x : Session}
    (run : Run (Session.Step fun _ op => op.sparesNil) (.start migratedAt) ops x) :
    x.store.contents = (acceptedOps ops (.start migratedAt)).foldl (fun c op => op.onContents c)
      (fun _ => none) ∧
    (∀ id, jobExists id x.store = true ↔ (x.store.contents id).isSome ∨ id = uuidNil) ∧
    ∀ op s' reply, exec op x.store = .ok (s', reply) → ∀ m ∈ reply.polled, ∀ id, m.id = some id →
      ∃ content, x.store.contents id = some content ∧ m.name = some content.name ∧
        m.payloadJson = content.payloadJson ∧ m.payloadBytes = content.payloadBytes := by
  have h : Integrity x.store := (Session.run_integrity run fun _ _ _ hOp => hOp).1
  refine ⟨?_, fun id => ?_, fun op s' reply hExec m hm id hId => h.polled_contents hExec hm hId⟩
  · clear h
    induction run with
    | refl =>
        funext id
        have hNone : (Session.start migratedAt).store.payload id = none := rfl
        simp [Store.contents_eq, hNone, acceptedOps]
    | @snoc ops x y op prior last ih =>
        obtain ⟨-, rfl⟩ := last
        have h : Integrity x.store := (Session.run_integrity prior fun _ _ _ hOp => hOp).1
        rw [acceptedOps_append, ← Session.run_eq_foldl prior, List.foldl_append, ← ih]
        cases hExec : exec op x.store with
        | error e => simp [acceptedOps, Session.call, hExec]
        | ok result =>
            obtain ⟨s', reply⟩ := result
            rw [Session.call_eq hExec]
            simpa [acceptedOps, hExec] using h.exec_contents hExec
  · have hStored : jobExists id x.store = true ↔ id ∈ x.store.ids := by
      simp [jobExists, Store.ids]
    rw [hStored, h.contents_isSome_iff]
    constructor
    · intro hIn
      by_cases hNil : id = uuidNil
      · exact Or.inr hNil
      · exact Or.inl ⟨hIn, hNil⟩
    · rintro (⟨hIn, -⟩ | rfl)
      · exact hIn
      · exact h.nil_mem_ids

end Calls

/-- A checkpoint of the second of two messages. -/
theorem reachable_contents_of_two :
    let _ : JsonbCast := .nullOnly
    let ops : List Op := [.insert 0 [(JobBuilder.newWithId 1 "job").message,
      (JobBuilder.newWithId 2 "job").message], .checkpoint 0 2 0 (some "null") none none]
    let x := ops.foldl (fun x op => Session.call op x) (.start 0)
    acceptedOps ops (.start 0) = ops ∧ x.store.contents =
      (acceptedOps ops (.start 0)).foldl (fun c op => op.onContents c) fun _ => none := by
  intro _ ops x
  have run : Run (Session.Step fun _ op => op.sparesNil) (.start 0) ops x :=
    .cons ⟨trivial, rfl⟩ (.cons ⟨trivial, rfl⟩ .refl)
  exact ⟨by rfl, (reachable_contents run).1⟩

end Sqlxmq
