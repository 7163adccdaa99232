import Sqlxmq.Database.Delete
import Sqlxmq.Database.Poll
import Sqlxmq.Library.LabelledRun

/-! The functions of the database as transactions. A call that fails is
rolled back, so the store it leaves behind is the one it found. -/
namespace Sqlxmq

open KeyedTable LabelledRun

/-- A call of one of the database functions, with the value of `NOW()`
where the function reads it. -/
inductive Op where
  | insert (now : Timestamp) (newMessages : List MqNew)
  | poll (choice : PollChoice) (now : Timestamp) (channelNames : Option (List String))
      (batchSize : Int4)
  | commit (msgIds : List Uuid)
  | delete (msgIds : List Uuid)
  | keepAlive (now : Timestamp) (msgIds : List Uuid) (duration : Interval)
  | checkpoint (now : Timestamp) (msgId : Uuid) (duration : Interval)
      (newPayloadJson : Option String) (newPayloadBytes : Option (List UInt8))
      (extraRetries : Option Int4)
  | clear (channelNames : List String)
  | clearAll

/-- A poll for one message of any channel, in physical order. -/
def Op.pollOne (now : Timestamp) : Op := .poll .physical now none ⟨1, by decide, by decide⟩

/-- The rows that clearing removes. -/
def Op.clears : Op → Option (MqMsg → Bool)
  | .clear channelNames => some fun r => r.channelName ∈ channelNames ∧ r.id ≠ uuidNil
  | .clearAll => some fun r => r.id ≠ uuidNil
  | _ => none

/-- Calls that neither add nor remove rows. -/
def Op.inPlace : Op → Bool
  | .poll .. | .commit _ | .keepAlive .. | .checkpoint .. => true
  | _ => false

/-- What a call shows to the outside: the notifications sent on commit and
the rows returned. -/
structure Reply where
  notifications : List String
  polled : List PolledMessage
deriving DecidableEq

def Reply.silent : Reply := ⟨[], []⟩

/-- A row keeps its channel, and it stays ordered or unordered. Its link may
be handed over to the nil row. -/
structure Continues (r r' : MqMsg) : Prop where
  id : r'.id = r.id
  channel : r'.channel = r.channel
  link : r'.afterMessageId = r.afterMessageId ∨
    r.afterMessageId ≠ none ∧ r'.afterMessageId = some uuidNil

theorem Continues.isSome {r r' : MqMsg} (h : Continues r r') :
    r'.afterMessageId.isSome = r.afterMessageId.isSome := by
  rcases h.link with hSame | ⟨hOld, hNew⟩
  · rw [hSame]
  · rw [hNew, Option.isSome_some, Option.isSome_iff_ne_none.mpr hOld]

/-- A message that nothing precedes is never put behind another one. -/
theorem Continues.first {r r' : MqMsg} (h : Continues r r')
    (hFirst : mqUuidExists r.afterMessageId = false) :
    mqUuidExists r'.afterMessageId = false := by
  rcases h.link with hSame | ⟨-, hNew⟩
  · rwa [hSame]
  · rw [hNew]
    rfl

theorem setDefault_continues (gone : List Uuid) (r : MqMsg) : Continues r (setDefault gone r) := by
  refine ⟨setDefault_id gone r, setDefault_channel gone r, ?_⟩
  rw [setDefault_afterMessageId]
  cases r.afterMessageId with
  | none => exact Or.inl rfl
  | some a =>
      by_cases ha : a ∈ gone
      · exact Or.inr ⟨by simp, by simp [ha]⟩
      · exact Or.inl (by simp [ha])

section Exec

variable [JsonbCast]

def exec (op : Op) (s : Store) : Except DbError (Store × Reply) :=
  match op with
  | .insert now newMessages => do
      let (s', notifications) ← mqInsert now newMessages s
      .ok (s', ⟨notifications, []⟩)
  | .poll choice now channelNames batchSize => do
      let (s', polled) ← mqPoll choice now channelNames batchSize s
      .ok (s', ⟨[], polled⟩)
  | .commit msgIds => .ok (mqCommit msgIds s, .silent)
  | .delete msgIds => do
      let (s', notifications) ← mqDelete msgIds s
      .ok (s', ⟨notifications, []⟩)
  | .keepAlive now msgIds duration => .ok (mqKeepAlive now msgIds duration s, .silent)
  | .checkpoint now msgId duration newPayloadJson newPayloadBytes extraRetries => do
      let s' ← mqCheckpoint now msgId duration newPayloadJson newPayloadBytes extraRetries s
      .ok (s', .silent)
  | .clear channelNames => do
      let s' ← mqClear channelNames s
      .ok (s', .silent)
  | .clearAll => do
      let s' ← mqClearAll s
      .ok (s', .silent)

theorem exec_poll {choice : PollChoice} {now : Timestamp} {channelNames : Option (List String)}
    {batchSize : Int4} {s s' : Store} {polled : List PolledMessage}
    (h : mqPoll choice now channelNames batchSize s = .ok (s', polled)) :
    exec (.poll choice now channelNames batchSize) s = .ok (s', ⟨[], polled⟩) := by
  simp [exec, h, bind, Except.bind]

/-- One call as a transaction of its own. -/
def transact (op : Op) (s : Store) : Store × Except DbError Reply :=
  match exec op s with
  | .ok (s', reply) => (s', .ok reply)
  | .error e => (s, .error e)

/-- The store and the reply after a poll for one message. -/
def Store.pollOne (now : Timestamp) (s : Store) : Store × Reply :=
  (exec (.pollOne now) s).toOption.getD (s, .silent)

theorem Store.pollOne_eq {now : Timestamp} {s : Store}
    (h : (exec (.pollOne now) s).toOption.isSome) :
    exec (.pollOne now) s = .ok (s.pollOne now) :=
  eq_ok_getD_of_isSome h _

/-- A property kept by successful calls is kept by every call. -/
theorem transact_keeps {P : Store → Prop} {op : Op} {s : Store} (hs : P s)
    (h : ∀ s' reply, exec op s = .ok (s', reply) → P s') : P (transact op s).1 := by
  cases hExec : exec op s with
  | error e => simpa [transact, hExec] using hs
  | ok result => simpa [transact, hExec] using h result.1 result.2 hExec

/-- How a successful call changes the tables. Polling, committing, keeping
alive and checkpointing only rewrite rows in place. -/
inductive Effect (s s' : Store) : Op → Reply → Prop where
  | insert {now : Timestamp} {newMessages : List MqNew} {reply : Reply} {new : NewRows}
      (notified : pgNotify (groups MqNew.channelName newMessages) = .ok reply.notifications)
      (prepared : newRows now newMessages s = .ok new) (inserted : insertRows s new = .ok s') :
      Effect s s' (.insert now newMessages) reply
  | delete {msgIds : List Uuid} {reply : Reply} {t : Store}
      (notified : pgNotify (groups MqMsg.channelName (announced msgIds s)) =
        .ok reply.notifications)
      (deleted : s.deleteMsgs (·.id ∈ msgIds) = .ok t) (payloads : s' = t.deletePayloads msgIds) :
      Effect s s' (.delete msgIds) reply
  | clear {op : Op} {reply : Reply} {t : Store} {p : MqMsg → Bool} (selects : op.clears = some p)
      (deleted : s.deleteMsgs p = .ok t) (payloads : s' = t.deletePayloads (s.selectedIds p))
      (silent : reply = .silent) : Effect s s' op reply
  | rewrite {op : Op} {reply : Reply} {f : MqMsg → MqMsg} (inPlace : op.inPlace = true)
      (msgs : s'.msgs = s.msgs.map f) (same : ∀ r, MqMsg.SameIdentity r (f r))
      (payloads : s'.payloads.map MqPayload.id = s.payloads.map MqPayload.id)
      (silent : reply.notifications = []) : Effect s s' op reply

theorem exec_effect {op : Op} {s s' : Store} {reply : Reply} (h : exec op s = .ok (s', reply)) :
    Effect s s' op reply := by
  cases op with
  | insert now newMessages =>
      obtain ⟨⟨t, notifications⟩, hInsert, hEq⟩ := bind_eq_ok_iff.mp h
      obtain ⟨hNotes, new, hNew, hRows⟩ := mqInsert_eq_ok_iff.mp hInsert
      cases hEq
      exact .insert hNotes hNew hRows
  | poll choice now channelNames batchSize =>
      obtain ⟨⟨t, polled⟩, hPoll, hEq⟩ := bind_eq_ok_iff.mp h
      obtain ⟨ids, rows, -, hUpdate, -⟩ := mqPoll_eq_ok hPoll
      obtain ⟨hMsgs, hPayloads, -⟩ := pollUpdate_eq_ok hUpdate
      cases hEq
      exact .rewrite rfl hMsgs (updated_sameIdentity pollRow_sameIdentity _) (by rw [hPayloads]) rfl
  | commit msgIds =>
      cases h
      exact .rewrite rfl rfl (commitRow_sameIdentity msgIds) rfl rfl
  | delete msgIds =>
      obtain ⟨⟨t, notifications⟩, hDelete, hEq⟩ := bind_eq_ok_iff.mp h
      obtain ⟨hNotes, u, hMsgs, hPayloads⟩ := mqDelete_eq_ok_iff.mp hDelete
      cases hEq
      exact .delete hNotes hMsgs hPayloads
  | keepAlive now msgIds duration =>
      cases h
      exact .rewrite rfl rfl (keepAliveRow_sameIdentity now msgIds duration) rfl rfl
  | checkpoint now msgId duration newPayloadJson newPayloadBytes extraRetries =>
      obtain ⟨t, hCheckpoint, hEq⟩ := bind_eq_ok_iff.mp h
      obtain ⟨f, hMsgs, hSame, _, _, hPayloads⟩ := mqCheckpoint_eq_ok hCheckpoint
      cases hEq
      exact .rewrite rfl hMsgs hSame hPayloads rfl
  | clear channelNames =>
      obtain ⟨t, hClear, hEq⟩ := bind_eq_ok_iff.mp h
      obtain ⟨u, hMsgs, hPayloads⟩ := bind_eq_ok_iff.mp hClear
      cases hEq
      cases hPayloads
      exact .clear rfl hMsgs rfl rfl
  | clearAll =>
      obtain ⟨t, hClear, hEq⟩ := bind_eq_ok_iff.mp h
      obtain ⟨u, hMsgs, hPayloads⟩ := bind_eq_ok_iff.mp hClear
      cases hEq
      cases hPayloads
      exact .clear rfl hMsgs rfl rfl

/-- Every row after a call continues a row from before it or belongs to a
newly inserted message. -/
theorem exec_row_origin {op : Op} {s s' : Store} {reply : Reply} (h : exec op s = .ok (s', reply))
    {r' : MqMsg} (hr' : r' ∈ s'.msgs) :
    (∃ r ∈ s.msgs, Continues r r') ∨ ∃ now newMessages, op = .insert now newMessages ∧
      ∃ m ∈ newMessages, ∃ previous, newMsg now (m, previous) = .ok r' := by
  cases exec_effect h with
  | insert notified prepared inserted =>
      rw [(insertRows_eq_ok inserted).1] at hr'
      rcases List.mem_append.mp hr' with hOld | hNew
      · exact Or.inl ⟨r', hOld, rfl, rfl, Or.inl rfl⟩
      · exact Or.inr ⟨_, _, rfl, newRows_mem prepared hNew⟩
  | delete notified deleted payloads =>
      rw [payloads, Store.deletePayloads_msgs, (Store.deleteMsgs_eq_ok deleted).1] at hr'
      obtain ⟨r, hr, rfl⟩ := List.mem_map.mp hr'
      exact Or.inl ⟨r, (List.mem_filter.mp hr).1, setDefault_continues _ r⟩
  | clear selects deleted payloads silent =>
      rw [payloads, Store.deletePayloads_msgs, (Store.deleteMsgs_eq_ok deleted).1] at hr'
      obtain ⟨r, hr, rfl⟩ := List.mem_map.mp hr'
      exact Or.inl ⟨r, (List.mem_filter.mp hr).1, setDefault_continues _ r⟩
  | rewrite inPlace msgs same payloads silent =>
      rw [msgs] at hr'
      obtain ⟨r, hr, rfl⟩ := List.mem_map.mp hr'
      exact Or.inl ⟨r, hr, (same r).id, (same r).channel, Or.inl (same r).afterMessageId⟩

/-- Only polls return rows. -/
theorem exec_polled {op : Op} {s s' : Store} {reply : Reply} (h : exec op s = .ok (s', reply))
    {m : PolledMessage} (hm : m ∈ reply.polled) :
    ∃ choice now channelNames batchSize, op = .poll choice now channelNames batchSize ∧
      mqPoll choice now channelNames batchSize s = .ok (s', reply.polled) := by
  cases op with
  | poll choice now channelNames batchSize =>
      obtain ⟨⟨t, polled⟩, hPoll, hEq⟩ := bind_eq_ok_iff.mp h
      cases hEq
      exact ⟨choice, now, channelNames, batchSize, rfl, hPoll⟩
  | commit msgIds =>
      cases h
      simp [Reply.silent] at hm
  | keepAlive now msgIds duration =>
      cases h
      simp [Reply.silent] at hm
  | _ =>
      obtain ⟨_, -, hEq⟩ := bind_eq_ok_iff.mp h
      cases hEq
      simp [Reply.silent] at hm

end Exec

/-- The messages a call brings in. -/
def Op.batches : Op → List (List MqNew)
  | .insert _ newMessages => [newMessages]
  | _ => []

/-- A store with its history: the batches inserted so far and the replies
of all calls, oldest first. -/
structure Session where
  store : Store
  inserted : List (List MqNew)
  replies : List Reply

namespace Session

def start (migratedAt : Timestamp) : Session := ⟨.initial migratedAt, [], []⟩

/-- The identifiers that some poll has returned. -/
def delivered (x : Session) : List Uuid :=
  x.replies.flatMap fun reply => reply.polled.filterMap PolledMessage.id

theorem mem_delivered_append {s : Store} {inserted : List (List MqNew)} {replies : List Reply}
    {reply : Reply} {id : Uuid} :
    id ∈ delivered ⟨s, inserted, replies ++ [reply]⟩ ↔
      id ∈ delivered ⟨s, inserted, replies⟩ ∨ ∃ m ∈ reply.polled, m.id = some id := by
  simp [delivered]

/-- The identifiers that were ever used for a message. -/
def usedIds (x : Session) : List Uuid := x.inserted.flatten.map MqNew.id

variable [JsonbCast]

/-- One transaction. A failed call leaves no trace. -/
def call (op : Op) (x : Session) : Session :=
  match exec op x.store with
  | .ok (s', reply) => ⟨s', x.inserted ++ op.batches, x.replies ++ [reply]⟩
  | .error _ => x

theorem call_eq {op : Op} {x : Session} {s' : Store} {reply : Reply}
    (h : exec op x.store = .ok (s', reply)) :
    x.call op = ⟨s', x.inserted ++ op.batches, x.replies ++ [reply]⟩ := by
  simp [call, h]

/-- A transaction that the clients may issue in this state. -/
def Step (allowed : Session → Op → Prop) (x : Session) (op : Op) (y : Session) : Prop :=
  allowed x op ∧ y = x.call op

/-- What successful calls preserve, every run preserves. -/
theorem run_invariant {allowed : Session → Op → Prop} {P : Session → Prop} {x y : Session}
    {ops : List Op} (run : Run (Step allowed) x ops y) (hStart : P x)
    (hStep : ∀ x op s' reply, P x → allowed x op → exec op x.store = .ok (s', reply) →
      P ⟨s', x.inserted ++ op.batches, x.replies ++ [reply]⟩) : P y := by
  refine run.invariant hStart ?_
  rintro x op _ hx ⟨hAllowed, rfl⟩
  unfold call
  split
  · exact hStep _ _ _ _ hx hAllowed ‹_›
  · exact hx

end Session

end Sqlxmq
