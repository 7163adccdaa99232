import Mathlib.Data.List.MinMax
import Mathlib.Data.List.Sort
import Sqlxmq.Database.Update

/-! Polling. The database is free to order active channels at random, to
order ties of a sort, and to produce the rows of a join in any order. These
freedoms are an argument of the model, so a result holds for all of them. -/
namespace Sqlxmq

open KeyedTable SqlNull

/-- `ORDER BY attempt_at ASC`, with NULL last. -/
def MqMsg.attemptsBefore (a b : MqMsg) : Prop :=
  ∀ t ∈ b.attemptAt, isLe a.attemptAt t

/-- What the database may choose during one poll. -/
structure PollChoice where
  /-- `ORDER BY RANDOM()` -/
  shuffle : List Channel → List Channel
  shuffle_perm : ∀ l, (shuffle l).Perm l
  /-- `ORDER BY attempt_at ASC` -/
  sort : List MqMsg → List MqMsg
  sort_perm : ∀ l, (sort l).Perm l
  sort_sorted : ∀ l, (sort l).Pairwise MqMsg.attemptsBefore
  /-- The order in which the lateral join produces its rows. -/
  join : List Uuid → List Uuid
  join_perm : ∀ l, (join l).Perm l

instance : DecidableRel MqMsg.attemptsBefore := fun a b =>
  match h : b.attemptAt with
  | none => isTrue (by simp [MqMsg.attemptsBefore, h])
  | some t => decidable_of_iff (isLe a.attemptAt t = true) (by simp [MqMsg.attemptsBefore, h])

theorem MqMsg.attemptsBefore_total (a b : MqMsg) : a.attemptsBefore b ∨ b.attemptsBefore a := by
  cases ha : a.attemptAt with
  | none => exact Or.inr (by simp [attemptsBefore, ha])
  | some x =>
      cases hb : b.attemptAt with
      | none => exact Or.inl (by simp [attemptsBefore, hb])
      | some y => simpa [attemptsBefore, ha, hb, isLe] using le_total x y

theorem MqMsg.attemptsBefore_trans (a b c : MqMsg) (hab : a.attemptsBefore b)
    (hbc : b.attemptsBefore c) : a.attemptsBefore c := by
  intro t ht
  obtain ⟨y, hy, hyt⟩ := isLe_iff.mp (hbc t ht)
  obtain ⟨x, hx, hxy⟩ := isLe_iff.mp (hab y hy)
  exact isLe_iff.mpr ⟨x, hx, hxy.trans hyt⟩

/-- A database that keeps the physical order wherever it may choose. -/
def PollChoice.physical : PollChoice where
  shuffle := id
  shuffle_perm := fun _ => .refl _
  sort := List.insertionSort MqMsg.attemptsBefore
  sort_perm := List.perm_insertionSort _
  sort_sorted := by
    have : Std.Total MqMsg.attemptsBefore := ⟨MqMsg.attemptsBefore_total⟩
    have : IsTrans MqMsg MqMsg.attemptsBefore := ⟨MqMsg.attemptsBefore_trans⟩
    exact List.pairwise_insertionSort _
  join := id
  join_perm := fun _ => .refl _

/-- `LIMIT n` -/
def limit {α : Type*} (n : Int4) (rows : List α) : Except DbError (List α) :=
  if n.val < 0 then .error .invalidRowCountInLimitClause else .ok (rows.take n.val.toNat)

theorem limit_eq_ok_iff {α : Type*} {n : Int4} {rows out : List α} :
    limit n rows = .ok out ↔ 0 ≤ n.val ∧ out = rows.take n.val.toNat := by
  unfold limit
  split <;> simp_all [eq_comm]

/-- `channel_names IS NULL OR channel_name = ANY(channel_names)` -/
def channelSelected (channelNames : Option (List String)) (channelName : String) : Bool :=
  match channelNames with
  | none => true
  | some names => channelName ∈ names

/-- Randomly select a set of channels with "ready" messages. -/
def mqActiveChannels (choice : PollChoice) (now : Timestamp) (channelNames : Option (List String))
    (batchSize : Int4) (s : Store) : Except DbError (List Channel) :=
  limit batchSize <| choice.shuffle <| groups MqMsg.channel <| s.msgs.filter fun r =>
    r.id ≠ uuidNil ∧ isLe r.attemptAt now ∧ channelSelected channelNames r.channelName ∧
      !mqUuidExists r.afterMessageId

/-- The lateral subquery: the ready messages of one active channel. -/
def readyMessages (choice : PollChoice) (now : Timestamp) (batchSize : Int4) (s : Store)
    (activeChannel : Channel) : Except DbError (List Uuid) := do
  let msgs ← limit batchSize <| choice.sort <| s.msgs.filter fun r =>
    r.id ≠ uuidNil ∧ isLe r.attemptAt now ∧ r.channelName = activeChannel.name ∧
      r.channelArgs = activeChannel.args ∧ !mqUuidExists r.afterMessageId
  .ok (msgs.map MqMsg.id)

/-- The subquery whose rows are updated. -/
def messagesToUpdate (choice : PollChoice) (now : Timestamp) (channelNames : Option (List String))
    (batchSize : Int4) (s : Store) : Except DbError (List Uuid) := do
  let activeChannels ← mqActiveChannels choice now channelNames batchSize s
  let msgs ← evaluate (readyMessages choice now batchSize s) activeChannels
  limit batchSize (choice.join msgs.flatten)

/-- `CASE WHEN attempts = 1 THEN NULL ELSE NOW() + retry_backoff END` -/
def nextAttempt (now : Timestamp) (r : MqMsg) : Except DbError (Option Timestamp) :=
  if r.attempts.val = 1 then .ok none else (Timestamp.ofInt (now + r.retryBackoff)).map some

/-- The SET clause of the update in `mq_poll`. -/
def pollRow (now : Timestamp) (r : MqMsg) : Except DbError MqMsg := do
  let attemptAt ← nextAttempt now r
  let attempts ← Int4.ofInt (r.attempts.val - 1)
  let retryBackoff ← Interval.timesTwo r.retryBackoff
  .ok { r with attemptAt, attempts, retryBackoff }

/-- The SET clause succeeds on this row: there is an attempt to take, a time
for the next one and twice the backoff. -/
structure Pollable (now : Timestamp) (r : MqMsg) : Prop where
  attempts : r.attempts.val ≠ -2 ^ 31
  fits : r.attempts.val ≠ 1 → Timestamp.Fits (now + r.retryBackoff)
  doubles : Interval.Doubles r.retryBackoff

instance (now : Timestamp) (r : MqMsg) : Decidable (Pollable now r) :=
  decidable_of_iff (r.attempts.val ≠ -2 ^ 31 ∧
      (r.attempts.val ≠ 1 → Timestamp.Fits (now + r.retryBackoff)) ∧
      Interval.Doubles r.retryBackoff)
    ⟨fun h => ⟨h.1, h.2.1, h.2.2⟩, fun h => ⟨h.attempts, h.fits, h.doubles⟩⟩

/-- A row that a poll could update early and late, it can at any time between. -/
theorem Pollable.between {t now u : Timestamp} {r : MqMsg} (h : Pollable t r) (h' : Pollable u r)
    (hFrom : t ≤ now) (hTo : now ≤ u) : Pollable now r where
  attempts := h.attempts
  fits := by
    intro hMore
    have hLower := (h.fits hMore).1
    have hUpper := (h'.fits hMore).2
    exact ⟨hLower.trans (Int.add_le_add_right hFrom _),
      (Int.add_le_add_right hTo _).trans_lt hUpper⟩
  doubles := h.doubles

theorem nextAttempt_eq_ok_iff {now : Timestamp} {r : MqMsg} {attemptAt : Option Timestamp} :
    nextAttempt now r = .ok attemptAt ↔
      (r.attempts.val ≠ 1 → Timestamp.Fits (now + r.retryBackoff)) ∧
        attemptAt = if r.attempts.val = 1 then none else some (now + r.retryBackoff) := by
  unfold nextAttempt
  split
  · simp [*, eq_comm]
  · rename_i hMore
    constructor
    · intro h
      cases hSum : Timestamp.ofInt (now + r.retryBackoff) with
      | error e =>
          rw [hSum] at h
          cases h
      | ok deadline =>
          obtain ⟨hFits, rfl⟩ := Timestamp.ofInt_eq_ok_iff.mp hSum
          rw [hSum] at h
          exact ⟨fun _ => hFits, (Except.ok.inj h).symm⟩
    · rintro ⟨hFits, rfl⟩
      rw [Timestamp.ofInt_eq_ok_iff.mpr ⟨hFits hMore, rfl⟩]
      rfl

theorem pollRow_eq_ok_iff {now : Timestamp} {r r' : MqMsg} :
    pollRow now r = .ok r' ↔ Pollable now r ∧ r'.attempts.val = r.attempts.val - 1 ∧
      r' = { r with
        attemptAt := if r.attempts.val = 1 then none else some (now + r.retryBackoff)
        attempts := r'.attempts
        retryBackoff := r.retryBackoff * 2 } := by
  constructor
  · intro h
    obtain ⟨attemptAt, hNext, h⟩ := bind_eq_ok_iff.mp h
    obtain ⟨attempts, hAttempts, h⟩ := bind_eq_ok_iff.mp h
    obtain ⟨retryBackoff, hBackoff, h⟩ := bind_eq_ok_iff.mp h
    obtain rfl := Except.ok.inj h
    obtain ⟨hFits, rfl⟩ := nextAttempt_eq_ok_iff.mp hNext
    obtain ⟨hDoubles, rfl⟩ := Interval.timesTwo_eq_ok_iff.mp hBackoff
    have hLess := Int4.ofInt_eq_ok_iff.mp hAttempts
    refine ⟨⟨fun hMin => ?_, hFits, hDoubles⟩, hLess, rfl⟩
    have hLower := attempts.lower
    omega
  · rintro ⟨h, hAttempts, hRow⟩
    rw [pollRow, nextAttempt_eq_ok_iff.mpr ⟨h.fits, rfl⟩, Int4.ofInt_eq_ok_iff.mpr hAttempts,
      Interval.timesTwo_eq_ok_iff.mpr ⟨h.doubles, rfl⟩]
    exact congrArg Except.ok hRow.symm

theorem pollRow_eq_ok {now : Timestamp} {r r' : MqMsg} (h : pollRow now r = .ok r') :
    r'.attempts.val = r.attempts.val - 1 ∧
      r' = { r with
        attemptAt := if r.attempts.val = 1 then none else some (now + r.retryBackoff)
        attempts := r'.attempts
        retryBackoff := r.retryBackoff * 2 } :=
  (pollRow_eq_ok_iff.mp h).2

theorem pollRow_total_iff {now : Timestamp} {r : MqMsg} :
    (∃ r', pollRow now r = .ok r') ↔ Pollable now r := by
  constructor
  · rintro ⟨r', hRow⟩
    exact (pollRow_eq_ok_iff.mp hRow).1
  · intro h
    have hLower := r.attempts.lower
    have hUpper := r.attempts.upper
    have hMin := h.attempts
    let attempts : Int4 := ⟨r.attempts.val - 1, by omega, by omega⟩
    exact ⟨{ r with
      attemptAt := if r.attempts.val = 1 then none else some (now + r.retryBackoff)
      attempts := attempts
      retryBackoff := r.retryBackoff * 2 }, pollRow_eq_ok_iff.mpr ⟨h, rfl, rfl⟩⟩

theorem pollRow_sameIdentity {now : Timestamp} (r r' : MqMsg) (h : pollRow now r = .ok r') :
    r.SameIdentity r' := by
  rw [(pollRow_eq_ok h).2]
  exact ⟨rfl, rfl, rfl, rfl, rfl⟩

/-- A row returned by `mq_poll`. -/
structure PolledMessage where
  id : Option Uuid
  isCommitted : Option Bool
  name : Option String
  payloadJson : Option String
  payloadBytes : Option (List UInt8)
  retryBackoff : Option Interval
  waitTime : Option Interval
deriving DecidableEq

/-- The RETURNING list, for the new version of a row. -/
def returning (s : Store) (r : MqMsg) : PolledMessage :=
  let payload := s.payload r.id
  { id := some r.id
    isCommitted := some (r.commitInterval = none)
    name := payload.map MqPayload.name
    payloadJson := payload.bind MqPayload.payloadJson
    payloadBytes := payload.bind MqPayload.payloadBytes
    retryBackoff := some (r.retryBackoff / 2)
    waitTime := some 0 }

/-- `MIN(attempt_at) - NOW()` over the messages that only time holds back. -/
def waitTime (now : Timestamp) (channelNames : Option (List String)) (s : Store) :
    Option Interval :=
  ((s.msgs.filter fun r => r.id ≠ uuidNil ∧ !mqUuidExists r.afterMessageId ∧
    channelSelected channelNames r.channelName).filterMap MqMsg.attemptAt).min?.map (· - now)

/-- The single row of a poll that finds no message. -/
def waitRow (now : Timestamp) (channelNames : Option (List String)) (s : Store) : PolledMessage :=
  { id := none, isCommitted := none, name := none, payloadJson := none, payloadBytes := none
    retryBackoff := none, waitTime := waitTime now channelNames s }

/-- The WHERE clause of the update, with its re-check of the deadline. -/
def pollSelects (now : Timestamp) (ids : List Uuid) (r : MqMsg) : Bool :=
  r.id ∈ ids ∧ isLe r.attemptAt now

/-- The update of a poll, for some of its candidates. What it returns of
payloads is read from the snapshot of the statement. -/
def pollUpdate (snapshot : Store) (now : Timestamp) (ids : List Uuid) (s : Store) :
    Except DbError (Store × List PolledMessage) := do
  let s' ← s.updateMsgs (pollSelects now ids) (pollRow now) pollRow_sameIdentity
  .ok (s', (s.msgs.filter (pollSelects now ids)).map fun r =>
    returning snapshot (updated (pollSelects now ids) (pollRow now) r))

/-- Main entry-point for job runner: pulls a batch of messages from the
queue. -/
def mqPoll (choice : PollChoice) (now : Timestamp) (channelNames : Option (List String))
    (batchSize : Int4) (s : Store) : Except DbError (Store × List PolledMessage) := do
  let ids ← messagesToUpdate choice now channelNames batchSize s
  let (s', polled) ← pollUpdate s now ids s
  .ok (s', if polled = [] then [waitRow now channelNames s'] else polled)

/-- The rows of a result that belong to one message. -/
def returnedFor (id : Uuid) (polled : List PolledMessage) : List PolledMessage :=
  polled.filter fun m => m.id = some id

@[simp] theorem returnedFor_nil (id : Uuid) : returnedFor id [] = [] := rfl

theorem returnedFor_eq_nil_iff {id : Uuid} {polled : List PolledMessage} :
    returnedFor id polled = [] ↔ ∀ m ∈ polled, m.id ≠ some id := by
  simp [returnedFor, List.filter_eq_nil_iff]

/-- Whatever an update of polled rows selects, it updates and returns a message
once, or neither. -/
theorem updateMsgs_returning {p : MqMsg → Bool} {now : Timestamp} {s s' : Store}
    (h : s.updateMsgs p (pollRow now) pollRow_sameIdentity = .ok s') (snapshot : Store) (id : Uuid) :
    let polled := (s.msgs.filter p).map fun r => returning snapshot (updated p (pollRow now) r)
    (∃ r r', s.row id = some r ∧ s'.row id = some r' ∧ p r = true ∧ pollRow now r = .ok r' ∧
        returnedFor id polled = [returning snapshot r']) ∨
      ((∀ r, s.row id = some r → p r = false) ∧ s'.row id = s.row id ∧ returnedFor id polled = []) := by
  intro polled
  obtain ⟨hMsgs, -, hSame, hOk⟩ := Store.updateMsgs_eq_ok h
  have hRow : s'.row id = (s.row id).map (updated p (pollRow now)) := by
    rw [Store.row, hMsgs]
    exact lookup_map _ fun r => (hSame r).id
  have hReturned : returnedFor id polled = ((s.row id).toList.filter p).map fun r =>
      returning snapshot (updated p (pollRow now) r) := by
    rw [Store.row, ← filter_key s.msgsPkey, List.filter_filter, returnedFor, List.filter_map,
      List.filter_filter]
    refine congrArg _ (List.filter_congr fun r _ => ?_)
    simp [returning, (hSame r).id, Bool.and_comm]
  cases hOld : s.row id with
  | none => exact Or.inr ⟨by simp, by simp [hRow, hOld], by simp [hReturned, hOld]⟩
  | some r =>
      obtain ⟨hIn, rfl⟩ := Store.row_eq_some_iff.mp hOld
      cases hSelected : p r with
      | true =>
          exact Or.inl ⟨r, _, rfl, by rw [hRow, hOld]; rfl, hSelected, hOk r hIn hSelected,
            by simp [hReturned, hOld, hSelected]⟩
      | false =>
          exact Or.inr ⟨by simp [hSelected], by simp [hRow, hOld, updated, hSelected],
            by simp [hReturned, hOld, hSelected]⟩

section Update

variable {snapshot s s' : Store} {now : Timestamp} {ids : List Uuid} {polled : List PolledMessage}
  (h : pollUpdate snapshot now ids s = .ok (s', polled))
include h

theorem pollUpdate_eq_ok :
    s'.msgs = s.msgs.map (updated (pollSelects now ids) (pollRow now)) ∧
      s'.payloads = s.payloads ∧
      (∀ r ∈ s.msgs, pollSelects now ids r = true →
        pollRow now r = .ok (updated (pollSelects now ids) (pollRow now) r)) ∧
      polled = (s.msgs.filter (pollSelects now ids)).map fun r =>
        returning snapshot (updated (pollSelects now ids) (pollRow now) r) := by
  obtain ⟨t, hUpdate, h⟩ := bind_eq_ok_iff.mp h
  obtain ⟨hMsgs, hPayloads, -, hOk⟩ := Store.updateMsgs_eq_ok hUpdate
  simp only [Except.ok.injEq, Prod.mk.injEq] at h
  obtain ⟨rfl, rfl⟩ := h
  exact ⟨hMsgs, hPayloads, hOk, rfl⟩

/-- What is returned belongs to the new version of a row that was due. -/
theorem pollUpdate_mem {m : PolledMessage} (hm : m ∈ polled) :
    ∃ r ∈ s.msgs, r.id ∈ ids ∧ isLe r.attemptAt now = true ∧
      ∃ r' ∈ s'.msgs, pollRow now r = .ok r' ∧ m = returning snapshot r' := by
  obtain ⟨hMsgs, -, hOk, rfl⟩ := pollUpdate_eq_ok h
  obtain ⟨r, hr, rfl⟩ := List.mem_map.mp hm
  obtain ⟨hIn, hSelected⟩ := List.mem_filter.mp hr
  have hRow := hOk r hIn hSelected
  simp only [pollSelects, decide_eq_true_eq] at hSelected
  exact ⟨r, hIn, hSelected.1, hSelected.2, _, hMsgs ▸ List.mem_map_of_mem hIn, hRow, rfl⟩

/-- A message is updated and returned once, or neither. -/
theorem pollUpdate_row (id : Uuid) :
    (∃ r r', s.row id = some r ∧ s'.row id = some r' ∧ id ∈ ids ∧ isLe r.attemptAt now = true ∧
        pollRow now r = .ok r' ∧ returnedFor id polled = [returning snapshot r']) ∨
      (s'.row id = s.row id ∧ returnedFor id polled = []) := by
  obtain ⟨t, hUpdate, hEq⟩ := bind_eq_ok_iff.mp h
  simp only [Except.ok.injEq, Prod.mk.injEq] at hEq
  obtain ⟨rfl, rfl⟩ := hEq
  rcases updateMsgs_returning hUpdate snapshot id with
    ⟨r, r', hOld, hNew, hSelected, hRow, hReturned⟩ | ⟨-, hSame, hNone⟩
  · obtain ⟨-, rfl⟩ := Store.row_eq_some_iff.mp hOld
    simp only [pollSelects, decide_eq_true_eq] at hSelected
    exact Or.inl ⟨r, r', hOld, hNew, hSelected.1, hSelected.2, hRow, hReturned⟩
  · exact Or.inr ⟨hSame, hNone⟩

end Update

/-- A poll may hand out this message: it is due and no message precedes it. -/
structure Ready (now : Timestamp) (channelNames : Option (List String)) (r : MqMsg) : Prop where
  notNil : r.id ≠ uuidNil
  due : isLe r.attemptAt now = true
  first : mqUuidExists r.afterMessageId = false
  selected : channelSelected channelNames r.channelName = true

section Selection

variable {choice : PollChoice} {now : Timestamp} {channelNames : Option (List String)}
  {batchSize : Int4} {s s' : Store}

/-- Every candidate of a poll is a ready message of the store it looked at. -/
theorem messagesToUpdate_ready {ids : List Uuid}
    (h : messagesToUpdate choice now channelNames batchSize s = .ok ids) {id : Uuid}
    (hId : id ∈ ids) : ∃ r ∈ s.msgs, r.id = id ∧ Ready now channelNames r := by
  obtain ⟨active, hActive, h⟩ := bind_eq_ok_iff.mp h
  obtain ⟨perChannel, hReady, h⟩ := bind_eq_ok_iff.mp h
  have hJoined : id ∈ perChannel.flatten := by
    rw [(limit_eq_ok_iff.mp h).2] at hId
    exact (choice.join_perm _).mem_iff.mp (List.mem_of_mem_take hId)
  obtain ⟨part, hPart, hIn⟩ := List.mem_flatten.mp hJoined
  obtain ⟨ch, hCh, hMsgs⟩ := evaluate_mem hReady hPart
  obtain ⟨msgs, hLimit, hEq⟩ := bind_eq_ok_iff.mp hMsgs
  rw [← Except.ok.inj hEq] at hIn
  obtain ⟨r, hr, rfl⟩ := List.mem_map.mp hIn
  rw [(limit_eq_ok_iff.mp hLimit).2] at hr
  have hFiltered := (choice.sort_perm _).mem_iff.mp (List.mem_of_mem_take hr)
  obtain ⟨hrIn, hCond⟩ := List.mem_filter.mp hFiltered
  simp only [Bool.not_eq_eq_eq_not, Bool.not_true, ne_eq, decide_eq_true_eq] at hCond
  obtain ⟨hNotNil, hDue, hName, hArgs, hFirst⟩ := hCond
  -- the lateral subquery does not repeat the filter on channel names, which
  -- holds because an active channel contains a selected message
  rw [(limit_eq_ok_iff.mp hActive).2] at hCh
  have hChannel := (choice.shuffle_perm _).mem_iff.mp (List.mem_of_mem_take hCh)
  obtain ⟨other, hOther, rfl⟩ := mem_groups.mp hChannel
  have hSelected := (List.mem_filter.mp hOther).2
  simp only [ne_eq, Bool.not_eq_eq_eq_not, Bool.not_true, decide_eq_true_eq] at hSelected
  refine ⟨r, hrIn, rfl, hNotNil, hDue, hFirst, ?_⟩
  rw [hName]
  exact hSelected.2.2.1

/-- What a successful poll does: it updates its candidates, and it returns
the wait row when that updates nothing. -/
theorem mqPoll_eq_ok {polled : List PolledMessage}
    (h : mqPoll choice now channelNames batchSize s = .ok (s', polled)) :
    ∃ ids rows, messagesToUpdate choice now channelNames batchSize s = .ok ids ∧
      pollUpdate s now ids s = .ok (s', rows) ∧
      polled = if rows = [] then [waitRow now channelNames s'] else rows := by
  obtain ⟨ids, hIds, h⟩ := bind_eq_ok_iff.mp h
  obtain ⟨⟨t, rows⟩, hUpdate, h⟩ := bind_eq_ok_iff.mp h
  simp only [Except.ok.injEq, Prod.mk.injEq] at h
  obtain ⟨rfl, rfl⟩ := h
  exact ⟨ids, rows, hIds, hUpdate, rfl⟩

/-- Only the wait row has no identifier. -/
theorem mqPoll_mem {polled : List PolledMessage}
    (h : mqPoll choice now channelNames batchSize s = .ok (s', polled)) {m : PolledMessage}
    (hm : m ∈ polled) : m = waitRow now channelNames s' ∨ m.id.isSome := by
  obtain ⟨ids, rows, -, hUpdate, rfl⟩ := mqPoll_eq_ok h
  split at hm
  · exact Or.inl (List.mem_singleton.mp hm)
  · obtain ⟨r, -, -, -, r', -, -, rfl⟩ := pollUpdate_mem hUpdate hm
    exact Or.inr rfl

/-- A message in the result of a poll was ready, and the poll applied the
SET clause to its row. -/
theorem mqPoll_polled {polled : List PolledMessage}
    (h : mqPoll choice now channelNames batchSize s = .ok (s', polled)) {m : PolledMessage}
    (hm : m ∈ polled) {id : Uuid} (hId : m.id = some id) :
    ∃ r ∈ s.msgs, r.id = id ∧ Ready now channelNames r ∧
      ∃ r' ∈ s'.msgs, pollRow now r = .ok r' ∧ m = returning s r' := by
  obtain ⟨ids, rows, hIds, hUpdate, rfl⟩ := mqPoll_eq_ok h
  split at hm
  · rw [List.mem_singleton] at hm
    rw [hm] at hId
    simp [waitRow] at hId
  · obtain ⟨r, hr, hCandidate, -, r', hr', hRow, rfl⟩ := pollUpdate_mem hUpdate hm
    obtain ⟨r₀, hr₀, hId₀, hReady⟩ := messagesToUpdate_ready hIds hCandidate
    obtain rfl := List.inj_on_of_nodup_map s.msgsPkey hr₀ hr hId₀
    have hSame := (pollRow_sameIdentity _ _ hRow).id
    exact ⟨r₀, hr, hSame.symm.trans (Option.some.inj hId), hReady, r', hr', hRow, rfl⟩

/-- A row that is not in the result is unchanged. -/
theorem mqPoll_row {polled : List PolledMessage}
    (h : mqPoll choice now channelNames batchSize s = .ok (s', polled)) (id : Uuid) :
    (∃ r r', s.row id = some r ∧ s'.row id = some r' ∧ Ready now channelNames r ∧
        pollRow now r = .ok r' ∧ returnedFor id polled = [returning s r']) ∨
      (s'.row id = s.row id ∧ returnedFor id polled = []) := by
  obtain ⟨ids, rows, hIds, hUpdate, hPolled⟩ := mqPoll_eq_ok h
  have hSame : returnedFor id polled = returnedFor id rows := by
    rw [hPolled]
    split
    · rename_i hNone
      simp [hNone, returnedFor, waitRow]
    · rfl
  rw [hSame]
  rcases pollUpdate_row hUpdate id with ⟨r, r', hr, hr', hCandidate, -, hRow, hReturned⟩ | hSkipped
  · obtain ⟨hIn, rfl⟩ := Store.row_eq_some_iff.mp hr
    obtain ⟨r₀, hr₀, hId₀, hReady⟩ := messagesToUpdate_ready hIds hCandidate
    obtain rfl := List.inj_on_of_nodup_map s.msgsPkey hr₀ hIn hId₀
    exact Or.inl ⟨r₀, r', hr, hr', hReady, hRow, hReturned⟩
  · exact Or.inr hSkipped

/-- No poll returns a message twice. -/
theorem mqPoll_ids_nodup {polled : List PolledMessage}
    (h : mqPoll choice now channelNames batchSize s = .ok (s', polled)) :
    (polled.filterMap PolledMessage.id).Nodup := by
  obtain ⟨ids, rows, -, hUpdate, rfl⟩ := mqPoll_eq_ok h
  obtain ⟨-, -, -, rfl⟩ := pollUpdate_eq_ok hUpdate
  split
  · simp [waitRow]
  · have hIds : (PolledMessage.id ∘ fun r =>
        returning s (updated (pollSelects now ids) (pollRow now) r)) = some ∘ MqMsg.id := by
      funext r
      exact congrArg some (updated_sameIdentity pollRow_sameIdentity (pollSelects now ids) r).id
    rw [List.filterMap_map, hIds, List.filterMap_eq_map]
    exact s.msgsPkey.sublist (List.filter_sublist.map _)

end Selection

end Sqlxmq
