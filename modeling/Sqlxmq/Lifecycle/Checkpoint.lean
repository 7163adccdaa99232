import Sqlxmq.Crate.JobBuilder
import Sqlxmq.Database.Transaction

/-! Checkpoints. Apart from the payload and the extra retries, a checkpoint is
meant to be a keep-alive. The two functions are written differently: one
compares the deadline with the new one, the other takes the greatest of them. -/
namespace Sqlxmq

open KeyedTable SqlNull

/-- A message that a keep-alive treats like a checkpoint does: its next
attempt is scheduled, and either it is committed or the deadline stays. -/
def MqMsg.KeepsAliveAlike (deadline : Timestamp) (r : MqMsg) : Prop :=
  ∃ a, r.attemptAt = some a ∧ (r.commitInterval = none ∨ deadline ≤ a)

section Row

variable {now : Timestamp} {duration : Interval} {extraRetries : Option Int4} {r r' : MqMsg}

theorem keepAliveRow_of_none (hParked : r.attemptAt = none) (msgIds : List Uuid) :
    keepAliveRow now msgIds duration r = r :=
  if_neg fun hTakes => by simp [hParked, isLt] at hTakes

/-- The two functions leave the same schedule exactly on such a message. -/
theorem keepAliveRow_eq_checkpoint_iff (h : checkpointRow now duration extraRetries r = .ok r') :
    keepAliveRow now [r.id] duration r = { r' with attempts := r.attempts } ↔
      r.KeepsAliveAlike (now + duration) := by
  obtain ⟨-, hEq⟩ := checkpointRow_eq_ok h
  rw [hEq]
  unfold MqMsg.KeepsAliveAlike
  cases hAt : r.attemptAt with
  | none =>
      rw [keepAliveRow_of_none hAt]
      constructor
      · intro hSame
        have hScheduled := congrArg MqMsg.attemptAt hSame
        rw [hAt] at hScheduled
        cases hScheduled
      · rintro ⟨a, ha, -⟩
        cases ha
  | some a =>
      by_cases hLater : a < now + duration
      · have hTakes : r.id ∈ [r.id] ∧ isLt r.attemptAt (now + duration) = true :=
          ⟨List.mem_singleton_self _, isLt_iff.mpr ⟨a, hAt, hLater⟩⟩
        rw [keepAliveRow, if_pos hTakes, greatest_some, max_eq_right hLater.le, hAt]
        cases hCommit : r.commitInterval with
        | none => simp
        | some c =>
            have hShift : c + (now + duration - a) ≠ c := by
              rw [Ne, add_eq_left, sub_eq_zero]
              exact hLater.ne'
            simp [hShift, hLater]
      · have hStays : ¬ (r.id ∈ [r.id] ∧ isLt r.attemptAt (now + duration) = true) := fun hTakes => by
          obtain ⟨b, hb, hBefore⟩ := isLt_iff.mp hTakes.2
          exact hLater (Option.some.inj (hAt.symm.trans hb) ▸ hBefore)
        rw [keepAliveRow, if_neg hStays, greatest_some, max_eq_left (not_lt.mp hLater), ← hAt]
        exact iff_of_true rfl ⟨a, hAt, Or.inr (not_lt.mp hLater)⟩

/-- A scheduled attempt is not brought forward. -/
theorem ready_of_checkpointRow (h : checkpointRow now duration extraRetries r = .ok r')
    (hScheduled : r.attemptAt ≠ none) {T : Timestamp} {channelNames : Option (List String)}
    (hReady : Ready T channelNames r') : Ready T channelNames r := by
  obtain ⟨b, hb, hDue⟩ := isLe_iff.mp hReady.due
  obtain ⟨a, ha, hLater⟩ := (checkpointRow_postponed h hScheduled).exists_le hb
  have hSame := checkpointRow_sameIdentity _ _ h
  exact ⟨hSame.id ▸ hReady.notNil, isLe_iff.mpr ⟨a, ha, hLater.trans hDue⟩,
    hSame.afterMessageId ▸ hReady.first, hSame.channelName ▸ hReady.selected⟩

end Row

/-- A checkpoint that did to the message what `mq_keep_alive` does, added the
extra retries, set the given payload fields, and touched nothing else. -/
structure LikeKeepAlive [JsonbCast] (now : Timestamp) (msgId : Uuid) (duration : Interval)
    (newPayloadJson : Option String) (newPayloadBytes : Option (List UInt8))
    (extraRetries : Option Int4) (s s' : Store) : Prop where
  row : ∀ r, s.row msgId = some r → ∃ r', s'.row msgId = some r' ∧
    (mqKeepAlive now [msgId] duration s).row msgId = some { r' with attempts := r.attempts } ∧
    r'.attempts.val = r.attempts.val + (extraRetries.map Int4.val).getD 0
  ids : s'.ids = s.ids
  otherRows : ∀ id, id ≠ msgId → s'.row id = s.row id
  payload : ∀ q, s.payload msgId = some q → ∃ json, jsonb newPayloadJson = .ok json ∧
    s'.payload msgId = some { q with
      payloadJson := json.or q.payloadJson
      payloadBytes := newPayloadBytes.or q.payloadBytes }
  otherPayloads : ∀ id, id ≠ msgId → s'.payload id = s.payload id
  notHastened : (extraRetries.map Int4.val).getD 0 = 0 → ∀ T channelNames r r',
    s.row msgId = some r → s'.row msgId = some r' → Ready T channelNames r' →
      Ready T channelNames r

section Checkpoints

variable [JsonbCast] {now : Timestamp} {msgId : Uuid} {duration : Interval}
  {newPayloadJson : Option String} {newPayloadBytes : Option (List UInt8)}
  {extraRetries : Option Int4} {s s' : Store}
  (h : mqCheckpoint now msgId duration newPayloadJson newPayloadBytes extraRetries s = .ok s')
include h

theorem mqCheckpoint_row {r : MqMsg} (hr : s.row msgId = some r) :
    ∃ r', s'.row msgId = some r' ∧ checkpointRow now duration extraRetries r = .ok r' := by
  obtain ⟨f, hMsgs, hSame, -, hRow, -⟩ := mqCheckpoint_eq_ok h
  obtain ⟨hIn, rfl⟩ := Store.row_eq_some_iff.mp hr
  refine ⟨f r, Store.row_eq_some_iff.mpr ?_, hRow r hIn rfl⟩
  exact ⟨hMsgs ▸ List.mem_map_of_mem hIn, (hSame r).id⟩

theorem mqCheckpoint_otherRow {id : Uuid} (hOther : id ≠ msgId) : s'.row id = s.row id := by
  obtain ⟨f, hMsgs, hSame, hSkips, -, -⟩ := mqCheckpoint_eq_ok h
  rw [Store.row, hMsgs, lookup_map f fun r => (hSame r).id, ← Store.row]
  cases hr : s.row id with
  | none => rfl
  | some r =>
      obtain ⟨-, rfl⟩ := Store.row_eq_some_iff.mp hr
      exact congrArg some (hSkips r hOther)

theorem mqCheckpoint_ids : s'.ids = s.ids := by
  obtain ⟨f, hMsgs, hSame, -⟩ := mqCheckpoint_eq_ok h
  rw [Store.ids, hMsgs, List.map_map]
  exact List.map_congr_left fun r _ => (hSame r).id

theorem mqCheckpoint_setPayload {q : MqPayload} (hq : s.payload msgId = some q) :
    ∃ json, jsonb newPayloadJson = .ok json ∧ s'.payload msgId = some { q with
      payloadJson := json.or q.payloadJson
      payloadBytes := newPayloadBytes.or q.payloadBytes } := by
  obtain ⟨f, hPayload, -, hSet⟩ := mqCheckpoint_payload h
  obtain ⟨json, hJson, hEq⟩ := bind_eq_ok_iff.mp (hSet q (mem_of_lookup hq) (key_of_lookup hq))
  refine ⟨json, hJson, ?_⟩
  rw [hPayload, hq, Except.ok.inj hEq]
  rfl

theorem mqCheckpoint_otherPayload {id : Uuid} (hOther : id ≠ msgId) :
    s'.payload id = s.payload id := by
  obtain ⟨f, hPayload, hSkips, -⟩ := mqCheckpoint_payload h
  rw [hPayload]
  cases hq : s.payload id with
  | none => rfl
  | some q => exact congrArg some (hSkips q (key_of_lookup hq ▸ hOther))

/-- A checkpoint behaves like a keep-alive exactly on the messages that have
an attempt scheduled and, if they are uncommitted, keep their deadline. -/
theorem mqCheckpoint_likeKeepAlive_iff :
    LikeKeepAlive now msgId duration newPayloadJson newPayloadBytes extraRetries s s' ↔
      ∀ r, s.row msgId = some r → r.KeepsAliveAlike (now + duration) := by
  have hKeepAlive {r : MqMsg} (hr : s.row msgId = some r) :
      (mqKeepAlive now [msgId] duration s).row msgId = some (keepAliveRow now [r.id] duration r) := by
    obtain ⟨-, rfl⟩ := Store.row_eq_some_iff.mp hr
    rw [mqKeepAlive, Store.mapMsgs_row, hr]
    rfl
  constructor
  · intro hLike r hr
    obtain ⟨r', hr', hRow⟩ := mqCheckpoint_row h hr
    obtain ⟨r₁, hr₁, hSame, -⟩ := hLike.row r hr
    obtain rfl := Option.some.inj (hr'.symm.trans hr₁)
    rw [hKeepAlive hr] at hSame
    exact (keepAliveRow_eq_checkpoint_iff hRow).mp (Option.some.inj hSame)
  · intro hAlike
    refine ⟨?_, mqCheckpoint_ids h, fun id => mqCheckpoint_otherRow h,
      fun q => mqCheckpoint_setPayload h, fun id => mqCheckpoint_otherPayload h, ?_⟩
    · intro r hr
      obtain ⟨r', hr', hRow⟩ := mqCheckpoint_row h hr
      refine ⟨r', hr', ?_, (checkpointRow_eq_ok hRow).1⟩
      rw [hKeepAlive hr, (keepAliveRow_eq_checkpoint_iff hRow).mpr (hAlike r hr)]
    · intro _ T channelNames r r' hr hr' hReady
      obtain ⟨a, hAt, -⟩ := hAlike r hr
      obtain ⟨r₁, hr₁, hRow⟩ := mqCheckpoint_row h hr
      obtain rfl := Option.some.inj (hr'.symm.trans hr₁)
      exact ready_of_checkpointRow hRow (by simp [hAt]) hReady

end Checkpoints

/-- The columns in which a checkpoint can differ from a keep-alive. -/
def Store.schedule (s : Store) (id : Uuid) : Option (Option Timestamp × Option Interval) :=
  (s.row id).map fun r => (r.attemptAt, r.commitInterval)

/-- A checkpoint of a job with its default settings, which is committed. -/
theorem mqCheckpoint_likeKeepAlive_of_committed :
    let _ : JsonbCast := .nullOnly
    let job := (JobBuilder.newWithId 1 "job").message
    let s := (transact (.insert 0 [job]) (.initial 0)).1
    ∃ s', mqCheckpoint 0 1 (60 * second) none none none s = .ok s' ∧
      LikeKeepAlive 0 1 (60 * second) none none none s s' := by
  intro _ job s
  have hDone : (mqCheckpoint 0 1 (60 * second) none none none s).map (·.schedule 1) =
      .ok (some (some (60 * second), none)) := by decide +kernel
  obtain ⟨s', hCheckpoint, -⟩ := exists_of_map_eq_ok hDone
  refine ⟨s', hCheckpoint, (mqCheckpoint_likeKeepAlive_iff hCheckpoint).mpr fun r hr => ?_⟩
  have hBefore : s.schedule 1 = some (some 0, none) := by decide +kernel
  rw [Store.schedule, hr] at hBefore
  simp only [Option.map_some, Option.some.injEq, Prod.mk.injEq] at hBefore
  exact ⟨0, hBefore.1, Or.inl hBefore.2⟩

/-- The commit interval of an uncommitted job does not grow with its deadline,
so its commit will not lead back to the time it was sent for. A job on its last
attempt is offered again. -/
theorem mqCheckpoint_not_likeKeepAlive :
    let _ : JsonbCast := .nullOnly
    let reserved := { JobBuilder.newWithId 1 "job" with commitInterval := some 1000000 }.message
    let last := { JobBuilder.newWithId 1 "job" with retries := 0 }.message
    let s := (transact (.insert 0 [reserved]) (.initial 0)).1
    let t := (transact (.pollOne 0) (transact (.insert 0 [last]) (.initial 0)).1).1
    (∃ s', mqCheckpoint 0 1 (60 * second) none none none s = .ok s' ∧
      s'.schedule 1 = some (some (60 * second), some second) ∧
      (mqKeepAlive 0 [1] (60 * second) s).schedule 1 =
        some (some (60 * second), some (60 * second)) ∧
      ¬ LikeKeepAlive 0 1 (60 * second) none none none s s') ∧
    ∃ t', mqCheckpoint 0 1 0 none none none t = .ok t' ∧
      t'.schedule 1 = some (some 0, none) ∧
      (mqKeepAlive 0 [1] 0 t).schedule 1 = some (none, none) ∧
      ¬ LikeKeepAlive 0 1 0 none none none t t' := by
  intro _ reserved last s t
  -- the keep-alive and the checkpoint leave different columns behind
  have hDiffers {now : Timestamp} {duration : Interval} {s s' : Store}
      (hStored : (s.row 1).isSome)
      (hColumns : (mqKeepAlive now [1] duration s).schedule 1 ≠ s'.schedule 1) :
      ¬ LikeKeepAlive now 1 duration none none none s s' := by
    intro hLike
    obtain ⟨r, hr⟩ := Option.isSome_iff_exists.mp hStored
    obtain ⟨r', hr', hKeepAlive, -⟩ := hLike.row r hr
    exact hColumns (by simp [Store.schedule, hr', hKeepAlive])
  have hReserved : (mqCheckpoint 0 1 (60 * second) none none none s).map (·.schedule 1) =
      .ok (some (some (60 * second), some second)) := by decide +kernel
  have hLast : (mqCheckpoint 0 1 0 none none none t).map (·.schedule 1) =
      .ok (some (some 0, none)) := by decide +kernel
  obtain ⟨s', hCheckpoint, hSchedule⟩ := exists_of_map_eq_ok hReserved
  obtain ⟨t', hCheckpoint', hSchedule'⟩ := exists_of_map_eq_ok hLast
  have hKept : (mqKeepAlive 0 [1] (60 * second) s).schedule 1 =
      some (some (60 * second), some (60 * second)) := by decide +kernel
  have hParked : (mqKeepAlive 0 [1] 0 t).schedule 1 = some (none, none) := by decide +kernel
  refine ⟨⟨s', hCheckpoint, hSchedule, hKept, hDiffers (by decide +kernel) ?_⟩,
    t', hCheckpoint', hSchedule', hParked, hDiffers (by decide +kernel) ?_⟩
  · rw [hKept, hSchedule]
    decide
  · rw [hParked, hSchedule']
    decide

end Sqlxmq
