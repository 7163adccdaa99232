import Sqlxmq.Crate.Api
import Sqlxmq.Database.RowStep
import Sqlxmq.Order.Queues

/-! Sleeping between polls. A runner that received no message sleeps until
the next attempt it knows of, or until it is notified. Everything that makes
a message ready earlier has to notify it. -/
namespace Sqlxmq

open KeyedTable SqlNull LabelledRun

section Notifications

variable [JsonbCast] {op : Op} {s s' : Store} {reply : Reply}

/-- Whoever becomes the first of its channel, the listeners of the channel
hear of it. -/
theorem Integrity.promotion_notified (h : Integrity s) (hNil : op.sparesNil)
    (hExec : exec op s = .ok (s', reply)) {r r' : MqMsg} (hr : r ∈ s.msgs) (hr' : r' ∈ s'.msgs)
    (hId : r'.id = r.id) (hBehind : mqUuidExists r.afterMessageId = true)
    (hFirst : mqUuidExists r'.afterMessageId = false) :
    "mq_" ++ r.channelName ∈ reply.notifications ∧ "mq" ∈ reply.notifications := by
  have hMoved : r'.afterMessageId ≠ r.afterMessageId := by
    intro hSame
    rw [hSame, hBehind] at hFirst
    cases hFirst
  cases exec_effect hExec with
  | insert notified prepared inserted =>
      have hIn : r ∈ s'.msgs := (insertRows_eq_ok inserted).1 ▸ List.mem_append_left _ hr
      exact absurd (List.inj_on_of_nodup_map s'.msgsPkey hr' hIn hId ▸ rfl) hMoved
  | delete notified deleted payloads =>
      rw [payloads] at hr'
      obtain ⟨hKept, a, hAfter, hGone⟩ := Store.deleteMsgs_relinks deleted hr hr' hId hMoved
      have hDelete := mqDelete_eq_ok_iff.mpr ⟨notified, _, deleted, payloads⟩
      obtain ⟨r₁, hr₁, rfl⟩ := List.mem_map.mp hGone
      apply h.mqDelete_promoted hNil hDelete hr (by simpa using hKept) hAfter
      simpa using (List.mem_filter.mp hr₁).2
  | clear selects deleted payloads silent =>
      rw [payloads] at hr'
      obtain ⟨hKept, a, hAfter, hGone⟩ := Store.deleteMsgs_relinks deleted hr hr' hId hMoved
      obtain ⟨cleared, hp, -⟩ := Op.onQueues_clears selects
      obtain ⟨r₁, hr₁, rfl⟩ := List.mem_map.mp hGone
      obtain ⟨hIn, hSelected⟩ := List.mem_filter.mp hr₁
      rw [hp, decide_eq_true_eq] at hSelected
      -- a clear takes the successors of a message along
      rcases h.pred_stored r hr r₁.id hAfter with hNilId | ⟨r₂, hr₂, hId₂, hChannel⟩
      · exact absurd hNilId hSelected.2
      · obtain rfl := List.inj_on_of_nodup_map s.msgsPkey hr₂ hIn hId₂
        have hNotNil : r.id ≠ uuidNil := fun hEq => by
          rw [h.nilRow_unordered hr hEq] at hAfter
          cases hAfter
        rw [hp, decide_eq_false_iff_not] at hKept
        exact absurd ⟨hChannel ▸ hSelected.1, hNotNil⟩ hKept
  | rewrite inPlace msgs same payloads silent =>
      have hIn := msgs ▸ List.mem_map_of_mem hr
      obtain rfl := List.inj_on_of_nodup_map s'.msgsPkey hr' hIn (hId.trans (same r).id.symm)
      exact absurd (same r).afterMessageId hMoved

/-- New messages are announced in their channel. -/
theorem insert_notified {now : Timestamp} {newMessages : List MqNew}
    (hExec : exec (.insert now newMessages) s = .ok (s', reply)) {m : MqNew}
    (hm : m ∈ newMessages) :
    "mq_" ++ m.channelName ∈ reply.notifications ∧ "mq" ∈ reply.notifications := by
  cases exec_effect hExec with
  | insert notified prepared inserted =>
      have hName : m.channelName ∈ groups MqNew.channelName newMessages := mem_groups.mpr ⟨m, hm, rfl⟩
      exact ⟨(mem_pgNotify_iff notified _).mpr hName, mq_mem_pgNotify notified hName⟩
  | clear selects deleted payloads silent => cases selects
  | rewrite inPlace msgs same payloads silent => cases inPlace

end Notifications

/-- A message that only time keeps from a runner. -/
structure Eligible (channelNames : Option (List String)) (r : MqMsg) : Prop where
  notNil : r.id ≠ uuidNil
  first : mqUuidExists r.afterMessageId = false
  selected : channelSelected channelNames r.channelName = true

/-- The runner that selects these channels is notified. -/
def heard (channelNames : Option (List String)) (notifications : List String) : Bool :=
  notifications.any (· ∈ startListener channelNames)

theorem heard_of_selected {channelNames : Option (List String)} {name : String}
    {notifications : List String} (hSelected : channelSelected channelNames name = true)
    (hNotes : "mq_" ++ name ∈ notifications ∧ "mq" ∈ notifications) :
    heard channelNames notifications = true := by
  rw [heard, List.any_eq_true]
  cases channelNames with
  | none => exact ⟨"mq", hNotes.2, by simp [startListener]⟩
  | some names =>
      refine ⟨"mq_" ++ name, hNotes.1, decide_eq_true ?_⟩
      exact List.mem_map_of_mem (by simpa [channelSelected] using hSelected)

/-- The calls that make a message ready before a deadline although they
notify nobody. -/
def Hastens (deadline : Timestamp) (r : MqMsg) : Op → Prop
  | .commit msgIds => r.id ∈ msgIds ∧
      ∃ a c, r.attemptAt = some a ∧ r.commitInterval = some c ∧ a - c < deadline
  | .checkpoint now msgId duration _ _ _ =>
      msgId = r.id ∧ r.attemptAt = none ∧ now + duration < deadline
  | _ => False

/-- Not before the deadline. -/
def MqMsg.NotBefore (deadline : Timestamp) (r : MqMsg) : Prop :=
  ∀ a, r.attemptAt = some a → deadline ≤ a

theorem MqMsg.Postponed.notBefore {r r' : MqMsg} {deadline : Timestamp} (h : r.Postponed r')
    (hLate : r.NotBefore deadline) : r'.NotBefore deadline := by
  intro b hb
  obtain ⟨a, ha, hLater⟩ := h.exists_le hb
  exact (hLate a ha).trans hLater

/-- No other call brings an attempt forward. -/
theorem RowStep.notBefore {op : Op} {reply : Reply} {r r' : MqMsg} {deadline : Timestamp}
    (h : RowStep r op reply r') (hBackoff : 0 ≤ r.retryBackoff) (hLate : r.NotBefore deadline)
    (hCalm : ¬ Hastens deadline r op) : r'.NotBefore deadline := by
  intro b hb
  cases h with
  | @poll _ now _ _ _ _ _ ready row returned =>
      obtain ⟨a, ha, hDue⟩ := isLe_iff.mp ready.due
      have hDeadline := hLate a ha
      rw [(pollRow_eq_ok row).2] at hb
      dsimp only at hb
      split at hb
      · cases hb
      · cases hb
        exact hDeadline.trans (hDue.trans (Int.le_add_of_nonneg_right hBackoff))
  | commit =>
      unfold commitRow at hb
      split at hb
      · rename_i hTakes
        obtain ⟨a, c, ha, hc, rfl⟩ := Option.map₂_eq_some_iff.mp hb
        by_contra hEarly
        exact hCalm ⟨hTakes.1, a, c, ha, hc, not_le.mp hEarly⟩
      · exact hLate b hb
  | keepAlive => exact (keepAliveRow_postponed _ _ _ r).notBefore hLate b hb
  | checkpoint row =>
      by_cases hAt : r.attemptAt = none
      · rw [(checkpointRow_eq_ok row).2, hAt, greatest_none] at hb
        by_contra hEarly
        exact hCalm ⟨rfl, hAt, Option.some.inj hb ▸ not_le.mp hEarly⟩
      · exact (checkpointRow_postponed row hAt).notBefore hLate b hb
  | relink gone noGrant notReturned =>
      rw [setDefault_eq] at hb
      exact hLate b hb

/-- Backoffs are durations, and they only double. -/
theorem RowStep.backoff_nonneg {op : Op} {reply : Reply} {r r' : MqMsg} (h : RowStep r op reply r')
    (hBackoff : 0 ≤ r.retryBackoff) : 0 ≤ r'.retryBackoff := by
  cases h with
  | poll ready row returned =>
      rw [(pollRow_eq_ok row).2]
      exact Int.mul_nonneg hBackoff (by decide)
  | commit => rwa [commitRow_eq]
  | keepAlive => rwa [keepAliveRow_eq]
  | checkpoint row => rwa [(checkpointRow_eq_ok row).2]
  | relink gone noGrant notReturned => rwa [setDefault_eq]

/-- Batches as the crate sends them: a backoff is a length of time. -/
def Op.SendsDurations (op : Op) : Prop := ∀ m ∈ op.batches.flatten, 0 ≤ m.retryBackoff

theorem CrateCall.sendsDurations (call : CrateCall) : call.op.SendsDurations := by
  cases call with
  | spawn now job => simp [Op.SendsDurations, CrateCall.op, Op.batches, JobBuilder.message]
  | _ => simp [Op.SendsDurations, CrateCall.op, Op.batches]

/-- What the wait of a poll relies on. -/
structure Timed (s : Store) : Prop where
  integrity : Integrity s
  backoff : ∀ r ∈ s.msgs, 0 ≤ r.retryBackoff

/-- A store with a runner that waits for messages of some channels, and
whether it was notified since its poll. -/
structure Sleeper where
  store : Store
  notified : Bool

/-- A message that is eligible before the deadline was announced. -/
def Sleeper.Covered (channelNames : Option (List String)) (deadline : Timestamp) (x : Sleeper) : Prop :=
  x.notified = true ∨ ∀ r ∈ x.store.msgs, Eligible channelNames r → r.NotBefore deadline

/-- The call hastens no message that the sleeping runner waits for. -/
def Sleeper.Spares (channelNames : Option (List String)) (deadline : Timestamp) (x : Sleeper)
    (op : Op) : Prop :=
  x.notified = true ∨ ∀ r ∈ x.store.msgs, Eligible channelNames r → ¬ Hastens deadline r op

section Waiting

variable [JsonbCast] {op : Op} {s s' : Store} {reply : Reply}

theorem Timed.of_exec (h : Timed s) (hNil : op.sparesNil) (hDurations : op.SendsDurations)
    (hExec : exec op s = .ok (s', reply)) : Timed s' := by
  refine ⟨h.integrity.of_exec hNil hExec, fun r' hr' => ?_⟩
  rcases exec_row_cases hExec hr' with ⟨r, hr, hStep⟩ | ⟨now, batch, rfl, m, hm, previous, hRow⟩
  · exact hStep.backoff_nonneg (h.backoff r hr)
  · rw [(newMsg_eq_ok hRow).2]
    exact hDurations m (by simpa [Op.batches] using hm)

theorem timed_of_run {migratedAt : Timestamp} {ops : List Op} {x : Session}
    (run : Run (Session.Step fun _ op => op.sparesNil ∧ op.SendsDurations) (.start migratedAt) ops x) :
    Timed x.store := by
  refine Session.run_invariant (P := fun x => Timed x.store) run ⟨.initial migratedAt, ?_⟩ ?_
  · simp [Session.start, Store.initial]
  · rintro x op s' reply hTimed ⟨hNil, hDurations⟩ hExec
    exact hTimed.of_exec hNil hDurations hExec

namespace Sleeper

/-- One transaction of another client. -/
def call (channelNames : Option (List String)) (op : Op) (x : Sleeper) : Sleeper :=
  match exec op x.store with
  | .ok (s', reply) => ⟨s', x.notified || heard channelNames reply.notifications⟩
  | .error _ => x

def Step (channelNames : Option (List String)) (x : Sleeper) (op : Op) (y : Sleeper) : Prop :=
  op.sparesNil ∧ op.SendsDurations ∧ y = x.call channelNames op

variable {channelNames : Option (List String)} {deadline : Timestamp} {x : Sleeper}

theorem step_of_crate (call : CrateCall) (hNil : call.op.sparesNil) :
    Step channelNames x call.op (x.call channelNames call.op) :=
  ⟨hNil, call.sendsDurations, rfl⟩

/-- A message that waits for the deadline goes on waiting. Whatever else
becomes eligible was announced: a new message by its insert, a promoted one
by the delete of its predecessor. -/
theorem Covered.of_exec (h : x.Covered channelNames deadline) (hTimed : Timed x.store)
    (hNil : op.sparesNil) (hExec : exec op x.store = .ok (s', reply))
    (hSpares : x.Spares channelNames deadline op) :
    Covered channelNames deadline ⟨s', x.notified || heard channelNames reply.notifications⟩ := by
  by_cases hNotified : (x.notified || heard channelNames reply.notifications) = true
  · exact Or.inl hNotified
  · right
    rw [Bool.or_eq_true, not_or] at hNotified
    have hLate := h.resolve_left hNotified.1
    have hCalm := hSpares.resolve_left hNotified.1
    intro r' hr' hEligible
    rcases exec_row_cases hExec hr' with ⟨r, hr, hStep⟩ | ⟨now, batch, rfl, m, hm, previous, hRow⟩
    · have hName : r'.channelName = r.channelName := congrArg Channel.name hStep.continues.channel
      have hId := hStep.continues.id
      have hSelected := hName ▸ hEligible.selected
      cases hFirst : mqUuidExists r.afterMessageId with
      | true =>
          have hNotes := hTimed.integrity.promotion_notified hNil hExec hr hr' hId hFirst hEligible.first
          exact absurd (heard_of_selected hSelected hNotes) hNotified.2
      | false =>
          have hWaiting : Eligible channelNames r := ⟨hId ▸ hEligible.notNil, hFirst, hSelected⟩
          exact hStep.notBefore (hTimed.backoff r hr) (hLate r hr hWaiting) (hCalm r hr hWaiting)
    · have hName : r'.channelName = m.channelName := by rw [(newMsg_eq_ok hRow).2]
      have hSelected := hName ▸ hEligible.selected
      exact absurd (heard_of_selected hSelected (insert_notified hExec hm)) hNotified.2

theorem Covered.call (h : x.Covered channelNames deadline) (hTimed : Timed x.store)
    (hNil : op.sparesNil) (hDurations : op.SendsDurations)
    (hSpares : x.Spares channelNames deadline op) :
    Timed (x.call channelNames op).store ∧ (x.call channelNames op).Covered channelNames deadline := by
  unfold Sleeper.call
  split
  · rename_i s' reply hExec
    exact ⟨hTimed.of_exec hNil hDurations hExec, h.of_exec hTimed hNil hExec hSpares⟩
  · exact ⟨hTimed, h⟩

end Sleeper

/-- If a poll found nothing and the runner sleeps at all, it wakes up no
later than the first attempt of an eligible message. -/
theorem poll_covers {choice : PollChoice} {now : Timestamp} {channelNames : Option (List String)}
    {batchSize : Int4} (hPoll : exec (.poll choice now channelNames batchSize) s = .ok (s', reply))
    (hNone : ∀ m ∈ reply.polled, m.id = none) (hSleeps : 0 < waitDuration reply.polled) :
    Sleeper.Covered channelNames (now + waitDuration reply.polled) ⟨s', false⟩ := by
  obtain ⟨⟨t, polled⟩, hRows, hEq⟩ := bind_eq_ok_iff.mp hPoll
  cases hEq
  obtain ⟨ids, rows, -, hUpdate, hPolled⟩ := mqPoll_eq_ok hRows
  -- a row of the update would have an identifier, so only the wait row is left
  have hWait : polled = [waitRow now channelNames s'] := by
    cases rows with
    | nil => simpa using hPolled
    | cons m rest =>
        have hm : m ∈ polled := by simp [hPolled]
        obtain ⟨r, -, -, -, r', -, -, hReturned⟩ := pollUpdate_mem hUpdate (List.mem_cons_self)
        have hId := hNone m hm
        rw [hReturned] at hId
        cases hId
  right
  intro r hr hEligible a ha
  have hListed : a ∈ (s'.msgs.filter fun r => r.id ≠ uuidNil ∧ !mqUuidExists r.afterMessageId ∧
      channelSelected channelNames r.channelName).filterMap MqMsg.attemptAt := by
    refine List.mem_filterMap.mpr ⟨r, List.mem_filter.mpr ⟨hr, ?_⟩, ha⟩
    simp [hEligible.notNil, hEligible.first, hEligible.selected]
  obtain ⟨first, hFirst⟩ := Option.isSome_iff_exists.mp (List.isSome_min?_of_mem hListed)
  have hBound : first ≤ a := (List.min?_eq_some_iff.mp hFirst).2 a hListed
  have hDuration : waitDuration polled = (first - now).toNat := by
    simp only [hWait, waitDuration, waitRow, waitTime, hFirst]
    rfl
  have hAhead : 0 < first - now := Int.pos_iff_toNat_pos.mpr (hDuration ▸ hSleeps)
  calc
    now + (waitDuration polled : Int) = now + (first - now) := by
      rw [hDuration, Int.toNat_of_nonneg hAhead.le]
    _ = first := add_sub_cancel now first
    _ ≤ a := hBound

namespace Sleeper

variable {channelNames : Option (List String)} {deadline : Timestamp} {x : Sleeper}

/-- A call that is not spared leaves a message that becomes ready before the
deadline, and nobody is notified of it. -/
theorem not_covered (hSpares : ¬ x.Spares channelNames deadline op)
    (hExec : exec op x.store = .ok (s', reply)) :
    ¬ Covered channelNames deadline ⟨s', x.notified || heard channelNames reply.notifications⟩ := by
  simp only [Spares, not_or, not_forall, not_not] at hSpares
  obtain ⟨hNotified, r, hr, hEligible, hHastens⟩ := hSpares
  obtain ⟨r', hr', hSame, b, hb, hEarly, hSilent⟩ : ∃ r' ∈ s'.msgs, MqMsg.SameIdentity r r' ∧
      ∃ b, r'.attemptAt = some b ∧ b < deadline ∧ reply = .silent := by
    cases op with
    | commit msgIds =>
        obtain ⟨hIn, a, c, ha, hc, hEarly⟩ := hHastens
        cases hExec
        refine ⟨commitRow msgIds r, List.mem_map_of_mem hr, commitRow_sameIdentity _ r, a - c, ?_,
          hEarly, rfl⟩
        simp [commitRow, hIn, ha, hc]
    | checkpoint now msgId duration newPayloadJson newPayloadBytes extraRetries =>
        obtain ⟨hId, hParked, hEarly⟩ := hHastens
        obtain ⟨t, hCheckpoint, hEq⟩ := bind_eq_ok_iff.mp hExec
        obtain ⟨f, hMsgs, hSame, -, hRow, -⟩ := mqCheckpoint_eq_ok hCheckpoint
        cases hEq
        refine ⟨f r, hMsgs ▸ List.mem_map_of_mem hr, hSame r, now + duration, ?_, hEarly, rfl⟩
        rw [(checkpointRow_eq_ok (hRow r hr hId.symm)).2]
        simp [hParked]
    | _ => exact hHastens.elim
  rintro (hHeard | hLate)
  · simp [hSilent, Reply.silent, heard, hNotified] at hHeard
  · have hStill : Eligible channelNames r' :=
      ⟨hSame.id ▸ hEligible.notNil, by rw [hSame.afterMessageId]; exact hEligible.first,
        by rw [show r'.channelName = r.channelName from congrArg Channel.name hSame.channel]
           exact hEligible.selected⟩
    exact absurd (hLate r' hr' hStill b hb) (not_le.mpr hEarly)

/-- An idle runner does not sleep through a ready job. It polled a store,
found nothing and waits for the time that the poll returned. As long as no
call hastens an eligible message without a notification, a message that is
ready before the timer fires was announced to the runner. -/
theorem never_oversleeps {migratedAt : Timestamp} {ops later : List Op} {session : Session}
    (prior : Run (Session.Step fun _ op => op.sparesNil ∧ op.SendsDurations) (.start migratedAt)
      ops session)
    {choice : PollChoice} {now T : Timestamp} {batchSize : Int4}
    (hPoll : exec (.poll choice now channelNames batchSize) session.store = .ok (s, reply))
    (hNone : ∀ m ∈ reply.polled, m.id = none)
    (run : Run (fun x op y => Step channelNames x op y ∧
      x.Spares channelNames (now + waitDuration reply.polled) op) ⟨s, false⟩ later x)
    (hAsleep : now ≤ T ∧ T < now + waitDuration reply.polled) {r : MqMsg} (hr : r ∈ x.store.msgs)
    (hEligible : Eligible channelNames r) (hReady : isLe r.attemptAt T = true) :
    x.notified = true := by
  have hSleeps : 0 < waitDuration reply.polled := by
    apply Nat.pos_of_ne_zero
    intro hZero
    rw [hZero] at hAsleep
    exact absurd hAsleep.2 (not_lt.mpr (by simpa using hAsleep.1))
  have hNil : (Op.poll choice now channelNames batchSize).sparesNil := trivial
  have hStart : Timed s :=
    (timed_of_run prior).of_exec hNil (CrateCall.poll choice now channelNames batchSize).sendsDurations
      hPoll
  have hEnd : Timed x.store ∧ x.Covered channelNames (now + waitDuration reply.polled) := by
    refine run.invariant (P := fun x => Timed x.store ∧
      x.Covered channelNames (now + waitDuration reply.polled)) ⟨hStart, poll_covers hPoll hNone hSleeps⟩ ?_
    rintro x op _ ⟨hTimed, hCovered⟩ ⟨⟨hNil, hDurations, rfl⟩, hSpares⟩
    exact hCovered.call hTimed hNil hDurations hSpares
  rcases hEnd.2 with hNotified | hLate
  · exact hNotified
  · obtain ⟨a, ha, hDue⟩ := isLe_iff.mp hReady
    exact absurd (hDue.trans_lt hAsleep.2) (not_lt.mpr (hLate r hr hEligible a ha))

end Sleeper

end Waiting

/-- A session in which one job was spawned at time 0. -/
def spawned (job : JobBuilder) : Session := @Session.call .nullOnly (.insert 0 [job.message]) (.start 0)

theorem spawned_run (job : JobBuilder) :
    Run (@Session.Step .nullOnly fun _ op => op.sparesNil ∧ op.SendsDurations) (.start 0)
      [.insert 0 [job.message]] (spawned job) :=
  .cons ⟨⟨trivial, (CrateCall.spawn 0 job).sendsDurations⟩, rfl⟩ .refl

/-- The poll of a runner at time 0. -/
def pollOf (x : Session) : Store × Reply := @Store.pollOne .nullOnly 0 x.store

theorem pollOf_eq {x : Session} (h : (@exec .nullOnly (.pollOne 0) x.store).toOption.isSome) :
    @exec .nullOnly (.pollOne 0) x.store = .ok (pollOf x) :=
  @Store.pollOne_eq .nullOnly 0 x.store h

theorem Sleeper.never_oversleeps_of_spawn :
    let _ : JsonbCast := .nullOnly
    let later := { JobBuilder.newWithId 1 "later" with delay := 10000000 }
    let y := Sleeper.call none (.insert second [(JobBuilder.newWithId 2 "job").message])
      ⟨(pollOf (spawned later)).1, false⟩
    y.notified = true := by
  intro _ later y
  have hRow : (y.store.row 2).map (fun r => (r.id, r.afterMessageId, r.attemptAt)) =
      some (2, none, some second) := by decide +kernel
  obtain ⟨r, hr, hColumns⟩ := Option.map_eq_some_iff.mp hRow
  simp only [Prod.mk.injEq] at hColumns
  obtain ⟨hId, hAfter, hAt⟩ := hColumns
  let spawn : CrateCall := .spawn second (JobBuilder.newWithId 2 "job")
  have run : Run (fun x op y => Step none x op y ∧
      x.Spares none (0 + waitDuration (pollOf (spawned later)).2.polled) op)
      ⟨(pollOf (spawned later)).1, false⟩ [spawn.op] y := by
    have hSpares : Spares none (0 + waitDuration (pollOf (spawned later)).2.polled)
        ⟨(pollOf (spawned later)).1, false⟩ spawn.op := Or.inr fun _ _ _ hHastens => hHastens
    have hStep : Step none ⟨(pollOf (spawned later)).1, false⟩ spawn.op y := step_of_crate spawn trivial
    exact .cons ⟨hStep, hSpares⟩ .refl
  have hPoll : exec (.pollOne 0) (spawned later).store =
      .ok ((pollOf (spawned later)).1, (pollOf (spawned later)).2) := by
    rw [Prod.mk.eta]
    exact pollOf_eq (by decide +kernel)
  exact never_oversleeps (T := 2 * second) (spawned_run later) hPoll (by decide +kernel) run
    (by decide +kernel) (Store.row_eq_some_iff.mp hr).1
    ⟨by rw [hId]; decide, by rw [hAfter]; rfl, rfl⟩ (by rw [hAt]; decide)

/-- A job is spawned with a commit interval of a minute, a runner polls and
sleeps for that minute, and the commit makes the job ready at once. -/
theorem Sleeper.oversleeps_after_commit :
    let _ : JsonbCast := .nullOnly
    let reserved := { JobBuilder.newWithId 1 "job" with commitInterval := some maxWait }
    let x : Sleeper := ⟨(pollOf (spawned reserved)).1, false⟩
    let polled := (pollOf (spawned reserved)).2.polled
    let y := x.call none (.commit [1])
    Run (Session.Step fun _ op => op.sparesNil ∧ op.SendsDurations) (.start 0)
        [.insert 0 [reserved.message]] (spawned reserved) ∧
      exec (.pollOne 0) (spawned reserved).store = .ok (pollOf (spawned reserved)) ∧
      (∀ m ∈ polled, m.id = none) ∧ waitDuration polled = maxWait ∧
      Run (Step none) x [.commit [1]] y ∧
      (∃ r ∈ y.store.msgs, Eligible none r ∧ isLe r.attemptAt second = true) ∧
      y.notified = false := by
  intro _ reserved x polled y
  have hRow : (y.store.row 1).map (fun r => (r.id, r.afterMessageId, r.attemptAt)) =
      some (1, none, some 0) := by decide +kernel
  obtain ⟨r, hr, hColumns⟩ := Option.map_eq_some_iff.mp hRow
  simp only [Prod.mk.injEq] at hColumns
  obtain ⟨hId, hAfter, hAt⟩ := hColumns
  have run : Run (Step none) x [.commit [1]] y := by
    have hStep : Step none x (.commit [1]) y := step_of_crate (.commit [1]) trivial
    exact .cons hStep .refl
  refine ⟨spawned_run reserved, pollOf_eq (by decide +kernel), by decide +kernel,
    by decide +kernel, run, ?_, by decide +kernel⟩
  refine ⟨r, (Store.row_eq_some_iff.mp hr).1, ⟨by rw [hId]; decide, by rw [hAfter]; rfl, rfl⟩, ?_⟩
  rw [hAt]
  decide

end Sqlxmq
