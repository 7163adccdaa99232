import Sqlxmq.Concurrency.InOrder
import Sqlxmq.Database.RowStep

/-! Jobs that have used up their attempts. Nothing removes them: they stay in
the table without a next attempt, and what was sent behind them waits. -/
namespace Sqlxmq

open KeyedTable SqlNull LabelledRun

/-- A call that does not remove the message and does not checkpoint it. -/
def Leaves (m : MqNew) : Op → Prop
  | .delete msgIds => m.id ∉ msgIds
  | .checkpoint _ msgId _ _ _ _ => msgId ≠ m.id
  | .clear channelNames => m.channelName ∉ channelNames
  | .clearAll => False
  | _ => True

/-- The row of a message that no poll will hand out. -/
structure Parked (attempts : Int) (r : MqMsg) : Prop where
  attempt : r.attemptAt = none
  attempts : r.attempts.val = attempts

/-- Neither a commit nor a keep-alive schedules another attempt. -/
theorem Parked.step {attempts : Int} {r r' : MqMsg} {op : Op} {reply : Reply}
    (h : Parked attempts r) (hStep : RowStep r op reply r')
    (hOther : ∀ now duration newPayloadJson newPayloadBytes extraRetries,
      op ≠ .checkpoint now r.id duration newPayloadJson newPayloadBytes extraRetries) :
    Parked attempts r' ∧ returnedFor r.id reply.polled = [] := by
  cases hStep with
  | poll ready row returned =>
      have hDue := ready.due
      rw [h.attempt] at hDue
      cases hDue
  | commit =>
      refine ⟨⟨?_, by rw [commitRow_eq]; exact h.attempts⟩, rfl⟩
      unfold commitRow
      split
      · simp [h.attempt]
      · exact h.attempt
  | keepAlive =>
      refine ⟨⟨?_, by rw [keepAliveRow_eq]; exact h.attempts⟩, rfl⟩
      unfold keepAliveRow
      simp [h.attempt, isLt]
  | checkpoint row => exact absurd rfl (hOther _ _ _ _ _)
  | relink gone noGrant notReturned =>
      rw [setDefault_eq]
      exact ⟨⟨h.attempt, h.attempts⟩, notReturned⟩

theorem Leaves.not_removes {m : MqNew} {op : Op} (h : Leaves m op) {r : MqMsg} (hId : r.id = m.id)
    (hChannel : r.channel = m.channel) : op.removes r = false := by
  have hName : r.channelName = m.channelName := congrArg Channel.name hChannel
  cases op with
  | delete msgIds => simpa [Op.removes, Leaves, hId] using h
  | clear channelNames => simpa [Op.removes, Op.clears, hName] using fun hIn => absurd hIn h
  | clearAll => exact h.elim
  | _ => rfl

namespace Session

section

variable [JsonbCast] {x y : Session} {m : MqNew}

/-- In any run with fresh identifiers, messages are handed out behind their
predecessors. -/
theorem passed_of_run {migratedAt : Timestamp} {ops : List Op}
    (run : Run (Step fun x op => x.Fresh op ∧ op.sparesNil) (start migratedAt) ops x) :
    Recorded x ∧ x.Passed := by
  refine run_invariant (P := fun x => Recorded x ∧ x.Passed) run
    ⟨recorded_start migratedAt, fun ch a b hOrder => by simp [history, start] at hOrder⟩ ?_
  rintro x op s' reply ⟨h, hPassed⟩ ⟨hFresh, hNil⟩ hExec
  exact ⟨h.step hFresh hNil hExec, hPassed.advance h (h.advances hFresh hExec)⟩

/-- The message is stored without a next attempt, and has not been handed out
since. -/
structure Stuck (m : MqNew) (attempts : Int) (delivered : List Uuid) (y : Session) : Prop where
  recorded : Recorded y
  passed : y.Passed
  inserted : m ∈ y.inserted.flatten
  row : ∃ r, y.store.row m.id = some r ∧ Parked attempts r
  since : ∃ more, y.delivered = delivered ++ more ∧ m.id ∉ more

theorem Stuck.call {attempts : Int} {delivered : List Uuid} (h : Stuck m attempts delivered y)
    {op : Op} (hFresh : y.Fresh op) (hNil : op.sparesNil) (hLeaves : Leaves m op) {s' : Store}
    {reply : Reply} (hExec : exec op y.store = .ok (s', reply)) :
    Stuck m attempts delivered ⟨s', y.inserted ++ op.batches, y.replies ++ [reply]⟩ := by
  obtain ⟨r, hr, hParked⟩ := h.row
  obtain ⟨hIn, hId⟩ := Store.row_eq_some_iff.mp hr
  have hChannel := (h.recorded.row_of_inserted h.inserted hIn hId).1
  rcases exec_row hExec hr with ⟨r', hr', hStep⟩ | ⟨hGone, -, -⟩
  · obtain ⟨hParked', hNone⟩ := hParked.step hStep fun now duration json bytes extra hOp => by
      rw [hOp] at hLeaves
      exact hLeaves hId
    obtain ⟨more, hMore, hNot⟩ := h.since
    refine ⟨h.recorded.step hFresh hNil hExec,
      h.passed.advance h.recorded (h.recorded.advances hFresh hExec), ?_, ⟨r', hr', hParked'⟩,
      more ++ reply.polled.filterMap PolledMessage.id, ?_, ?_⟩
    · rw [List.flatten_append]
      exact List.mem_append_left _ h.inserted
    · rw [← List.append_assoc, ← hMore]
      simp [Session.delivered]
    · rw [List.mem_append, not_or]
      refine ⟨hNot, fun hPolled => ?_⟩
      obtain ⟨msg, hMsg, hMsgId⟩ := List.mem_filterMap.mp hPolled
      rw [hId, returnedFor_eq_nil_iff] at hNone
      exact hNone msg hMsg hMsgId
  · rw [hLeaves.not_removes hId hChannel] at hGone
    cases hGone

/-- A job without attempts is in the way. As long as no call deletes it, clears
its channel or checkpoints it, it stays in the table, no poll hands it out, and
if it is ordered, none has handed out or hands out what was sent behind it. -/
theorem exhausted_blocks {migratedAt : Timestamp} {ops : List Op}
    (run : Run (Step fun x op => x.Fresh op ∧ op.sparesNil) (start migratedAt) ops x)
    (hSent : m ∈ x.inserted.flatten) {r : MqMsg} (hStored : x.store.row m.id = some r)
    (hExhausted : r.attemptAt = none) {later : List Op}
    (after : Run (Step fun x op => (x.Fresh op ∧ op.sparesNil) ∧ Leaves m op) x later y) :
    (∃ r', y.store.row m.id = some r' ∧ r'.attemptAt = none ∧ r'.attempts.val = r.attempts.val) ∧
      (∃ more, y.delivered = x.delivered ++ more ∧ m.id ∉ more) ∧
      ∀ b, Precedes y.inserted m b → m.ordered = true → b.ordered = true → m.channel = b.channel →
        b.id ∉ y.delivered := by
  obtain ⟨hRecorded, hPassed⟩ := passed_of_run run
  have hStuck : Stuck m r.attempts.val x.delivered y := by
    refine run_invariant after ⟨hRecorded, hPassed, hSent, ⟨r, hStored, hExhausted, rfl⟩, [], ?_, ?_⟩ ?_
    · exact (List.append_nil _).symm
    · exact List.not_mem_nil
    · rintro x op s' reply h ⟨⟨hFresh, hNil⟩, hLeaves⟩ hExec
      exact h.call hFresh hNil hLeaves hExec
  obtain ⟨r', hr', hParked⟩ := hStuck.row
  refine ⟨⟨r', hr', hParked.attempt, hParked.attempts⟩, hStuck.since, ?_⟩
  intro b hPrecedes hm hb hChannel hDelivered
  have hOrder := sublist_history_of_precedes hPrecedes hm hb hChannel
  apply hStuck.passed b.channel m.id b.id hOrder hDelivered
  exact Store.row_isSome_iff.mp (by simp [hr'])

end

/-- A job that is tried once, and one behind it. -/
def oneAttempt : MqNew := { lastAttempt with ordered := true }

def blockedSession : Session :=
  @call .nullOnly (.pollOne 0)
    (@call .nullOnly (.insert 0 [oneAttempt, JobBuilder.orderedMessage 2 "second"]) (start 0))

/-- A later poll finds nothing, although the second job is due. -/
theorem exhausted_blocks_of_two :
    let _ : JsonbCast := .nullOnly
    let y := call (.pollOne (60 * second)) (call (.keepAlive second [1] second) blockedSession)
    (y.store.row 2).map MqMsg.attemptAt = some (some 0) ∧ 2 ∉ y.delivered := by
  intro _ y
  have run : Run (Step fun x op => x.Fresh op ∧ op.sparesNil) (start 0)
      [.insert 0 [oneAttempt, JobBuilder.orderedMessage 2 "second"], .pollOne 0] blockedSession :=
    .cons ⟨⟨fun _ _ => by simp [start, usedIds], trivial⟩, rfl⟩
      (.cons ⟨⟨trivial, trivial⟩, rfl⟩ .refl)
  have after : Run (Step fun x op => (x.Fresh op ∧ op.sparesNil) ∧ Leaves oneAttempt op) blockedSession
      [.keepAlive second [1] second, .pollOne (60 * second)] y :=
    .cons ⟨⟨⟨trivial, trivial⟩, trivial⟩, rfl⟩ (.cons ⟨⟨⟨trivial, trivial⟩, trivial⟩, rfl⟩ .refl)
  have hInserted : blockedSession.inserted = [[oneAttempt, JobBuilder.orderedMessage 2 "second"]] := by
    decide +kernel
  have hLater : y.inserted = [[oneAttempt, JobBuilder.orderedMessage 2 "second"]] := by
    decide +kernel
  have hExhausted : (blockedSession.store.row 1).map MqMsg.attemptAt = some none := by decide +kernel
  obtain ⟨r, hStored, hNone⟩ := Option.map_eq_some_iff.mp hExhausted
  have hBlocked := (exhausted_blocks run (by simp [hInserted]) hStored hNone after).2.2
  refine ⟨by decide +kernel, hBlocked (JobBuilder.orderedMessage 2 "second") (Or.inr ?_) rfl rfl rfl⟩
  exact ⟨_, hLater ▸ List.mem_singleton_self _, by simp, by simp, by decide⟩

end Session

end Sqlxmq
