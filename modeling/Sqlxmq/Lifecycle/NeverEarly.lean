import Mathlib.Tactic.Linarith
import Sqlxmq.Crate.Api
import Sqlxmq.Database.RowStep

/-! A message is not handed out before its time, whatever is done to it in the
meantime. While it is uncommitted, its attempt stays apart from its time by
its commit interval, and nothing else brings an attempt forward. -/
namespace Sqlxmq

open KeyedTable SqlNull LabelledRun

/-- What keeps a message from being handed out before `due`: the time of its
next attempt, or of the poll that took its last one. -/
structure HeldUntil (due : Timestamp) (commitInterval : Option Interval) (polledAt : Timestamp)
    (r : MqMsg) : Prop where
  backoff : 0 ≤ r.retryBackoff
  interval : ∀ c, r.commitInterval = some c → ∃ c₀, commitInterval = some c₀ ∧ 0 ≤ c₀ ∧ c₀ ≤ c
  attempt : ∀ a, r.attemptAt = some a → due + r.commitInterval.getD 0 ≤ a
  exhausted : r.attemptAt = none → due + r.commitInterval.getD 0 ≤ polledAt

/-- The time of the last poll that returned a message. -/
def handedOutAt (id : Uuid) (polledAt : Timestamp) (op : Op) (reply : Reply) : Timestamp :=
  match op with
  | .poll _ now _ _ => if returnedFor id reply.polled = [] then polledAt else now
  | _ => polledAt

namespace HeldUntil

variable {due polledAt now : Timestamp} {commitInterval : Option Interval} {r r' : MqMsg}

theorem interval_nonneg (h : HeldUntil due commitInterval polledAt r) :
    0 ≤ r.commitInterval.getD 0 := by
  cases hOpen : r.commitInterval with
  | none => exact Int.le_refl 0
  | some c =>
      obtain ⟨c₀, -, hNonneg, hLonger⟩ := h.interval c hOpen
      exact hNonneg.trans hLonger

theorem sent {m : MqNew} {previous : Uuid} (hBackoff : 0 ≤ m.retryBackoff)
    (hInterval : ∀ c, m.commitInterval = some c → 0 ≤ c) (hRow : newMsg now (m, previous) = .ok r) :
    HeldUntil (now + m.delay) m.commitInterval polledAt r := by
  rw [(newMsg_eq_ok hRow).2]
  refine ⟨hBackoff, fun c hc => ⟨c, hc, hInterval c hc, Int.le_refl c⟩, fun a ha => ?_, fun hNone => ?_⟩
  · exact (Option.some.inj ha).le
  · cases hNone

/-- The poll comes after the time, and so does the next attempt. -/
theorem poll (h : HeldUntil due commitInterval polledAt r) (hDue : isLe r.attemptAt now = true)
    (hRow : pollRow now r = .ok r') : HeldUntil due commitInterval now r' := by
  obtain ⟨a, ha, hBefore⟩ := isLe_iff.mp hDue
  have hNow : due + r.commitInterval.getD 0 ≤ now := (h.attempt a ha).trans hBefore
  have hBackoff := h.backoff
  rw [(pollRow_eq_ok hRow).2]
  refine ⟨Int.mul_nonneg hBackoff (by decide), h.interval, fun a' ha' => ?_, fun _ => hNow⟩
  show due + r.commitInterval.getD 0 ≤ a'
  dsimp only at ha'
  split at ha'
  · cases ha'
  · obtain rfl := Option.some.inj ha'
    linarith

/-- A commit takes the interval off the attempt and off the distance. -/
theorem commit (h : HeldUntil due commitInterval polledAt r) (msgIds : List Uuid) :
    HeldUntil due commitInterval polledAt (commitRow msgIds r) := by
  unfold commitRow
  split
  · rename_i hTakes
    obtain ⟨c, hc⟩ := Option.ne_none_iff_exists'.mp hTakes.2
    have hNonneg := h.interval_nonneg
    refine ⟨h.backoff, fun c' hc' => ?_, fun a' ha' => ?_, fun hNone => ?_⟩
    · cases hc'
    · obtain ⟨a, c', ha, hc', rfl⟩ := Option.map₂_eq_some_iff.mp ha'
      have hAttempt := h.attempt a ha
      rw [hc', Option.getD_some] at hAttempt
      show due + 0 ≤ a - c'
      linarith
    · have hExhausted : r.attemptAt = none := by
        cases ha : r.attemptAt with
        | none => rfl
        | some a => simp [ha, hc] at hNone
      have hPolled := h.exhausted hExhausted
      show due + 0 ≤ polledAt
      linarith
  · exact h

/-- The commit interval grows with the attempt. -/
theorem keepAlive (h : HeldUntil due commitInterval polledAt r) (msgIds : List Uuid)
    (duration : Interval) :
    HeldUntil due commitInterval polledAt (keepAliveRow now msgIds duration r) := by
  unfold keepAliveRow
  split
  · rename_i hTakes
    obtain ⟨a, ha, hLater⟩ := isLt_iff.mp hTakes.2
    have hAttempt := h.attempt a ha
    refine ⟨h.backoff, fun c' hc' => ?_, fun a' ha' => ?_, fun hNone => by cases hNone⟩
    · obtain ⟨c, a₁, hc, ha₁, rfl⟩ := Option.map₂_eq_some_iff.mp hc'
      obtain ⟨c₀, hSent, hNonneg, hLonger⟩ := h.interval c hc
      obtain rfl := Option.some.inj (ha.symm.trans ha₁)
      exact ⟨c₀, hSent, hNonneg, by linarith⟩
    · obtain rfl := Option.some.inj ha'
      show due + (Option.map₂ (fun c a => c + (now + duration - a)) r.commitInterval r.attemptAt).getD 0 ≤ _
      cases hc : r.commitInterval with
      | none =>
          rw [hc] at hAttempt
          simp only [Option.map₂_none_left, Option.getD_none] at hAttempt ⊢
          linarith
      | some c =>
          rw [hc] at hAttempt
          simp only [ha, Option.map₂_some_some, Option.getD_some] at hAttempt ⊢
          linarith
  · exact h

/-- A checkpoint of a message without an attempt comes after the poll that
took the last one. -/
theorem checkpoint (h : HeldUntil due commitInterval polledAt r) {duration : Interval}
    {extraRetries : Option Int4} (hCausal : polledAt ≤ now) (hDuration : 0 ≤ duration)
    (hRow : checkpointRow now duration extraRetries r = .ok r') :
    HeldUntil due commitInterval polledAt r' := by
  rw [(checkpointRow_eq_ok hRow).2]
  refine ⟨h.backoff, h.interval, fun a' ha' => ?_, fun hNone => absurd hNone (greatest_ne_none _ _)⟩
  show due + r.commitInterval.getD 0 ≤ a'
  cases ha : r.attemptAt with
  | none =>
      have hPolled := h.exhausted ha
      simp only [ha, greatest_none, Option.some.injEq] at ha'
      linarith
  | some a =>
      have hAttempt := h.attempt a ha
      simp only [ha, greatest_some, Option.some.injEq] at ha'
      exact hAttempt.trans (ha' ▸ le_max_left _ _)

/-- A message is held by whatever happens to it. -/
theorem step (h : HeldUntil due commitInterval polledAt r) {op : Op} {reply : Reply}
    (hStep : RowStep r op reply r')
    (hCausal : ∀ now duration newPayloadJson newPayloadBytes extraRetries,
      op = .checkpoint now r.id duration newPayloadJson newPayloadBytes extraRetries →
        polledAt ≤ now ∧ 0 ≤ duration) :
    HeldUntil due commitInterval (handedOutAt r.id polledAt op reply) r' := by
  cases hStep with
  | poll ready row returned =>
      rw [handedOutAt, returned, if_neg (List.cons_ne_nil _ _)]
      exact h.poll ready.due row
  | commit => exact h.commit _
  | keepAlive => exact h.keepAlive _ _
  | checkpoint row =>
      obtain ⟨hAfter, hDuration⟩ := hCausal _ _ _ _ _ rfl
      exact h.checkpoint hAfter hDuration row
  | relink gone noGrant notReturned =>
      have hSame : handedOutAt r.id polledAt op reply = polledAt := by
        cases op with
        | poll choice now channelNames batchSize => simp [handedOutAt, notReturned]
        | _ => rfl
      rw [hSame, setDefault_eq]
      exact ⟨h.backoff, h.interval, h.attempt, h.exhausted⟩

end HeldUntil

/-- The store, and the time of the last poll that returned a given message. -/
structure Tracked where
  store : Store
  polledAt : Timestamp

namespace Tracked

variable [JsonbCast] {id : Uuid} {x y : Tracked}

def call (id : Uuid) (op : Op) (x : Tracked) : Tracked :=
  match exec op x.store with
  | .ok (s', reply) => ⟨s', handedOutAt id x.polledAt op reply⟩
  | .error _ => x

/-- Any call. The identifier is not used again, and a checkpoint of the
message is made after the poll that handed it out. -/
structure Step (id : Uuid) (x : Tracked) (op : Op) (y : Tracked) : Prop where
  fresh : ∀ m ∈ op.batches.flatten, m.id ≠ id
  causal : ∀ now duration newPayloadJson newPayloadBytes extraRetries,
    op = .checkpoint now id duration newPayloadJson newPayloadBytes extraRetries →
      x.polledAt ≤ now ∧ 0 ≤ duration
  next : y = x.call id op

/-- Whenever the message is stored, it is held. -/
def Holds (id : Uuid) (due : Timestamp) (commitInterval : Option Interval) (x : Tracked) : Prop :=
  ∀ r, x.store.row id = some r → HeldUntil due commitInterval x.polledAt r

theorem Holds.step {due : Timestamp} {commitInterval : Option Interval} {op : Op}
    (h : x.Holds id due commitInterval) (hStep : x.Step id op y) : y.Holds id due commitInterval := by
  obtain ⟨hFresh, hCausal, rfl⟩ := hStep
  unfold Tracked.call
  cases hExec : exec op x.store with
  | error e => exact h
  | ok result =>
      obtain ⟨s', reply⟩ := result
      intro r' hr'
      cases hr : x.store.row id with
      | none =>
          rw [(exec_row_none hExec hr hFresh).1] at hr'
          cases hr'
      | some r =>
          obtain rfl := (Store.row_eq_some_iff.mp hr).2
          exact (h r hr).step (exec_row_step hExec hr hr') hCausal

theorem Holds.of_run {due : Timestamp} {commitInterval : Option Interval} {ops : List Op}
    (h : x.Holds id due commitInterval) (run : Run (Step id) x ops y) :
    y.Holds id due commitInterval :=
  run.invariant h fun _ _ _ hHolds hStep => hHolds.step hStep

/-- A message that was just inserted is held until its time. -/
theorem holds_inserted {t : Timestamp} {newMessages : List MqNew} {s s₀ : Store} {reply : Reply}
    (hInsert : exec (.insert t newMessages) s = .ok (s₀, reply)) {m : MqNew} (hm : m ∈ newMessages)
    (hBackoff : 0 ≤ m.retryBackoff) (hInterval : ∀ c, m.commitInterval = some c → 0 ≤ c)
    (polledAt : Timestamp) : Holds m.id (t + m.delay) m.commitInterval ⟨s₀, polledAt⟩ := by
  obtain ⟨⟨s₁, notifications⟩, hRows, hEq⟩ := bind_eq_ok_iff.mp hInsert
  obtain ⟨-, new, hNew, hStored⟩ := mqInsert_eq_ok_iff.mp hRows
  cases hEq
  obtain ⟨r, hr, previous, hRow⟩ := newRows_exists hNew hm
  have hFound : s₀.row m.id = some r := by
    rw [Store.row_eq_some_iff, (insertRows_eq_ok hStored).1]
    exact ⟨List.mem_append_right _ hr, by rw [(newMsg_eq_ok hRow).2]⟩
  intro r' hr'
  obtain rfl := Option.some.inj (hFound.symm.trans hr')
  exact HeldUntil.sent hBackoff hInterval hRow

end Tracked

/-- Jobs are never early. Whatever calls follow the insert of a message, a poll
that returns it is not made before the time that the message was sent for. If
the message is then still uncommitted, its commit interval has elapsed since. -/
theorem never_early [JsonbCast] {t : Timestamp} {newMessages : List MqNew} {s s₀ : Store}
    {reply : Reply} (hInsert : exec (.insert t newMessages) s = .ok (s₀, reply)) {m : MqNew}
    (hm : m ∈ newMessages) (hBackoff : 0 ≤ m.retryBackoff)
    (hInterval : ∀ c, m.commitInterval = some c → 0 ≤ c) {ops : List Op} {x : Tracked}
    (run : Run (Tracked.Step m.id) ⟨s₀, t⟩ ops x) {choice : PollChoice} {now : Timestamp}
    {channelNames : Option (List String)} {batchSize : Int4} {s' : Store}
    {messages : List PolledMessage}
    (hPoll : mqPoll choice now channelNames batchSize x.store = .ok (s', messages))
    {msg : PolledMessage} (hMsg : msg ∈ messages) (hId : msg.id = some m.id) :
    t + m.delay ≤ now ∧ (msg.isCommitted = some false →
      ∃ c, m.commitInterval = some c ∧ t + m.delay + c ≤ now) := by
  have hHolds := (Tracked.holds_inserted hInsert hm hBackoff hInterval t).of_run run
  obtain ⟨r, hr, hRowId, hReady, r', -, hRow, rfl⟩ := mqPoll_polled hPoll hMsg hId
  have hHeld := hHolds r (Store.row_eq_some_iff.mpr ⟨hr, hRowId⟩)
  obtain ⟨a, ha, hDue⟩ := isLe_iff.mp hReady.due
  have hAttempt := (hHeld.attempt a ha).trans hDue
  have hNonneg := hHeld.interval_nonneg
  refine ⟨by linarith, fun hOpen => ?_⟩
  have hSame : r'.commitInterval = r.commitInterval := by rw [(pollRow_eq_ok hRow).2]
  have hSome : r.commitInterval ≠ none := by simpa [returning, hSame] using hOpen
  obtain ⟨c, hc⟩ := Option.ne_none_iff_exists'.mp hSome
  obtain ⟨c₀, hSent, -, hLonger⟩ := hHeld.interval c hc
  rw [hc, Option.getD_some] at hAttempt
  exact ⟨c₀, hSent, by linarith⟩

/-- A job for the next second, kept alive for a minute, committed and polled. -/
theorem never_early_after_commit :
    let _ : JsonbCast := .nullOnly
    let m := { JobBuilder.newWithId 1 "job" with delay := 1000000, commitInterval := some 0 }.message
    let s₀ := (transact (.insert 0 [m]) (.initial 0)).1
    let s₁ := mqCommit [1] (mqKeepAlive 0 [1] (60 * second) s₀)
    ∃ s' messages, mqPoll .physical second none (.ofBits 1) s₁ = .ok (s', messages) ∧
      messages.map PolledMessage.id = [some 1] ∧ 0 + m.delay ≤ second := by
  intro _ m s₀ s₁
  have hInserted : (exec (.insert 0 [m]) (.initial 0)).map (·.1.row 1 |>.isSome) = .ok true := by
    decide +kernel
  obtain ⟨⟨t, reply⟩, hInsert, -⟩ := exists_of_map_eq_ok hInserted
  have hStart : s₀ = t := by simp only [s₀, transact, hInsert]
  have hPolled : (mqPoll .physical second none (.ofBits 1) s₁).map (fun result =>
      result.2.map PolledMessage.id) = .ok [some 1] := by decide +kernel
  obtain ⟨⟨s', messages⟩, hPoll, hIds⟩ := exists_of_map_eq_ok hPolled
  have run : Run (Tracked.Step m.id) ⟨t, 0⟩ [.keepAlive 0 [1] (60 * second), .commit [1]] ⟨s₁, 0⟩ := by
    rw [← hStart]
    exact .cons ⟨by simp [Op.batches], by simp, rfl⟩
      (.cons ⟨by simp [Op.batches], by simp, rfl⟩ .refl)
  obtain ⟨msg, hMsg, hId⟩ : ∃ msg ∈ messages, msg.id = some 1 := by
    rw [← List.mem_map, hIds]
    exact List.mem_singleton_self _
  exact ⟨s', messages, hPoll, hIds, (never_early hInsert (List.mem_singleton_self m) (by decide)
    (by decide) run hPoll hMsg hId).1⟩

end Sqlxmq
