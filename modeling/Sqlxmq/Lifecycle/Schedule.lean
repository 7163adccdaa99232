import Sqlxmq.Crate.JobBuilder
import Sqlxmq.Database.RowStep

/-! The schedule of a message that no poll has returned yet. Its sender keeps
it alive and commits it, at any times and in any order. -/
namespace Sqlxmq

open KeyedTable SqlNull LabelledRun

/-- The time until which a call keeps a message alive. -/
def Op.lease (id : Uuid) : Op → Option Timestamp
  | .keepAlive now msgIds duration => if id ∈ msgIds then some (now + duration) else none
  | _ => none

def Op.commitsTo (id : Uuid) : Op → Bool
  | .commit msgIds => id ∈ msgIds
  | _ => false

/-- What a sender expects of a message: the time it is to run at, the deadline
of its next attempt, and whether the message is committed. -/
structure Schedule where
  due : Timestamp
  deadline : Timestamp
  committed : Bool

namespace Schedule

/-- A message that was just sent. -/
def sent (now : Timestamp) (m : MqNew) : Schedule where
  due := now + m.delay
  deadline := now + m.delay + m.commitInterval.getD 0
  committed := m.commitInterval.isNone

/-- Every lease that is later than the deadline raises it. -/
def raise (x : Schedule) (leases : List Timestamp) : Schedule :=
  { x with deadline := leases.foldl max x.deadline }

/-- Back to the time of the message. -/
def restored (x : Schedule) : Schedule :=
  { x with deadline := x.due, committed := true }

/-- The first commit puts the message back to its time. Otherwise a deadline
only moves into the future. -/
def step (id : Uuid) (x : Schedule) : Op → Schedule
  | .commit msgIds =>
      if id ∈ msgIds ∧ x.committed = false then x.restored else x
  | .keepAlive now msgIds duration =>
      if id ∈ msgIds then x.raise [now + duration] else x
  | _ => x

/-- The stored columns are those of the schedule. -/
structure Follows (x : Schedule) (r : MqMsg) : Prop where
  attemptAt : r.attemptAt = some x.deadline
  commitInterval : r.commitInterval = if x.committed then none else some (x.deadline - x.due)

variable {id : Uuid} {x : Schedule} {r : MqMsg}

theorem follows_sent {now : Timestamp} {m : MqNew} {previous : Uuid}
    (h : newMsg now (m, previous) = .ok r) : Follows (sent now m) r := by
  rw [(newMsg_eq_ok h).2]
  refine ⟨rfl, ?_⟩
  cases hCommit : m.commitInterval with
  | none => simp [sent, hCommit]
  | some c =>
      have hShift : now + m.delay + c - (now + m.delay) = c := add_sub_cancel_left _ _
      simp [sent, hCommit, hShift]

theorem Follows.commit (h : Follows x r) (msgIds : List Uuid) :
    Follows (x.step r.id (.commit msgIds)) (commitRow msgIds r) := by
  unfold commitRow
  cases hCommitted : x.committed with
  | true =>
      have hNone : r.commitInterval = none := by simp [h.commitInterval, hCommitted]
      simpa [step, hNone, hCommitted] using h
  | false =>
      have hSome : r.commitInterval = some (x.deadline - x.due) := by
        simp [h.commitInterval, hCommitted]
      by_cases hListed : r.id ∈ msgIds
      · have hBack : x.deadline - (x.deadline - x.due) = x.due := sub_sub_cancel _ _
        rw [if_pos ⟨hListed, by simp [hSome]⟩]
        refine ⟨?_, ?_⟩
        · simp [step, hListed, hCommitted, restored, h.attemptAt, hSome, hBack]
        · simp [step, hListed, hCommitted, restored]
      · simpa [step, hListed] using h

/-- The guard of the update and the maximum are the same thing. -/
theorem Follows.keepAlive (h : Follows x r) (now : Timestamp) (msgIds : List Uuid)
    (duration : Interval) :
    Follows (x.step r.id (.keepAlive now msgIds duration)) (keepAliveRow now msgIds duration r) := by
  unfold keepAliveRow
  by_cases hListed : r.id ∈ msgIds
  · have hAt := h.attemptAt
    by_cases hLater : x.deadline < now + duration
    · have hMax : max x.deadline (now + duration) = now + duration := max_eq_right hLater.le
      rw [if_pos ⟨hListed, by simpa [hAt, isLt] using hLater⟩]
      refine ⟨by simp [step, hListed, raise, hMax], ?_⟩
      have hShift : x.deadline - x.due + (now + duration - x.deadline) = now + duration - x.due :=
        sub_add_sub_cancel' _ _ _
      cases hCommitted : x.committed with
      | true => simp [step, hListed, raise, h.commitInterval, hCommitted]
      | false => simp [step, hListed, raise, h.commitInterval, hCommitted, hAt, hMax, hShift]
    · have hMax : max x.deadline (now + duration) = x.deadline := max_eq_left (not_lt.mp hLater)
      rw [if_neg (by simpa [hListed, hAt, isLt] using not_lt.mp hLater)]
      simpa [step, hListed, raise, hMax] using h
  · simpa [step, hListed] using h

end Schedule

/-- A call that is about other messages, or that commits the message or keeps
it alive. -/
structure LeavesPending [JsonbCast] (id : Uuid) (s : Store) (op : Op) : Prop where
  noCheckpoint : ∀ now duration newPayloadJson newPayloadBytes extraRetries,
    op ≠ .checkpoint now id duration newPayloadJson newPayloadBytes extraRetries
  kept : ∀ r, s.row id = some r → op.removes r = false
  notPolled : ∀ s' reply, exec op s = .ok (s', reply) → returnedFor id reply.polled = []

def PendingStep [JsonbCast] (id : Uuid) (s : Store) (op : Op) (s' : Store) : Prop :=
  LeavesPending id s op ∧ s' = (transact op s).1

/-- The calls that may set the schedule of a message, other than polls. -/
def Op.setsSchedule (id : Uuid) : Op → Bool
  | .commit _ | .keepAlive .. => true
  | .checkpoint _ msgId _ _ _ _ => msgId = id
  | _ => false

theorem RowStep.sameSchedule {op : Op} {reply : Reply} {r r' : MqMsg} (h : RowStep r op reply r')
    (hOp : op.setsSchedule r.id = false) (hNotReturned : returnedFor r.id reply.polled = []) :
    r'.attemptAt = r.attemptAt ∧ r'.commitInterval = r.commitInterval := by
  cases h with
  | poll ready row returned =>
      rw [returned] at hNotReturned
      cases hNotReturned
  | commit => cases hOp
  | keepAlive => cases hOp
  | checkpoint row => simp [Op.setsSchedule] at hOp
  | relink gone noGrant notReturned =>
      rw [setDefault_eq]
      exact ⟨rfl, rfl⟩

theorem LeavesPending.cases [JsonbCast] {id : Uuid} {s : Store} {op : Op}
    (h : LeavesPending id s op) :
    (∃ msgIds, op = .commit msgIds) ∨ (∃ now msgIds duration, op = .keepAlive now msgIds duration) ∨
      op.setsSchedule id = false := by
  cases op with
  | commit msgIds => exact Or.inl ⟨msgIds, rfl⟩
  | keepAlive now msgIds duration => exact Or.inr (Or.inl ⟨now, msgIds, duration, rfl⟩)
  | checkpoint now msgId duration json bytes extra =>
      refine Or.inr (Or.inr (decide_eq_false ?_))
      rintro rfl
      exact h.noCheckpoint _ _ _ _ _ rfl
  | _ => exact Or.inr (Or.inr rfl)

namespace Schedule

variable {id : Uuid} {x : Schedule} {s s' : Store} {op : Op} {reply : Reply}

theorem step_eq_self (hOp : op.setsSchedule id = false) : x.step id op = x := by
  cases op with
  | commit msgIds => cases hOp
  | keepAlive now msgIds duration => cases hOp
  | _ => rfl

/-- The message is stored, and it follows the schedule. -/
def Describes (id : Uuid) (x : Schedule) (s : Store) : Prop :=
  ∃ r, s.row id = some r ∧ x.Follows r

variable [JsonbCast]

theorem Describes.of_exec (h : x.Describes id s) (hLeaves : LeavesPending id s op)
    (hExec : exec op s = .ok (s', reply)) : (x.step id op).Describes id s' := by
  obtain ⟨r, hr, hFollows⟩ := h
  obtain rfl := (Store.row_eq_some_iff.mp hr).2
  rcases hLeaves.cases with ⟨msgIds, rfl⟩ | ⟨now, msgIds, duration, rfl⟩ | hOther
  · cases hExec
    exact ⟨_, by simp [mqCommit, Store.mapMsgs_row, hr], hFollows.commit msgIds⟩
  · cases hExec
    exact ⟨_, by simp [mqKeepAlive, Store.mapMsgs_row, hr], hFollows.keepAlive now msgIds duration⟩
  · rw [step_eq_self hOther]
    rcases exec_row hExec hr with ⟨r', hr', hRow⟩ | ⟨hRemoved, -, -⟩
    · obtain ⟨hAttemptAt, hCommit⟩ := hRow.sameSchedule hOther (hLeaves.notPolled _ _ hExec)
      exact ⟨r', hr', hAttemptAt.trans hFollows.attemptAt, hCommit.trans hFollows.commitInterval⟩
    · rw [hLeaves.kept r hr] at hRemoved
      cases hRemoved

/-- A call that fails is none that the schedule counts. -/
theorem step_of_error {e : DbError} (hLeaves : LeavesPending id s op) (hExec : exec op s = .error e) :
    x.step id op = x := by
  rcases hLeaves.cases with ⟨msgIds, rfl⟩ | ⟨now, msgIds, duration, rfl⟩ | hOther
  · cases hExec
  · cases hExec
  · exact step_eq_self hOther

/-- The schedule of a message is computed from the calls alone. -/
theorem Describes.of_run {ops : List Op} (h : x.Describes id s)
    (run : Run (PendingStep id) s ops s') : (ops.foldl (step id) x).Describes id s' := by
  induction run with
  | refl => exact h
  | @snoc trace s s' op prior last ih =>
      obtain ⟨hLeaves, rfl⟩ := last
      rw [List.foldl_append, List.foldl_cons, List.foldl_nil]
      unfold transact
      cases hExec : exec op s with
      | ok result => exact ih.of_exec hLeaves hExec
      | error e =>
          rw [step_of_error hLeaves hExec]
          exact ih

theorem describes_sent {now : Timestamp} {newMessages : List MqNew}
    (hInsert : exec (.insert now newMessages) s = .ok (s', reply)) {m : MqNew}
    (hm : m ∈ newMessages) : (sent now m).Describes m.id s' := by
  obtain ⟨⟨t, notifications⟩, hRows, hEq⟩ := bind_eq_ok_iff.mp hInsert
  obtain ⟨-, new, hNew, hStored⟩ := mqInsert_eq_ok_iff.mp hRows
  cases hEq
  obtain ⟨r, hr, previous, hRow⟩ := newRows_exists hNew hm
  refine ⟨r, ?_, follows_sent hRow⟩
  rw [Store.row_eq_some_iff, (insertRows_eq_ok hStored).1]
  exact ⟨List.mem_append_right _ hr, by rw [(newMsg_eq_ok hRow).2]⟩

end Schedule

namespace Schedule

variable {id : Uuid} {x : Schedule} {op : Op}

/-- A call that does not commit the message only raises its deadline. -/
theorem step_eq_raise (h : x.committed = true ∨ op.commitsTo id = false) :
    x.step id op = x.raise (op.lease id).toList := by
  cases op with
  | commit msgIds =>
      rcases h with hDone | hOther
      · exact if_neg fun hTakes => by simp [hDone] at hTakes
      · exact if_neg fun hTakes => of_decide_eq_false hOther hTakes.1
  | keepAlive now msgIds duration => by_cases hListed : id ∈ msgIds <;> simp [step, Op.lease, hListed, raise]
  | _ => rfl

theorem foldl_step_eq_raise {ops : List Op}
    (h : x.committed = true ∨ ∀ op ∈ ops, op.commitsTo id = false) :
    ops.foldl (step id) x = x.raise (ops.filterMap (Op.lease id)) := by
  induction ops generalizing x with
  | nil => rfl
  | cons op rest ih =>
      have hFirst : x.committed = true ∨ op.commitsTo id = false :=
        h.imp_right fun hAll => hAll op List.mem_cons_self
      have hRest : (x.raise (op.lease id).toList).committed = true ∨
          ∀ op ∈ rest, op.commitsTo id = false :=
        h.imp_right fun hAll op hIn => hAll op (List.mem_cons_of_mem _ hIn)
      rw [List.foldl_cons, step_eq_raise hFirst, ih hRest]
      cases hLease : op.lease id <;> simp [hLease, raise]

/-- The first commit puts the message back, whatever preceded it. -/
theorem step_eq_restored (hOpen : x.committed = false) (hCommits : op.commitsTo id = true) :
    x.step id op = x.restored := by
  cases op with
  | commit msgIds => exact if_pos ⟨of_decide_eq_true hCommits, hOpen⟩
  | _ => cases hCommits

theorem foldl_step_of_commit {before after : List Op} (hOpen : x.committed = false)
    (hBefore : ∀ earlier ∈ before, earlier.commitsTo id = false) (hCommits : op.commitsTo id = true) :
    (before ++ op :: after).foldl (step id) x = x.restored.raise (after.filterMap (Op.lease id)) := by
  have hStillOpen : (x.raise (before.filterMap (Op.lease id))).committed = false := hOpen
  rw [List.foldl_append, List.foldl_cons, foldl_step_eq_raise (Or.inr hBefore),
    step_eq_restored hStillOpen hCommits, foldl_step_eq_raise (Or.inl rfl)]
  rfl

end Schedule

/-- The schedule of a message that was inserted at some time and not polled
since. While it is uncommitted, its deadline is the latest that was asked for,
and its commit interval leads back to its time. The first commit goes back
there, and later ones do nothing. -/
theorem commit_restores_schedule [JsonbCast] {t : Timestamp} {newMessages : List MqNew}
    {s s₀ s' : Store} {reply : Reply} (hInsert : exec (.insert t newMessages) s = .ok (s₀, reply))
    {m : MqNew} (hm : m ∈ newMessages) {ops : List Op} (run : Run (PendingStep m.id) s₀ ops s') :
    ∃ r, s'.row m.id = some r ∧
      (∀ c, m.commitInterval = some c → (∀ op ∈ ops, op.commitsTo m.id = false) →
        ∃ a c', r.attemptAt = some a ∧ r.commitInterval = some c' ∧ a - c' = t + m.delay ∧
          ((t + m.delay + c) :: ops.filterMap (Op.lease m.id)).max? = some a) ∧
      (∀ c before op after, m.commitInterval = some c → ops = before ++ op :: after →
        (∀ earlier ∈ before, earlier.commitsTo m.id = false) → op.commitsTo m.id = true →
        r.commitInterval = none ∧
          r.attemptAt = ((t + m.delay) :: after.filterMap (Op.lease m.id)).max?) ∧
      (m.commitInterval = none → r.commitInterval = none ∧
        r.attemptAt = ((t + m.delay) :: ops.filterMap (Op.lease m.id)).max?) ∧
      (r.commitInterval = none → ∀ msgIds, (mqCommit msgIds s').row m.id = some r) := by
  obtain ⟨r, hr, hFollows⟩ := (Schedule.describes_sent hInsert hm).of_run run
  refine ⟨r, hr, ?_, ?_, ?_, ?_⟩
  · intro c hc hOpen
    rw [Schedule.foldl_step_eq_raise (Or.inr hOpen)] at hFollows
    refine ⟨_, _, hFollows.attemptAt, ?_, sub_sub_cancel _ _, ?_⟩
    · rw [hFollows.commitInterval]
      simp [Schedule.raise, Schedule.sent, hc]
    · rw [List.max?_cons', Schedule.raise, Schedule.sent, hc]
      rfl
  · intro c before op after hc hSplit hOpen hCommits
    have hSent : (Schedule.sent t m).committed = false := by simp [Schedule.sent, hc]
    rw [hSplit, Schedule.foldl_step_of_commit hSent hOpen hCommits] at hFollows
    refine ⟨hFollows.commitInterval, ?_⟩
    rw [hFollows.attemptAt, List.max?_cons']
    rfl
  · intro hNone
    have hSent : (Schedule.sent t m).committed = true := by simp [Schedule.sent, hNone]
    rw [Schedule.foldl_step_eq_raise (Or.inl hSent)] at hFollows
    refine ⟨by simp [hFollows.commitInterval, Schedule.raise, hSent], ?_⟩
    rw [hFollows.attemptAt, List.max?_cons']
    simp [Schedule.raise, Schedule.sent, hNone]
  · intro hNone msgIds
    have hSame : commitRow msgIds r = r := by simp [commitRow, hNone]
    simp [mqCommit, Store.mapMsgs_row, hr, hSame]

/-- A job for the next second, kept alive for a minute and then committed. -/
theorem commit_restores_schedule_after_lease :
    let _ : JsonbCast := .nullOnly
    let m := { JobBuilder.newWithId 1 "job" with delay := 1000000, commitInterval := some 0 }.message
    let s₀ := (transact (.insert 0 [m]) (.initial 0)).1
    let s' := mqCommit [1, 1] (mqKeepAlive 0 [1] (60 * second) s₀)
    ∃ r, s'.row 1 = some r ∧ r.commitInterval = none ∧ r.attemptAt = some second := by
  intro _ m s₀ s'
  have hInserted : (exec (.insert 0 [m]) (.initial 0)).map (·.1.row 1 |>.isSome) = .ok true := by
    decide +kernel
  obtain ⟨⟨t, reply⟩, hInsert, -⟩ := exists_of_map_eq_ok hInserted
  have hStart : s₀ = t := by simp only [s₀, transact, hInsert]
  have run : Run (PendingStep m.id) t [.keepAlive 0 [1] (60 * second), .commit [1, 1]] s' := by
    rw [← hStart]
    have hKept {s : Store} : LeavesPending m.id s (.keepAlive 0 [1] (60 * second)) :=
      ⟨by simp, fun _ _ => rfl, fun _ _ hExec => by cases hExec; rfl⟩
    have hCommit {s : Store} : LeavesPending m.id s (.commit [1, 1]) :=
      ⟨by simp, fun _ _ => rfl, fun _ _ hExec => by cases hExec; rfl⟩
    exact .cons ⟨hKept, rfl⟩ (.cons ⟨hCommit, rfl⟩ .refl)
  obtain ⟨r, hr, -, hCommitted, -⟩ := commit_restores_schedule hInsert (List.mem_singleton_self m) run
  obtain ⟨hNone, hAt⟩ := hCommitted 0 [.keepAlive 0 [1] (60 * second)] (.commit [1, 1]) [] (by decide)
    (by simp) (by simp [Op.commitsTo]) (by decide)
  exact ⟨r, hr, hNone, hAt.trans (by decide)⟩

end Sqlxmq
