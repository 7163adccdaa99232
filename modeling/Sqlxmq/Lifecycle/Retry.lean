import Sqlxmq.Database.RowStep
import Sqlxmq.Crate.JobBuilder

/-! The retry budget of a message. An attempt is paid for by one of the
retries it was inserted with, or by one that a checkpoint granted. -/
namespace Sqlxmq

open KeyedTable SqlNull LabelledRun

/-- Attempts are left exactly while another attempt is scheduled. -/
structure Funded (r : MqMsg) : Prop where
  nonneg : 0 ≤ r.attempts.val
  parked : r.attempts.val = 0 ↔ r.attemptAt = none

/-- A checkpoint of a message without a scheduled attempt schedules one, so
it has to grant a retry as well. -/
def PaysForRevival (r : MqMsg) : Op → Prop
  | .checkpoint _ msgId _ _ _ extraRetries =>
      msgId = r.id → r.attemptAt ≠ none ∨ 0 < (extraRetries.map Int4.val).getD 0
  | _ => True

namespace Funded

variable {r r' : MqMsg} {now : Timestamp}

theorem poll (h : Funded r) (hDue : isLe r.attemptAt now = true) (hRow : pollRow now r = .ok r') :
    Funded r' := by
  obtain ⟨hAttempts, hEq⟩ := pollRow_eq_ok hRow
  obtain ⟨t, ht, -⟩ := isLe_iff.mp hDue
  have hLeft : r.attempts.val ≠ 0 := by
    intro hZero
    rw [h.parked.mp hZero] at ht
    cases ht
  have hNonneg := h.nonneg
  have hAttemptAt : r'.attemptAt =
      if r.attempts.val = 1 then none else some (now + r.retryBackoff) := by
    rw [hEq]
  refine ⟨by omega, ?_⟩
  rw [hAttemptAt, hAttempts]
  by_cases hLast : r.attempts.val = 1
  · simp [hLast]
  · simp only [hLast, if_false, reduceCtorEq, iff_false]
    omega

theorem commit (h : Funded r) (msgIds : List Uuid) : Funded (commitRow msgIds r) := by
  unfold commitRow
  split
  · rename_i hTakes
    refine ⟨h.nonneg, ?_⟩
    obtain ⟨c, hCommit⟩ := Option.ne_none_iff_exists'.mp hTakes.2
    have hNone : Option.map₂ (· - ·) r.attemptAt r.commitInterval = none ↔ r.attemptAt = none := by
      cases hAt : r.attemptAt <;> simp [hCommit]
    exact h.parked.trans hNone.symm
  · exact h

theorem keepAlive (h : Funded r) (msgIds : List Uuid) (duration : Interval) :
    Funded (keepAliveRow now msgIds duration r) := by
  unfold keepAliveRow
  split
  · rename_i hTakes
    obtain ⟨t, ht, -⟩ := isLt_iff.mp hTakes.2
    have hLeft : r.attempts.val ≠ 0 := fun hZero => by
      rw [h.parked.mp hZero] at ht
      cases ht
    exact ⟨h.nonneg, by simp [hLeft]⟩
  · exact h

theorem checkpoint (h : Funded r) {duration : Interval} {extraRetries : Option Int4}
    (hRow : checkpointRow now duration extraRetries r = .ok r')
    (hExtra : 0 ≤ (extraRetries.map Int4.val).getD 0)
    (hPays : r.attemptAt ≠ none ∨ 0 < (extraRetries.map Int4.val).getD 0) : Funded r' := by
  obtain ⟨hAttempts, hEq⟩ := checkpointRow_eq_ok hRow
  have hScheduled : r'.attemptAt ≠ none := by
    rw [hEq]
    exact greatest_ne_none _ _
  have hNonneg := h.nonneg
  have hLeft : r'.attempts.val ≠ 0 := by
    rcases hPays with hAt | hPositive
    · have : r.attempts.val ≠ 0 := fun hZero => hAt (h.parked.mp hZero)
      omega
    · omega
  exact ⟨by omega, by simp [hScheduled, hLeft]⟩

/-- A checkpoint that grants nothing to a message without a scheduled
attempt breaks the budget. -/
theorem not_checkpoint (h : Funded r) {duration : Interval} {extraRetries : Option Int4}
    (hRow : checkpointRow now duration extraRetries r = .ok r') (hParked : r.attemptAt = none)
    (hExtra : (extraRetries.map Int4.val).getD 0 = 0) : ¬ Funded r' := by
  obtain ⟨hAttempts, hEq⟩ := checkpointRow_eq_ok hRow
  intro hFunded
  have hZero : r'.attempts.val = 0 := by
    rw [hAttempts, hExtra, h.parked.mpr hParked]
    rfl
  have hNone := hFunded.parked.mp hZero
  rw [hEq] at hNone
  exact greatest_ne_none _ _ hNone

/-- One step keeps the budget. -/
theorem step {op : Op} {reply : Reply} (h : Funded r) (hStep : RowStep r op reply r')
    (hGrant : 0 ≤ op.grants r.id) (hPays : PaysForRevival r op) : Funded r' := by
  cases hStep with
  | poll ready row returned => exact h.poll ready.due row
  | commit => exact h.commit _
  | keepAlive => exact h.keepAlive _ _
  | checkpoint row =>
      simp only [Op.grants, if_true] at hGrant
      exact h.checkpoint row hGrant (hPays rfl)
  | relink gone noGrant notReturned =>
      rw [setDefault_eq]
      exact ⟨h.nonneg, h.parked⟩

end Funded

/-- A store with the account of one message: how often polls returned it,
and the extra retries it was granted while it was stored. -/
structure Account where
  store : Store
  handedOut : Nat
  granted : Int

namespace Account

variable [JsonbCast]

def call (id : Uuid) (op : Op) (x : Account) : Account :=
  match exec op x.store with
  | .ok (s', reply) =>
      { store := s'
        handedOut := x.handedOut + (returnedFor id reply.polled).length
        granted := x.granted + if id ∈ x.store.ids then op.grants id else 0 }
  | .error _ => x

/-- Any call that does not insert the message again and does not take
retries from it. -/
def Step (id : Uuid) (x : Account) (op : Op) (y : Account) : Prop :=
  (∀ m ∈ op.batches.flatten, m.id ≠ id) ∧ 0 ≤ op.grants id ∧ y = x.call id op

/-- Every revival of the message is paid for. -/
def Pays (id : Uuid) (x : Account) (op : Op) : Prop :=
  ∀ r, x.store.row id = some r → PaysForRevival r op

/-- The account of a message that was inserted with a number of retries. -/
structure Balanced (id : Uuid) (retries : Int) (x : Account) : Prop where
  row : ∀ r, x.store.row id = some r → Funded r ∧
    r.attempts.val + x.handedOut = retries + 1 + x.granted
  bound : (x.handedOut : Int) ≤ retries + 1 + x.granted

variable {id : Uuid} {retries : Int} {x : Account} {op : Op}

/-- A call that brings the message in by no insert fails, finds it gone or
removes it, or makes a step of its row. -/
theorem call_cases (hNew : ∀ m ∈ op.batches.flatten, m.id ≠ id) :
    x.call id op = x ∨
      ((x.call id op).store.row id = none ∧ (x.call id op).handedOut = x.handedOut ∧
        (x.call id op).granted = x.granted + if id ∈ x.store.ids then op.grants id else 0) ∨
      ∃ r r' reply, x.store.row id = some r ∧ (x.call id op).store.row id = some r' ∧
        RowStep r op reply r' ∧
        (x.call id op).handedOut = x.handedOut + (returnedFor id reply.polled).length ∧
        (x.call id op).granted = x.granted + op.grants id := by
  unfold Account.call
  cases hExec : exec op x.store with
  | error e => exact Or.inl rfl
  | ok result =>
      obtain ⟨s', reply⟩ := result
      right
      cases hRow : x.store.row id with
      | none =>
          obtain ⟨hGone, hPolled⟩ := exec_row_none hExec hRow hNew
          exact Or.inl ⟨hGone, by simp [hPolled], rfl⟩
      | some r =>
          have hStored : id ∈ x.store.ids := Store.row_isSome_iff.mp (by simp [hRow])
          rcases exec_row hExec hRow with ⟨r', hr', hStep⟩ | ⟨-, hGone, hPolled⟩
          · exact Or.inr ⟨r, r', reply, rfl, hr', hStep, rfl, by simp [hStored]⟩
          · exact Or.inl ⟨hGone, by simp [hPolled], rfl⟩

theorem Balanced.call (h : Balanced id retries x) (hNew : ∀ m ∈ op.batches.flatten, m.id ≠ id)
    (hGrant : 0 ≤ op.grants id) (hPays : x.Pays id op) : Balanced id retries (x.call id op) := by
  have hBound := h.bound
  rcases call_cases (x := x) hNew with hSame |
    ⟨hGone, hHandedOut, hGranted⟩ | ⟨r, r', reply, hr, hr', hStep, hHandedOut, hGranted⟩
  · rwa [hSame]
  · refine ⟨by simp [hGone], ?_⟩
    rw [hHandedOut, hGranted]
    split <;> omega
  · obtain ⟨hFunded, hSum⟩ := h.row r hr
    obtain rfl : r.id = id := (Store.row_eq_some_iff.mp hr).2
    have hFunded' := hFunded.step hStep hGrant (hPays r hr)
    have hCost := hStep.attempts
    have hNonneg := hFunded'.nonneg
    refine ⟨fun r₁ hr₁ => ?_, ?_⟩
    · obtain rfl := Option.some.inj (hr'.symm.trans hr₁)
      refine ⟨hFunded', ?_⟩
      rw [hHandedOut, hGranted, Nat.cast_add]
      omega
    · rw [hHandedOut, hGranted, Nat.cast_add]
      omega

/-- A message starts with one attempt more than it has retries. -/
theorem balanced_insert {now : Timestamp} {newMessages : List MqNew} {s s' : Store} {reply : Reply}
    (hInsert : exec (.insert now newMessages) s = .ok (s', reply)) {m : MqNew}
    (hm : m ∈ newMessages) (hRetries : 0 ≤ m.retries.val) :
    Balanced m.id m.retries.val ⟨s', 0, 0⟩ := by
  obtain ⟨⟨t, notifications⟩, hRows, hEq⟩ := bind_eq_ok_iff.mp hInsert
  obtain ⟨-, new, hNew, hStored⟩ := mqInsert_eq_ok_iff.mp hRows
  cases hEq
  refine ⟨fun r hr => ?_, by simp; omega⟩
  obtain ⟨r₀, hr₀, previous, hRow⟩ := newRows_exists hNew hm
  obtain ⟨hAttempts, hColumns⟩ := newMsg_eq_ok hRow
  have hRowOf : s'.row m.id = some r₀ := by
    rw [Store.row_eq_some_iff, (insertRows_eq_ok hStored).1]
    exact ⟨List.mem_append_right _ hr₀, by rw [hColumns]⟩
  obtain rfl := Option.some.inj (hRowOf.symm.trans hr)
  have hScheduled : r₀.attemptAt ≠ none := by
    rw [hColumns]
    simp
  dsimp only at hAttempts
  refine ⟨⟨by omega, ?_⟩, by simp [hAttempts]⟩
  simp only [hScheduled, iff_false]
  omega

/-- The retry budget. While every checkpoint that finds no scheduled attempt
grants at least one retry, a message keeps its attempts in step with its
schedule, and polls return it at most once more than it has retries. -/
theorem retry_budget {now : Timestamp} {newMessages : List MqNew} {s s₀ : Store} {reply : Reply}
    (hInsert : exec (.insert now newMessages) s = .ok (s₀, reply)) {m : MqNew}
    (hm : m ∈ newMessages) (hRetries : 0 ≤ m.retries.val) {ops : List Op} {x : Account}
    (run : Run (fun x op y => Step m.id x op y ∧ x.Pays m.id op) ⟨s₀, 0, 0⟩ ops x) :
    (∀ r, x.store.row m.id = some r →
      0 ≤ r.attempts.val ∧ (r.attempts.val = 0 ↔ r.attemptAt = none)) ∧
    (x.handedOut : Int) ≤ m.retries.val + 1 + x.granted := by
  have h : Balanced m.id m.retries.val x := by
    apply run.invariant (balanced_insert hInsert hm hRetries)
    rintro x op _ hBalanced ⟨⟨hNew, hGrant, rfl⟩, hPays⟩
    exact hBalanced.call hNew hGrant hPays
  exact ⟨fun r hr => ⟨(h.row r hr).1.nonneg, (h.row r hr).1.parked⟩, h.bound⟩

end Account

theorem Account.retry_budget_of_extra :
    let _ : JsonbCast := .nullOnly
    let poll : Op := .pollOne 0
    let checkpoint : Op := .checkpoint 0 1 0 none none (some ⟨1, by decide, by decide⟩)
    let x : Account := call 1 checkpoint
      (call 1 poll ⟨(transact (.insert 0 [lastAttempt]) (.initial 0)).1, 0, 0⟩)
    x.store.row 1 ≠ none ∧
      (∀ r, x.store.row 1 = some r → 0 ≤ r.attempts.val ∧
        (r.attempts.val = 0 ↔ r.attemptAt = none)) ∧
      (x.handedOut : Int) ≤ 0 + 1 + x.granted := by
  intro _ poll checkpoint x
  have hInserted : (exec (.insert 0 [lastAttempt]) (.initial 0)).map (·.1.row 1 |>.isSome) =
      .ok true := by rfl
  obtain ⟨⟨s₀, reply⟩, hInsert, -⟩ := exists_of_map_eq_ok hInserted
  have run : Run (fun x op y => Step 1 x op y ∧ x.Pays 1 op) ⟨s₀, 0, 0⟩ [poll, checkpoint] x := by
    have hStart : (transact (.insert 0 [lastAttempt]) (.initial 0)).1 = s₀ := by
      simp only [transact, hInsert]
    rw [← hStart]
    exact .cons ⟨⟨by simp [poll, Op.pollOne, Op.batches], by decide, rfl⟩, fun _ _ => trivial⟩
      (.cons ⟨⟨by simp [checkpoint, Op.batches], by decide, rfl⟩, fun _ _ _ => Or.inr (by decide)⟩
        .refl)
  exact ⟨by decide +kernel, retry_budget hInsert (List.mem_singleton_self _) (by decide) run⟩

/-- The only attempt fails, a checkpoint without extra retries schedules the
message again, and the next poll takes an attempt that is not there. -/
theorem Account.retry_budget_exceeded :
    let _ : JsonbCast := .nullOnly
    let poll : Op := .pollOne 0
    let checkpoint : Op := .checkpoint 0 1 0 none none none
    let x₀ : Account := ⟨(transact (.insert 0 [lastAttempt]) (.initial 0)).1, 0, 0⟩
    let x₁ := call 1 checkpoint (call 1 poll x₀)
    let x₂ := call 1 poll x₁
    Run (Step 1) x₀ [poll, checkpoint, poll] x₂ ∧ lastAttempt.retries.val = 0 ∧
      (x₁.store.row 1).map (fun r => (r.attempts.val, r.attemptAt)) = some (0, some 0) ∧
      (x₂.store.row 1).map (fun r => r.attempts.val) = some (-1) ∧
      x₂.handedOut = 2 ∧ x₂.granted = 0 := by
  intro _ poll checkpoint x₀ x₁ x₂
  refine ⟨?_, by decide, by decide +kernel, by decide +kernel, by decide +kernel, by decide +kernel⟩
  exact .cons ⟨by simp [poll, Op.pollOne, Op.batches], by decide, rfl⟩
    (.cons ⟨by simp [checkpoint, Op.batches], by decide, rfl⟩
      (.cons ⟨by simp [poll, Op.pollOne, Op.batches], by decide, rfl⟩ .refl))

end Sqlxmq
