import Sqlxmq.Crate.Api
import Sqlxmq.Crate.MainLoop
import Sqlxmq.Lifecycle.Checkpoint
import Sqlxmq.Lifecycle.Retry

/-! Numbers on their way from Rust to SQL. Retries, extra retries and batch
sizes are cast to `i32`, which keeps the low 32 bits, and `INT` arithmetic
continues with what arrives. -/
namespace Sqlxmq

open KeyedTable LabelledRun

namespace Int4

theorem ofBits_eq_iff (b : BitVec 32) : (ofBits b).val = b.toNat ↔ b.toNat < 2 ^ 31 := by
  have hVal : (ofBits b).val = b.toInt := rfl
  rw [hVal, BitVec.toInt_eq_toNat_cond]
  have hWord := b.isLt
  split <;> omega

/-- A `usize` survives the cast exactly when it is a number of type `i32`. -/
theorem ofBits_setWidth_eq_iff (n : UInt64) :
    (ofBits (n.toBitVec.setWidth 32)).val = n.toNat ↔ n.toNat < 2 ^ 31 := by
  have hLow : (n.toBitVec.setWidth 32).toNat = n.toNat % 2 ^ 32 := by
    rw [BitVec.toNat_setWidth, UInt64.toNat_toBitVec]
  constructor
  · intro hSame
    have hUpper := (ofBits (n.toBitVec.setWidth 32)).upper
    omega
  · intro hSmall
    have hKept : (n.toBitVec.setWidth 32).toNat = n.toNat := by
      rw [hLow]
      exact Nat.mod_eq_of_lt (by omega)
    rw [← hKept]
    exact (ofBits_eq_iff _).mpr (by omega)

end Int4

section Spawn

variable [JsonbCast] {now : Timestamp} {job : JobBuilder} {s s' : Store} {reply : Reply}

/-- The row that a spawned job gets. -/
theorem spawn_row (h : exec (CrateCall.spawn now job).op s = .ok (s', reply)) :
    ∃ r, s'.row job.id = some r ∧
      r.attempts.val = (Int4.ofBits job.retries.toBitVec).val + 1 := by
  obtain ⟨⟨t, notifications⟩, hInsert, hEq⟩ := bind_eq_ok_iff.mp h
  obtain ⟨-, new, hNew, hStored⟩ := mqInsert_eq_ok_iff.mp hInsert
  cases hEq
  obtain ⟨r, hr, previous, hRow⟩ := newRows_exists hNew (List.mem_singleton_self _)
  obtain ⟨hAttempts, hColumns⟩ := newMsg_eq_ok hRow
  refine ⟨r, ?_, hAttempts⟩
  rw [Store.row_eq_some_iff, (insertRows_eq_ok hStored).1]
  exact ⟨List.mem_append_right _ hr, by rw [hColumns]; rfl⟩

/-- A job is stored with one attempt more than it was given retries, exactly
for a number of retries that the cast keeps. -/
theorem spawn_attempts_iff (h : exec (CrateCall.spawn now job).op s = .ok (s', reply)) :
    (∃ r, s'.row job.id = some r ∧ r.attempts.val = job.retries.toNat + 1) ↔
      job.retries.toNat < 2 ^ 31 := by
  obtain ⟨r, hr, hAttempts⟩ := spawn_row h
  rw [← UInt32.toNat_toBitVec, ← Int4.ofBits_eq_iff]
  constructor
  · rintro ⟨r₁, hr₁, hSame⟩
    obtain rfl := Option.some.inj (hr.symm.trans hr₁)
    omega
  · intro hKept
    exact ⟨r, hr, by omega⟩

end Spawn

/-- A checkpoint grants the extra retries, exactly for a number that the cast
keeps. -/
theorem checkpoint_attempts_iff [JsonbCast] {now : Timestamp} {jobId : Uuid} {c : Checkpoint}
    {s s' : Store} {reply : Reply}
    (h : exec (CrateCall.checkpoint now jobId c).op s = .ok (s', reply)) {r : MqMsg}
    (hr : s.row jobId = some r) :
    (∃ r', s'.row jobId = some r' ∧ r'.attempts.val = r.attempts.val + c.extraRetries.toNat) ↔
      c.extraRetries.toNat < 2 ^ 31 := by
  obtain ⟨t, hCheckpoint, hEq⟩ := bind_eq_ok_iff.mp h
  cases hEq
  obtain ⟨r', hr', hRow⟩ := mqCheckpoint_row hCheckpoint hr
  have hAttempts := (checkpointRow_eq_ok hRow).1
  simp only [Option.map_some, Option.getD_some] at hAttempts
  rw [← Int4.ofBits_setWidth_eq_iff]
  constructor
  · rintro ⟨r₁, hr₁, hSame⟩
    obtain rfl := Option.some.inj (hr'.symm.trans hr₁)
    omega
  · intro hKept
    exact ⟨r', hr', by omega⟩

/-- The main loop polls for the difference, exactly for one that the cast
keeps. -/
theorem batchSize_eq_iff {options : JobRunnerOptions} {runningJobs : UInt64}
    (hLimits : options.minConcurrency ≤ options.maxConcurrency)
    (hFew : runningJobs < options.minConcurrency) :
    ((options.batchSize runningJobs).val =
        (options.maxConcurrency.toNat : Int) - runningJobs.toNat ∧
      1 ≤ (options.batchSize runningJobs).val) ↔
      options.maxConcurrency.toNat - runningJobs.toNat < 2 ^ 31 := by
  rw [UInt64.le_iff_toNat_le] at hLimits
  rw [UInt64.lt_iff_toNat_lt] at hFew
  have hBelow : runningJobs ≤ options.maxConcurrency := UInt64.le_iff_toNat_le.mpr (by omega)
  have hDifference : (options.maxConcurrency - runningJobs).toNat =
      options.maxConcurrency.toNat - runningJobs.toNat := UInt64.toNat_sub_of_le _ _ hBelow
  have hCast := Int4.ofBits_setWidth_eq_iff (options.maxConcurrency - runningJobs)
  rw [hDifference] at hCast
  rw [JobRunnerOptions.batchSize, ← hCast]
  omega

/-- A call that neither sends the job again nor checkpoints it. -/
def Op.SparesAttempts (id : Uuid) (op : Op) : Prop :=
  (∀ m ∈ op.batches.flatten, m.id ≠ id) ∧
    ∀ now duration newPayloadJson newPayloadBytes extraRetries,
      op ≠ .checkpoint now id duration newPayloadJson newPayloadBytes extraRetries

theorem Op.SparesAttempts.grants {id : Uuid} {op : Op} (h : op.SparesAttempts id) :
    op.grants id = 0 := by
  cases op with
  | checkpoint now msgId duration json bytes extra =>
      refine if_neg ?_
      rintro rfl
      exact h.2 _ _ _ _ _ rfl
  | _ => rfl

theorem Op.SparesAttempts.pays {op : Op} {r : MqMsg} (h : op.SparesAttempts r.id) :
    PaysForRevival r op := by
  cases op with
  | checkpoint now msgId duration json bytes extra =>
      rintro rfl
      exact absurd rfl (h.2 _ _ _ _ _)
  | _ => trivial

namespace Account

variable [JsonbCast] {id : Uuid} {attempts : Int} {x : Account} {op : Op}

/-- A message whose attempts only count down. They stop at the least number of
their type. -/
structure CountsDown (id : Uuid) (attempts : Int) (x : Account) : Prop where
  row : ∀ r, x.store.row id = some r → r.attempts.val + x.handedOut = attempts
  bound : (x.handedOut : Int) ≤ attempts + 2 ^ 31

theorem CountsDown.call (h : CountsDown id attempts x) (hOp : op.SparesAttempts id) :
    CountsDown id attempts (x.call id op) := by
  rcases call_cases (x := x) hOp.1 with hSame |
    ⟨hGone, hHandedOut, -⟩ | ⟨r, r', reply, hr, hr', hStep, hHandedOut, -⟩
  · rwa [hSame]
  · exact ⟨by simp [hGone], hHandedOut ▸ h.bound⟩
  · have hSum := h.row r hr
    obtain rfl : r.id = id := (Store.row_eq_some_iff.mp hr).2
    have hCost := hStep.attempts
    have hLower := r'.attempts.lower
    rw [hOp.grants] at hCost
    refine ⟨fun r₁ hr₁ => ?_, ?_⟩
    · obtain rfl := Option.some.inj (hr'.symm.trans hr₁)
      rw [hHandedOut, Nat.cast_add]
      omega
    · rw [hHandedOut, Nat.cast_add]
      omega

/-- Without checkpoints no retries are granted. -/
theorem Balanced.call_ungranted {retries : Int} (h : Balanced id retries x ∧ x.granted = 0)
    (hOp : op.SparesAttempts id) :
    Balanced id retries (x.call id op) ∧ (x.call id op).granted = 0 := by
  refine ⟨h.1.call hOp.1 hOp.grants.ge fun r hr => ?_, ?_⟩
  · obtain rfl := (Store.row_eq_some_iff.mp hr).2
    exact hOp.pays
  · rcases call_cases (x := x) hOp.1 with hSame | ⟨-, -, hGranted⟩ | ⟨_, _, _, -, -, -, -, hGranted⟩
    · rw [hSame, h.2]
    · simp [hGranted, h.2, hOp.grants]
    · simp [hGranted, h.2, hOp.grants]

/-- A job is delivered at most once more than it was given retries, also when
the cast made another number of them. -/
theorem spawn_deliveries_le {now : Timestamp} {job : JobBuilder} {s s₀ : Store} {reply : Reply}
    (h : exec (CrateCall.spawn now job).op s = .ok (s₀, reply)) {ops : List Op}
    (run : Run (fun x op y => op.SparesAttempts job.id ∧ y = x.call job.id op) ⟨s₀, 0, 0⟩ ops x) :
    x.handedOut ≤ job.retries.toNat + 1 := by
  have hRetries := Int4.ofBits_eq_iff job.retries.toBitVec
  rw [UInt32.toNat_toBitVec] at hRetries
  by_cases hSmall : job.retries.toNat < 2 ^ 31
  · have hKept : job.message.retries.val = job.retries.toNat := hRetries.mpr hSmall
    have hStart := balanced_insert h (List.mem_singleton_self job.message) (hKept ▸ Int.natCast_nonneg _)
    have hEnd : Balanced job.id job.message.retries.val x ∧ x.granted = 0 := by
      refine run.invariant (P := fun x => Balanced job.id _ x ∧ x.granted = 0) ⟨hStart, rfl⟩ ?_
      rintro x op _ hBalanced ⟨hOp, rfl⟩
      exact Balanced.call_ungranted hBalanced hOp
    have hBound := hEnd.1.bound
    omega
  · obtain ⟨r, hr, hAttempts⟩ := spawn_row h
    have hWrapped : (Int4.ofBits job.retries.toBitVec).val = (job.retries.toNat : Int) - 2 ^ 32 := by
      have hVal : (Int4.ofBits job.retries.toBitVec).val = job.retries.toBitVec.toInt := rfl
      rw [hVal, BitVec.toInt_eq_toNat_cond, UInt32.toNat_toBitVec]
      split <;> omega
    have hStart : CountsDown job.id r.attempts.val ⟨s₀, 0, 0⟩ := by
      refine ⟨fun r₁ hr₁ => ?_, ?_⟩
      · obtain rfl := Option.some.inj (hr.symm.trans hr₁)
        simp
      · have hLower := r.attempts.lower
        simp only [Nat.cast_zero]
        omega
    have hEnd : CountsDown job.id r.attempts.val x := by
      refine run.invariant hStart ?_
      rintro x op _ hCounts ⟨hOp, rfl⟩
      exact hCounts.call hOp
    have hBound := hEnd.bound
    omega

end Account

/-- What the database works with is what was asked for, exactly for numbers
that the casts keep. A job is never delivered too often. -/
theorem requested_iff [JsonbCast] :
    (∀ now job s s' reply, exec (CrateCall.spawn now job).op s = .ok (s', reply) →
      ((∃ r, s'.row job.id = some r ∧ r.attempts.val = job.retries.toNat + 1) ↔
        job.retries.toNat < 2 ^ 31)) ∧
    (∀ now jobId c s s' reply r, exec (CrateCall.checkpoint now jobId c).op s = .ok (s', reply) →
      s.row jobId = some r →
        ((∃ r', s'.row jobId = some r' ∧ r'.attempts.val = r.attempts.val + c.extraRetries.toNat) ↔
          c.extraRetries.toNat < 2 ^ 31)) ∧
    (∀ (options : JobRunnerOptions) runningJobs choice now s result,
      options.minConcurrency ≤ options.maxConcurrency → runningJobs < options.minConcurrency →
        mqPoll choice now options.channelNames (options.batchSize runningJobs) s = .ok result →
          ((options.batchSize runningJobs).val =
              (options.maxConcurrency.toNat : Int) - runningJobs.toNat ∧
            1 ≤ (options.batchSize runningJobs).val ↔
              options.maxConcurrency.toNat - runningJobs.toNat < 2 ^ 31)) ∧
    ∀ now job s s₀ reply ops x, exec (CrateCall.spawn now job).op s = .ok (s₀, reply) →
      Run (fun x op y => op.SparesAttempts job.id ∧ y = Account.call job.id op x) ⟨s₀, 0, 0⟩ ops x →
        x.handedOut ≤ job.retries.toNat + 1 :=
  ⟨fun _ _ _ _ _ => spawn_attempts_iff,
    fun _ _ _ _ _ _ _ hCheckpoint hr => checkpoint_attempts_iff hCheckpoint hr,
    fun _ _ _ _ _ _ hLimits hFew _ => batchSize_eq_iff hLimits hFew,
    fun _ _ _ _ _ _ _ hSpawn run => Account.spawn_deliveries_le hSpawn run⟩

/-- With 2^31 retries a job is stored with a negative number of attempts, with
2^32 - 1 extra retries a checkpoint takes one, and a runner that may start 2^32
jobs polls for none. -/
theorem requested_wraps :
    let _ : JsonbCast := .nullOnly
    let job := { JobBuilder.newWithId 1 "job" with retries := 2147483648 }
    let granted : Checkpoint := ⟨0, 4294967295, none, none⟩
    let options : JobRunnerOptions := ⟨1, 4294967296, none⟩
    let s := (transact (CrateCall.spawn 0 (.newWithId 1 "job")).op (.initial 0)).1
    ((exec (CrateCall.spawn 0 job).op (.initial 0)).map fun result =>
        (result.1.row 1).map fun r => r.attempts.val) = .ok (some (-2147483647)) ∧
      (s.row 1).map (fun r => r.attempts.val) = some 5 ∧
      ((exec (CrateCall.checkpoint 0 1 granted).op s).map fun result =>
        (result.1.row 1).map fun r => r.attempts.val) = .ok (some 4) ∧
      JobRunner.Step options .start .load { JobRunner.start with loop := .polling 0 } ∧
      (options.batchSize 0).val = 0 ∧
      (mqPoll .physical 0 none (options.batchSize 0) s).map
        (fun result => result.2.map PolledMessage.id) = .ok [none] := by
  intro _ job granted options s
  exact ⟨by decide +kernel, by decide +kernel, by decide +kernel, .below rfl (by decide),
    by decide +kernel, by decide +kernel⟩

end Sqlxmq
