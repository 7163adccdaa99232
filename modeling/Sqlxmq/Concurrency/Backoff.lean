import Sqlxmq.Crate.MainLoop

/-! The delay after a failed poll. It doubles with every failure in a row, and
a notification may end each wait early, so the failures in a row are as many as
the database is out of reach. -/
namespace Sqlxmq

open LabelledRun

/-- The number of failed polls since the last one that succeeded. -/
def RunnerEvent.countFailure (failures : Nat) : RunnerEvent → Nat
  | .returned (.ok _) => 0
  | .returned (.error _) => failures + 1
  | _ => failures

def streak (events : List RunnerEvent) : Nat := events.foldl RunnerEvent.countFailure 0

def RunnerEvent.succeeds : RunnerEvent → Bool
  | .returned (.ok _) => true
  | _ => false

@[simp] theorem streak_snoc (events : List RunnerEvent) (event : RunnerEvent) :
    streak (events ++ [event]) = event.countFailure (streak events) := by
  rw [streak, List.foldl_append]
  rfl

/-- Without a success the count only grows. -/
theorem streak_le_append (before later : List RunnerEvent)
    (hNone : ∀ event ∈ later, event.succeeds = false) : streak before ≤ streak (before ++ later) := by
  induction later using List.reverseRecOn with
  | nil => simp
  | append_singleton later event ih =>
      have hLater := ih fun e he => hNone e (List.mem_append_left _ he)
      have hEvent := hNone event (by simp)
      rw [← List.append_assoc, streak_snoc]
      refine hLater.trans ?_
      cases event with
      | returned result =>
          cases result with
          | ok duration => cases hEvent
          | error e => exact Nat.le_succ _
      | _ => exact le_rfl

/-- The shift drops what does not fit into 64 bits. -/
theorem failureDelay_ofNat {n : Nat} (h : n < 64) :
    failureDelay (.ofNat n) = 50 * 2 ^ n % 2 ^ 64 * 1000 := by
  have hAmount : (Int32.ofNat n).toUInt32.toUInt64.toNat = n := by
    show (UInt32.ofNat n).toUInt64.toNat = n
    rw [UInt32.toNat_toUInt64, UInt32.toNat_ofNat']
    exact Nat.mod_eq_of_lt (by omega)
  rw [failureDelay, UInt64.toNat_shiftLeft, hAmount, Nat.mod_eq_of_lt h, Nat.shiftLeft_eq]
  rfl

/-- The delay of the failure of this number is computed without an overflow of
the shift and without losing bits. -/
def ExactDelay (n : Nat) (delay : Duration) : Prop := n < 64 ∧ delay = 50 * 2 ^ n * 1000

theorem exactDelay_iff (n : Nat) : ExactDelay n (failureDelay (.ofNat n)) ↔ n ≤ 58 := by
  constructor
  · rintro ⟨hShift, hDelay⟩
    by_contra hMany
    have hPow : 2 ^ 59 ≤ 2 ^ n := Nat.pow_le_pow_right (by decide) (by omega)
    rw [failureDelay_ofNat hShift] at hDelay
    have hLost : 50 * 2 ^ n % 2 ^ 64 < 2 ^ 64 := Nat.mod_lt _ (by decide)
    have hSame : 50 * 2 ^ n % 2 ^ 64 = 50 * 2 ^ n := Nat.eq_of_mul_eq_mul_right (by decide) hDelay
    omega
  · intro hFew
    have hPow : 2 ^ n ≤ 2 ^ 58 := Nat.pow_le_pow_right (by decide) hFew
    have hFits : 50 * 2 ^ n % 2 ^ 64 = 50 * 2 ^ n := Nat.mod_eq_of_lt (by omega)
    exact ⟨by omega, by rw [failureDelay_ofNat (by omega), hFits]⟩

namespace JobRunner

variable {options : JobRunnerOptions} {x y : JobRunner} {events : List RunnerEvent}

/-- The failures in a row and the delay that follows them. -/
structure CountsFailures (events : List RunnerEvent) (x : JobRunner) : Prop where
  failures : x.failures = .ofNat (streak events)
  delay : ∀ delay, x.loop = .waiting .failed delay → delay = failureDelay x.failures

theorem CountsFailures.step {event : RunnerEvent} (h : CountsFailures events x)
    (hStep : Step options x event y) : CountsFailures (events ++ [event]) y where
  failures := by
    rw [streak_snoc]
    cases hStep with
    | succeeded done => rfl
    | failed done =>
        show x.failures + 1 = .ofNat (streak events + 1)
        rw [Int32.ofNat_add, ← h.failures]
        rfl
    | _ => exact h.failures
  delay := by
    cases hStep with
    | failed done =>
        intro delay hLoop
        cases hLoop
        rfl
    | drop alive => exact h.delay
    | notifyOne late => exact h.delay
    | listener => exact h.delay
    | _ => exact nofun

theorem countsFailures_of_run (run : Run (Step options) start events x) : CountsFailures events x := by
  induction run with
  | refl => exact ⟨rfl, nofun⟩
  | snoc prior last ih => exact ih.step last

/-- The delay that the main loop waits is that of the last failure. -/
theorem delay_eq (run : Run (Step options) start events x) {delay : Duration}
    (hFailed : x.loop = .waiting .failed delay) : delay = failureDelay (.ofNat (streak events)) := by
  have h := countsFailures_of_run run
  rw [h.delay delay hFailed, h.failures]

/-- The delay after the failed polls in a row is exact, and it is no smaller
than any delay before it in the same row, if and only if there were at most 58
of them. -/
theorem failure_delay_iff (run : Run (Step options) start events x) {delay : Duration}
    (hFailed : x.loop = .waiting .failed delay) :
    (ExactDelay (streak events) delay ∧
      ∀ before later y earlier, events = before ++ later → Run (Step options) start before y →
        y.loop = .waiting .failed earlier → (∀ event ∈ later, event.succeeds = false) →
          earlier ≤ delay) ↔ streak events ≤ 58 := by
  rw [delay_eq run hFailed]
  constructor
  · rintro ⟨hExact, -⟩
    exact (exactDelay_iff _).mp hExact
  · intro hFew
    obtain ⟨hShift, hDelay⟩ := (exactDelay_iff _).mpr hFew
    refine ⟨⟨hShift, hDelay⟩, ?_⟩
    rintro before later y earlier rfl prior hEarlier hNone
    have hLess := streak_le_append before later hNone
    obtain ⟨-, hEarlierDelay⟩ := (exactDelay_iff _).mpr (hLess.trans hFew)
    rw [delay_eq prior hEarlier, hEarlierDelay, hDelay]
    have hPow : 2 ^ streak before ≤ 2 ^ streak (before ++ later) :=
      Nat.pow_le_pow_right (by decide) hLess
    exact Nat.mul_le_mul_right _ (Nat.mul_le_mul_left _ hPow)

/-- One more failed poll. -/
theorem failing_poll (run : Run (Step options) start events x) (hTop : x.loop = .top)
    (hFew : x.runningJobs < options.minConcurrency) :
    ∃ events' delay, streak events' = streak events + 1 ∧ Run (Step options) start events'
      { x with failures := x.failures + 1, loop := .waiting .failed delay } := by
  have hLoad : Step options x .load { x with loop := .polling x.runningJobs } := .below hTop hFew
  have hPoll : Step options { x with loop := .polling x.runningJobs }
      (.poll (.error .other) fun _ => .ok ()) { x with loop := .dispatching (.error .other) [] } :=
    .poll_of_eq rfl trivial rfl
  have hReturned : Step options { x with loop := .dispatching (.error .other) [] }
      (.returned (.error .other))
      { x with
        failures := x.failures + 1
        loop := .waiting .failed (failureDelay (x.failures + 1)) } := .failed rfl
  refine ⟨_, _, ?_, .snoc (.snoc (.snoc run hLoad) hPoll) hReturned⟩
  rw [streak_snoc, streak_snoc, streak_snoc]
  rfl

/-- No number of failures in a row is out of reach: a notification of the
listener ends each wait at once. -/
theorem streak_unbounded (hMin : 0 < options.minConcurrency) (n : Nat) :
    ∃ events x, Run (Step options) start events x ∧ streak events = n ∧ x.loop = .top ∧
      x.runningJobs < options.minConcurrency := by
  induction n with
  | zero => exact ⟨[], start, .refl, rfl, rfl, hMin⟩
  | succ n ih =>
      obtain ⟨events, x, run, hStreak, hTop, hFew⟩ := ih
      obtain ⟨events', delay, hCount, hFailed⟩ := failing_poll run hTop hFew
      have hNotified := Run.snoc (Run.snoc hFailed .listener) (.notified rfl rfl)
      refine ⟨_, _, hNotified, ?_, rfl, hFew⟩
      rw [streak_snoc, streak_snoc, ← hStreak]
      exact hCount

/-- The first failure of a fresh runner. -/
theorem failure_delay_of_first : ∃ events x delay, Run (Step .new) start events x ∧
    x.loop = .waiting .failed delay ∧ streak events = 1 ∧ ExactDelay (streak events) delay := by
  have hStart : Run (Step .new) start [] start := .refl
  obtain ⟨events, delay, hStreak, run⟩ := failing_poll hStart rfl (by decide)
  exact ⟨events, _, delay, run, rfl, hStreak,
    ((failure_delay_iff run rfl).mpr (by rw [hStreak]; decide)).1⟩

/-- After 59 failures in a row bits are lost: the delay is shorter than the one
before it. -/
theorem failure_delay_loses_bits : ∃ events x delay, Run (Step .new) start events x ∧
    x.loop = .waiting .failed delay ∧ streak events = 59 ∧ delay ≠ 50 * 2 ^ 59 * 1000 ∧
      delay < failureDelay (.ofNat 58) := by
  have hMin : 0 < JobRunnerOptions.new.minConcurrency := by decide
  obtain ⟨events, x, run, hStreak, hTop, hFew⟩ := streak_unbounded hMin 58
  obtain ⟨events', delay, hCount, hFailed⟩ := failing_poll run hTop hFew
  have hDelay := delay_eq hFailed rfl
  rw [hCount, hStreak] at hDelay
  exact ⟨events', _, delay, hFailed, rfl, by rw [hCount, hStreak], by rw [hDelay]; decide,
    by rw [hDelay]; decide⟩

end JobRunner

end Sqlxmq
