import Sqlxmq.Lifecycle.KeepAlive

/-! What becomes of a job whose worker is gone. The task that kept it alive is
gone as well, so its lease runs out, and the interval only doubled as fast as
the job ran. -/
namespace Sqlxmq

open KeyedTable SqlNull LabelledRun

/-- A call that moves the end of the job's lease. -/
def Op.renews (id : Uuid) : Op → Prop
  | .keepAlive _ msgIds _ => id ∈ msgIds
  | .checkpoint _ msgId _ _ _ _ => msgId = id
  | _ => False

/-- The row of a job that was handed out, with the end of its lease. There is
none after the last attempt. -/
structure LeasedUntil (lease : Option Timestamp) (r : MqMsg) : Prop where
  notNil : r.id ≠ uuidNil
  committed : r.commitInterval = none
  first : mqUuidExists r.afterMessageId = false
  lease : r.attemptAt = lease

theorem LeasedUntil.ready {deadline now : Timestamp} {channelNames : Option (List String)} {r : MqMsg}
    (h : LeasedUntil (some deadline) r) (hDue : deadline ≤ now)
    (hSelected : channelSelected channelNames r.channelName = true) : Ready now channelNames r where
  notNil := h.notNil
  due := isLe_iff.mpr ⟨deadline, h.lease, hDue⟩
  first := h.first
  selected := hSelected

/-- Only a poll that returns the job or a call that renews its lease moves it. -/
theorem LeasedUntil.step {lease : Option Timestamp} {r r' : MqMsg} {op : Op} {reply : Reply}
    (h : LeasedUntil lease r) (hStep : RowStep r op reply r') (hRenews : ¬ op.renews r.id)
    (hPassed : ∀ choice now channelNames batchSize, op = .poll choice now channelNames batchSize →
      Ready now channelNames r → returnedFor r.id reply.polled = []) : LeasedUntil lease r' where
  notNil := hStep.continues.id ▸ h.notNil
  committed := hStep.committed h.committed
  first := hStep.continues.first h.first
  lease := by
    cases hStep with
    | poll ready row returned =>
        rw [hPassed _ _ _ _ rfl ready] at returned
        cases returned
    | commit => simp [commitRow, h.committed, h.lease]
    | keepAlive =>
        unfold keepAliveRow
        rw [if_neg fun hTakes => hRenews hTakes.1]
        exact h.lease
    | checkpoint row => exact absurd rfl hRenews
    | relink gone noGrant notReturned =>
        rw [setDefault_eq]
        exact h.lease

namespace KeepAliveLoop

/-- The end of the lease that the task holds. -/
def lease (exhausted : Bool) (x : KeepAliveLoop) : Option Timestamp :=
  if exhausted then none else some (x.last + x.interval)

/-- The lease of a job that only its task keeps alive. The interval has grown
by no more than twice the time that the job has run. -/
structure Alone (id : Uuid) (t₀ : Timestamp) (b : Duration) (exhausted : Bool) (x : KeepAliveLoop) :
    Prop where
  holds : Holds id x
  row : ∀ r, x.store.row id = some r → LeasedUntil (x.lease exhausted) r
  paced : (x.interval : Int) ≤ b + 2 * (x.last - t₀)

variable {id : Uuid} {t₀ : Timestamp} {b : Duration} {exhausted : Bool} {x y : KeepAliveLoop}

/-- If half of an interval has passed, twice the interval ends later. -/
theorem doubled_end {last now : Int} {interval : Nat} (hHalf : interval ≤ 2 * (now - last))
    (hLater : now + (interval * 2 : Nat) ≤ last + interval) :
    last + interval = now + (interval * 2 : Nat) := by
  omega

/-- The lease that a round grants always ends later than the one before. -/
theorem keepAliveRow_leased {now : Timestamp} {r : MqMsg} (h : LeasedUntil (x.lease exhausted) r)
    (hSlept : x.Slept now) :
    LeasedUntil ((x.keepJobAlive r.id now).lease exhausted)
      (keepAliveRow now [r.id] (x.interval * 2 : Nat) r) where
  notNil := by
    rw [keepAliveRow_eq]
    exact h.notNil
  committed := by
    unfold keepAliveRow
    split
    · simp [h.committed]
    · exact h.committed
  first := by
    rw [keepAliveRow_eq]
    exact h.first
  lease := by
    have hLease := h.lease
    unfold keepAliveRow
    cases exhausted with
    | true => simp [hLease, lease, isLt]
    | false =>
        have hEnd : r.attemptAt = some (x.last + x.interval) := hLease
        split
        · rfl
        · rename_i hSkips
          rw [hEnd]
          refine congrArg some (doubled_end hSlept (not_lt.mp fun hBefore => ?_))
          exact hSkips ⟨List.mem_singleton_self _, isLt_iff.mpr ⟨_, hEnd, hBefore⟩⟩

theorem Alone.keepJobAlive (h : Alone id t₀ b exhausted x) {now : Timestamp} (hSlept : x.Slept now) :
    Alone id t₀ b exhausted (x.keepJobAlive id now) where
  holds := (h.holds.keepJobAlive now).1
  row := by
    intro r' hr'
    rw [KeepAliveLoop.keepJobAlive, mqKeepAlive, Store.mapMsgs_row] at hr'
    obtain ⟨r, hr, rfl⟩ := Option.map_eq_some_iff.mp hr'
    obtain rfl := (Store.row_eq_some_iff.mp hr).2
    exact keepAliveRow_leased (h.row r hr) hSlept
  paced := by
    have hPaced := h.paced
    have hHalf : (x.interval : Int) ≤ 2 * (now - x.last) := hSlept
    show ((x.interval * 2 : Nat) : Int) ≤ b + 2 * (now - t₀)
    push_cast
    omega

/-- The state after the poll that handed out the job, which may have been its
last attempt. -/
theorem alone_start {choice : PollChoice} {channelNames : Option (List String)} {batchSize : Int4}
    {s s' : Store} {polled : List PolledMessage}
    (hPoll : mqPoll choice t₀ channelNames batchSize s = .ok (s', polled)) {m : PolledMessage}
    (hm : m ∈ polled) (hId : m.id = some id) (hCommitted : m.isCommitted = some true)
    (hBackoff : m.retryBackoff = some (b : Interval)) :
    ∃ r exhausted, s'.row id = some r ∧ (exhausted = true ↔ r.attemptAt = none) ∧
      Alone id t₀ b exhausted (start s' t₀ b) := by
  obtain ⟨hHolds, r, hr, hAttempt⟩ := holds_start hPoll hm hId hCommitted hBackoff
  have hFirst : mqUuidExists r.afterMessageId = false ∧ r.id ≠ uuidNil := by
    obtain ⟨r₀, -, rfl, hReady, r', hr', hRow, -⟩ := mqPoll_polled hPoll hm hId
    have hSame := pollRow_sameIdentity _ _ hRow
    obtain ⟨hIn, hRowId⟩ := Store.row_eq_some_iff.mp hr
    obtain rfl := List.inj_on_of_nodup_map s'.msgsPkey hIn hr' (hRowId.trans hSame.id.symm)
    exact ⟨hSame.afterMessageId ▸ hReady.first, hSame.id ▸ hReady.notNil⟩
  have hLeased {lease : Option Timestamp} (hLease : r.attemptAt = lease) :
      ∀ r', s'.row id = some r' → LeasedUntil lease r' := by
    intro r' hr'
    obtain rfl := Option.some.inj (hr.symm.trans hr')
    exact ⟨hFirst.2, hHolds.committed r hr, hFirst.1, hLease⟩
  have hPaced : (b : Int) ≤ b + 2 * (t₀ - t₀) := by omega
  rcases hAttempt with hNone | hSome
  · exact ⟨r, true, hr, by simp [hNone], hHolds, hLeased hNone, hPaced⟩
  · exact ⟨r, false, hr, by simp [hSome], hHolds, hLeased hSome, hPaced⟩

section Runs

variable [JsonbCast]

theorem Alone.call (h : Alone id t₀ b exhausted x) {op : Op}
    (hOnTime : ∀ choice now channelNames batchSize,
      op = .poll choice now channelNames batchSize → x.OnTime now)
    (hFresh : ∀ m ∈ op.batches.flatten, m.id ≠ id) (hRenews : ¬ op.renews id)
    (hHolds : Holds id { x with store := (transact op x.store).1 }) :
    Alone id t₀ b exhausted { x with store := (transact op x.store).1 } where
  holds := hHolds
  row := by
    refine transact_keeps (P := fun s' => ∀ r', s'.row id = some r' → LeasedUntil (x.lease exhausted) r')
      h.row fun s' reply hExec => ?_
    intro r' hr'
    cases hr : x.store.row id with
    | none =>
        rw [(exec_row_none hExec hr hFresh).1] at hr'
        cases hr'
    | some r =>
        obtain rfl := (Store.row_eq_some_iff.mp hr).2
        refine (h.row r hr).step (exec_row_step hExec hr hr') hRenews ?_
        intro choice now channelNames batchSize hPoll hReady
        exact absurd hReady (h.holds.notReady hr (hOnTime _ _ _ _ hPoll) channelNames)
  paced := h.paced

theorem Alone.run {events : List KeepAliveEvent} (h : Alone id t₀ b exhausted x)
    (run : Run (Step id) x events y) (hAlone : ∀ op, .call op ∈ events → ¬ op.renews id) :
    Alone id t₀ b exhausted y := by
  induction run with
  | refl => exact h
  | snoc prior last ih =>
      have hMiddle := ih fun op hIn => hAlone op (List.mem_append_left _ hIn)
      have hHolds := (hMiddle.holds.step last).1
      cases last with
      | round slept onTime => exact hMiddle.keepJobAlive slept
      | call onTime fresh noRevival =>
          have hRenews := hAlone _ (List.mem_append_right _ (List.mem_singleton_self _))
          exact hMiddle.call onTime fresh hRenews hHolds

/-- A call after the worker is gone, which neither renews the lease nor returns
the job. -/
inductive Abandoned (id : Uuid) (s : Store) : Op → Store → Prop where
  | call {op : Op} (fresh : ∀ m ∈ op.batches.flatten, m.id ≠ id) (leaves : ¬ op.renews id)
      (passes : ∀ s' reply, exec op s = .ok (s', reply) → returnedFor id reply.polled = []) :
      Abandoned id s op (transact op s).1

theorem run_abandoned {lease : Option Timestamp} {ops : List Op} {s t : Store}
    (run : Run (Abandoned id) s ops t) (h : ∀ r, s.row id = some r → LeasedUntil lease r) :
    ∀ r, t.row id = some r → LeasedUntil lease r := by
  refine run.invariant (P := fun t => ∀ r, t.row id = some r → LeasedUntil lease r) h ?_
  rintro t op _ h ⟨fresh, leaves, passes⟩
  refine transact_keeps (P := fun t' => ∀ r', t'.row id = some r' → LeasedUntil lease r') h ?_
  intro t' reply hExec r' hr'
  cases hr : t.row id with
  | none =>
      rw [(exec_row_none hExec hr fresh).1] at hr'
      cases hr'
  | some r =>
      obtain rfl := (Store.row_eq_some_iff.mp hr).2
      exact (h r hr).step (exec_row_step hExec hr hr') leaves fun _ _ _ _ _ _ => passes _ _ hExec

/-- The job of a dead worker comes back. Its task had kept it alive for any
number of rounds, then the worker and the task were gone. As long as the job is
stored and nobody polls it, it is ready from the end of its lease on, unless it
had used up its attempts. The lease outlives the last round by no more than the
backoff and twice the time that the job had run. -/
theorem dead_worker_recovers {choice : PollChoice} {channelNames : Option (List String)}
    {batchSize : Int4} {s s' : Store} {polled : List PolledMessage}
    (hPoll : mqPoll choice t₀ channelNames batchSize s = .ok (s', polled)) {m : PolledMessage}
    (hm : m ∈ polled) (hId : m.id = some id) (hCommitted : m.isCommitted = some true)
    (hBackoff : m.retryBackoff = some (b : Interval)) {events : List KeepAliveEvent}
    (run : Run (Step id) (start s' t₀ b) events x)
    (hAlone : ∀ op, .call op ∈ events → ¬ op.renews id) {ops : List Op} {t : Store}
    (rest : Run (Abandoned id) x.store ops t) :
    (x.interval : Int) ≤ b + 2 * (x.last - t₀) ∧
      ∃ r₀, s'.row id = some r₀ ∧ ∀ r, t.row id = some r →
        (r₀.attemptAt = none → r.attemptAt = none) ∧
        (r₀.attemptAt ≠ none → ∀ now channelNames, x.last + x.interval ≤ now →
          channelSelected channelNames r.channelName = true → Ready now channelNames r) := by
  obtain ⟨r₀, exhausted, hr₀, hExhausted, hStart⟩ := alone_start hPoll hm hId hCommitted hBackoff
  have hEnd := hStart.run run hAlone
  refine ⟨hEnd.paced, r₀, hr₀, fun r hr => ?_⟩
  have hLeased := run_abandoned rest hEnd.row r hr
  refine ⟨fun hNone => ?_, fun hSome now channelNames hDue hSelected => ?_⟩
  · rw [hLeased.lease, lease, if_pos (hExhausted.mpr hNone)]
  · have hNot : ¬ exhausted = true := fun hTrue => hSome (hExhausted.mp hTrue)
    rw [lease, if_neg hNot] at hLeased
    exact hLeased.ready hDue hSelected

end Runs

/-- A worker that is gone after one round of its task, beside another worker. -/
theorem dead_worker_recovers_of_round :
    let _ : JsonbCast := .nullOnly
    ∃ s' polled, mqPoll .physical 0 none (.ofBits 1) (spawned (.newWithId 1 "job")).store =
        .ok (s', polled) ∧
      ∀ r, (mqKeepAlive second [2] 0 ((start s' 0 1000000).keepJobAlive 1 600000).store).row 1 = some r →
        Ready 2600000 none r := by
  intro _
  have hPolled : (mqPoll .physical 0 none (.ofBits 1) (spawned (.newWithId 1 "job")).store).map
      (fun result => result.2.map fun m => (m.id, m.isCommitted, m.retryBackoff)) =
        .ok [(some 1, some true, some ((1000000 : Duration) : Interval))] := by decide +kernel
  have hLease : (mqPoll .physical 0 none (.ofBits 1) (spawned (.newWithId 1 "job")).store).map
      (fun result => (result.1.row 1).map MqMsg.attemptAt) = .ok (some (some second)) := by
    decide +kernel
  obtain ⟨⟨s', polled⟩, hPoll, hRows⟩ := exists_of_map_eq_ok hPolled
  refine ⟨s', polled, hPoll, fun r hr => ?_⟩
  obtain ⟨m, rfl, hColumns⟩ := List.map_eq_singleton_iff.mp hRows
  simp only [Prod.mk.injEq] at hColumns
  obtain ⟨hId, hCommitted, hBackoff⟩ := hColumns
  have run : Run (Step 1) (start s' 0 1000000) [.round 600000]
      ((start s' 0 1000000).keepJobAlive 1 600000) :=
    .cons (.round (by simp [Slept, start]) (by simp [OnTime, start])) .refl
  have rest : Run (Abandoned 1) ((start s' 0 1000000).keepJobAlive 1 600000).store
      [.keepAlive second [2] 0] (mqKeepAlive second [2] 0 _) :=
    .cons (.call (by simp [Op.batches]) (by simp [Op.renews]) fun s' reply hExec => by cases hExec; rfl) .refl
  obtain ⟨-, r₀, hr₀, hRecovers⟩ := dead_worker_recovers hPoll (List.mem_singleton_self m) hId
    hCommitted hBackoff run (by simp) rest
  have hSome : r₀.attemptAt ≠ none := by
    simp only [hPoll, hr₀, Except.map, Option.map_some, Except.ok.injEq, Option.some.injEq] at hLease
    simp [hLease]
  refine (hRecovers r hr).2 hSome 2600000 none ?_ rfl
  simp only [KeepAliveLoop.keepJobAlive, start]
  decide

end KeepAliveLoop

end Sqlxmq
