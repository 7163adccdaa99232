import Sqlxmq.Lifecycle.Wakeup

/-! The task that keeps a running job alive. It sleeps for half of its
interval, doubles the interval, and moves the next attempt of the job that far
into the future. Each call has to arrive before the previous lease runs out. -/
namespace Sqlxmq

open KeyedTable SqlNull LabelledRun

/-- The store and the task: the server time of the last call that it made, or
of the poll that it started from, and the interval it holds. -/
structure KeepAliveLoop where
  store : Store
  last : Timestamp
  interval : Duration

inductive KeepAliveEvent where
  | round (now : Timestamp)
  | call (op : Op)

namespace KeepAliveLoop

/-- A round at this time has slept for half of the interval. -/
def Slept (x : KeepAliveLoop) (now : Timestamp) : Prop := (x.interval : Int) ≤ 2 * (now - x.last)

/-- A round at this time is late by less than half of the interval. -/
def OnTime (x : KeepAliveLoop) (now : Timestamp) : Prop := now - x.last < x.interval

/-- One round of `keep_job_alive`. -/
def keepJobAlive (id : Uuid) (now : Timestamp) (x : KeepAliveLoop) : KeepAliveLoop :=
  let interval := x.interval * 2
  { store := mqKeepAlive now [id] interval x.store, last := now, interval }

variable [JsonbCast]

/-- Rounds of the task interleave with any other transaction, such as an
explicit `keep_alive` of the job or a poll of some runner. Identifiers are not
reused, and a checkpoint of the job does not start it again after its last
attempt. -/
inductive Step (id : Uuid) (x : KeepAliveLoop) : KeepAliveEvent → KeepAliveLoop → Prop where
  | round {now : Timestamp} (slept : x.Slept now) (onTime : x.OnTime now) :
      Step id x (.round now) (x.keepJobAlive id now)
  | call {op : Op}
      (onTime : ∀ choice now channelNames batchSize,
        op = .poll choice now channelNames batchSize → x.OnTime now)
      (fresh : ∀ m ∈ op.batches.flatten, m.id ≠ id)
      (noRevival : ∀ now duration newPayloadJson newPayloadBytes extraRetries,
        op = .checkpoint now id duration newPayloadJson newPayloadBytes extraRetries →
          ∀ r, x.store.row id = some r → r.attemptAt ≠ none) :
      Step id x (.call op) { x with store := (transact op x.store).1 }

end KeepAliveLoop

namespace KeepAliveLoop

variable {id : Uuid} {x y : KeepAliveLoop}

/-- The lease that the task relies on: until the pending round, no poll finds
the job due. -/
structure Holds (id : Uuid) (x : KeepAliveLoop) : Prop where
  committed : ∀ r, x.store.row id = some r → r.commitInterval = none
  leased : ∀ r, x.store.row id = some r → r.NotBefore (x.last + x.interval)

theorem Holds.notReady (h : Holds id x) {r : MqMsg} (hr : x.store.row id = some r) {now : Timestamp}
    (hOnTime : x.OnTime now) (channelNames : Option (List String)) : ¬ Ready now channelNames r := by
  intro hReady
  obtain ⟨a, ha, hDue⟩ := isLe_iff.mp hReady.due
  have hLeased := h.leased r hr a ha
  unfold OnTime at hOnTime
  have hBefore : now < x.last + x.interval := Int.lt_add_of_sub_left_lt hOnTime
  exact absurd (hBefore.trans_le (hLeased.trans hDue)) (lt_irrefl _)

theorem keepAliveRow_notBefore (now : Timestamp) (duration : Interval) (r : MqMsg) :
    (keepAliveRow now [r.id] duration r).NotBefore (now + duration) := by
  intro b hb
  unfold keepAliveRow at hb
  split at hb
  · cases hb
    exact le_rfl
  · rename_i hSkips
    by_contra hEarly
    exact hSkips ⟨List.mem_singleton_self _, isLt_iff.mpr ⟨b, hb, not_le.mp hEarly⟩⟩

/-- Where the row of the job comes from in a step. -/
def PostponedFrom (id : Uuid) (x y : KeepAliveLoop) : Prop :=
  ∀ r', y.store.row id = some r' → ∃ r, x.store.row id = some r ∧ r.Postponed r'

theorem Holds.keepJobAlive (h : Holds id x) (now : Timestamp) :
    Holds id (x.keepJobAlive id now) ∧ PostponedFrom id x (x.keepJobAlive id now) := by
  have hRow {r' : MqMsg} (hr' : (x.keepJobAlive id now).store.row id = some r') :
      ∃ r, x.store.row id = some r ∧ keepAliveRow now [r.id] (x.interval * 2 : Nat) r = r' := by
    rw [KeepAliveLoop.keepJobAlive, mqKeepAlive, Store.mapMsgs_row] at hr'
    obtain ⟨r, hr, hEq⟩ := Option.map_eq_some_iff.mp hr'
    exact ⟨r, hr, (Store.row_eq_some_iff.mp hr).2.symm ▸ hEq⟩
  refine ⟨⟨?_, ?_⟩, ?_⟩
  · intro r' hr'
    obtain ⟨r, hr, rfl⟩ := hRow hr'
    have hStep : RowStep r (.keepAlive now [r.id] (x.interval * 2 : Nat)) .silent _ := .keepAlive
    exact hStep.committed (h.committed r hr)
  · intro r' hr'
    obtain ⟨r, hr, rfl⟩ := hRow hr'
    exact keepAliveRow_notBefore _ _ r
  · intro r' hr'
    obtain ⟨r, hr, rfl⟩ := hRow hr'
    exact ⟨r, hr, keepAliveRow_postponed _ _ _ r⟩

theorem Holds.call [JsonbCast] (h : Holds id x) {op : Op} {s' : Store} {reply : Reply}
    (hExec : exec op x.store = .ok (s', reply))
    (hOnTime : ∀ choice now channelNames batchSize,
      op = .poll choice now channelNames batchSize → x.OnTime now)
    (hFresh : ∀ m ∈ op.batches.flatten, m.id ≠ id)
    (hNoRevival : ∀ now duration newPayloadJson newPayloadBytes extraRetries,
      op = .checkpoint now id duration newPayloadJson newPayloadBytes extraRetries →
        ∀ r, x.store.row id = some r → r.attemptAt ≠ none) :
    Holds id { x with store := s' } ∧ PostponedFrom id x { x with store := s' } := by
  have hRow {r' : MqMsg} (hr' : s'.row id = some r') :
      ∃ r, x.store.row id = some r ∧ r.Postponed r' ∧ r'.commitInterval = none := by
    cases hr : x.store.row id with
    | none =>
        rw [(exec_row_none hExec hr hFresh).1] at hr'
        cases hr'
    | some r =>
        have hStep := exec_row_step hExec hr hr'
        obtain rfl := (Store.row_eq_some_iff.mp hr).2
        refine ⟨r, rfl, ?_, hStep.committed (h.committed r hr)⟩
        apply hStep.postponed (h.committed r hr)
        · intro choice now channelNames batchSize hPoll
          exact h.notReady hr (hOnTime _ _ _ _ hPoll) channelNames
        · intro now duration json bytes extra hCheckpoint
          exact hNoRevival _ _ _ _ _ hCheckpoint r hr
  refine ⟨⟨?_, ?_⟩, ?_⟩
  · intro r' hr'
    obtain ⟨r, -, -, hCommitted⟩ := hRow hr'
    exact hCommitted
  · intro r' hr'
    obtain ⟨r, hr, hPostponed, -⟩ := hRow hr'
    exact hPostponed.notBefore (h.leased _ hr)
  · intro r' hr'
    obtain ⟨r, hr, hPostponed, -⟩ := hRow hr'
    exact ⟨r, hr, hPostponed⟩

theorem Holds.step [JsonbCast] {event : KeepAliveEvent} (h : Holds id x) (hStep : Step id x event y) :
    Holds id y ∧ PostponedFrom id x y := by
  cases hStep with
  | round slept onTime => exact h.keepJobAlive _
  | @call op onTime fresh noRevival =>
      unfold transact
      cases hExec : exec op x.store with
      | ok result => exact h.call hExec onTime fresh noRevival
      | error e => exact ⟨h, fun r' hr' => ⟨r', hr', MqMsg.postponed_of_eq rfl⟩⟩

theorem Holds.run [JsonbCast] {events : List KeepAliveEvent} (h : Holds id x)
    (run : Run (Step id) x events y) : Holds id y ∧ PostponedFrom id x y := by
  induction run with
  | refl => exact ⟨h, fun r' hr' => ⟨r', hr', MqMsg.postponed_of_eq rfl⟩⟩
  | snoc prior last ih =>
      obtain ⟨hMiddle, hFirst⟩ := ih
      obtain ⟨hLast, hSecond⟩ := hMiddle.step last
      refine ⟨hLast, fun r'' hr'' => ?_⟩
      obtain ⟨r', hr', hPostponed'⟩ := hSecond r'' hr''
      obtain ⟨r, hr, hPostponed⟩ := hFirst r' hr'
      exact ⟨r, hr, hPostponed.trans hPostponed'⟩

/-- The state in which the task starts, when a poll has delivered the job. -/
def start (s : Store) (now : Timestamp) (retryBackoff : Duration) : KeepAliveLoop :=
  ⟨s, now, retryBackoff⟩

/-- The first lease comes from the poll. -/
theorem holds_start {choice : PollChoice} {t₀ : Timestamp} {channelNames : Option (List String)}
    {batchSize : Int4} {s s' : Store} {polled : List PolledMessage}
    (hPoll : mqPoll choice t₀ channelNames batchSize s = .ok (s', polled)) {m : PolledMessage}
    (hm : m ∈ polled) (hId : m.id = some id) (hCommitted : m.isCommitted = some true)
    {b : Duration} (hBackoff : m.retryBackoff = some (b : Interval)) :
    Holds id (start s' t₀ b) ∧
      ∃ r, s'.row id = some r ∧ (r.attemptAt = none ∨ r.attemptAt = some (t₀ + b)) := by
  obtain ⟨r, hr, rfl, hReady, r', hr', hRow, rfl⟩ := mqPoll_polled hPoll hm hId
  have hStored : s'.row r.id = some r' :=
    Store.row_eq_some_iff.mpr ⟨hr', (pollRow_sameIdentity _ _ hRow).id⟩
  have hColumns := (pollRow_eq_ok hRow).2
  have hNone : r'.commitInterval = none := by simpa [returning] using hCommitted
  -- the interval that the poll doubled is halved again in its result
  have hSame : r.retryBackoff = b := by
    rw [returning, Option.some.injEq, hColumns] at hBackoff
    simpa using hBackoff
  have hAttempt : r'.attemptAt = none ∨ r'.attemptAt = some (t₀ + b) := by
    rw [hColumns, ← hSame]
    dsimp only
    split
    · exact Or.inl rfl
    · exact Or.inr rfl
  refine ⟨⟨?_, ?_⟩, r', hStored, hAttempt⟩
  · intro r₁ hr₁
    obtain rfl := Option.some.inj (hStored.symm.trans hr₁)
    exact hNone
  · intro r₁ hr₁ a ha
    obtain rfl := Option.some.inj (hStored.symm.trans hr₁)
    rcases hAttempt with hParked | hLease
    · rw [hParked] at ha
      cases ha
    · rw [hLease] at ha
      exact (Option.some.inj ha).le

/-- The lease is held for as long as the job runs. A committed job was polled
with some backoff, and the task has made any number of rounds, each of them on
time. Until the pending round is overdue, the next attempt of the job is later
than the present, so no poll returns it, and its attempts are only put off. -/
theorem keepJobAlive_holds_lease [JsonbCast] {choice : PollChoice} {t₀ : Timestamp}
    {channelNames : Option (List String)} {batchSize : Int4} {s s' : Store}
    {polled : List PolledMessage}
    (hPoll : mqPoll choice t₀ channelNames batchSize s = .ok (s', polled)) {m : PolledMessage}
    (hm : m ∈ polled) (hId : m.id = some id) (hCommitted : m.isCommitted = some true)
    {b : Duration} (hBackoff : m.retryBackoff = some (b : Interval))
    {events later : List KeepAliveEvent} (run : Run (Step id) (start s' t₀ b) events x)
    (rest : Run (Step id) x later y) :
    (∃ r, s'.row id = some r ∧ (r.attemptAt = none ∨ r.attemptAt = some (t₀ + b))) ∧
      (∀ T, x.OnTime T →
        (∀ r a, x.store.row id = some r → r.attemptAt = some a → T < a) ∧
        ∀ choice channelNames batchSize t polled,
          mqPoll choice T channelNames batchSize x.store = .ok (t, polled) →
            ∀ m ∈ polled, m.id ≠ some id) ∧
      ∀ r', y.store.row id = some r' →
        ∃ r, x.store.row id = some r ∧ Option.Rel (· ≤ ·) r.attemptAt r'.attemptAt := by
  obtain ⟨hStart, hFirst⟩ := holds_start hPoll hm hId hCommitted hBackoff
  have hHolds : Holds id x := (hStart.run run).1
  refine ⟨hFirst, fun T hOnTime => ⟨?_, ?_⟩, (hHolds.run rest).2⟩
  · intro r a hr ha
    have hBefore : T < x.last + x.interval := Int.lt_add_of_sub_left_lt hOnTime
    exact hBefore.trans_le (hHolds.leased r hr a ha)
  · intro choice channelNames batchSize t polled hOther m hIn hReturned
    obtain ⟨r, hr, hRowId, hReady, -⟩ := mqPoll_polled hOther hIn hReturned
    have hStored : x.store.row id = some r := Store.row_eq_some_iff.mpr ⟨hr, hRowId⟩
    exact hHolds.notReady hStored hOnTime channelNames hReady

/-- A round after 0.6 of the first second, an explicit call, and a poll of
another runner at the second second. -/
theorem keepJobAlive_holds_lease_of_round :
    let _ : JsonbCast := .nullOnly
    ∃ s' polled, mqPoll .physical 0 none (.ofBits 1) (spawned (.newWithId 1 "job")).store =
        .ok (s', polled) ∧
      ∀ choice channelNames batchSize t polled,
        mqPoll choice (2 * second) channelNames batchSize
            (mqKeepAlive 700000 [1] 0 ((start s' 0 1000000).keepJobAlive 1 600000).store) =
              .ok (t, polled) →
          ∀ m ∈ polled, m.id ≠ some 1 := by
  intro _
  have hPolled : (mqPoll .physical 0 none (.ofBits 1) (spawned (.newWithId 1 "job")).store).map
      (fun result => result.2.map fun m => (m.id, m.isCommitted, m.retryBackoff)) =
        .ok [(some 1, some true, some ((1000000 : Duration) : Interval))] := by decide +kernel
  obtain ⟨⟨s', polled⟩, hPoll, hRows⟩ := exists_of_map_eq_ok hPolled
  refine ⟨s', polled, hPoll, ?_⟩
  obtain ⟨m, rfl, hColumns⟩ := List.map_eq_singleton_iff.mp hRows
  simp only [Prod.mk.injEq] at hColumns
  obtain ⟨hId, hCommitted, hBackoff⟩ := hColumns
  let x : KeepAliveLoop := (start s' 0 1000000).keepJobAlive 1 600000
  have run : Run (Step 1) (start s' 0 1000000) [.round 600000, .call (.keepAlive 700000 [1] 0)]
      { x with store := mqKeepAlive 700000 [1] 0 x.store } := by
    have hRound : Step 1 (start s' 0 1000000) (.round 600000) x :=
      .round (by simp [Slept, start]) (by simp [OnTime, start])
    have hExplicit : Step 1 x (.call (.keepAlive 700000 [1] 0))
        { x with store := mqKeepAlive 700000 [1] 0 x.store } :=
      .call (by simp) (by simp [Op.batches]) (by simp)
    exact .cons hRound (.cons hExplicit .refl)
  have hOnTime : OnTime { x with store := mqKeepAlive 700000 [1] 0 x.store } (2 * second) := by
    simp only [OnTime, x, KeepAliveLoop.keepJobAlive, start]
    decide
  exact ((keepJobAlive_holds_lease hPoll (List.mem_singleton_self m) hId hCommitted hBackoff run
    .refl).2.1 (2 * second) hOnTime).2

end KeepAliveLoop

end Sqlxmq
