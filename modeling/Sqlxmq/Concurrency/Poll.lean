import Sqlxmq.Crate.JobBuilder
import Sqlxmq.Database.RowStep

/-! Polls that run at the same time. A poll takes its candidates from a
snapshot and reaches each of them later, when the latest version of the row
may have been handed out by another poll, kept alive or deleted. A
transaction that is rolled back leaves no trace, so only those that commit
take part. -/
namespace Sqlxmq

open KeyedTable SqlNull LabelledRun

/-- A poll with its own `NOW()`, its snapshot, and the candidates that it
has not reached yet. -/
structure PendingPoll where
  now : Timestamp
  snapshot : Store
  candidates : List Uuid

/-- A message handed out by a poll with the given `NOW()`. -/
structure Handout where
  now : Timestamp
  message : PolledMessage
deriving DecidableEq

/-- The committed rows, the polls so far, and what they handed out in the
order of the commits. Extra retries are counted for one message. -/
structure PollState where
  store : Store
  polls : List PendingPoll
  handouts : List Handout
  granted : Int

inductive PollEvent where
  | begin (choice : PollChoice) (channelNames : Option (List String)) (batchSize : Int4)
      (poll : PendingPoll)
  | reach (n : Nat) (candidate : Uuid)
  | call (op : Op)

/-- A checkpoint of a message comes while its next attempt is scheduled. -/
def ChecksScheduled (r : MqMsg) : Op → Prop
  | .checkpoint _ msgId _ _ _ _ => msgId = r.id → r.attemptAt ≠ none
  | _ => True

def PollState.start (s : Store) : PollState := ⟨s, [], [], 0⟩

/-- The handouts of one message. -/
def handoutsOf (id : Uuid) (ds : List Handout) : List Handout :=
  ds.filter fun d => d.message.id = some id

theorem handoutsOf_append (id : Uuid) (ds : List Handout) (now : Timestamp)
    (polled : List PolledMessage) : handoutsOf id (ds ++ polled.map (⟨now, ·⟩)) =
      handoutsOf id ds ++ (returnedFor id polled).map (⟨now, ·⟩) := by
  simp [handoutsOf, returnedFor, List.filter_map, Function.comp_def]

/-- One event of an interleaving, as far as the message `id` is concerned. -/
inductive PollStep [JsonbCast] (id : Uuid) (x : PollState) : PollEvent → PollState → Prop where
  /-- Nothing is assumed about the age of the snapshot, or about the clock. -/
  | begin {choice : PollChoice} {channelNames : Option (List String)} {batchSize : Int4}
      {poll : PendingPoll}
      (picked : messagesToUpdate choice poll.now channelNames batchSize poll.snapshot =
        .ok poll.candidates) :
      PollStep id x (.begin choice channelNames batchSize poll)
        { x with polls := x.polls ++ [poll] }
  | reach {n : Nat} {candidate : Uuid} {poll : PendingPoll} {s' : Store}
      {polled : List PolledMessage} (started : x.polls[n]? = some poll)
      (waiting : candidate ∈ poll.candidates)
      (updated : pollUpdate poll.snapshot poll.now [candidate] x.store = .ok (s', polled)) :
      PollStep id x (.reach n candidate)
        { x with
          store := s'
          polls := x.polls.set n { poll with candidates := poll.candidates.erase candidate }
          handouts := x.handouts ++ polled.map (⟨poll.now, ·⟩) }
  | call {op : Op} {s' : Store} {reply : Reply} (noPoll : op.isPoll = false)
      (noInsert : ∀ m ∈ op.batches.flatten, m.id ≠ id)
      (scheduled : ∀ r, x.store.row id = some r → ChecksScheduled r op)
      (done : exec op x.store = .ok (s', reply)) :
      PollStep id x (.call op)
        { x with
          store := s'
          granted := x.granted + if id ∈ x.store.ids then op.grants id else 0 }

/-- The handouts of a message follow its exponential backoff. -/
structure Spaced (b : Interval) (ds : List Handout) : Prop where
  backoff : ∀ k d, ds[k]? = some d → d.message.retryBackoff = some (b * 2 ^ k)
  gap : ∀ k d e, ds[k]? = some d → ds[k + 1]? = some e → d.now + b * 2 ^ k ≤ e.now

/-- No further handout is due before the last one has expired. -/
def Expires (b : Interval) (ds : List Handout) (t : Timestamp) : Prop :=
  ∀ d ∈ ds.getLast?, d.now + b * 2 ^ (ds.length - 1) ≤ t

theorem getElem?_concat {ds : List Handout} {e d : Handout} {k : Nat}
    (h : (ds ++ [e])[k]? = some d) : ds[k]? = some d ∨ k = ds.length ∧ d = e := by
  rcases Nat.lt_trichotomy k ds.length with hOld | rfl | hBeyond
  · rw [List.getElem?_append_left hOld] at h
    exact Or.inl h
  · rw [List.getElem?_concat_length] at h
    exact Or.inr ⟨rfl, (Option.some.inj h).symm⟩
  · rw [List.getElem?_eq_none (by simp; omega)] at h
    cases h

theorem Spaced.concat {b : Interval} {ds : List Handout} (h : Spaced b ds) {e : Handout}
    (hBackoff : e.message.retryBackoff = some (b * 2 ^ ds.length)) (hGap : Expires b ds e.now) :
    Spaced b (ds ++ [e]) where
  backoff := by
    intro k d hd
    rcases getElem?_concat hd with hOld | ⟨rfl, rfl⟩
    · exact h.backoff k d hOld
    · exact hBackoff
  gap := by
    intro k d f hd hf
    rcases getElem?_concat hf with hOld | ⟨hLength, rfl⟩
    · rcases getElem?_concat hd with hOldToo | ⟨rfl, -⟩
      · exact h.gap k d f hOldToo hOld
      · rw [List.getElem?_eq_none (by omega)] at hOld
        cases hOld
    · rcases getElem?_concat hd with hLast | ⟨hLast, -⟩
      · have hIn : d ∈ ds.getLast? := by
          rw [List.getLast?_eq_getElem?, ← hLength]
          exact hLast
        simpa [← hLength] using hGap d hIn
      · omega

theorem expires_concat {b : Interval} {ds : List Handout} {e : Handout} {t : Timestamp} :
    Expires b (ds ++ [e]) t ↔ e.now + b * 2 ^ ds.length ≤ t := by
  simp [Expires]

/-- The row of a committed message after some handouts: its columns count
them, and its next attempt is no earlier than the last one allows. -/
structure LeasedRow (b : Interval) (attempts : Int) (ds : List Handout) (r : MqMsg) : Prop where
  committed : r.commitInterval = none
  backoff : r.retryBackoff = b * 2 ^ ds.length
  attempts : r.attempts.val + ds.length = attempts
  next : ∀ t ∈ r.attemptAt, Expires b ds t

namespace LeasedRow

variable {b : Interval} {attempts : Int} {ds : List Handout} {r r' : MqMsg}

/-- A handout is no earlier than the last one allows, and it writes the
deadline of the next one. -/
theorem handout (h : LeasedRow b attempts ds r) {now : Timestamp} {snapshot : Store}
    (hDue : isLe r.attemptAt now = true) (hRow : pollRow now r = .ok r') :
    (returning snapshot r').retryBackoff = some (b * 2 ^ ds.length) ∧ Expires b ds now ∧
      LeasedRow b attempts (ds ++ [⟨now, returning snapshot r'⟩]) r' := by
  obtain ⟨hAttempts, hEq⟩ := pollRow_eq_ok hRow
  obtain ⟨t, ht, hLe⟩ := isLe_iff.mp hDue
  have hDoubled : r'.retryBackoff = b * 2 ^ ds.length * 2 := by
    rw [hEq, ← h.backoff]
  have hSum := h.attempts
  refine ⟨?_, fun d hd => (h.next t ht d hd).trans hLe, ?_, ?_, ?_, ?_⟩
  · show some (r'.retryBackoff / 2) = _
    rw [hDoubled, Int.mul_ediv_cancel _ (by decide)]
  · rw [hEq]
    exact h.committed
  · rw [hDoubled, List.length_append, List.length_singleton, pow_succ, mul_assoc]
  · rw [List.length_append, List.length_singleton, hAttempts]
    omega
  · intro t' ht'
    rw [expires_concat, ← h.backoff]
    rw [hEq] at ht'
    dsimp only at ht'
    split at ht'
    · cases ht'
    · exact (Option.some.inj ht').le

/-- Nothing but a poll brings the next attempt forward. -/
theorem step (h : LeasedRow b attempts ds r) {op : Op} {reply : Reply}
    (hStep : RowStep r op reply r') (hNoPoll : op.isPoll = false) (hScheduled : ChecksScheduled r op) :
    LeasedRow b (attempts + op.grants r.id) ds r' where
  committed := hStep.committed h.committed
  backoff := (hStep.backoff hNoPoll).trans h.backoff
  attempts := by
    have hSum := h.attempts
    have hCost := hStep.attempts
    rw [hStep.notReturned hNoPoll] at hCost
    simp only [List.length_nil, Nat.cast_zero, add_zero] at hCost
    omega
  next := by
    have hPostponed : r.Postponed r' := by
      refine hStep.postponed h.committed ?_ ?_
      · rintro _ _ _ _ rfl
        cases hNoPoll
      · rintro _ _ _ _ _ rfl
        exact hScheduled rfl
    intro t' ht' d hd
    obtain ⟨t, ht, hLater⟩ := hPostponed.exists_le ht'
    exact (h.next t ht d hd).trans hLater

end LeasedRow

/-- What holds of a message throughout an interleaving. -/
structure Leased (id : Uuid) (b : Interval) (attempts : Int) (x : PollState) : Prop where
  spaced : Spaced b (handoutsOf id x.handouts)
  row : ∀ r, x.store.row id = some r →
    LeasedRow b (attempts + x.granted) (handoutsOf id x.handouts) r

section Interleaving

variable [JsonbCast] {id : Uuid} {b : Interval} {attempts : Int} {x y : PollState}

theorem Leased.step (h : Leased id b attempts x) {event : PollEvent}
    (hStep : PollStep id x event y) : Leased id b attempts y := by
  cases hStep with
  | begin picked => exact ⟨h.spaced, h.row⟩
  | @reach n candidate poll s' polled started waiting updated =>
      have hMore := handoutsOf_append id x.handouts poll.now polled
      rcases pollUpdate_row updated id with ⟨r, r', hr, hr', -, hDue, hRow, hReturned⟩ | ⟨hSame, hNone⟩
      · obtain ⟨hBackoff, hGap, hLeased⟩ :=
          (h.row r hr).handout hDue hRow
        rw [hReturned] at hMore
        refine ⟨?_, fun r₁ hr₁ => ?_⟩
        · rw [hMore]
          exact h.spaced.concat hBackoff hGap
        · obtain rfl := Option.some.inj (hr'.symm.trans hr₁)
          rw [hMore]
          exact hLeased
      · rw [hNone, List.map_nil, List.append_nil] at hMore
        refine ⟨?_, fun r hr => ?_⟩
        · rw [hMore]
          exact h.spaced
        · rw [hMore]
          exact h.row r (hSame.symm.trans hr)
  | @call op s' reply noPoll noInsert scheduled done =>
      refine ⟨h.spaced, fun r₁ hr₁ => ?_⟩
      cases hRow : x.store.row id with
      | none =>
          rw [(exec_row_none done hRow noInsert).1] at hr₁
          cases hr₁
      | some r =>
          obtain rfl : r.id = id := (Store.row_eq_some_iff.mp hRow).2
          have hStored : r.id ∈ x.store.ids := Store.row_isSome_iff.mp (by simp [hRow])
          have hStep := exec_row_step done hRow hr₁
          have hLeased := (h.row r hRow).step hStep noPoll (scheduled r hRow)
          rw [add_assoc] at hLeased
          simpa [handoutsOf, hStored] using hLeased

/-- Interleaved polls respect the lease. Of a committed message, the k-th
handout returns the k-th power of its backoff, no handout is earlier than
the one before it allows, and each costs exactly one attempt. -/
theorem polls_respect_lease {s : Store} {r₀ : MqMsg} (hStored : s.row id = some r₀)
    (hCommitted : r₀.commitInterval = none) {events : List PollEvent}
    (run : Run (PollStep id) (.start s) events x) :
    (∀ k d, (handoutsOf id x.handouts)[k]? = some d →
      d.message.retryBackoff = some (r₀.retryBackoff * 2 ^ k)) ∧
    (∀ k d e, (handoutsOf id x.handouts)[k]? = some d → (handoutsOf id x.handouts)[k + 1]? = some e →
      d.now + r₀.retryBackoff * 2 ^ k ≤ e.now) ∧
    ∀ r, x.store.row id = some r →
      r.attempts.val + (handoutsOf id x.handouts).length = r₀.attempts.val + x.granted := by
  have h : Leased id r₀.retryBackoff r₀.attempts.val x := by
    refine run.invariant ⟨⟨by simp [PollState.start, handoutsOf],
      by simp [PollState.start, handoutsOf]⟩, fun r hr => ?_⟩
      fun _ _ _ hLeased hStep => hLeased.step hStep
    obtain rfl := Option.some.inj (hStored.symm.trans hr)
    exact ⟨hCommitted, by simp [PollState.start, handoutsOf],
      by simp [PollState.start, handoutsOf],
      by simp [PollState.start, handoutsOf, Expires]⟩
  exact ⟨h.spaced.backoff, h.spaced.gap, fun r hr => (h.row r hr).attempts⟩

end Interleaving

/-- Three polls pick the same message from one snapshot. The second to reach
it has the latest clock, and the third comes too early. -/
theorem polls_respect_lease_of_three :
    let s := (@transact .nullOnly (.insert 0 [(JobBuilder.newWithId 1 "job").message])
      (.initial 0)).1
    let reached (now : Timestamp) (t : Store) := (pollUpdate s now [1] t).toOption.getD (t, [])
    let a := reached 0 s
    let b := reached (3 * second) a.1
    let c := reached second b.1
    let ds : List Handout := [] ++ a.2.map (⟨0, ·⟩) ++ b.2.map (⟨3 * second, ·⟩) ++
      c.2.map (⟨second, ·⟩)
    (handoutsOf 1 ds).map (fun d => (d.now, d.message.retryBackoff)) =
        [(0, some second), (3 * second, some (2 * second))] ∧
      ∀ k d e, (handoutsOf 1 ds)[k]? = some d → (handoutsOf 1 ds)[k + 1]? = some e →
        d.now + second * 2 ^ k ≤ e.now := by
  intro s reached a b c ds
  let _ : JsonbCast := .nullOnly
  let poll (now : Timestamp) : PendingPoll := ⟨now, s, [1]⟩
  let begin (now : Timestamp) : PollEvent := .begin .physical none ⟨1, by decide, by decide⟩ (poll now)
  have run : Run (PollStep 1) (.start s)
      [begin 0, begin (3 * second), begin second, .reach 0 1, .reach 1 1, .reach 2 1]
      ⟨c.1, [⟨0, s, []⟩, ⟨3 * second, s, []⟩, ⟨second, s, []⟩], ds, 0⟩ :=
    .cons (.begin (by rfl)) <| .cons (.begin (by rfl)) <| .cons (.begin (by rfl)) <|
      .cons (.reach rfl (by decide) (by rfl : pollUpdate s 0 [1] s = .ok a)) <|
      .cons (.reach rfl (by decide) (by rfl : pollUpdate s (3 * second) [1] a.1 = .ok b)) <|
      .cons (.reach rfl (by decide) (by rfl : pollUpdate s second [1] b.1 = .ok c)) .refl
  obtain ⟨r₀, hStored⟩ : ∃ r₀, s.row 1 = some r₀ := Option.isSome_iff_exists.mp (by rfl)
  have hFields : (s.row 1).map (fun r => (r.commitInterval, r.retryBackoff)) = some (none, second) := by
    rfl
  rw [hStored] at hFields
  obtain ⟨hCommitted, hBackoff⟩ := Prod.mk.inj (Option.some.inj hFields)
  refine ⟨by rfl, ?_⟩
  rw [← hBackoff]
  exact (polls_respect_lease hStored hCommitted run).2.1

end Sqlxmq
