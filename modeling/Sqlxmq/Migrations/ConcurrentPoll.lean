import Mathlib.Tactic.Linarith
import Sqlxmq.Concurrency.Poll

/-! The first version of `mq_poll` did not check the deadline of a candidate
again. Alone, a poll does not need that: its candidates are due. Of polls that
overlap, each handed out what it had picked. -/
namespace Sqlxmq

open KeyedTable SqlNull LabelledRun

/-- The condition of an UPDATE only matters on stored rows. -/
theorem Store.updateMsgs_congr {p q : MqMsg → Bool} {f : MqMsg → Except DbError MqMsg}
    (hf : ∀ r r', f r = .ok r' → MqMsg.SameIdentity r r') {s : Store}
    (h : ∀ r ∈ s.msgs, p r = q r) : s.updateMsgs p f hf = s.updateMsgs q f hf := by
  have hRows : s.msgs.map (updated p f) = s.msgs.map (updated q f) :=
    List.map_congr_left fun r hr => by simp only [updated, h r hr]
  have hStore : s.mapMsgs (updated p f) (updated_sameIdentity hf p) =
      s.mapMsgs (updated q f) (updated_sameIdentity hf q) := Store.ext hRows rfl
  unfold updateMsgs
  rw [update_congr h, hStore]

namespace Setup

/-- The WHERE clause of the update, without a re-check. -/
def pollSelects (ids : List Uuid) (r : MqMsg) : Bool := r.id ∈ ids

/-- The update of a poll, for some of its candidates. -/
def pollUpdate (snapshot : Store) (now : Timestamp) (ids : List Uuid) (s : Store) :
    Except DbError (Store × List PolledMessage) := do
  let s' ← s.updateMsgs (pollSelects ids) (pollRow now) pollRow_sameIdentity
  .ok (s', (s.msgs.filter (pollSelects ids)).map fun r =>
    returning snapshot (updated (pollSelects ids) (pollRow now) r))

/-- Main entry-point for job runner: pulls a batch of messages from the
queue. -/
def mqPoll (choice : PollChoice) (now : Timestamp) (channelNames : Option (List String))
    (batchSize : Int4) (s : Store) : Except DbError (Store × List PolledMessage) := do
  let ids ← messagesToUpdate choice now channelNames batchSize s
  let (s', polled) ← pollUpdate s now ids s
  .ok (s', if polled = [] then [waitRow now channelNames s'] else polled)

section Alone

variable {choice : PollChoice} {now : Timestamp} {channelNames : Option (List String)}
  {batchSize : Int4} {s : Store} {ids : List Uuid}

/-- A candidate is due in the store that it was picked from. -/
theorem pollSelects_eq (hIds : messagesToUpdate choice now channelNames batchSize s = .ok ids)
    {r : MqMsg} (hr : r ∈ s.msgs) : pollSelects ids r = Sqlxmq.pollSelects now ids r := by
  rw [pollSelects, Sqlxmq.pollSelects, decide_eq_decide]
  refine ⟨fun hIn => ⟨hIn, ?_⟩, And.left⟩
  obtain ⟨r₀, hr₀, hId, hReady⟩ := messagesToUpdate_ready hIds hIn
  obtain rfl := List.inj_on_of_nodup_map s.msgsPkey hr₀ hr hId
  exact hReady.due

/-- Alone, both versions of a poll do the same, whatever the database chooses. -/
theorem mqPoll_alone : mqPoll choice now channelNames batchSize s =
    Sqlxmq.mqPoll choice now channelNames batchSize s := by
  unfold mqPoll Sqlxmq.mqPoll
  cases hIds : messagesToUpdate choice now channelNames batchSize s with
  | error e => rfl
  | ok ids =>
      have hSelects : ∀ r ∈ s.msgs, pollSelects ids r = Sqlxmq.pollSelects now ids r :=
        fun r hr => pollSelects_eq hIds hr
      have hUpdate : pollUpdate s now ids s = Sqlxmq.pollUpdate s now ids s := by
        unfold pollUpdate Sqlxmq.pollUpdate
        rw [Store.updateMsgs_congr pollRow_sameIdentity hSelects, List.filter_congr hSelects]
        have hRows := List.map_congr_left fun r (hr : r ∈ s.msgs.filter (Sqlxmq.pollSelects now ids)) =>
          show returning s (updated (pollSelects ids) (pollRow now) r) = returning s _ by
            rw [updated, hSelects r (List.mem_of_mem_filter hr)]
        rw [hRows]
        rfl
      show (pollUpdate s now ids s >>= _) = _
      rw [hUpdate]
      rfl

end Alone

/-- The update takes every candidate that is stored, due or not. -/
theorem pollUpdate_row {snapshot s s' : Store} {now : Timestamp} {ids : List Uuid}
    {polled : List PolledMessage} (h : pollUpdate snapshot now ids s = .ok (s', polled)) (id : Uuid) :
    (∃ r r', s.row id = some r ∧ s'.row id = some r' ∧ id ∈ ids ∧ pollRow now r = .ok r' ∧
        returnedFor id polled = [returning snapshot r']) ∨
      ((s.row id ≠ none → id ∉ ids) ∧ s'.row id = s.row id ∧ returnedFor id polled = []) := by
  obtain ⟨t, hUpdate, hEq⟩ := bind_eq_ok_iff.mp h
  simp only [Except.ok.injEq, Prod.mk.injEq] at hEq
  obtain ⟨rfl, rfl⟩ := hEq
  rcases updateMsgs_returning hUpdate snapshot id with
    ⟨r, r', hOld, hNew, hSelected, hRow, hReturned⟩ | ⟨hLeft, hSame, hNone⟩
  · obtain ⟨-, rfl⟩ := Store.row_eq_some_iff.mp hOld
    exact Or.inl ⟨r, r', hOld, hNew, by simpa [pollSelects] using hSelected, hRow, hReturned⟩
  · refine Or.inr ⟨fun hStored => ?_, hSame, hNone⟩
    obtain ⟨r, hOld⟩ := Option.ne_none_iff_exists'.mp hStored
    obtain ⟨-, rfl⟩ := Store.row_eq_some_iff.mp hOld
    simpa [pollSelects] using hLeft r hOld

/-- One event of an interleaving of polls without a re-check. -/
inductive PollStep [JsonbCast] (id : Uuid) (x : PollState) : PollEvent → PollState → Prop where
  | begin {choice : PollChoice} {channelNames : Option (List String)} {batchSize : Int4}
      {poll : PendingPoll}
      (picked : messagesToUpdate choice poll.now channelNames batchSize poll.snapshot =
        .ok poll.candidates) :
      PollStep id x (.begin choice channelNames batchSize poll)
        { x with polls := x.polls ++ [poll] }
  | reach {n : Nat} {candidate : Uuid} {poll : PendingPoll} {s' : Store}
      {polled : List PolledMessage} (started : x.polls[n]? = some poll)
      (waiting : candidate ∈ poll.candidates)
      (updated : pollUpdate poll.snapshot poll.now [candidate] x.store = .ok (s', polled)) :
      PollStep id x (.reach n candidate)
        { x with
          store := s'
          polls := x.polls.set n { poll with candidates := poll.candidates.erase candidate }
          handouts := x.handouts ++ polled.map (⟨poll.now, ·⟩) }
  | call {op : Op} {s' : Store} {reply : Reply} (noPoll : op.isPoll = false)
      (noInsert : ∀ m ∈ op.batches.flatten, m.id ≠ id)
      (done : exec op x.store = .ok (s', reply)) :
      PollStep id x (.call op)
        { x with
          store := s'
          granted := x.granted + if id ∈ x.store.ids then op.grants id else 0 }

/-- A poll reaches the message. -/
def reaches (id : Uuid) : PollEvent → Bool
  | .reach _ candidate => candidate = id
  | _ => false

/-- While the message is stored, `n` polls have reached it. -/
def Counted (id : Uuid) (attempts : Int) (n : Nat) (x : PollState) : Prop :=
  ∀ r, x.store.row id = some r →
    (handoutsOf id x.handouts).length = n ∧ r.attempts.val + n = attempts + x.granted

section Interleaving

variable [JsonbCast] {id : Uuid} {attempts : Int} {n : Nat} {x y : PollState}

theorem Counted.step (h : Counted id attempts n x) {event : PollEvent}
    (hStep : PollStep id x event y) : Counted id attempts (n + [event].countP (reaches id)) y := by
  cases hStep with
  | begin picked => exact h
  | @reach k candidate poll s' polled started waiting updated =>
      intro r' hr'
      have hMore := handoutsOf_append id x.handouts poll.now polled
      rcases pollUpdate_row updated id with ⟨r, r₁, hr, hr₁, hIn, hRow, hReturned⟩ |
          ⟨hOther, hSame, hNone⟩
      · obtain rfl := Option.some.inj (hr₁.symm.trans hr')
        obtain ⟨hLength, hSum⟩ := h r hr
        have hReaches : reaches id (.reach k candidate) = true := by
          simpa [reaches] using (List.mem_singleton.mp hIn).symm
        have hTaken := (pollRow_eq_ok hRow).1
        rw [hMore, hReturned, List.countP_singleton, if_pos hReaches]
        refine ⟨by simp [hLength], ?_⟩
        rw [hTaken]
        push_cast
        omega
      · have hr : x.store.row id = some r' := hSame.symm.trans hr'
        have hReaches : reaches id (.reach k candidate) = false := by
          simpa [reaches, eq_comm] using hOther (by simp [hr])
        rw [hMore, hNone, List.countP_singleton, hReaches]
        simpa using h r' hr
  | @call op s' reply noPoll noInsert done =>
      intro r' hr'
      cases hRow : x.store.row id with
      | none =>
          rw [(exec_row_none done hRow noInsert).1] at hr'
          cases hr'
      | some r =>
          obtain rfl : r.id = id := (Store.row_eq_some_iff.mp hRow).2
          have hStored : r.id ∈ x.store.ids := Store.row_isSome_iff.mp (by simp [hRow])
          have hStep := exec_row_step done hRow hr'
          have hCost := hStep.attempts
          obtain ⟨hLength, hSum⟩ := h r hRow
          rw [hStep.notReturned noPoll] at hCost
          have hReaches : reaches r.id (.call op) = false := rfl
          simp only [List.countP_singleton, hReaches, if_pos hStored, List.length_nil, Nat.cast_zero,
            add_zero, Bool.false_eq_true, if_false] at hCost ⊢
          exact ⟨hLength, by omega⟩

theorem counted_run {s : Store} {r₀ : MqMsg} (hStored : s.row id = some r₀)
    {events : List PollEvent} (run : Run (PollStep id) (.start s) events x) :
    Counted id r₀.attempts.val (events.countP (reaches id)) x := by
  induction run with
  | refl =>
      intro r hr
      obtain rfl := Option.some.inj (hStored.symm.trans hr)
      simp [PollState.start, handoutsOf]
  | snoc prior last ih =>
      rw [List.countP_append]
      exact ih.step last

/-- With the re-check, too, a message is handed out at the time of some poll. -/
theorem handouts_of_polls {s : Store} {events : List PollEvent}
    (run : Run (Sqlxmq.PollStep id) (.start s) events x) :
    ∀ d ∈ x.handouts, d.now ∈ x.polls.map PendingPoll.now := by
  refine run.invariant (P := fun x => ∀ d ∈ x.handouts, d.now ∈ x.polls.map PendingPoll.now)
    (by simp [PollState.start]) ?_
  intro x event y h hStep d hd
  cases hStep with
  | begin picked =>
      rw [List.map_append]
      exact List.mem_append_left _ (h d hd)
  | @reach n candidate poll s' polled started waiting updated =>
      have hSame : (x.polls.set n { poll with candidates := poll.candidates.erase candidate }).map
          PendingPoll.now = x.polls.map PendingPoll.now := by
        obtain ⟨hBound, rfl⟩ := List.getElem?_eq_some_iff.mp started
        have hSet := List.set_getElem_self (by simpa using hBound :
          n < (x.polls.map PendingPoll.now).length)
        rw [List.getElem_map] at hSet
        rw [List.map_set]
        exact hSet
      rw [hSame]
      rcases List.mem_append.mp hd with hOld | hNew
      · exact h d hOld
      · obtain ⟨m, -, rfl⟩ := List.mem_map.mp hNew
        exact List.mem_map_of_mem (List.mem_of_getElem? started)
  | call noPoll noInsert scheduled done => exact h d hd

/-- What the re-check is for. Of the polls that read their clocks within one
backoff, at most one hands out a committed message. Without it each poll that
reaches the message does, and costs an attempt, even when none is left. -/
theorem overlapping_polls {s : Store} {r₀ : MqMsg} (hStored : s.row id = some r₀)
    (hCommitted : r₀.commitInterval = none) {t : Timestamp} :
    (∀ events x, Run (Sqlxmq.PollStep id) (.start s) events x →
      (∀ now ∈ x.polls.map PendingPoll.now, t ≤ now ∧ now < t + r₀.retryBackoff) →
        (handoutsOf id x.handouts).length ≤ 1) ∧
    ∀ events x r, Run (PollStep id) (.start s) events x → x.store.row id = some r →
      (handoutsOf id x.handouts).length = events.countP (reaches id) ∧
        r.attempts.val + events.countP (reaches id) = r₀.attempts.val + x.granted := by
  constructor
  · intro events x run hWindow
    have h : Leased id r₀.retryBackoff r₀.attempts.val x := by
      refine run.invariant ⟨⟨?_, ?_⟩, fun r hr => ?_⟩ fun _ _ _ hLeased hStep => hLeased.step hStep
      · simp [PollState.start, handoutsOf]
      · simp [PollState.start, handoutsOf]
      · obtain rfl := Option.some.inj (hStored.symm.trans hr)
        exact ⟨hCommitted, by simp [PollState.start, handoutsOf], by simp [PollState.start, handoutsOf],
          by simp [PollState.start, handoutsOf, Expires]⟩
    by_contra hTwo
    have hTwice : 1 < (handoutsOf id x.handouts).length := Nat.lt_of_not_le hTwo
    have hGap := h.spaced.gap 0 _ _ (List.getElem?_eq_getElem (Nat.lt_of_succ_lt hTwice))
      (List.getElem?_eq_getElem hTwice)
    have hNow {d : Handout} (hd : d ∈ handoutsOf id x.handouts) :
        t ≤ d.now ∧ d.now < t + r₀.retryBackoff :=
      hWindow _ (handouts_of_polls run d (List.mem_filter.mp hd).1)
    have hFirst := (hNow (List.getElem_mem (Nat.lt_of_succ_lt hTwice))).1
    have hSecond := (hNow (List.getElem_mem hTwice)).2
    rw [pow_zero, mul_one] at hGap
    linarith
  · intro events x r run hr
    exact counted_run hStored run r hr

end Interleaving

/-- Two polls at the same moment take the only attempt of a job. -/
theorem overlapping_polls_of_two :
    let _ : JsonbCast := .nullOnly
    let s := (transact (.insert 0 [{ JobBuilder.newWithId 1 "job" with retries := 0 }.message])
      (.initial 0)).1
    let begin : PollEvent := .begin .physical none (.ofBits 1) ⟨0, s, [1]⟩
    ∃ x r, Run (PollStep 1) (.start s) [begin, begin, .reach 0 1, .reach 1 1] x ∧
      x.store.row 1 = some r ∧ (handoutsOf 1 x.handouts).length = 2 ∧ r.attempts.val = -1 := by
  intro _ s begin
  let reached (t : Store) := (pollUpdate s 0 [1] t).toOption.getD (t, [])
  let a := reached s
  let b := reached a.1
  have run : Run (PollStep 1) (.start s) [begin, begin, .reach 0 1, .reach 1 1]
      ⟨b.1, [⟨0, s, []⟩, ⟨0, s, []⟩], [] ++ a.2.map (⟨0, ·⟩) ++ b.2.map (⟨0, ·⟩), 0⟩ :=
    .cons (.begin (by rfl)) <| .cons (.begin (by rfl)) <|
      .cons (.reach rfl (by decide) (by rfl : pollUpdate s 0 [1] s = .ok a)) <|
      .cons (.reach rfl (by decide) (by rfl : pollUpdate s 0 [1] a.1 = .ok b)) .refl
  obtain ⟨r₀, hStored⟩ : ∃ r₀, s.row 1 = some r₀ := Option.isSome_iff_exists.mp (by rfl)
  have hFields : (s.row 1).map (fun r => (r.commitInterval, r.attempts.val)) = some (none, 1) := by rfl
  rw [hStored] at hFields
  obtain ⟨hCommitted, hAttempts⟩ := Prod.mk.inj (Option.some.inj hFields)
  obtain ⟨r, hr⟩ : ∃ r, b.1.row 1 = some r := Option.isSome_iff_exists.mp (by rfl)
  obtain ⟨hHandouts, hSum⟩ := (overlapping_polls hStored hCommitted (t := 0)).2 _ _ r run hr
  refine ⟨_, r, run, hr, hHandouts, ?_⟩
  rw [hAttempts] at hSum
  have hReached : [begin, begin, .reach 0 1, .reach 1 1].countP (reaches 1) = 2 := rfl
  rw [hReached] at hSum
  simpa using eq_sub_of_add_eq hSum

end Setup

end Sqlxmq
