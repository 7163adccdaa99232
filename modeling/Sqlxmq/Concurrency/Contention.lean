import Sqlxmq.Concurrency.Serial

/-! What an insert competes for. Its write compares the tails that it has read
with those of the store, so a refused insert lost a channel to a transaction
that was committed in between. -/
namespace Sqlxmq

open KeyedTable PredecessorLinks LabelledRun

namespace SpawnState

/-- The tail that an insert into the channel would read. -/
def tail (ch : Channel) (x : SpawnState) : Uuid := mqLatestMessage x.store ch.name ch.args

/-- An event that commits a change to the end of a channel. -/
inductive MovesTail [JsonbCast] (ch : Channel) (x : SpawnState) : SpawnEvent → Prop where
  | appended {q : PendingInsert} {s' : Store} (accepted : insertRows x.store q.rows = .ok s')
      (ordered : orderedIds q.newMessages ch ≠ []) : MovesTail ch x (.write q)
  | removed {op : Op} (gone : x.tail ch ∉ (transact op x.store).1.ids) : MovesTail ch x (.call op)

variable [JsonbCast] {x y : SpawnState} {p : PendingInsert}

/-- The write of an insert is a comparison of tails. -/
theorem Sound.accepted_iff (h : x.Sound) (hp : p ∈ x.pending) {now : Timestamp} {snapshot : Store}
    (hNew : newRows now p.newMessages snapshot = .ok p.rows) :
    (∃ s', insertRows x.store p.rows = .ok s') ↔ SameTails p.newMessages snapshot x.store := by
  constructor
  · rintro ⟨s', hWrite⟩
    exact (h.prepared p hp).sameTails h.integrity hWrite hNew
  · intro hSame
    obtain ⟨hDistinct, hFresh⟩ := h.fresh hp
    exact h.integrity.insertRows_total (newRows_congr now hSame ▸ hNew) hDistinct hFresh

/-- A call that leaves the tail in the table leaves it the tail. -/
theorem Sound.tail_call (h : x.Sound) {op : Op} (hNoInsert : op.batches = [])
    (hSpares : op.sparesNil) {ch : Channel} (hStored : x.tail ch ∈ (transact op x.store).1.ids) :
    mqLatestMessage (transact op x.store).1 ch.name ch.args = x.tail ch := by
  unfold transact at hStored ⊢
  cases hExec : exec op x.store with
  | error e => rfl
  | ok result =>
      obtain ⟨s', reply⟩ := result
      rw [hExec] at hStored
      have hAfter := h.integrity.of_exec hSpares hExec
      have hSub := h.integrity.fifo_sublist hNoInsert hSpares hExec ch
      have hTail : x.tail ch = (x.store.fifo ch).getLastD uuidNil := h.integrity.chained.mqLatestMessage_eq ch
      show mqLatestMessage s' ch.name ch.args = x.tail ch
      rw [hAfter.chained.mqLatestMessage_eq, hTail]
      refine getLastD_of_sublist (List.nodup_cons.mp (h.integrity.chained ch).nodup).2 hSub ?_
      rcases (x.store.fifo ch).eq_nil_or_concat' with hNone | ⟨init, a, hFifo⟩
      · exact Or.inl hNone
      · rw [hTail, hFifo, List.getLastD_concat] at hStored
        obtain ⟨r', hr', rfl⟩ := List.mem_map.mp hStored
        rw [hFifo, List.getLastD_concat]
        refine Or.inr (hAfter.chained.mem_fifo_iff.mpr ?_)
        rcases exec_row_origin hExec hr' with ⟨r, hr, hContinues⟩ | ⟨_, _, rfl, -⟩
        · have hIn : r.id ∈ x.store.fifo ch := by simp [hFifo, hContinues.id]
          obtain ⟨r₀, hr₀, rfl, hId, p, hSome⟩ := h.integrity.chained.mem_fifo_iff.mp hIn
          obtain rfl := List.inj_on_of_nodup_map x.store.msgsPkey hr₀ hr hId
          have hStill : r'.afterMessageId.isSome := by simp [hContinues.isSome, hSome]
          exact ⟨r', hr', hContinues.channel, rfl, Option.isSome_iff_exists.mp hStill⟩
        · cases hNoInsert

/-- An accepted write without an ordered message for the channel leaves its tail. -/
theorem Sound.tail_write (h : x.Sound) (hp : p ∈ x.pending) {s' : Store}
    (hWrite : insertRows x.store p.rows = .ok s') {ch : Channel}
    (hNone : orderedIds p.newMessages ch = []) : mqLatestMessage s' ch.name ch.args = x.tail ch := by
  have hSound := h.write hp
  rw [SpawnState.write, hWrite] at hSound
  have hFifo : s'.fifo ch = x.store.fifo ch := by
    have hChain := (h.prepared p hp).represents h.integrity hWrite ch
    rw [hNone, List.append_nil] at hChain
    exact Store.fifo_eq hChain
  rw [tail, hSound.integrity.chained.mqLatestMessage_eq, h.integrity.chained.mqLatestMessage_eq, hFifo]

theorem Sound.movesTail (h : x.Sound) {event : SpawnEvent} (hStep : SpawnStep x event y)
    {ch : Channel} (hMoved : x.tail ch ≠ y.tail ch) : MovesTail ch x event := by
  cases hStep with
  | begin distinct fresh notified prepared => exact absurd rfl hMoved
  | @write p pending =>
      cases hWrite : insertRows x.store p.rows with
      | error e =>
          rw [SpawnState.write, hWrite] at hMoved
          exact absurd rfl hMoved
      | ok s' =>
          rw [SpawnState.write, hWrite] at hMoved
          exact .appended hWrite fun hNone => hMoved (h.tail_write pending hWrite hNone).symm
  | call noInsert spares =>
      exact .removed fun hStored => hMoved (h.tail_call noInsert spares hStored).symm

end SpawnState

section Contention

variable [JsonbCast] {migratedAt : Timestamp} {events later : List SpawnEvent} {x y z : SpawnState}

theorem run_sound (run : Run SpawnStep (.start migratedAt) events x) : x.Sound :=
  run.invariant (SpawnState.sound_start migratedAt) fun _ _ _ hSound hStep => hSound.step hStep

/-- Concurrent inserts are lock-free. A pending insert is accepted exactly
where the channels that it extends end as they did when it read them. If it is
refused, another transaction was committed in between that moved such an end. -/
theorem refused_spawn_lost {now : Timestamp} {newMessages : List MqNew} {p : PendingInsert}
    (run : Run SpawnStep (.start migratedAt) events x)
    (begins : SpawnStep x (.begin now newMessages) y) (hBegun : y.pending = p :: x.pending)
    (rest : Run SpawnStep y later z) (hPending : p ∈ z.pending) :
    ((∃ s', insertRows z.store p.rows = .ok s') ↔ SameTails newMessages x.store z.store) ∧
      ∀ e, insertRows z.store p.rows = .error e →
        ∃ ch before event after w, later = before ++ event :: after ∧ Run SpawnStep y before w ∧
          orderedIds newMessages ch ≠ [] ∧ w.MovesTail ch event := by
  have hx : x.Sound := run_sound run
  have hy : y.Sound := hx.step begins
  have hz : z.Sound := rest.invariant hy fun _ _ _ hSound hStep => hSound.step hStep
  obtain ⟨rfl, hNew, hStore⟩ : p.newMessages = newMessages ∧
      newRows now newMessages x.store = .ok p.rows ∧ y.store = x.store := by
    cases begins with
    | begin distinct fresh notified prepared =>
        obtain rfl := (List.cons.inj hBegun).1
        exact ⟨rfl, prepared, rfl⟩
  have hAccepted := hz.accepted_iff hPending hNew
  refine ⟨hAccepted, fun e hError => ?_⟩
  have hMoved : ¬ SameTails p.newMessages x.store z.store := fun hSame => by
    obtain ⟨s', hOk⟩ := hAccepted.mpr hSame
    rw [hError] at hOk
    cases hOk
  obtain ⟨ch, hMoved⟩ := not_forall.mp hMoved
  obtain ⟨hOrdered, hTail⟩ := Classical.not_imp.mp hMoved
  have hTail : y.tail ch ≠ z.tail ch := by
    rwa [SpawnState.tail, hStore]
  obtain ⟨before, event, after, w, w', rfl, runBefore, hStep, hChange⟩ :=
    rest.exists_change (SpawnState.tail ch) hTail
  have hw : w.Sound := runBefore.invariant hy fun _ _ _ hSound hStep => hSound.step hStep
  exact ⟨ch, before, event, after, w, rfl, runBefore, hOrdered, hw.movesTail hStep hChange⟩

end Contention

/-- Of two inserts with one snapshot, the second loses to the first. -/
theorem refused_spawn_lost_of_two :
    let _ : JsonbCast := .nullOnly
    let rows (id : Uuid) : NewRows :=
      { payloads := [{ id, name := "job", payloadJson := none, payloadBytes := none }]
        msgs := [{ id, createdAt := 0, attemptAt := some 0, attempts := ⟨5, by decide, by decide⟩
                   retryBackoff := second, channelName := "", channelArgs := ""
                   commitInterval := none, afterMessageId := some uuidNil }] }
    let pending (id : Uuid) : PendingInsert := ⟨[JobBuilder.orderedMessage id "job"], rows id⟩
    let x : SpawnState := ⟨.initial 0, [pending 2, pending 1], [uuidNil]⟩
    ∃ e, insertRows (x.write (pending 1)).store (rows 2) = .error e ∧
      ∃ ch before event after w, [SpawnEvent.write (pending 1)] = before ++ event :: after ∧
        Run SpawnStep x before w ∧ w.MovesTail ch event := by
  intro _ rows pending x
  have run : Run SpawnStep (.start 0) [.begin 0 [JobBuilder.orderedMessage 1 "job"]]
      ⟨.initial 0, [pending 1], [uuidNil]⟩ := .cons (.begin (by decide) (by decide) rfl rfl) .refl
  have begins : SpawnStep ⟨.initial 0, [pending 1], [uuidNil]⟩
      (.begin 0 [JobBuilder.orderedMessage 2 "job"]) x := .begin (by decide) (by decide) rfl rfl
  have rest : Run SpawnStep x [.write (pending 1)] (x.write (pending 1)) :=
    .cons (.write (by decide)) .refl
  have hPending : pending 2 ∈ (x.write (pending 1)).pending := by decide +kernel
  have hError : insertRows (x.write (pending 1)).store (pending 2).rows =
      .error (.uniqueViolation mqMsgsAfterMessageIdIdx) := by rfl
  obtain ⟨ch, before, event, after, w, hLater, runBefore, -, hMoves⟩ :=
    (refused_spawn_lost run begins rfl rest hPending).2 _ hError
  exact ⟨_, hError, ch, before, event, after, w, hLater, runBefore, hMoves⟩

end Sqlxmq
