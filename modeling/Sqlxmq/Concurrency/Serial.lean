import Sqlxmq.Concurrency.Spawn
import Sqlxmq.Order.Delivery

/-! Concurrent inserts are serializable. An insert whose write is accepted
has written what the same insert would have written if it had run alone at
the moment of the write, so what is known of serial runs is known of all. -/
namespace Sqlxmq

open KeyedTable PredecessorLinks LabelledRun

section SameTails

/-- The part of a window row that its message row depends on. -/
def ownLink (e : MqNew × Uuid) : MqNew × Uuid := (e.1, if e.1.ordered then e.2 else uuidNil)

theorem newMsg_ownLink (now : Timestamp) (e : MqNew × Uuid) :
    newMsg now (ownLink e) = newMsg now e := by
  obtain ⟨m, previous⟩ := e
  cases hOrdered : m.ordered <;> simp [newMsg, ownLink, hOrdered]

/-- A partition of unordered messages ignores the tail of its channel. -/
theorem map_ownLink_lag {ms : List MqNew} (h : ∀ m ∈ ms, m.ordered = false) (p q : Uuid) :
    (lag p ms).map ownLink = (lag q ms).map ownLink := by
  induction ms generalizing p q with
  | nil => rfl
  | cons m rest ih => simp [lag, ownLink, h m (by simp)]

/-- The window with the tails that some query finds. -/
def laggedBehind (latestMessage : String → String → Uuid) (newMessages : List MqNew) :
    List (MqNew × Uuid) :=
  (groups MqNew.partitionKey newMessages).flatMap fun key =>
    lag (latestMessage key.1 key.2.1) (windowPartition newMessages key)

/-- Only the tails of the channels that a batch extends matter. -/
theorem laggedBehind_congr {newMessages : List MqNew} {p q : String → String → Uuid}
    (h : ∀ ch, orderedIds newMessages ch ≠ [] → p ch.name ch.args = q ch.name ch.args) :
    (laggedBehind p newMessages).map ownLink = (laggedBehind q newMessages).map ownLink := by
  unfold laggedBehind
  rw [List.map_flatMap, List.map_flatMap]
  refine List.flatMap_congr fun key _ => ?_
  obtain ⟨name, args, ordered⟩ := key
  cases ordered with
  | false =>
      apply map_ownLink_lag
      intro m hm
      exact congrArg (fun key => key.2.2) (mem_windowPartition.mp hm).2
  | true =>
      by_cases hEmpty : windowPartition newMessages (name, args, true) = []
      · simp [hEmpty, lag]
      · have hTail := h ⟨name, args⟩ (by simpa [orderedIds] using hEmpty)
        dsimp only at hTail ⊢
        rw [hTail]

theorem evaluate_newMsg_congr {now : Timestamp} {rows rows' : List (MqNew × Uuid)}
    (h : rows.map ownLink = rows'.map ownLink) :
    evaluate (newMsg now) rows = evaluate (newMsg now) rows' := by
  have hOwn (rows : List (MqNew × Uuid)) :
      evaluate (newMsg now) rows = evaluate (newMsg now) (rows.map ownLink) := by
    rw [evaluate_map_rows]
    congr 1
    funext e
    exact (newMsg_ownLink now e).symm
  rw [hOwn rows, hOwn rows', h]

/-- The stores have the same tail in every channel that the batch extends. -/
def SameTails (newMessages : List MqNew) (s t : Store) : Prop :=
  ∀ ch, orderedIds newMessages ch ≠ [] →
    mqLatestMessage s ch.name ch.args = mqLatestMessage t ch.name ch.args

/-- Only these tails matter for the rows of a batch. -/
theorem newRows_congr [JsonbCast] (now : Timestamp) {newMessages : List MqNew} {s t : Store}
    (h : SameTails newMessages s t) : newRows now newMessages s = newRows now newMessages t := by
  have hRows : evaluate (newMsg now) (lagged s newMessages) =
      evaluate (newMsg now) (lagged t newMessages) := evaluate_newMsg_congr (laggedBehind_congr h)
  rw [newRows, newRows, hRows]

end SameTails

section Accepted

variable [JsonbCast]

/-- The write of a pending insert is accepted only where its tails are still
the tails of the store. -/
theorem PendingInsert.Prepared.sameTails {p : PendingInsert} {s s' snapshot : Store}
    {used : List Uuid} {now : Timestamp} (hStore : Integrity s) (h : p.Prepared s used)
    (hWrite : insertRows s p.rows = .ok s') (hNew : newRows now p.newMessages snapshot = .ok p.rows) :
    SameTails p.newMessages snapshot s := by
  intro ch hOrdered
  obtain ⟨a, rest, hIds⟩ := List.exists_cons_of_ne_nil hOrdered
  have hChain := h.represents hStore hWrite ch
  rw [hIds] at hChain
  have hLink : (a, mqLatestMessage snapshot ch.name ch.args) ∈ linksIn ch s'.msgs := by
    rw [(insertRows_eq_ok hWrite).1, linksIn_append, linksIn_newRows hNew, hIds]
    simp [links]
  rw [hChain.eq_getLastD_of_mem hLink]
  exact (hStore.chained.mqLatestMessage_eq ch).symm

/-- An accepted write is a serial insert at that moment. -/
theorem PendingInsert.Prepared.exec_insert {p : PendingInsert} {s s' : Store} {used : List Uuid}
    {notifications : List String} (hStore : Integrity s) (h : p.Prepared s used)
    (hWrite : insertRows s p.rows = .ok s')
    (hNotes : pgNotify (groups MqNew.channelName p.newMessages) = .ok notifications) :
    ∃ now, exec (.insert now p.newMessages) s = .ok (s', ⟨notifications, []⟩) := by
  obtain ⟨now, snapshot, hNew, -⟩ := h.rows
  have hSame := h.sameTails hStore hWrite hNew
  have hInsert : mqInsert now p.newMessages s = .ok (s', notifications) :=
    mqInsert_eq_ok_iff.mpr ⟨hNotes, p.rows, newRows_congr now hSame ▸ hNew, hWrite⟩
  exact ⟨now, by simp [exec, hInsert, bind, Except.bind]⟩

end Accepted

/-- The transactions of an event that run at once. -/
def SpawnEvent.calls : SpawnEvent → List Op
  | .call op => [op]
  | _ => []

/-- The batch that an event tries to write. -/
def SpawnEvent.writes : SpawnEvent → List (List MqNew)
  | .write p => [p.newMessages]
  | _ => []

/-- A serial session that has done what an interleaving did: all its calls
and the accepted ones of its inserts, in the order of their writes. -/
structure Serializes (x : SpawnState) (events : List SpawnEvent) (ops : List Op) (y : Session) :
    Prop where
  store : y.store = x.store
  used : x.used = uuidNil :: y.usedIds
  calls : ops.filter (·.batches = []) = events.flatMap SpawnEvent.calls
  inserted : y.inserted.Sublist (events.flatMap SpawnEvent.writes)

section Serial

variable {x : SpawnState} {events : List SpawnEvent} {ops : List Op} {y : Session}

/-- An event that is no call and writes nothing. -/
theorem Serializes.skip (h : Serializes x events ops y) {event : SpawnEvent}
    (hCalls : event.calls = []) (pending : List PendingInsert) :
    Serializes { x with pending := pending } (events ++ [event]) ops y where
  store := h.store
  used := h.used
  calls := by simp [h.calls, hCalls]
  inserted := by
    rw [List.flatMap_append]
    exact h.inserted.trans (List.sublist_append_left _ _)

variable [JsonbCast]

theorem Serializes.write (h : Serializes x events ops y) {p : PendingInsert} {s' : Store}
    {now : Timestamp} {reply : Reply}
    (hExec : exec (.insert now p.newMessages) x.store = .ok (s', reply)) :
    Serializes ⟨s', x.pending.erase p, x.used ++ p.ids⟩ (events ++ [.write p])
      (ops ++ [.insert now p.newMessages]) (y.call (.insert now p.newMessages)) := by
  rw [← h.store] at hExec
  rw [Session.call_eq hExec]
  refine ⟨rfl, ?_, ?_, ?_⟩
  · simp [h.used, Session.usedIds, Op.batches, PendingInsert.ids]
  · rw [List.filter_append, h.calls, List.flatMap_append]
    rfl
  · rw [List.flatMap_append]
    exact h.inserted.append (by simp [Op.batches, SpawnEvent.writes])

theorem Serializes.call (h : Serializes x events ops y) {op : Op} (hNoInsert : op.batches = []) :
    Serializes { x with store := (transact op x.store).1 } (events ++ [.call op]) (ops ++ [op])
      (y.call op) := by
  have hCalls : (ops ++ [op]).filter (·.batches = []) =
      (events ++ [SpawnEvent.call op]).flatMap SpawnEvent.calls := by
    rw [List.filter_append, h.calls, List.flatMap_append]
    simp [hNoInsert, SpawnEvent.calls]
  have hInserted : y.inserted.Sublist ((events ++ [SpawnEvent.call op]).flatMap
      SpawnEvent.writes) := by
    simpa [SpawnEvent.writes] using h.inserted
  have hStore := h.store
  cases hExec : exec op y.store with
  | error e =>
      have hSame : y.call op = y := by simp [Session.call, hExec]
      rw [hSame]
      rw [hStore] at hExec
      exact ⟨by simp [transact, hExec, hStore], h.used, hCalls, hInserted⟩
  | ok result =>
      obtain ⟨s', reply⟩ := result
      rw [Session.call_eq hExec, hNoInsert, List.append_nil]
      rw [hStore] at hExec
      exact ⟨by simp [transact, hExec], h.used, hCalls, hInserted⟩

/-- Concurrent inserts are serializable. Whatever the interleaving, a serial
session of the accepted inserts and the other calls ends in the same store. -/
theorem concurrent_spawns_serializable {migratedAt : Timestamp} {events : List SpawnEvent}
    {x : SpawnState} (run : Run SpawnStep (.start migratedAt) events x) :
    ∃ ops y, Run (Session.Step fun y op => y.Fresh op ∧ op.sparesNil) (.start migratedAt) ops y ∧
      Serializes x events ops y := by
  induction run with
  | refl => exact ⟨[], .start migratedAt, .refl, ⟨rfl, rfl, rfl, List.nil_sublist _⟩⟩
  | @snoc events x z event prior last ih =>
      obtain ⟨ops, y, hRun, hSerial⟩ := ih
      cases last with
      | begin distinct fresh notified prepared =>
          exact ⟨ops, y, hRun, hSerial.skip rfl _⟩
      | @write p pending =>
          have hSound : x.Sound := prior.invariant (SpawnState.sound_start migratedAt)
            fun _ _ _ hSound hStep => hSound.step hStep
          have hPrepared := hSound.prepared p pending
          unfold SpawnState.write
          cases hWrite : insertRows x.store p.rows with
          | error e => exact ⟨ops, y, hRun, hSerial.skip rfl _⟩
          | ok s' =>
              obtain ⟨notifications, hNotes⟩ := hPrepared.notified
              obtain ⟨now, hExec⟩ := hPrepared.exec_insert hSound.integrity hWrite hNotes
              have hFresh : y.Fresh (.insert now p.newMessages) := by
                intro m hm hIn
                -- the serial session has used only what the interleaving has used
                have hUnused := hPrepared.fresh m.id (List.mem_map_of_mem hm)
                rw [hSerial.used] at hUnused
                exact hUnused (List.mem_cons_of_mem _ hIn)
              exact ⟨_, _, hRun.snoc ⟨⟨hFresh, trivial⟩, rfl⟩, hSerial.write hExec⟩
      | @call op noInsert spares =>
          refine ⟨_, _, hRun.snoc ⟨⟨?_, spares⟩, rfl⟩, hSerial.call noInsert⟩
          cases op with
          | insert now newMessages => cases noInsert
          | _ => trivial

end Serial

/-- Of two inserts with one snapshot, the one that writes second is refused. -/
theorem concurrent_spawns_serializable_of_two :
    let rows (id : Uuid) : NewRows :=
      { payloads := [{ id, name := "job", payloadJson := none, payloadBytes := none }]
        msgs := [{ id, createdAt := 0, attemptAt := some 0, attempts := ⟨5, by decide, by decide⟩
                   retryBackoff := second, channelName := "", channelArgs := ""
                   commitInterval := none, afterMessageId := some uuidNil }] }
    let pending (id : Uuid) : PendingInsert := ⟨[JobBuilder.orderedMessage id "job"], rows id⟩
    let x := SpawnState.write (SpawnState.write ⟨.initial 0, [pending 2, pending 1], [uuidNil]⟩
      (pending 1)) (pending 2)
    x.used = [uuidNil, 1] ∧ ∃ ops y,
      Run (@Session.Step .nullOnly fun y op => y.Fresh op ∧ op.sparesNil) (.start 0) ops y ∧
        Serializes x [.begin 0 [JobBuilder.orderedMessage 1 "job"],
          .begin 0 [JobBuilder.orderedMessage 2 "job"], .write (pending 1), .write (pending 2)]
          ops y := by
  intro rows pending x
  let _ : JsonbCast := .nullOnly
  have run : Run SpawnStep (.start 0) [.begin 0 [JobBuilder.orderedMessage 1 "job"],
      .begin 0 [JobBuilder.orderedMessage 2 "job"], .write (pending 1), .write (pending 2)] x :=
    .cons (.begin (by decide) (by decide) rfl rfl) (.cons (.begin (by decide) (by decide) rfl rfl)
      (.cons (.write (by decide)) (.cons (.write (by decide +kernel)) .refl)))
  exact ⟨by rfl, concurrent_spawns_serializable run⟩

end Sqlxmq
