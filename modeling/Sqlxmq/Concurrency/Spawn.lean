import Mathlib.Data.List.Flatten
import Sqlxmq.Order.Queues

/-! Concurrent inserts. An insert computes its rows from a snapshot and
writes them at a later moment, when its tails may have been extended, deleted
or cleared. Only the constraints of that moment protect the chains. -/
namespace Sqlxmq

open KeyedTable PredecessorLinks LabelledRun

/-- An insert that has computed its rows and has not written them yet. -/
structure PendingInsert where
  newMessages : List MqNew
  rows : NewRows
deriving DecidableEq

def PendingInsert.ids (p : PendingInsert) : List Uuid := p.newMessages.map MqNew.id

/-- The committed store, the inserts under way, and all identifiers that a
committed insert has used. -/
structure SpawnState where
  store : Store
  pending : List PendingInsert
  used : List Uuid

namespace SpawnState

def start (migratedAt : Timestamp) : SpawnState := ⟨.initial migratedAt, [], [uuidNil]⟩

/-- The moment at which a pending insert writes its rows. On an error it is
rolled back, and its identifiers may be used by a retry. -/
def write (x : SpawnState) (p : PendingInsert) : SpawnState :=
  match insertRows x.store p.rows with
  | .ok s' => ⟨s', x.pending.erase p, x.used ++ p.ids⟩
  | .error _ => { x with pending := x.pending.erase p }

end SpawnState

inductive SpawnEvent where
  | begin (now : Timestamp) (newMessages : List MqNew)
  | write (p : PendingInsert)
  | call (op : Op)

section Interleaving

variable [JsonbCast]

/-- One event of an interleaving. Identifiers are never reused, and other
transactions may do anything but insert or delete the nil row. -/
inductive SpawnStep (x : SpawnState) : SpawnEvent → SpawnState → Prop where
  | begin {now : Timestamp} {newMessages : List MqNew} {rows : NewRows} {notes : List String}
      (distinct : (newMessages.map MqNew.id).Nodup)
      (fresh : ∀ m ∈ newMessages, m.id ∉ x.used ∧ m.id ∉ x.pending.flatMap PendingInsert.ids)
      (notified : pgNotify (groups MqNew.channelName newMessages) = .ok notes)
      (prepared : newRows now newMessages x.store = .ok rows) :
      SpawnStep x (.begin now newMessages)
        { x with pending := ⟨newMessages, rows⟩ :: x.pending }
  | write {p : PendingInsert} (pending : p ∈ x.pending) : SpawnStep x (.write p) (x.write p)
  | call {op : Op} (noInsert : op.batches = []) (spares : op.sparesNil) :
      SpawnStep x (.call op) { x with store := (transact op x.store).1 }

/-- What is known of a pending insert whatever happened since its snapshot.
A tail that is still stored is still an ordered message of its channel. -/
structure PendingInsert.Prepared (p : PendingInsert) (s : Store) (used : List Uuid) : Prop where
  notified : ∃ notes, pgNotify (groups MqNew.channelName p.newMessages) = .ok notes
  rows : ∃ now snapshot, newRows now p.newMessages snapshot = .ok p.rows ∧
    ∀ ch, mqLatestMessage snapshot ch.name ch.args ∈ used ∧
      ∀ r ∈ s.msgs, r.id ≠ uuidNil → r.id = mqLatestMessage snapshot ch.name ch.args →
        r.channel = ch ∧ r.afterMessageId.isSome
  fresh : ∀ id ∈ p.ids, id ∉ used

structure SpawnState.Sound (x : SpawnState) : Prop where
  integrity : Integrity x.store
  used : ∀ id ∈ x.store.ids, id ∈ x.used
  distinct : (x.pending.flatMap PendingInsert.ids).Nodup
  prepared : ∀ p ∈ x.pending, p.Prepared x.store x.used

namespace PendingInsert

variable {p q : PendingInsert} {s s' : Store} {used used' : List Uuid}

/-- Nothing that happens to the store can turn a tail into a message of
another channel. It can only disappear. -/
theorem Prepared.of_continues (h : p.Prepared s used)
    (hRows : ∀ r' ∈ s'.msgs, r'.id ∈ used → ∃ r ∈ s.msgs, Continues r r')
    (hUsed : ∀ id ∈ used, id ∈ used') (hFresh : ∀ id ∈ p.ids, id ∉ used') :
    p.Prepared s' used' := by
  obtain ⟨now, snapshot, hNew, hTails⟩ := h.rows
  refine ⟨h.notified, ⟨now, snapshot, hNew, fun ch => ?_⟩, hFresh⟩
  obtain ⟨hTail, hStored⟩ := hTails ch
  refine ⟨hUsed _ hTail, fun r' hr' hNotNil hId => ?_⟩
  obtain ⟨r, hr, hContinues⟩ := hRows r' hr' (hId ▸ hTail)
  rw [hContinues.id] at hNotNil hId
  obtain ⟨hChannel, hSome⟩ := hStored r hr hNotNil hId
  exact ⟨hContinues.channel.trans hChannel, hContinues.isSome.trans hSome⟩

/-- An accepted write extends the chains of the store at that moment. -/
theorem Prepared.represents (hStore : Integrity s) (h : p.Prepared s used)
    (hWrite : insertRows s p.rows = .ok s') (ch : Channel) :
    Represents (linksIn ch s'.msgs) uuidNil (s.fifo ch ++ orderedIds p.newMessages ch) := by
  obtain ⟨now, snapshot, hNew, hTails⟩ := h.rows
  refine hStore.chained.insertRows hStore.nil_mem_ids hNew hWrite (fun ch hOrdered => ?_) ch
  by_cases hNil : mqLatestMessage snapshot ch.name ch.args = uuidNil
  · exact Or.inl hNil
  · obtain ⟨a, rest, hIds⟩ := List.exists_cons_of_ne_nil hOrdered
    have hLink : (a, mqLatestMessage snapshot ch.name ch.args) ∈ linksIn ch p.rows.msgs := by
      rw [linksIn_newRows hNew, hIds]
      simp [links]
    obtain ⟨r₁, hr₁, -, -, hAfter⟩ := mem_linksIn.mp hLink
    have hMsgs := (insertRows_eq_ok hWrite).1
    -- the foreign key found the tail, and it is not one of the new rows
    have hExists := s'.afterFkey r₁ (hMsgs ▸ List.mem_append_right _ hr₁) _ hAfter
    rw [hMsgs, List.map_append, List.mem_append] at hExists
    rcases hExists with hOld | hOwn
    · obtain ⟨r, hr, hId⟩ := List.mem_map.mp hOld
      obtain ⟨hChannel, hSome⟩ := (hTails ch).2 r hr (hId ▸ hNil) hId
      exact Or.inr (hStore.chained.mem_fifo_iff.mpr
        ⟨r, hr, hChannel, hId, Option.isSome_iff_exists.mp hSome⟩)
    · exact absurd (hTails ch).1 (h.fresh _ ((newRows_msg_ids hNew).mem_iff.mp hOwn))

end PendingInsert

namespace SpawnState

variable {x y : SpawnState}

theorem sound_start (migratedAt : Timestamp) : Sound (start migratedAt) where
  integrity := .initial migratedAt
  used := by simp [start, Store.initial, Store.ids]
  distinct := by simp [start]
  prepared := by simp [start]

theorem Sound.fresh (h : Sound x) {p : PendingInsert} (hp : p ∈ x.pending) :
    p.ids.Nodup ∧ ∀ m ∈ p.newMessages, m.id ∉ x.store.ids := by
  refine ⟨(List.nodup_flatMap.mp h.distinct).1 p hp, fun m hm hIn => ?_⟩
  exact (h.prepared p hp).fresh m.id (List.mem_map_of_mem hm) (h.used _ hIn)

/-- Two different pending inserts share no identifier. -/
theorem Sound.disjoint (h : Sound x) {p q : PendingInsert} (hp : p ∈ x.pending)
    (hq : q ∈ x.pending.erase p) : ∀ id ∈ q.ids, id ∉ p.ids := by
  have hSplit := ((List.perm_cons_erase hp).flatMap_right PendingInsert.ids).nodup_iff.mp h.distinct
  rw [List.flatMap_cons] at hSplit
  intro id hIdQ hIdP
  exact (List.nodup_append.mp hSplit).2.2 id hIdP id (List.mem_flatMap.mpr ⟨q, hq, hIdQ⟩) rfl

theorem Sound.erase (h : Sound x) (p : PendingInsert) :
    Sound { x with pending := x.pending.erase p } where
  integrity := h.integrity
  used := h.used
  distinct := h.distinct.sublist ((List.erase_sublist).flatMap _)
  prepared := fun q hq => h.prepared q (List.mem_of_mem_erase hq)

theorem Sound.write (h : Sound x) {p : PendingInsert} (hp : p ∈ x.pending) : Sound (x.write p) := by
  unfold SpawnState.write
  cases hWrite : insertRows x.store p.rows with
  | error e => exact h.erase p
  | ok s' =>
      have hPrepared := h.prepared p hp
      obtain ⟨now, snapshot, hNew, -⟩ := hPrepared.rows
      obtain ⟨notes, hNotes⟩ := hPrepared.notified
      have hMsgs := (insertRows_eq_ok hWrite).1
      refine ⟨h.integrity.insertRows hNotes hNew hWrite
        (hPrepared.represents h.integrity hWrite), ?_, (h.erase p).distinct, ?_⟩
      · intro id hId
        rw [Store.ids, hMsgs, List.map_append, List.mem_append] at hId
        rw [List.mem_append]
        exact hId.imp (h.used id) (newRows_msg_ids hNew).mem_iff.mp
      · intro q hq
        refine (h.prepared q (List.mem_of_mem_erase hq)).of_continues ?_
          (fun id hId => List.mem_append_left _ hId) ?_
        · intro r' hr' hOld
          rw [hMsgs] at hr'
          rcases List.mem_append.mp hr' with hIn | hIn
          · exact ⟨r', hIn, rfl, rfl, Or.inl rfl⟩
          · have hOwn : r'.id ∈ p.ids :=
              (newRows_msg_ids hNew).mem_iff.mp (List.mem_map_of_mem hIn)
            exact absurd hOld (hPrepared.fresh _ hOwn)
        · intro id hId
          rw [List.mem_append, not_or]
          exact ⟨(h.prepared q (List.mem_of_mem_erase hq)).fresh id hId, h.disjoint hp hq id hId⟩

/-- The tails that an insert reads are in use, and in their channels. -/
theorem Sound.begin (h : Sound x) {now : Timestamp} {newMessages : List MqNew} {rows : NewRows}
    {notes : List String} (hDistinct : (newMessages.map MqNew.id).Nodup)
    (hFresh : ∀ m ∈ newMessages, m.id ∉ x.used ∧ m.id ∉ x.pending.flatMap PendingInsert.ids)
    (hNotes : pgNotify (groups MqNew.channelName newMessages) = .ok notes)
    (hRows : newRows now newMessages x.store = .ok rows) :
    Sound { x with pending := ⟨newMessages, rows⟩ :: x.pending } where
  integrity := h.integrity
  used := h.used
  distinct := by
    rw [List.flatMap_cons, List.nodup_append]
    refine ⟨hDistinct, h.distinct, ?_⟩
    rintro id hId _ hOther rfl
    obtain ⟨m, hm, rfl⟩ := List.mem_map.mp hId
    exact (hFresh m hm).2 hOther
  prepared := by
    intro p hp
    rcases List.mem_cons.mp hp with rfl | hOld
    · refine ⟨⟨notes, hNotes⟩, ⟨now, x.store, hRows, fun ch => ?_⟩, ?_⟩
      · have hTail := h.integrity.chained.mqLatestMessage_eq ch
        cases hFifo : x.store.fifo ch with
        | nil =>
            rw [hTail, hFifo]
            exact ⟨h.used _ h.integrity.nil_mem_ids, fun r _ hNotNil hId => absurd hId hNotNil⟩
        | cons a rest =>
            have hIn : mqLatestMessage x.store ch.name ch.args ∈ x.store.fifo ch := by
              rw [hTail, hFifo, List.getLastD_cons]
              exact List.getLastD_mem_cons
            refine ⟨h.used _ (h.integrity.chained.mem_ids_of_mem_fifo hIn), fun r hr _ hId => ?_⟩
            obtain ⟨r₀, hr₀, hChannel, hId₀, hAfter⟩ := h.integrity.chained.mem_fifo_iff.mp hIn
            obtain rfl := List.inj_on_of_nodup_map x.store.msgsPkey hr hr₀ (hId.trans hId₀.symm)
            exact ⟨hChannel, Option.isSome_iff_exists.mpr hAfter⟩
      · intro id hId
        obtain ⟨m, hm, rfl⟩ := List.mem_map.mp hId
        exact (hFresh m hm).1
    · exact h.prepared p hOld

theorem Sound.call (h : Sound x) {op : Op} (hNoInsert : op.batches = []) (hSpares : op.sparesNil) :
    Sound { x with store := (transact op x.store).1 } := by
  refine transact_keeps (P := fun s => Sound { x with store := s }) h fun s' reply hExec => ?_
  have hRows : ∀ r' ∈ s'.msgs, ∃ r ∈ x.store.msgs, Continues r r' := by
    intro r' hr'
    rcases exec_row_origin hExec hr' with hOld | ⟨now, newMessages, rfl, -⟩
    · exact hOld
    · cases hNoInsert
  refine ⟨h.integrity.of_exec hSpares hExec, fun id hId => ?_, h.distinct, fun p hp => ?_⟩
  · obtain ⟨r', hr', rfl⟩ := List.mem_map.mp hId
    obtain ⟨r, hr, hContinues⟩ := hRows r' hr'
    exact h.used _ (hContinues.id ▸ Store.mem_ids_of_mem hr)
  · exact (h.prepared p hp).of_continues (fun r' hr' _ => hRows r' hr') (fun _ hId => hId)
      (h.prepared p hp).fresh

theorem Sound.step (h : Sound x) {event : SpawnEvent} (hStep : SpawnStep x event y) : Sound y := by
  cases hStep with
  | begin distinct fresh notified prepared => exact h.begin distinct fresh notified prepared
  | write pending => exact h.write pending
  | call noInsert spares => exact h.call noInsert spares

/-- A write that is refused fails on one of the constraints on the links. -/
theorem Sound.write_error (h : Sound x) {p : PendingInsert} (hp : p ∈ x.pending) {e : DbError}
    (hError : insertRows x.store p.rows = .error e) :
    e = .foreignKeyViolation mqMsgsAfterMessageIdFkey ∨
      e = .uniqueViolation mqMsgsAfterMessageIdIdx := by
  obtain ⟨hDistinct, hFresh⟩ := h.fresh hp
  obtain ⟨now, snapshot, hNew, -⟩ := (h.prepared p hp).rows
  obtain ⟨hPayloads, hMsgs⟩ := h.integrity.ids_nodup_of_fresh hNew hDistinct hFresh
  rcases insertRows_eq_error hPayloads hMsgs hError with ⟨hIdx, -⟩ | ⟨hFkey, -⟩
  · exact Or.inr hIdx
  · exact Or.inl hFkey

end SpawnState

/-- Concurrent inserts are safe and retryable. In every committed store the
chains are intact. A refused insert fails with a retryable error, changes
nothing, and succeeds when it is repeated alone. -/
theorem concurrent_spawns_safe {migratedAt : Timestamp} {events : List SpawnEvent} {x : SpawnState}
    (run : Run SpawnStep (.start migratedAt) events x) :
    Chained x.store ∧
    (∀ r ∈ x.store.msgs, ∀ a ∈ r.afterMessageId,
      a = uuidNil ∨ ∃ r₀ ∈ x.store.msgs, r₀.id = a ∧ r₀.channel = r.channel) ∧
    ∀ p ∈ x.pending, ∀ e, insertRows x.store p.rows = .error e →
      (e = .foreignKeyViolation mqMsgsAfterMessageIdFkey ∨
        e = .uniqueViolation mqMsgsAfterMessageIdIdx) ∧
      shouldRetry (.database e) = true ∧ (x.write p).store = x.store ∧
      ∀ now, ∃ s' reply, exec (.insert now p.newMessages) (x.write p).store = .ok (s', reply) := by
  have h : x.Sound := run.invariant (SpawnState.sound_start migratedAt)
    fun _ _ _ hSound hStep => hSound.step hStep
  refine ⟨h.integrity.chained, h.integrity.pred_stored, fun p hp e hError => ?_⟩
  have hStore : (x.write p).store = x.store := by
    simp [SpawnState.write, hError]
  have hEither := h.write_error hp hError
  refine ⟨hEither, ?_, hStore, fun now => ?_⟩
  · rcases hEither with rfl | rfl
    · simp [shouldRetry_foreignKeyViolation]
    · simp [shouldRetry_uniqueViolation]
  · obtain ⟨hDistinct, hFresh⟩ := h.fresh hp
    obtain ⟨_, _, hNew, -⟩ := (h.prepared p hp).rows
    obtain ⟨_, hNotes⟩ := (h.prepared p hp).notified
    rw [hStore]
    exact (h.integrity.refinesQueues.insert hDistinct hFresh).mpr (insertable_of_newRows hNotes hNew)

end Interleaving

theorem concurrent_spawns_safe_of_two :
    let rows (id : Uuid) : NewRows :=
      { payloads := [{ id, name := "job", payloadJson := none, payloadBytes := none }]
        msgs := [{ id, createdAt := 0, attemptAt := some 0, attempts := ⟨5, by decide, by decide⟩
                   retryBackoff := second, channelName := "", channelArgs := ""
                   commitInterval := none, afterMessageId := some uuidNil }] }
    let pending (id : Uuid) : PendingInsert := ⟨[JobBuilder.orderedMessage id "job"], rows id⟩
    let x := SpawnState.write ⟨.initial 0, [pending 2, pending 1], [uuidNil]⟩ (pending 1)
    insertRows x.store (rows 2) = .error (.uniqueViolation mqMsgsAfterMessageIdIdx) ∧
      ∀ now, ∃ s' reply, @exec .nullOnly (.insert now [JobBuilder.orderedMessage 2 "job"])
        (x.write (pending 2)).store = .ok (s', reply) := by
  intro rows pending x
  let _ : JsonbCast := .nullOnly
  have run : Run SpawnStep (.start 0) [.begin 0 [JobBuilder.orderedMessage 1 "job"],
      .begin 0 [JobBuilder.orderedMessage 2 "job"], .write (pending 1)] x :=
    .cons (.begin (by decide) (by decide) rfl rfl) (.cons (.begin (by decide) (by decide) rfl rfl)
      (.cons (.write (by decide)) .refl))
  have hPending : pending 2 ∈ x.pending := by decide +kernel
  have hError : insertRows x.store (pending 2).rows =
      .error (.uniqueViolation mqMsgsAfterMessageIdIdx) := by rfl
  exact ⟨hError, ((concurrent_spawns_safe run).2.2 _ hPending _ hError).2.2.2⟩

end Sqlxmq
