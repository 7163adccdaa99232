import Sqlxmq.Concurrency.Poll
import Sqlxmq.Concurrency.Serial

/-! Delivery in order when everything overlaps. Inserts write later than they
read, polls reach their candidates later than they select them, and any other
call may come in between. Ordered messages are still handed out one after
another. -/
namespace Sqlxmq

open KeyedTable PredecessorLinks LabelledRun

section Pairs

variable {α : Type*} {l m : List α} {a b : α}

/-- A pair is found in front of a part that its second element is not in. -/
theorem pair_sublist_of_append (h : [a, b].Sublist (l ++ m)) (hb : b ∉ m) : [a, b].Sublist l := by
  obtain ⟨first, second, hSplit, hFirst, hSecond⟩ := List.sublist_append_iff.mp h
  cases second with
  | nil =>
      rw [hSplit, List.append_nil]
      exact hFirst
  | cons c rest =>
      have hLast : b ∈ c :: rest := by
        have hLastEq := congrArg List.getLast? hSplit
        rw [List.getLast?_append_of_ne_nil _ (by simp)] at hLastEq
        exact List.mem_of_getLast? hLastEq.symm
      exact absurd (hSecond.subset hLast) hb

/-- Two elements of a list stand in one of the two orders. -/
theorem pair_sublist_or_swap (ha : a ∈ l) (hb : b ∈ l) (hne : a ≠ b) :
    [a, b].Sublist l ∨ [b, a].Sublist l := by
  induction l with
  | nil => simp at ha
  | cons c rest ih =>
      rcases List.mem_cons.mp ha with rfl | haRest
      · rcases List.mem_cons.mp hb with rfl | hbRest
        · exact absurd rfl hne
        · exact Or.inl ((List.singleton_sublist.mpr hbRest).cons_cons a)
      · rcases List.mem_cons.mp hb with rfl | hbRest
        · exact Or.inr ((List.singleton_sublist.mpr haRest).cons_cons b)
        · exact (ih haRest hbRest).imp (·.cons c) (·.cons c)

end Pairs

/-- The update of a poll adds and removes no rows. -/
theorem pollUpdate_continues {snapshot s s' : Store} {now : Timestamp} {ids : List Uuid}
    {polled : List PolledMessage} (h : pollUpdate snapshot now ids s = .ok (s', polled))
    {r' : MqMsg} (hr' : r' ∈ s'.msgs) : ∃ r ∈ s.msgs, Continues r r' := by
  have hSame (r : MqMsg) : r.SameIdentity (updated (pollSelects now ids) (pollRow now) r) :=
    updated_sameIdentity pollRow_sameIdentity _ r
  rw [(pollUpdate_eq_ok h).1] at hr'
  obtain ⟨r, hr, rfl⟩ := List.mem_map.mp hr'
  exact ⟨r, hr, (hSame r).id, (hSame r).channel, Or.inl (hSame r).afterMessageId⟩

namespace Session

variable {x y : Session}

theorem mem_history {ch : Channel} {id : Uuid} :
    id ∈ x.history ch ↔ ∃ m ∈ x.inserted.flatten, m.channel = ch ∧ m.ordered = true ∧ m.id = id := by
  simp only [history, List.mem_flatMap, mem_orderedIds, List.mem_flatten]
  constructor
  · rintro ⟨batch, hBatch, m, hm, hMessage⟩
    exact ⟨m, ⟨batch, hBatch, hm⟩, hMessage⟩
  · rintro ⟨m, ⟨batch, hBatch, hm⟩, hMessage⟩
    exact ⟨batch, hBatch, m, hm, hMessage⟩

/-- A poll may hand out this message whenever it finds it stored. -/
structure Deliverable (x : Session) (id : Uuid) : Prop where
  notNil : id ≠ uuidNil
  used : id ∈ x.usedIds
  first : ∀ r ∈ x.store.msgs, r.id = id → mqUuidExists r.afterMessageId = false

/-- What precedes a delivered message in its channel is no longer stored. -/
def Passed (x : Session) : Prop :=
  ∀ ch a b, [a, b].Sublist (x.history ch) → b ∈ x.delivered → a ∉ x.store.ids

/-- What any call does to a session: it continues or removes rows, and what
it adds has not been used before. -/
structure Advances (x y : Session) : Prop where
  rows : ∀ r' ∈ y.store.msgs, (∃ r ∈ x.store.msgs, Continues r r') ∨ r'.id ∉ x.usedIds
  history : ∀ ch, ∃ more, y.history ch = x.history ch ++ more ∧ ∀ id ∈ more, id ∉ x.usedIds
  used : ∀ id ∈ x.usedIds, id ∈ y.usedIds
  delivered : ∀ id ∈ y.delivered, id ∈ x.delivered ∨ id ∈ x.store.ids ∧ x.Deliverable id

theorem Deliverable.advance {id : Uuid} (h : x.Deliverable id) (hStep : x.Advances y) :
    y.Deliverable id where
  notNil := h.notNil
  used := hStep.used id h.used
  first := by
    intro r' hr' hId
    rcases hStep.rows r' hr' with ⟨r, hr, hContinues⟩ | hNew
    · exact hContinues.first (h.first r hr (hContinues.id.symm.trans hId))
    · exact absurd h.used (hId ▸ hNew)

/-- An ordered message is in its channel as long as it is stored. -/
theorem Recorded.mem_fifo_of_history (h : Recorded x) {ch : Channel} {id : Uuid}
    (hIn : id ∈ x.history ch) (hStored : id ∈ x.store.ids) : id ∈ x.store.fifo ch := by
  obtain ⟨m, hm, rfl, hOrdered, rfl⟩ := mem_history.mp hIn
  obtain ⟨r, hr, hId⟩ := List.mem_map.mp hStored
  obtain ⟨hChannel, hSome⟩ := h.row_of_inserted hm hr hId
  rw [hOrdered] at hSome
  exact h.integrity.chained.mem_fifo_iff.mpr
    ⟨r, hr, hChannel, hId, Option.isSome_iff_exists.mp hSome⟩

/-- Where nothing precedes a stored message, its predecessors are gone. -/
theorem Recorded.predecessor_gone (h : Recorded x) {r : MqMsg} (hr : r ∈ x.store.msgs)
    (hFirst : mqUuidExists r.afterMessageId = false) {ch : Channel} {a : Uuid}
    (hOrder : [a, r.id].Sublist (x.history ch)) : a ∉ x.store.ids := by
  intro hStored
  have hIn : r.id ∈ x.store.fifo ch :=
    h.mem_fifo_of_history (hOrder.subset (by simp)) (Store.mem_ids_of_mem hr)
  have hBefore : a ∈ x.store.fifo ch := h.mem_fifo_of_history (hOrder.subset (by simp)) hStored
  obtain ⟨rest, hFifo⟩ := List.head?_eq_some_iff.mp
    (h.integrity.chained.head_of_first hr hFirst hIn)
  rw [hFifo, List.mem_cons] at hBefore
  have hNodup := h.history_nodup ch
  rcases hBefore with hSame | hBehind
  · have hPair := hNodup.sublist hOrder
    simp [hSame] at hPair
  · have hSwapped : [r.id, a].Sublist (x.store.fifo ch) := by
      rw [hFifo]
      exact (List.singleton_sublist.mpr hBehind).cons_cons r.id
    exact not_sublist_swap hNodup hOrder (hSwapped.trans (h.order ch))

theorem mem_usedIds_of_history {ch : Channel} {id : Uuid} (hIn : id ∈ x.history ch) :
    id ∈ x.usedIds := by
  obtain ⟨m, hm, -, -, rfl⟩ := mem_history.mp hIn
  exact List.mem_map_of_mem hm

/-- Messages are handed out behind their predecessors, and these never come
back. -/
theorem Passed.advance (hPassed : x.Passed) (h : Recorded x) (hStep : x.Advances y) : y.Passed := by
  intro ch a b hOrder hDelivered hStored
  have hReturned := hStep.delivered b hDelivered
  have hUsed : b ∈ x.usedIds := by
    rcases hReturned with hOld | ⟨-, hNew⟩
    · exact (h.delivered b hOld).2.1
    · exact hNew.used
  have hOldOrder : [a, b].Sublist (x.history ch) := by
    obtain ⟨more, hHistory, hMore⟩ := hStep.history ch
    rw [hHistory] at hOrder
    exact pair_sublist_of_append hOrder fun hIn => hMore b hIn hUsed
  have hGone : a ∉ x.store.ids := by
    rcases hReturned with hOld | ⟨hIn, hNew⟩
    · exact hPassed ch a b hOldOrder hOld
    · obtain ⟨r, hr, rfl⟩ := List.mem_map.mp hIn
      exact h.predecessor_gone hr (hNew.first r hr rfl) hOldOrder
  obtain ⟨r', hr', rfl⟩ := List.mem_map.mp hStored
  rcases hStep.rows r' hr' with ⟨r, hr, hContinues⟩ | hNew
  · exact hGone (hContinues.id ▸ Store.mem_ids_of_mem hr)
  · exact hNew (mem_usedIds_of_history (hOldOrder.subset (by simp)))

theorem Recorded.deliverable_of_ready (h : Recorded x) {now : Timestamp}
    {channelNames : Option (List String)} {r : MqMsg} (hr : r ∈ x.store.msgs)
    (hReady : Ready now channelNames r) : x.Deliverable r.id where
  notNil := hReady.notNil
  used := by
    obtain ⟨m, hm, hId, -⟩ := h.origin r hr hReady.notNil
    exact hId ▸ List.mem_map_of_mem hm
  first := by
    intro r₀ hr₀ hId
    rw [List.inj_on_of_nodup_map x.store.msgsPkey hr₀ hr hId]
    exact hReady.first

/-- A transaction that runs at once. -/
theorem Recorded.advances [JsonbCast] {op : Op} {s' : Store} {reply : Reply} (h : Recorded x)
    (hFresh : x.Fresh op)
    (hExec : exec op x.store = .ok (s', reply)) :
    x.Advances ⟨s', x.inserted ++ op.batches, x.replies ++ [reply]⟩ where
  rows := by
    intro r' hr'
    rcases exec_row_origin hExec hr' with hOld | ⟨now, ms, rfl, m, hm, previous, hRow⟩
    · exact Or.inl hOld
    · rw [(newMsg_eq_ok hRow).2]
      exact Or.inr (hFresh m hm)
  history := by
    intro ch
    refine ⟨op.batches.flatMap (orderedIds · ch), by simp [history], fun id hId => ?_⟩
    obtain ⟨batch, hBatch, hIn⟩ := List.mem_flatMap.mp hId
    obtain ⟨m, hm, -, -, rfl⟩ := mem_orderedIds.mp hIn
    cases op with
    | insert now newMessages =>
        rw [Op.batches, List.mem_singleton] at hBatch
        exact hFresh m (hBatch ▸ hm)
    | _ => cases hBatch
  used := by
    intro id hId
    rw [usedIds_append]
    exact List.mem_append_left _ hId
  delivered := by
    intro id hId
    rcases mem_delivered_append.mp hId with hOld | ⟨m, hm, hReturned⟩
    · exact Or.inl hOld
    · obtain ⟨choice, now, channelNames, batchSize, -, hPoll⟩ := exec_polled hExec hm
      obtain ⟨r, hr, rfl, hReady, -⟩ := mqPoll_polled hPoll hm hReturned
      exact Or.inr ⟨Store.mem_ids_of_mem hr, h.deliverable_of_ready hr hReady⟩

section Reach

variable {snapshot : Store} {now : Timestamp} {candidate : Uuid} {s' : Store}
  {polled : List PolledMessage}
  (hUpdate : pollUpdate snapshot now [candidate] x.store = .ok (s', polled))
include hUpdate

/-- The session after a poll has reached a candidate. -/
theorem Deliverable.advances (h : x.Deliverable candidate) :
    x.Advances ⟨s', x.inserted, x.replies ++ [⟨[], polled⟩]⟩ where
  rows := fun r' hr' => Or.inl (pollUpdate_continues hUpdate hr')
  history := fun ch => ⟨[], by simp [history], by simp⟩
  used := fun id hId => hId
  delivered := by
    intro id hId
    rcases mem_delivered_append.mp hId with hOld | ⟨m, hm, hReturned⟩
    · exact Or.inl hOld
    · obtain ⟨r, hr, hIn, -, r', -, hRow, rfl⟩ := pollUpdate_mem hUpdate hm
      obtain rfl := List.mem_singleton.mp hIn
      have hEq : r.id = id := (pollRow_sameIdentity _ _ hRow).id.symm.trans (Option.some.inj hReturned)
      exact Or.inr ⟨hEq ▸ Store.mem_ids_of_mem hr, hEq ▸ h⟩

theorem Recorded.reach (h : Recorded x) (hCandidate : x.Deliverable candidate) :
    Recorded ⟨s', x.inserted, x.replies ++ [⟨[], polled⟩]⟩ where
  integrity := by
    obtain ⟨hMsgs, hPayloads, -⟩ := pollUpdate_eq_ok hUpdate
    exact h.integrity.rewrite hMsgs (updated_sameIdentity pollRow_sameIdentity _) (by rw [hPayloads])
  used := h.used
  notNil := h.notNil
  origin := by
    intro r' hr' hNotNil
    obtain ⟨r, hr, hContinues⟩ := pollUpdate_continues hUpdate hr'
    obtain ⟨m, hm, hId, hChannel, hOrdered⟩ := h.origin r hr (hContinues.id ▸ hNotNil)
    exact ⟨m, hm, hId.trans hContinues.id.symm, hChannel.trans hContinues.channel.symm,
      hOrdered.trans hContinues.isSome.symm⟩
  order := by
    intro ch
    have hFifo : s'.fifo ch = x.store.fifo ch := by
      rw [Store.fifo, (pollUpdate_eq_ok hUpdate).1,
        linksIn_map (updated_sameIdentity pollRow_sameIdentity _), ← Store.fifo]
    rw [hFifo]
    exact h.order ch
  delivered := by
    intro id hId
    have hStep := hCandidate.advances hUpdate
    have hBefore : x.Deliverable id := by
      rcases hStep.delivered id hId with hOld | ⟨-, hNew⟩
      · obtain ⟨hNotNil, hUsed, hFirst⟩ := h.delivered id hOld
        exact ⟨hNotNil, hUsed, hFirst⟩
      · exact hNew
    obtain ⟨hNotNil, hUsed, hFirst⟩ := hBefore.advance hStep
    exact ⟨hNotNil, hUsed, hFirst⟩

end Reach

end Session

/-- Rows that are only rewritten or removed do not disturb pending inserts. -/
theorem SpawnState.Sound.rewrite [JsonbCast] {x : SpawnState} (h : Sound x) {s' : Store}
    (hIntegrity : Integrity s') (hRows : ∀ r' ∈ s'.msgs, ∃ r ∈ x.store.msgs, Continues r r') :
    Sound { x with store := s' } where
  integrity := hIntegrity
  used := by
    intro id hId
    obtain ⟨r', hr', rfl⟩ := List.mem_map.mp hId
    obtain ⟨r, hr, hContinues⟩ := hRows r' hr'
    exact h.used _ (hContinues.id ▸ Store.mem_ids_of_mem hr)
  distinct := h.distinct
  prepared := fun p hp => (h.prepared p hp).of_continues (fun r' hr' _ => hRows r' hr')
    (fun _ hId => hId) (h.prepared p hp).fresh

/-- The committed session, the inserts that have not written yet, and the
polls with the candidates that they have not reached yet. -/
structure QueueState where
  session : Session
  inserts : List PendingInsert
  polls : List PendingPoll

inductive QueueEvent where
  | begin (now : Timestamp) (newMessages : List MqNew)
  | write (p : PendingInsert)
  | refuse (p : PendingInsert)
  | poll (choice : PollChoice) (now : Timestamp) (channelNames : Option (List String))
      (batchSize : Int4)
  | reach (n : Nat) (candidate : Uuid)
  | call (op : Op)

namespace QueueState

def start (migratedAt : Timestamp) : QueueState := ⟨.start migratedAt, [], []⟩

/-- The pending inserts beside the committed store. -/
def spawn (x : QueueState) : SpawnState :=
  ⟨x.session.store, x.inserts, uuidNil :: x.session.usedIds⟩

end QueueState

/-- One event of an interleaving. Identifiers are never reused, and nothing
else inserts or deletes the nil row. Calls that run at once include polls. -/
inductive QueueStep [JsonbCast] (x : QueueState) : QueueEvent → QueueState → Prop where
  | begin {now : Timestamp} {newMessages : List MqNew} {rows : NewRows} {notes : List String}
      (distinct : (newMessages.map MqNew.id).Nodup)
      (fresh : ∀ m ∈ newMessages, m.id ∉ x.spawn.used ∧ m.id ∉ x.inserts.flatMap PendingInsert.ids)
      (notified : pgNotify (groups MqNew.channelName newMessages) = .ok notes)
      (prepared : newRows now newMessages x.session.store = .ok rows) :
      QueueStep x (.begin now newMessages) { x with inserts := ⟨newMessages, rows⟩ :: x.inserts }
  | write {p : PendingInsert} {s' : Store} {notes : List String} (pending : p ∈ x.inserts)
      (notified : pgNotify (groups MqNew.channelName p.newMessages) = .ok notes)
      (accepted : insertRows x.session.store p.rows = .ok s') :
      QueueStep x (.write p)
        { x with
          session := ⟨s', x.session.inserted ++ [p.newMessages], x.session.replies ++ [⟨notes, []⟩]⟩
          inserts := x.inserts.erase p }
  | refuse {p : PendingInsert} {e : DbError} (pending : p ∈ x.inserts)
      (refused : insertRows x.session.store p.rows = .error e) :
      QueueStep x (.refuse p) { x with inserts := x.inserts.erase p }
  | poll {choice : PollChoice} {now : Timestamp} {channelNames : Option (List String)}
      {batchSize : Int4} {candidates : List Uuid}
      (picked : messagesToUpdate choice now channelNames batchSize x.session.store = .ok candidates) :
      QueueStep x (.poll choice now channelNames batchSize)
        { x with polls := x.polls ++ [⟨now, x.session.store, candidates⟩] }
  | reach {n : Nat} {candidate : Uuid} {poll : PendingPoll} {s' : Store}
      {polled : List PolledMessage} (started : x.polls[n]? = some poll)
      (waiting : candidate ∈ poll.candidates)
      (updated : pollUpdate poll.snapshot poll.now [candidate] x.session.store = .ok (s', polled)) :
      QueueStep x (.reach n candidate)
        { x with
          session := ⟨s', x.session.inserted, x.session.replies ++ [⟨[], polled⟩]⟩
          polls := x.polls.set n { poll with candidates := poll.candidates.erase candidate } }
  | call {op : Op} (noInsert : op.batches = []) (spares : op.sparesNil) :
      QueueStep x (.call op) { x with session := x.session.call op }

section Interleaving

variable [JsonbCast]

/-- What holds throughout an interleaving. -/
structure Coherent (x : QueueState) : Prop where
  spawn : x.spawn.Sound
  recorded : Session.Recorded x.session
  passed : x.session.Passed
  candidates : ∀ poll ∈ x.polls, ∀ id ∈ poll.candidates, x.session.Deliverable id

namespace Coherent

variable {x y : QueueState}

theorem start (migratedAt : Timestamp) : Coherent (.start migratedAt) where
  spawn := SpawnState.sound_start migratedAt
  recorded := Session.recorded_start migratedAt
  passed := by simp [Session.Passed, QueueState.start, Session.start, Session.delivered]
  candidates := by simp [QueueState.start]

/-- The last three clauses follow from what the event does to the session. -/
theorem advance (h : Coherent x) {session : Session} {inserts : List PendingInsert}
    {polls : List PendingPoll} (hStep : x.session.Advances session)
    (hSpawn : (QueueState.spawn ⟨session, inserts, polls⟩).Sound) (hRecorded : session.Recorded)
    (hPolls : ∀ poll ∈ polls, ∀ id ∈ poll.candidates, x.session.Deliverable id) :
    Coherent ⟨session, inserts, polls⟩ where
  spawn := hSpawn
  recorded := hRecorded
  passed := h.passed.advance h.recorded hStep
  candidates := fun poll hPoll id hId => (hPolls poll hPoll id hId).advance hStep

theorem write (h : Coherent x) {p : PendingInsert} {s' : Store} {notes : List String}
    (hPending : p ∈ x.inserts)
    (hNotes : pgNotify (groups MqNew.channelName p.newMessages) = .ok notes)
    (hWrite : insertRows x.session.store p.rows = .ok s') :
    Coherent
      { x with
        session := ⟨s', x.session.inserted ++ [p.newMessages], x.session.replies ++ [⟨notes, []⟩]⟩
        inserts := x.inserts.erase p } := by
  have hPrepared := h.spawn.prepared p hPending
  obtain ⟨now, hExec⟩ := hPrepared.exec_insert h.recorded.integrity hWrite hNotes
  have hFresh : x.session.Fresh (.insert now p.newMessages) := by
    intro m hm hIn
    exact hPrepared.fresh m.id (List.mem_map_of_mem hm) (List.mem_cons_of_mem _ hIn)
  refine h.advance (h.recorded.advances hFresh hExec) ?_ (h.recorded.step hFresh trivial hExec)
    h.candidates
  have hSound := h.spawn.write hPending
  have hStore : insertRows x.spawn.store p.rows = .ok s' := hWrite
  simp only [SpawnState.write, hStore] at hSound
  simpa [QueueState.spawn, Session.usedIds, PendingInsert.ids] using hSound

theorem reach (h : Coherent x) {n : Nat} {candidate : Uuid} {poll : PendingPoll} {s' : Store}
    {polled : List PolledMessage} (hStarted : x.polls[n]? = some poll)
    (hWaiting : candidate ∈ poll.candidates)
    (hUpdate : pollUpdate poll.snapshot poll.now [candidate] x.session.store = .ok (s', polled)) :
    Coherent
      { x with
        session := ⟨s', x.session.inserted, x.session.replies ++ [⟨[], polled⟩]⟩
        polls := x.polls.set n { poll with candidates := poll.candidates.erase candidate } } := by
  have hPoll : poll ∈ x.polls := List.mem_of_getElem? hStarted
  have hCandidate := h.candidates poll hPoll candidate hWaiting
  have hRecorded := h.recorded.reach hUpdate hCandidate
  refine h.advance (hCandidate.advances hUpdate) ?_ hRecorded ?_
  · exact h.spawn.rewrite hRecorded.integrity fun r' hr' => pollUpdate_continues hUpdate hr'
  · intro poll' hPoll' id hId
    rcases List.mem_or_eq_of_mem_set hPoll' with hOld | rfl
    · exact h.candidates poll' hOld id hId
    · exact h.candidates poll hPoll id (List.mem_of_mem_erase hId)

theorem call (h : Coherent x) {op : Op} (hNoInsert : op.batches = []) (hSpares : op.sparesNil) :
    Coherent { x with session := x.session.call op } := by
  have hSound := h.spawn.call hNoInsert hSpares
  cases hExec : exec op x.session.store with
  | error e =>
      have hSame : x.session.call op = x.session := by simp [Session.call, hExec]
      rw [hSame]
      exact h
  | ok result =>
      obtain ⟨s', reply⟩ := result
      have hFresh : x.session.Fresh op := by
        cases op with
        | insert now newMessages => cases hNoInsert
        | _ => trivial
      have hStore : exec op x.spawn.store = .ok (s', reply) := hExec
      rw [Session.call_eq hExec]
      refine h.advance (h.recorded.advances hFresh hExec) ?_ (h.recorded.step hFresh hSpares hExec)
        h.candidates
      simp only [transact, hStore] at hSound
      simpa [QueueState.spawn, Session.usedIds, hNoInsert] using hSound

theorem step (h : Coherent x) {event : QueueEvent} (hStep : QueueStep x event y) : Coherent y := by
  cases hStep with
  | begin distinct fresh notified prepared =>
      exact ⟨h.spawn.begin distinct fresh notified prepared, h.recorded, h.passed, h.candidates⟩
  | write pending notified accepted => exact h.write pending notified accepted
  | refuse pending refused => exact ⟨h.spawn.erase _, h.recorded, h.passed, h.candidates⟩
  | poll picked =>
      refine ⟨h.spawn, h.recorded, h.passed, fun poll hPoll id hId => ?_⟩
      rcases List.mem_append.mp hPoll with hOld | hNew
      · exact h.candidates poll hOld id hId
      · obtain rfl := List.mem_singleton.mp hNew
        obtain ⟨r, hr, rfl, hReady⟩ := messagesToUpdate_ready picked hId
        exact h.recorded.deliverable_of_ready hr hReady
  | reach started waiting updated => exact h.reach started waiting updated
  | call noInsert spares => exact h.call noInsert spares

end Coherent

/-- Ordered jobs are handed out one after another, however inserts, polls and
other calls overlap. Once a message has been handed out, no earlier message
of its channel is stored, so at most one that was handed out still is, and
finishing what was handed out always succeeds. -/
theorem ordered_jobs_exclusive {migratedAt : Timestamp} {events : List QueueEvent} {x : QueueState}
    (run : Run QueueStep (.start migratedAt) events x) :
    (∀ a b : MqNew, Precedes x.session.inserted a b → a.ordered = true → b.ordered = true →
      a.channel = b.channel → b.id ∈ x.session.delivered → x.session.store.row a.id = none) ∧
    (∀ a ∈ x.session.inserted.flatten, ∀ b ∈ x.session.inserted.flatten,
      a.ordered = true → b.ordered = true → a.channel = b.channel →
      a.id ∈ x.session.delivered → b.id ∈ x.session.delivered →
      a.id ∈ x.session.store.ids → b.id ∈ x.session.store.ids → a = b) ∧
    ∀ msgIds, (∀ id ∈ msgIds, id ∈ x.session.delivered) →
      ∃ s' notifications, mqDelete msgIds x.session.store = .ok (s', notifications) := by
  have h : Coherent x := run.invariant (Coherent.start migratedAt)
    fun _ _ _ hCoherent hStep => hCoherent.step hStep
  refine ⟨?_, ?_, fun msgIds => h.recorded.mqDelete_succeeds⟩
  · intro a b hPrecedes ha hb hChannel hDelivered
    rw [Store.row_eq_none_iff]
    exact h.passed b.channel a.id b.id
      (Session.sublist_history_of_precedes hPrecedes ha hb hChannel) hDelivered
  · intro a ha b hb haOrdered hbOrdered hChannel haDelivered hbDelivered haStored hbStored
    by_contra hne
    have hIds : a.id ≠ b.id := fun hId => hne (h.recorded.eq_of_id ha hb hId)
    have haHistory : a.id ∈ x.session.history b.channel :=
      Session.mem_history.mpr ⟨a, ha, hChannel, haOrdered, rfl⟩
    have hbHistory : b.id ∈ x.session.history b.channel :=
      Session.mem_history.mpr ⟨b, hb, rfl, hbOrdered, rfl⟩
    rcases pair_sublist_or_swap haHistory hbHistory hIds with hOrder | hOrder
    · exact h.passed _ _ _ hOrder hbDelivered haStored
    · exact h.passed _ _ _ hOrder haDelivered hbStored

end Interleaving

/-- The second message is written while a poll holds the first one as its
candidate, and it is handed out once the first one is deleted. -/
theorem ordered_jobs_exclusive_of_two :
    let m (id : Uuid) : MqNew := JobBuilder.orderedMessage id "job"
    let rows (id : Uuid) (s : Store) := (@newRows .nullOnly 0 [m id] s).toOption.getD ⟨[], []⟩
    let written (id : Uuid) (snapshot s : Store) := (insertRows s (rows id snapshot)).toOption.getD s
    let reached (snapshot : Store) (id : Uuid) (s : Store) :=
      (pollUpdate snapshot 0 [id] s).toOption.getD (s, [])
    let s₁ := written 1 (.initial 0) (.initial 0)
    let s₂ := written 2 s₁ s₁
    let a := reached s₁ 1 s₂
    let y := @Session.call .nullOnly (.delete [1])
      ⟨a.1, [[m 1], [m 2]], [⟨["mq_", "mq"], []⟩, ⟨["mq_", "mq"], []⟩, ⟨[], a.2⟩]⟩
    let b := reached y.store 2 y.store
    let x : Session := ⟨b.1, y.inserted, y.replies ++ [⟨[], b.2⟩]⟩
    x.delivered = [1, 2] ∧ ∀ a b : MqNew, Precedes x.inserted a b → a.ordered = true →
      b.ordered = true → a.channel = b.channel → b.id ∈ x.delivered → x.store.row a.id = none := by
  intro m rows written reached s₁ s₂ a y b x
  let _ : JsonbCast := .nullOnly
  let picked (s : Store) :=
    (messagesToUpdate .physical 0 none ⟨5, by decide, by decide⟩ s).toOption.getD []
  let poll : QueueEvent := .poll .physical 0 none ⟨5, by decide, by decide⟩
  let p₁ : PendingInsert := ⟨[m 1], rows 1 (.initial 0)⟩
  let p₂ : PendingInsert := ⟨[m 2], rows 2 s₁⟩
  have hRows₁ : newRows 0 [m 1] (.initial 0) = .ok (rows 1 (.initial 0)) :=
    eq_ok_getD_of_isSome (by decide +kernel) _
  have hWrite₁ : insertRows (.initial 0) p₁.rows = .ok s₁ :=
    eq_ok_getD_of_isSome (by decide +kernel) _
  have hRows₂ : newRows 0 [m 2] s₁ = .ok (rows 2 s₁) := eq_ok_getD_of_isSome (by decide +kernel) _
  have hWrite₂ : insertRows s₁ p₂.rows = .ok s₂ := eq_ok_getD_of_isSome (by decide +kernel) _
  have hPicked₁ : messagesToUpdate .physical 0 none ⟨5, by decide, by decide⟩ s₁ = .ok (picked s₁) :=
    eq_ok_getD_of_isSome (by decide +kernel) _
  have hReached₁ : pollUpdate s₁ 0 [1] s₂ = .ok (a.1, a.2) := by
    rw [Prod.mk.eta]
    exact eq_ok_getD_of_isSome (by decide +kernel) _
  have hPicked₂ : messagesToUpdate .physical 0 none ⟨5, by decide, by decide⟩ y.store =
      .ok (picked y.store) := eq_ok_getD_of_isSome (by decide +kernel) _
  have hReached₂ : pollUpdate y.store 0 [2] y.store = .ok (b.1, b.2) := by
    rw [Prod.mk.eta]
    exact eq_ok_getD_of_isSome (by decide +kernel) _
  have hNotes (id : Uuid) : pgNotify (groups MqNew.channelName [m id]) = .ok ["mq_", "mq"] := by rfl
  have hCandidate₁ : 1 ∈ picked s₁ := by decide +kernel
  have hCandidate₂ : 2 ∈ picked y.store := by decide +kernel
  have hDelivered : x.delivered = [1, 2] := by decide +kernel
  -- what the calls evaluate to does not matter for the run
  clear_value rows s₁ s₂ picked a b
  have hPolls₁ : [PendingPoll.mk 0 s₁ (picked s₁)][0]? = some ⟨0, s₁, picked s₁⟩ := rfl
  have hPolls₂ : [PendingPoll.mk 0 s₁ ((picked s₁).erase 1), ⟨0, y.store, picked y.store⟩][1]? =
      some ⟨0, y.store, picked y.store⟩ := rfl
  have hFresh : ∀ new ∈ [m 2], new.id ∉ [uuidNil, 1] ∧
      new.id ∉ ([p₁].erase p₁).flatMap PendingInsert.ids := by
    rw [List.erase_cons_head]
    decide
  have run : Run QueueStep (.start 0) [.begin 0 [m 1], .write p₁, .begin 0 [m 2], poll, .write p₂,
      .reach 0 1, .call (.delete [1]), poll, .reach 1 2]
      ⟨x, (p₂ :: [p₁].erase p₁).erase p₂,
        [⟨0, s₁, (picked s₁).erase 1⟩, ⟨0, y.store, (picked y.store).erase 2⟩]⟩ :=
    .cons (.begin (by decide) (by decide) (hNotes 1) hRows₁) <|
      .cons (.write (by simp [p₁]) (hNotes 1) hWrite₁) <|
      .cons (.begin (by decide) hFresh (hNotes 2) hRows₂) <|
      .cons (.poll hPicked₁) <| .cons (.write (by simp [p₂]) (hNotes 2) hWrite₂) <|
      .cons (.reach hPolls₁ hCandidate₁ hReached₁) <|
      .cons (.call rfl (by simp [Op.sparesNil, uuidNil])) <| .cons (.poll hPicked₂) <|
      .cons (.reach hPolls₂ hCandidate₂ hReached₂) .refl
  exact ⟨hDelivered, (ordered_jobs_exclusive run).1⟩

end Sqlxmq
