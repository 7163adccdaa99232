import Sqlxmq.Crate.Dispatch
import Sqlxmq.Lifecycle.WorkConserving
import Sqlxmq.Order.Delivery

/-! A queue whose jobs complete runs empty. Each round of a runner polls,
deletes what it found expired, and completes what it dispatched. While polls
can update what they find, no round fails, and as long as messages wait, none
is in vain. -/
namespace Sqlxmq

open KeyedTable PredecessorLinks LabelledRun

/-- One poll of a runner whose jobs complete, in an order of their own. -/
structure DrainRound where
  choice : PollChoice
  now : Timestamp
  batchSize : Int4
  finish : List CurrentJob → List CurrentJob
  finish_perm : ∀ jobs, (finish jobs).Perm jobs

/-- The deletions that follow the poll: what has expired in one statement,
and every dispatched job in one of its own. -/
def DrainRound.deletions (round : DrainRound) (messages : List PolledMessage) : List (List Uuid) :=
  (if idsToDelete messages = [] then [] else [idsToDelete messages]) ++
    (round.finish (dispatched messages)).map fun job => [job.id]

/-- A message that a runner of these channels has to handle at some time. -/
def awaited (channelNames : Option (List String)) (r : MqMsg) : Bool :=
  r.id ≠ uuidNil ∧ channelSelected channelNames r.channelName

def Store.awaitedIds (channelNames : Option (List String)) (s : Store) : List Uuid :=
  (s.msgs.filter (awaited channelNames)).map MqMsg.id

/-- The messages that are no reservations. -/
def Store.committedIds (s : Store) : List Uuid := s.selectedIds (·.commitInterval = none)

/-- From the time `t` until `u`, only the order of a channel holds a message
back, and a poll can update it. -/
def Drainable (t u : Timestamp) (channelNames : Option (List String)) (s : Store) : Prop :=
  ∀ r ∈ s.msgs, awaited channelNames r = true →
    SqlNull.isLe r.attemptAt t = true ∧ ∀ now, t ≤ now → now ≤ u → Pollable now r

/-- A row without its link. -/
def MqMsg.unlinked (r : MqMsg) : MqMsg := { r with afterMessageId := none }

theorem setDefault_unlinked (gone : List Uuid) (r : MqMsg) :
    (setDefault gone r).unlinked = r.unlinked := by
  rw [setDefault_eq]
  rfl

/-- A filter that does not look at the links. -/
theorem filter_unlinked {p : MqMsg → Bool} (hp : ∀ r : MqMsg, p r.unlinked = p r) (rows : List MqMsg) :
    (rows.filter p).map MqMsg.unlinked = (rows.map MqMsg.unlinked).filter p := by
  rw [List.filter_map]
  congr 1
  apply List.filter_congr
  intro r _
  exact (hp r).symm

/-- A list is split at its head by elements that it could only contain there. -/
theorem eq_filter_append_filter {α : Type*} [DecidableEq α] {ids l : List α} (hIds : ids.Nodup)
    (hNodup : l.Nodup) (hHead : ∀ id ∈ ids, id ∈ l → l.head? = some id) :
    l = ids.filter (· ∈ l) ++ l.filter (· ∉ ids) := by
  cases l with
  | nil => simp
  | cons a rest =>
      have hRest : ∀ b ∈ rest, b ∉ ids := by
        intro b hb hIn
        have hEq := hHead b hIn (List.mem_cons_of_mem a hb)
        rw [List.head?_cons, Option.some.injEq] at hEq
        exact (List.nodup_cons.mp hNodup).1 (hEq ▸ hb)
      have hKept : rest.filter (· ∉ ids) = rest := by
        rw [List.filter_eq_self]
        intro b hb
        simpa using hRest b hb
      have hFirst : ids.filter (· ∈ a :: rest) = ids.filter (· = a) := by
        apply List.filter_congr
        intro b hb
        rw [decide_eq_decide]
        constructor
        · intro hIn
          simpa [eq_comm] using hHead b hb hIn
        · rintro rfl
          exact List.mem_cons_self
      rw [hFirst, List.filter_eq, List.filter_cons, hKept]
      by_cases ha : a ∈ ids
      · simp [ha, List.count_eq_one_of_mem hIds ha]
      · simp [ha, List.count_eq_zero_of_not_mem ha]

theorem perm_append_filter {α : Type*} [DecidableEq α] {ids l : List α} (hNodup : l.Nodup)
    (hIds : ids.Nodup) (hIn : ∀ id ∈ ids, id ∈ l) : l.Perm (ids ++ l.filter (· ∉ ids)) := by
  have hAll : (ids ++ l.filter (· ∉ ids)).Nodup := by
    refine List.nodup_append.mpr ⟨hIds, hNodup.filter _, ?_⟩
    rintro a ha _ hb rfl
    simp [ha] at hb
  rw [List.perm_ext_iff_of_nodup hNodup hAll]
  intro a
  by_cases ha : a ∈ ids
  · simp [ha, hIn a ha]
  · simp [ha]

namespace Session

section Attempt

variable [JsonbCast]

/-- Calls one after another, up to the first error. -/
def attempt : List Op → Session → Except DbError Session
  | [], x => .ok x
  | op :: rest, x => do
      let (s', reply) ← exec op x.store
      attempt rest ⟨s', x.inserted ++ op.batches, x.replies ++ [reply]⟩

def drainRound (channelNames : Option (List String)) (round : DrainRound) (x : Session) :
    Except DbError Session := do
  let (s', messages) ← mqPoll round.choice round.now channelNames round.batchSize x.store
  attempt ((round.deletions messages).map .delete)
    ⟨s', x.inserted, x.replies ++ [⟨[], messages⟩]⟩

def drain (channelNames : Option (List String)) : List DrainRound → Session → Except DbError Session
  | [], x => .ok x
  | round :: rest, x => do
      let y ← drainRound channelNames round x
      drain channelNames rest y

end Attempt

variable {x y z : Session} {channelNames : Option (List String)} {ids more : List Uuid}

/-- Messages that were delivered have been deleted, and nothing else changed. -/
structure Finishes (x : Session) (gone : List Uuid) (y : Session) : Prop where
  recorded : Recorded y
  delivered : y.delivered = x.delivered
  handedOut : y.handedOut = x.handedOut
  msgs : y.store.msgs.map MqMsg.unlinked =
    (x.store.msgs.filter (·.id ∉ gone)).map MqMsg.unlinked
  fifo : ∀ ch, y.store.fifo ch = (x.store.fifo ch).filter (· ∉ gone)

theorem Finishes.trans {gone more : List Uuid} (h : x.Finishes gone y) (h' : y.Finishes more z) :
    x.Finishes (gone ++ more) z where
  recorded := h'.recorded
  delivered := h'.delivered.trans h.delivered
  handedOut := h'.handedOut.trans h.handedOut
  msgs := by
    rw [h'.msgs, filter_unlinked (fun _ => rfl), h.msgs, ← filter_unlinked (fun _ => rfl),
      List.filter_filter]
    simp [Bool.and_comm]
  fifo := by
    intro ch
    rw [h'.fifo, h.fifo, List.filter_filter]
    simp [Bool.and_comm]

/-- Whatever was delivered can be deleted. -/
theorem Recorded.delete [JsonbCast] (h : Recorded x) {msgIds : List Uuid}
    (hDelivered : ∀ id ∈ msgIds, id ∈ x.delivered) :
    ∃ s' reply, exec (.delete msgIds) x.store = .ok (s', reply) ∧
      x.Finishes msgIds ⟨s', x.inserted ++ [], x.replies ++ [reply]⟩ := by
  obtain ⟨s', notifications, hDelete⟩ := h.mqDelete_succeeds hDelivered
  have hExec : exec (.delete msgIds) x.store = .ok (s', ⟨notifications, []⟩) := by
    simp [exec, hDelete, bind, Except.bind]
  have hNil : (Op.delete msgIds).sparesNil := fun hIn => (h.delivered _ (hDelivered _ hIn)).1 rfl
  obtain ⟨-, t, hMsgs, hPayloads⟩ := mqDelete_eq_ok_iff.mp hDelete
  refine ⟨s', _, hExec, h.step (show x.Fresh (.delete msgIds) from trivial) hNil hExec,
    by simp [Session.delivered], by simp [Session.handedOut, dispatched], ?_, fun ch => ?_⟩
  · show s'.msgs.map MqMsg.unlinked = _
    rw [hPayloads, Store.deletePayloads_msgs, (Store.deleteMsgs_eq_ok hMsgs).1, Store.remaining,
      List.map_map]
    have hSame : MqMsg.unlinked ∘ setDefault (x.store.selectedIds (·.id ∈ msgIds)) =
        MqMsg.unlinked := funext fun r => setDefault_unlinked _ r
    rw [hSame]
    simp
  · exact congrFun (congrArg Queues.ordered (h.integrity.exec_queues hNil hExec)) ch

/-- The deletions of a round succeed one after another. -/
theorem Recorded.attempt_deletes [JsonbCast] (h : Recorded x) {gone : List (List Uuid)}
    (hDelivered : ∀ id ∈ gone.flatten, id ∈ x.delivered) :
    ∃ y, attempt (gone.map .delete) x = .ok y ∧ x.Finishes gone.flatten y := by
  induction gone generalizing x with
  | nil => exact ⟨x, rfl, h, rfl, rfl, by simp, by simp⟩
  | cons msgIds rest ih =>
      rw [List.flatten_cons] at hDelivered
      obtain ⟨s', reply, hExec, hFirst⟩ := h.delete fun id hId =>
        hDelivered id (List.mem_append_left _ hId)
      obtain ⟨y, hRest, hFinishes⟩ := ih hFirst.recorded fun id hId =>
        hFirst.delivered.symm ▸ hDelivered id (List.mem_append_right _ hId)
      refine ⟨y, ?_, hFirst.trans hFinishes⟩
      simpa [attempt, hExec, bind, Except.bind, Op.batches] using hRest

/-- What a part of a drain has achieved: the messages `ids` were polled and are
gone, each once and from the front of its channel, the committed ones of them
as jobs, and the rest is as before. -/
structure DrainsTo (channelNames : Option (List String)) (x : Session) (ids : List Uuid)
    (y : Session) : Prop where
  recorded : Recorded y
  delivered : y.delivered = x.delivered ++ ids
  handedOut : y.handedOut = x.handedOut ++ ids.filter (· ∈ x.store.committedIds)
  msgs : y.store.msgs.map MqMsg.unlinked = (x.store.msgs.filter (·.id ∉ ids)).map MqMsg.unlinked
  once : (x.store.awaitedIds channelNames).Perm (ids ++ y.store.awaitedIds channelNames)
  fifo : ∀ ch, x.store.fifo ch = ids.filter (· ∈ x.store.fifo ch) ++ y.store.fifo ch

theorem awaitedIds_nodup (channelNames : Option (List String)) (s : Store) :
    (s.awaitedIds channelNames).Nodup :=
  s.msgsPkey.sublist (List.filter_sublist.map _)

/-- What does not look at the links selects the same of the remaining rows. -/
theorem selectedIds_rest {p : MqMsg → Bool} (hp : ∀ r : MqMsg, p r.unlinked = p r) {s s' : Store}
    (hMsgs : s'.msgs.map MqMsg.unlinked = (s.msgs.filter (·.id ∉ ids)).map MqMsg.unlinked) :
    s'.selectedIds p = (s.selectedIds p).filter (· ∉ ids) := by
  have hIds (rows : List MqMsg) : (rows.filter p).map MqMsg.id =
      ((rows.map MqMsg.unlinked).filter p).map MqMsg.id := by
    rw [← filter_unlinked hp, List.map_map]
    rfl
  rw [Store.selectedIds, hIds, hMsgs, ← hIds, Store.selectedIds, List.filter_map, List.filter_filter,
    List.filter_filter]
  simp [Bool.and_comm]

theorem DrainsTo.refl (h : Recorded x) : DrainsTo channelNames x [] x :=
  ⟨h, by simp, by simp, by simp, .refl _, by simp⟩

/-- What is delivered later was still there after the first part. -/
theorem DrainsTo.later (h : DrainsTo channelNames x ids y) (h' : DrainsTo channelNames y more z)
    {id : Uuid} (hId : id ∈ more) : id ∉ ids := by
  have hNodup := h.once.nodup_iff.mp (awaitedIds_nodup channelNames x.store)
  have hIn : id ∈ y.store.awaitedIds channelNames :=
    h'.once.mem_iff.mpr (List.mem_append_left _ hId)
  exact fun hOld => (List.nodup_append.mp hNodup).2.2 id hOld id hIn rfl

theorem DrainsTo.trans (h : DrainsTo channelNames x ids y) (h' : DrainsTo channelNames y more z) :
    DrainsTo channelNames x (ids ++ more) z where
  recorded := h'.recorded
  delivered := by rw [h'.delivered, h.delivered, List.append_assoc]
  handedOut := by
    have hCommitted : y.store.committedIds = x.store.committedIds.filter (· ∉ ids) :=
      selectedIds_rest (fun _ => rfl) h.msgs
    have hLater : more.filter (· ∈ y.store.committedIds) =
        more.filter (· ∈ x.store.committedIds) := by
      apply List.filter_congr
      intro id hId
      simp [hCommitted, h.later h' hId]
    rw [h'.handedOut, h.handedOut, hLater, List.filter_append, List.append_assoc]
  msgs := by
    rw [h'.msgs, filter_unlinked (fun _ => rfl), h.msgs, ← filter_unlinked (fun _ => rfl),
      List.filter_filter]
    simp [Bool.and_comm]
  once := by
    rw [List.append_assoc]
    exact h.once.trans (h'.once.append_left ids)
  fifo := by
    intro ch
    have hLater : more.filter (· ∈ x.store.fifo ch) = more.filter (· ∈ y.store.fifo ch) := by
      apply List.filter_congr
      intro id hId
      rw [decide_eq_decide, h.fifo ch, List.mem_append]
      simp [h.later h' hId]
    rw [List.filter_append, hLater, List.append_assoc, ← h'.fifo ch, ← h.fifo ch]

theorem pollable_unlinked {now : Timestamp} {r : MqMsg} :
    Pollable now r.unlinked ↔ Pollable now r :=
  ⟨fun h => ⟨h.attempts, h.fits, h.doubles⟩, fun h => ⟨h.attempts, h.fits, h.doubles⟩⟩

/-- What the remaining messages need for the drain, they still have. -/
theorem DrainsTo.drainable (h : DrainsTo channelNames x ids y) {t u : Timestamp}
    (hDrain : Drainable t u channelNames x.store) : Drainable t u channelNames y.store := by
  intro r hr hAwaited
  have hIn : r.unlinked ∈ (x.store.msgs.filter (·.id ∉ ids)).map MqMsg.unlinked :=
    h.msgs ▸ List.mem_map_of_mem hr
  obtain ⟨r₀, hr₀, hEq⟩ := List.mem_map.mp hIn
  have hAwaited₀ : awaited channelNames r₀ = true := by
    show awaited channelNames r₀.unlinked = true
    rw [hEq]
    exact hAwaited
  obtain ⟨hDue, hPollable⟩ := hDrain r₀ (List.mem_filter.mp hr₀).1 hAwaited₀
  constructor
  · show SqlNull.isLe r.unlinked.attemptAt t = true
    rw [← hEq]
    exact hDue
  · intro now hFrom hTo
    rw [← pollable_unlinked, ← hEq, pollable_unlinked]
    exact hPollable now hFrom hTo

section Rounds

variable {t u now : Timestamp}

/-- Where messages wait, one of them is ready: the head of some channel, if
nothing is unordered. -/
theorem Recorded.exists_ready (h : Recorded x) (hDrain : Drainable t u channelNames x.store)
    (hNow : t ≤ now) (hSome : x.store.awaitedIds channelNames ≠ []) :
    readyMsgs now channelNames x.store ≠ [] := by
  have hReady {r : MqMsg} (hr : r ∈ x.store.msgs) (hAwaited : awaited channelNames r = true)
      (hFirst : mqUuidExists r.afterMessageId = false) :
      readyMsgs now channelNames x.store ≠ [] := by
    obtain ⟨a, ha, hLe⟩ := SqlNull.isLe_iff.mp (hDrain r hr hAwaited).1
    have hBoth := hAwaited
    simp only [awaited, decide_eq_true_eq] at hBoth
    exact List.ne_nil_of_mem (mem_readyMsgs.mpr
      ⟨hr, hBoth.1, SqlNull.isLe_iff.mpr ⟨a, ha, hLe.trans hNow⟩, hFirst, hBoth.2⟩)
  obtain ⟨id, rest, hIds⟩ := List.exists_cons_of_ne_nil hSome
  have hId : id ∈ x.store.awaitedIds channelNames := by simp [hIds]
  obtain ⟨r, hIn, -⟩ := List.mem_map.mp hId
  obtain ⟨hr, hAwaited⟩ := List.mem_filter.mp hIn
  cases hAfter : r.afterMessageId with
  | none => exact hReady hr hAwaited (by simp [hAfter])
  | some p =>
      have hFifo : r.id ∈ x.store.fifo r.channel :=
        h.integrity.chained.mem_fifo_iff.mpr ⟨r, hr, rfl, rfl, p, hAfter⟩
      obtain ⟨a, others, hHead⟩ := List.exists_cons_of_ne_nil (List.ne_nil_of_mem hFifo)
      obtain ⟨r₀, hr₀, hChannel, hId₀, -⟩ := h.integrity.chained.mem_fifo_iff.mp
        (hHead ▸ List.mem_cons_self : a ∈ x.store.fifo r.channel)
      have hFirst : r₀.afterMessageId = some uuidNil := by
        rw [h.integrity.chained.head_iff hr₀, hChannel, hHead, hId₀]
        rfl
      have hNotNil : r₀.id ≠ uuidNil := by
        intro hNil
        apply (h.integrity.chained r.channel).start_not_mem
        rw [hHead, ← hId₀, hNil]
        exact List.mem_cons_self
      have hSelected : channelSelected channelNames r₀.channelName = true := by
        have hBoth := hAwaited
        simp only [awaited, decide_eq_true_eq] at hBoth
        have hName : r₀.channelName = r.channelName := congrArg Channel.name hChannel
        rw [hName]
        exact hBoth.2
      exact hReady hr₀ (by simp [awaited, hNotNil, hSelected]) (by rw [hFirst]; rfl)

/-- A poll leaves the rows alone that it does not return. -/
theorem mqPoll_rest {choice : PollChoice} {batchSize : Int4} {s s' : Store}
    {messages : List PolledMessage}
    (hPoll : mqPoll choice now channelNames batchSize s = .ok (s', messages)) :
    s'.msgs.filter (·.id ∉ messages.filterMap PolledMessage.id) =
      s.msgs.filter (·.id ∉ messages.filterMap PolledMessage.id) := by
  obtain ⟨candidates, rows, -, hUpdate, hMessages⟩ := mqPoll_eq_ok hPoll
  obtain ⟨hMsgs, -, -, hRows⟩ := pollUpdate_eq_ok hUpdate
  have hSame (r : MqMsg) : (updated (pollSelects now candidates) (pollRow now) r).id = r.id :=
    (updated_sameIdentity pollRow_sameIdentity _ r).id
  have hReturned : ∀ r ∈ s.msgs, pollSelects now candidates r = true →
      r.id ∈ messages.filterMap PolledMessage.id := by
    intro r hr hSelected
    have hIn : returning s (updated (pollSelects now candidates) (pollRow now) r) ∈ rows := by
      rw [hRows]
      exact List.mem_map_of_mem (List.mem_filter.mpr ⟨hr, hSelected⟩)
    rw [hMessages, if_neg (List.ne_nil_of_mem hIn)]
    exact List.mem_filterMap.mpr ⟨_, hIn, by simp [returning, hSame]⟩
  rw [hMsgs, List.filter_map]
  simp only [Function.comp_def, hSame]
  conv => rhs; rw [← List.map_id (s.msgs.filter _)]
  apply List.map_congr_left
  intro r hr
  obtain ⟨hIn, hNot⟩ := List.mem_filter.mp hr
  have hSkipped : pollSelects now candidates r = false := by
    by_contra hSelected
    simp [hReturned r hIn (by simpa using hSelected)] at hNot
  simp [updated, hSkipped]

section Returned

variable {choice : PollChoice} {batchSize : Int4} {s s' : Store} {messages : List PolledMessage}

theorem polled_isCommitted
    (hPoll : mqPoll choice now channelNames batchSize s = .ok (s', messages)) {msg : PolledMessage}
    (hMsg : msg ∈ messages) {id : Uuid} (hId : msg.id = some id) :
    msg.isCommitted = some (decide (id ∈ s.committedIds)) := by
  obtain ⟨r, hr, rfl, -, r', -, hRow, rfl⟩ := mqPoll_polled hPoll hMsg hId
  have hCommit : r'.commitInterval = r.commitInterval := by rw [(pollRow_eq_ok hRow).2]
  simp [returning, hCommit, Store.committedIds, Store.mem_selectedIds hr]

/-- The reservations that a poll returns are deleted. -/
theorem idsToDelete_eq (hPoll : mqPoll choice now channelNames batchSize s = .ok (s', messages)) :
    idsToDelete messages =
      (messages.filterMap PolledMessage.id).filter (· ∉ s.committedIds) := by
  rw [idsToDelete, List.filterMap_filter, List.filter_filterMap]
  apply List.filterMap_congr
  intro msg hMsg
  cases hId : msg.id with
  | none => simp
  | some id =>
      rw [polled_isCommitted hPoll hMsg hId]
      by_cases hIn : id ∈ s.committedIds <;> simp [Option.filter, hIn]

/-- The committed messages that a poll of intact tables returns are handed out
as jobs. -/
theorem Recorded.dispatched_ids (h : Recorded x)
    (hPoll : mqPoll choice now channelNames batchSize x.store = .ok (s', messages)) :
    (dispatched messages).map CurrentJob.id =
      (messages.filterMap PolledMessage.id).filter (· ∈ x.store.committedIds) := by
  rw [dispatched, List.map_filterMap, List.filter_filterMap]
  apply List.filterMap_congr
  intro msg hMsg
  cases hJob : msg.currentJob with
  | some job =>
      obtain ⟨hId, hCommitted⟩ := currentJob_id hJob
      rw [polled_isCommitted hPoll hMsg hId, Option.some.injEq] at hCommitted
      simp [hId, Option.filter, hCommitted]
  | none =>
      cases hId : msg.id with
      | none => rfl
      | some id =>
          have hIn : id ∉ x.store.committedIds := by
            intro hIn
            have hCommitted : msg.isCommitted = some true := by
              simp [polled_isCommitted hPoll hMsg hId, hIn]
            obtain ⟨-, -, -, hPattern⟩ := (h.integrity.intact.polled hPoll msg hMsg).2 hCommitted
            simp [hJob] at hPattern
          simp [Option.filter, hIn]

end Returned

/-- Every message that a poll of intact tables returns is deleted behind it,
as an expired one or as a completed job. -/
theorem Recorded.mem_deletions (h : Recorded x) {round : DrainRound} {s' : Store}
    {messages : List PolledMessage} (hPoll : mqPoll round.choice round.now channelNames
      round.batchSize x.store = .ok (s', messages)) (id : Uuid) :
    id ∈ (round.deletions messages).flatten ↔ id ∈ messages.filterMap PolledMessage.id := by
  have hDeletions : id ∈ (round.deletions messages).flatten ↔
      id ∈ idsToDelete messages ∨ id ∈ (dispatched messages).map CurrentJob.id := by
    have hFinish (job : CurrentJob) : job ∈ round.finish (dispatched messages) ↔
        job ∈ dispatched messages := (round.finish_perm _).mem_iff
    by_cases hNone : idsToDelete messages = []
    · simp [DrainRound.deletions, hNone, hFinish, eq_comm]
    · simp [DrainRound.deletions, hNone, hFinish, eq_comm]
  rw [hDeletions, idsToDelete_eq hPoll, h.dispatched_ids hPoll]
  by_cases hIn : id ∈ x.store.committedIds <;> simp [hIn]

/-- What a poll returns is due, and among the ordered messages of a channel
it is the first. -/
theorem Recorded.polled_ids (h : Recorded x) {choice : PollChoice} {batchSize : Int4} {s' : Store}
    {messages : List PolledMessage}
    (hPoll : mqPoll choice now channelNames batchSize x.store = .ok (s', messages)) {id : Uuid}
    (hId : id ∈ messages.filterMap PolledMessage.id) :
    id ∈ x.store.awaitedIds channelNames ∧
      ∀ ch, id ∈ x.store.fifo ch → (x.store.fifo ch).head? = some id := by
  obtain ⟨msg, hMsg, hMsgId⟩ := List.mem_filterMap.mp hId
  obtain ⟨r, hr, rfl, hReady, -⟩ := mqPoll_polled hPoll hMsg hMsgId
  refine ⟨List.mem_map_of_mem (List.mem_filter.mpr ⟨hr, ?_⟩), fun ch hFifo => ?_⟩
  · simp [awaited, hReady.notNil, hReady.selected]
  · exact h.integrity.chained.head_of_first hr hReady.first hFifo

/-- A poll returns something if anything is ready. -/
theorem polled_ids_ne_nil {choice : PollChoice} {batchSize : Int4} {s s' : Store}
    {messages : List PolledMessage} (hBatch : 1 ≤ batchSize.val)
    (hPoll : mqPoll choice now channelNames batchSize s = .ok (s', messages))
    (hSome : readyMsgs now channelNames s ≠ []) : messages.filterMap PolledMessage.id ≠ [] := by
  have hFull := mqPoll_fullBatch hBatch hSome hPoll
  have hCount := hFull.count
  have hReadyPos := List.length_pos_iff.mpr hSome
  have hPositive : 0 < messages.length := by omega
  obtain ⟨msg, hMsg⟩ := List.exists_mem_of_length_pos hPositive
  obtain ⟨r, -, hId⟩ := hFull.ready msg hMsg
  exact List.ne_nil_of_mem (List.mem_filterMap.mpr ⟨msg, hMsg, hId⟩)

variable [JsonbCast]

/-- The deletions behind a poll succeed, and what it returned is gone. -/
theorem Recorded.finish_polled (h : Recorded x) {round : DrainRound} {s' : Store}
    {messages : List PolledMessage} (hPoll : mqPoll round.choice round.now channelNames
      round.batchSize x.store = .ok (s', messages)) :
    ∃ y, attempt ((round.deletions messages).map .delete)
        ⟨s', x.inserted, x.replies ++ [⟨[], messages⟩]⟩ = .ok y ∧
      DrainsTo channelNames x (messages.filterMap PolledMessage.id) y := by
  let op : Op := .poll round.choice round.now channelNames round.batchSize
  have hExec : exec op x.store = .ok (s', ⟨[], messages⟩) := exec_poll hPoll
  have hFresh : x.Fresh op := trivial
  have hNil : op.sparesNil := trivial
  have hDistinct := mqPoll_ids_nodup hPoll
  have hSession : Recorded ⟨s', x.inserted, x.replies ++ [⟨[], messages⟩]⟩ := by
    simpa [op, Op.batches] using h.step hFresh hNil hExec
  have hDelivered : Session.delivered ⟨s', x.inserted, x.replies ++ [⟨[], messages⟩]⟩ =
      x.delivered ++ messages.filterMap PolledMessage.id := by
    simp [Session.delivered]
  have hHandedOut : Session.handedOut ⟨s', x.inserted, x.replies ++ [⟨[], messages⟩]⟩ =
      x.handedOut ++ (messages.filterMap PolledMessage.id).filter (· ∈ x.store.committedIds) := by
    rw [← h.dispatched_ids hPoll]
    simp [Session.handedOut]
  have hDeletions := h.mem_deletions hPoll
  have hGone : ∀ id ∈ (round.deletions messages).flatten,
      id ∈ Session.delivered ⟨s', x.inserted, x.replies ++ [⟨[], messages⟩]⟩ := by
    intro id hId
    rw [hDelivered]
    exact List.mem_append_right _ ((hDeletions id).mp hId)
  obtain ⟨y, hAttempt, hFinishes⟩ := hSession.attempt_deletes hGone
  have hMsgs : y.store.msgs.map MqMsg.unlinked =
      (x.store.msgs.filter (·.id ∉ messages.filterMap PolledMessage.id)).map MqMsg.unlinked := by
    rw [← mqPoll_rest hPoll, hFinishes.msgs]
    simp only [hDeletions]
  have hFifo (ch : Channel) : y.store.fifo ch =
      (x.store.fifo ch).filter (· ∉ messages.filterMap PolledMessage.id) := by
    have hSame : s'.fifo ch = x.store.fifo ch :=
      congrFun (congrArg Queues.ordered (h.integrity.exec_queues hNil hExec)) ch
    rw [hFinishes.fifo]
    simp only [hDeletions, hSame]
  refine ⟨y, hAttempt, hFinishes.recorded, hFinishes.delivered.trans hDelivered,
    hFinishes.handedOut.trans hHandedOut, hMsgs, ?_, fun ch => ?_⟩
  · have hRest : y.store.awaitedIds channelNames = (x.store.awaitedIds channelNames).filter
        (· ∉ messages.filterMap PolledMessage.id) := selectedIds_rest (fun _ => rfl) hMsgs
    rw [hRest]
    exact perm_append_filter (awaitedIds_nodup _ _) hDistinct fun id hId => (h.polled_ids hPoll hId).1
  · rw [hFifo]
    exact eq_filter_append_filter hDistinct (List.nodup_cons.mp (h.integrity.chained ch).nodup).2
      fun id hId => (h.polled_ids hPoll hId).2 ch

/-- A round that polls while all messages are due and can be updated succeeds,
and it delivers a message if any is left. -/
theorem Recorded.drainRound (h : Recorded x) (hDrain : Drainable t u channelNames x.store)
    {round : DrainRound} (hFrom : t ≤ round.now) (hTo : round.now ≤ u)
    (hBatch : 1 ≤ round.batchSize.val) :
    ∃ y ids, drainRound channelNames round x = .ok y ∧ DrainsTo channelNames x ids y ∧
      (x.store.awaitedIds channelNames ≠ [] → ids ≠ []) := by
  have hUnblocked : Unblocked round.now channelNames round.batchSize x.store := by
    intro r hr hBlocks
    obtain ⟨hIn, hReady⟩ := mem_readyMsgs.mp hr
    have hAwaited : awaited channelNames r = true := by
      simp [awaited, hReady.notNil, hReady.selected]
    exact absurd ((hDrain r hIn hAwaited).2 round.now hFrom hTo) hBlocks
  obtain ⟨s', messages, hPoll⟩ := mqPoll_total round.choice (Int.le_of_lt hBatch) hUnblocked
  obtain ⟨y, hAttempt, hDrains⟩ := h.finish_polled hPoll
  refine ⟨y, messages.filterMap PolledMessage.id, ?_, hDrains, fun hSome => ?_⟩
  · simpa [Session.drainRound, hPoll, bind, Except.bind] using hAttempt
  · exact polled_ids_ne_nil hBatch hPoll (h.exists_ready hDrain hFrom hSome)

/-- A queue whose jobs complete runs empty. From any reachable state in which
only the order of the channels holds messages back, no round of a runner
fails as long as polls can update them, and as many rounds as there are
messages poll each of them once, the committed ones as jobs. -/
theorem drain_delivers_all {migratedAt : Timestamp} {ops : List Op}
    (run : Run (Step fun x op => x.Fresh op ∧ op.sparesNil) (start migratedAt) ops x)
    (hDrain : Drainable t u channelNames x.store) {rounds : List DrainRound}
    (hRounds : ∀ round ∈ rounds, t ≤ round.now ∧ round.now ≤ u ∧ 1 ≤ round.batchSize.val) :
    ∃ y ids, drain channelNames rounds x = .ok y ∧ DrainsTo channelNames x ids y ∧
      ((x.store.awaitedIds channelNames).length ≤ rounds.length →
        ids.Perm (x.store.awaitedIds channelNames) ∧ y.store.awaitedIds channelNames = []) := by
  have h : Recorded x := recorded_of_run run fun _ _ _ hOp => hOp
  clear run
  induction rounds generalizing x with
  | nil =>
      refine ⟨x, [], rfl, .refl h, fun hLength => ?_⟩
      rw [List.length_nil, Nat.le_zero, List.length_eq_zero_iff] at hLength
      simp [hLength]
  | cons round rest ih =>
      obtain ⟨hFrom, hTo, hBatch⟩ := hRounds round List.mem_cons_self
      obtain ⟨y, ids, hRound, hFirst, hProgress⟩ := h.drainRound hDrain hFrom hTo hBatch
      obtain ⟨z, more, hRest, hLater, hEmpty⟩ := ih (hFirst.drainable hDrain)
        (fun round' hIn => hRounds round' (List.mem_cons_of_mem _ hIn)) hFirst.recorded
      refine ⟨z, ids ++ more, ?_, hFirst.trans hLater, fun hLength => ?_⟩
      · simpa [drain, hRound, bind, Except.bind] using hRest
      · have hCount := hFirst.once.length_eq
        rw [List.length_append] at hCount
        have hFewer : (y.store.awaitedIds channelNames).length ≤ rest.length := by
          by_cases hSome : x.store.awaitedIds channelNames = []
          · simp [hSome] at hCount
            omega
          · have hPositive := List.length_pos_iff.mpr (hProgress hSome)
            rw [List.length_cons] at hLength
            omega
        obtain ⟨hPerm, hNone⟩ := hEmpty hFewer
        exact ⟨(hPerm.append_left ids).trans hFirst.once.symm, hNone⟩

end Rounds

/-- Two ordered messages and a reservation, in three rounds of which the last
finds nothing. The reservation is not handed out. -/
theorem drain_delivers_all_of_three :
    let x := @Session.call .nullOnly (.insert 0 [JobBuilder.orderedMessage 1 "job",
      JobBuilder.orderedMessage 2 "job", JobBuilder.reservedMessage 3 "job"]) (.start 0)
    let round : DrainRound := ⟨.physical, second, ⟨2, by decide, by decide⟩, List.reverse,
      List.reverse_perm⟩
    ∃ y ids, @drain .nullOnly none [round, round, round] x = .ok y ∧ DrainsTo none x ids y ∧
      ids.Perm [1, 2, 3] ∧ y.handedOut = ids.filter (· ∈ [1, 2]) ∧ y.store.awaitedIds none = [] := by
  intro x round
  let _ : JsonbCast := .nullOnly
  have run : Run (Step fun x op => x.Fresh op ∧ op.sparesNil) (.start 0)
      [.insert 0 [JobBuilder.orderedMessage 1 "job", JobBuilder.orderedMessage 2 "job",
        JobBuilder.reservedMessage 3 "job"]] x :=
    .cons ⟨⟨fun _ _ => by simp [start, usedIds], trivial⟩, rfl⟩ .refl
  have hDue : ∀ r ∈ x.store.msgs,
      SqlNull.isLe r.attemptAt second = true ∧ Pollable second r := by decide +kernel
  have hDrain : Drainable second second none x.store := by
    intro r hr _
    refine ⟨(hDue r hr).1, fun now hFrom hTo => ?_⟩
    obtain rfl : now = second := le_antisymm hTo hFrom
    exact (hDue r hr).2
  have hRounds : ∀ round' ∈ [round, round, round],
      second ≤ round'.now ∧ round'.now ≤ second ∧ 1 ≤ round'.batchSize.val := by
    simp [round]
  obtain ⟨y, ids, hRun, hDrains, hEmpty⟩ := drain_delivers_all run hDrain hRounds
  obtain ⟨hPerm, hNone⟩ := hEmpty (by decide +kernel)
  have hAwaited : x.store.awaitedIds none = [1, 2, 3] := by decide +kernel
  have hCommitted : x.store.committedIds = [0, 1, 2] := by decide +kernel
  have hStart : x.handedOut = [] := by decide +kernel
  rw [hAwaited] at hPerm
  refine ⟨y, ids, hRun, hDrains, hPerm, ?_, hNone⟩
  rw [hDrains.handedOut, hStart, hCommitted, List.nil_append]
  apply List.filter_congr
  intro id hId
  have hNotNil : id ≠ 0 := by
    rintro rfl
    exact absurd (hPerm.mem_iff.mp hId) (by decide)
  simp [hNotNil]

end Session

end Sqlxmq
