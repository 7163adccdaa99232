import Mathlib.Data.List.Flatten
import Sqlxmq.Order.Queues

/-! Delivery in order. The history of a session is the specification: what
is left in a channel is a subsequence of what was inserted into it, and only
its first message can be polled. -/
namespace Sqlxmq

open KeyedTable PredecessorLinks LabelledRun

section Pairs

variable {α : Type*} {l : List α} {a b : α}

/-- Two elements of a duplicate-free list are in one order only. -/
theorem not_sublist_swap (h : l.Nodup) (hab : [a, b].Sublist l) : ¬ [b, a].Sublist l := by
  induction l with
  | nil => simp at hab
  | cons c rest ih =>
      obtain ⟨hNew, hRest⟩ := List.nodup_cons.mp h
      intro hba
      cases hab with
      | cons _ hab =>
          cases hba with
          | cons _ hba => exact ih hRest hab hba
          | cons_cons _ hba => exact hNew (hab.subset (by simp))
      | cons_cons _ hab =>
          cases hba with
          | cons _ hba => exact hNew (hba.subset (by simp))
          | cons_cons _ hba => exact hNew (List.singleton_sublist.mp hab)

/-- In an ascending list the smaller element comes first. -/
theorem pair_sublist_of_lt [LinearOrder α] (h : l.Pairwise (· ≤ ·)) (ha : a ∈ l) (hb : b ∈ l)
    (hlt : a < b) : [a, b].Sublist l := by
  induction l with
  | nil => simp at ha
  | cons c rest ih =>
      obtain ⟨hHead, hRest⟩ := List.pairwise_cons.mp h
      rcases List.mem_cons.mp ha with rfl | haRest
      · rcases List.mem_cons.mp hb with rfl | hbRest
        · exact absurd hlt (lt_irrefl _)
        · exact (List.singleton_sublist.mpr hbRest).cons_cons a
      · rcases List.mem_cons.mp hb with rfl | hbRest
        · exact absurd hlt (not_lt_of_ge (hHead a haRest))
        · exact (ih hRest haRest hbRest).cons c

end Pairs

/-- `a` was inserted by an earlier call than `b`, or by the same call with a
smaller identifier. -/
def Precedes (inserted : List (List MqNew)) (a b : MqNew) : Prop :=
  (∃ earlier later, [earlier, later].Sublist inserted ∧ a ∈ earlier ∧ b ∈ later) ∨
    ∃ batch ∈ inserted, a ∈ batch ∧ b ∈ batch ∧ a.id < b.id

theorem Precedes.mem {inserted : List (List MqNew)} {a b : MqNew} (h : Precedes inserted a b) :
    a ∈ inserted.flatten ∧ b ∈ inserted.flatten := by
  rcases h with ⟨earlier, later, hBatches, ha, hb⟩ | ⟨batch, hBatch, ha, hb, -⟩
  · exact ⟨List.mem_flatten_of_mem (hBatches.subset (by simp)) ha,
      List.mem_flatten_of_mem (hBatches.subset (by simp)) hb⟩
  · exact ⟨List.mem_flatten_of_mem hBatch ha, List.mem_flatten_of_mem hBatch hb⟩

namespace Session

/-- The ordered messages of a channel in the order of their insertion. -/
def history (x : Session) (ch : Channel) : List Uuid := x.inserted.flatMap (orderedIds · ch)

/-- No identifier is used for a second message. -/
def Fresh (x : Session) : Op → Prop
  | .insert _ newMessages => ∀ m ∈ newMessages, m.id ∉ x.usedIds
  | _ => True

theorem usedIds_append {s : Store} {inserted more : List (List MqNew)} {replies : List Reply} :
    usedIds ⟨s, inserted ++ more, replies⟩ =
      usedIds ⟨s, inserted, replies⟩ ++ more.flatten.map MqNew.id := by
  simp [usedIds]

/-- The store agrees with the history of the session. -/
structure Recorded (x : Session) : Prop where
  integrity : Integrity x.store
  used : x.usedIds.Nodup
  notNil : uuidNil ∉ x.usedIds
  origin : ∀ r ∈ x.store.msgs, r.id ≠ uuidNil → ∃ m ∈ x.inserted.flatten,
    m.id = r.id ∧ m.channel = r.channel ∧ m.ordered = r.afterMessageId.isSome
  order : ∀ ch, (x.store.fifo ch).Sublist (x.history ch)
  delivered : ∀ id ∈ x.delivered, id ≠ uuidNil ∧ id ∈ x.usedIds ∧
    ∀ r ∈ x.store.msgs, r.id = id → mqUuidExists r.afterMessageId = false

theorem recorded_start (migratedAt : Timestamp) : Recorded (start migratedAt) where
  integrity := .initial migratedAt
  used := by simp [start, usedIds]
  notNil := by simp [start, usedIds]
  origin := by
    intro r hr hNotNil
    obtain rfl := List.mem_singleton.mp hr
    exact absurd rfl hNotNil
  order := by
    intro ch
    rw [show (start migratedAt).store.fifo ch = [] from
      congrFun (congrArg Queues.ordered (Store.initial_queues migratedAt)) ch]
    exact List.nil_sublist _
  delivered := by simp [start, delivered]

namespace Recorded

variable [JsonbCast] {x : Session} {op : Op} {s' : Store} {reply : Reply} (h : Recorded x)
  (hFresh : x.Fresh op) (hNil : op.sparesNil) (hExec : exec op x.store = .ok (s', reply))
include h hExec

theorem origin_call : ∀ r ∈ s'.msgs, r.id ≠ uuidNil → ∃ m ∈ (x.inserted ++ op.batches).flatten,
    m.id = r.id ∧ m.channel = r.channel ∧ m.ordered = r.afterMessageId.isSome := by
  intro r' hr' hNotNil
  rw [List.flatten_append]
  rcases exec_row_origin hExec hr' with ⟨r, hr, hContinues⟩ | ⟨now, ms, rfl, m, hm, previous, hRow⟩
  · obtain ⟨m, hm, hId, hChannel, hOrdered⟩ := h.origin r hr (hContinues.id ▸ hNotNil)
    exact ⟨m, List.mem_append_left _ hm, hId.trans hContinues.id.symm,
      hChannel.trans hContinues.channel.symm, hOrdered.trans hContinues.isSome.symm⟩
  · refine ⟨m, List.mem_append_right _ (by simpa [Op.batches] using hm), ?_⟩
    rw [(newMsg_eq_ok hRow).2]
    cases hOrdered : m.ordered <;> exact ⟨rfl, rfl, by simp⟩

include hFresh in
theorem used_call : usedIds ⟨s', x.inserted ++ op.batches, x.replies ++ [reply]⟩ |>.Nodup := by
  rw [usedIds_append]
  refine List.nodup_append.mpr ⟨h.used, ?_, ?_⟩
  · cases exec_effect hExec with
    | insert notified prepared inserted =>
        simpa [Op.batches] using (insertRows_fresh prepared inserted).1
    | delete notified deleted payloads => simp [Op.batches]
    | clear selects deleted payloads silent => cases op <;> simp_all [Op.batches, Op.clears]
    | rewrite inPlace msgs same payloads silent => cases op <;> simp_all [Op.batches, Op.inPlace]
  · rintro a ha _ hb rfl
    cases op <;> simp only [Op.batches, List.flatten_nil, List.map_nil, List.not_mem_nil] at hb
    obtain ⟨m, hm, rfl⟩ := List.mem_map.mp hb
    exact hFresh m (by simpa using hm) ha

theorem notNil_call :
    uuidNil ∉ usedIds ⟨s', x.inserted ++ op.batches, x.replies ++ [reply]⟩ := by
  rw [usedIds_append, List.mem_append, not_or]
  refine ⟨h.notNil, fun hNilId => ?_⟩
  cases op <;> simp only [Op.batches, List.flatten_nil, List.map_nil, List.not_mem_nil] at hNilId
  obtain ⟨m, hm, hId⟩ := List.mem_map.mp hNilId
  cases exec_effect hExec with
  | insert notified prepared inserted =>
      apply (insertRows_fresh prepared inserted).2 m (by simpa using hm)
      exact hId ▸ h.integrity.nil_mem_ids
  | clear selects deleted payloads silent => cases selects
  | rewrite inPlace msgs same payloads silent => cases inPlace

include hNil in
theorem order_call (ch : Channel) : (s'.fifo ch).Sublist
    (history ⟨s', x.inserted ++ op.batches, x.replies ++ [reply]⟩ ch) := by
  have hHistory : history ⟨s', x.inserted ++ op.batches, x.replies ++ [reply]⟩ ch =
      x.history ch ++ op.batches.flatMap (orderedIds · ch) := by
    simp [history]
  have hFifo : s'.fifo ch = (op.onQueues x.store.queues).ordered ch :=
    congrFun (congrArg Queues.ordered (h.integrity.exec_queues hNil hExec)) ch
  have hOld : (x.store.queues.ordered ch).Sublist (x.history ch) := h.order ch
  rw [hHistory, hFifo]
  cases op with
  | insert now newMessages =>
      simp only [Op.onQueues, Queues.insert, Op.batches, List.flatMap_cons, List.flatMap_nil,
        List.append_nil]
      rw [← orderedIds_eq_insertionSort]
      exact hOld.append (List.Sublist.refl _)
  | delete msgIds => simpa [Op.onQueues, Queues.delete, Op.batches] using List.filter_sublist.trans hOld
  | clear channelNames =>
      simp only [Op.onQueues, Queues.clear, Op.batches, List.flatMap_nil, List.append_nil]
      split
      · exact List.nil_sublist _
      · exact hOld
  | clearAll => exact List.nil_sublist _
  | _ => simpa [Op.onQueues, Op.batches] using hOld

include hFresh in
theorem delivered_call : ∀ id ∈ Session.delivered ⟨s', x.inserted ++ op.batches, x.replies ++ [reply]⟩,
    id ≠ uuidNil ∧ id ∈ usedIds ⟨s', x.inserted ++ op.batches, x.replies ++ [reply]⟩ ∧
      ∀ r ∈ s'.msgs, r.id = id → mqUuidExists r.afterMessageId = false := by
  intro id hId
  rw [usedIds_append, List.mem_append]
  rcases mem_delivered_append.mp hId with hOld | ⟨m, hm, hReturned⟩
  · obtain ⟨hNotNil, hUsed, hFirst⟩ := h.delivered id hOld
    refine ⟨hNotNil, Or.inl hUsed, fun r' hr' hrId => ?_⟩
    rcases exec_row_origin hExec hr' with ⟨r, hr, hContinues⟩ | ⟨now, ms, rfl, m, hm, previous, hRow⟩
    · exact hContinues.first (hFirst r hr (hContinues.id.symm.trans hrId))
    · rw [(newMsg_eq_ok hRow).2] at hrId
      exact absurd hUsed (hrId ▸ hFresh m hm)
  · obtain ⟨choice, now, channelNames, batchSize, rfl, hPoll⟩ := exec_polled hExec hm
    obtain ⟨r, hr, rfl, hReady, -⟩ := mqPoll_polled hPoll hm hReturned
    obtain ⟨new, hNew, hNewId, -⟩ := h.origin r hr hReady.notNil
    refine ⟨hReady.notNil, Or.inl (hNewId ▸ List.mem_map_of_mem hNew), fun r' hr' hrId => ?_⟩
    rcases exec_row_origin hExec hr' with ⟨r₀, hr₀, hContinues⟩ | ⟨_, _, hOp, -⟩
    · obtain rfl := List.inj_on_of_nodup_map x.store.msgsPkey hr hr₀ (hrId ▸ hContinues.id)
      exact hContinues.first hReady.first
    · cases hOp

include hFresh hNil in
/-- Fresh identifiers and a nil row that stays suffice for all of it. -/
theorem step : Recorded ⟨s', x.inserted ++ op.batches, x.replies ++ [reply]⟩ where
  integrity := h.integrity.of_exec hNil hExec
  used := h.used_call hFresh hExec
  notNil := h.notNil_call hExec
  origin := h.origin_call hExec
  order := h.order_call hNil hExec
  delivered := h.delivered_call hFresh hExec

end Recorded

section InOrder

variable {x : Session} (h : Recorded x)
include h

theorem Recorded.eq_of_id {a b : MqNew} (ha : a ∈ x.inserted.flatten)
    (hb : b ∈ x.inserted.flatten) (hId : a.id = b.id) : a = b :=
  List.inj_on_of_nodup_map h.used ha hb hId

/-- The row of a message is in its channel, and it is linked exactly when
the message is ordered. -/
theorem Recorded.row_of_inserted {m : MqNew} (hm : m ∈ x.inserted.flatten) {r : MqMsg}
    (hr : r ∈ x.store.msgs) (hId : r.id = m.id) :
    r.channel = m.channel ∧ r.afterMessageId.isSome = m.ordered := by
  have hNotNil : r.id ≠ uuidNil := fun hNil =>
    h.notNil (hNil ▸ hId ▸ List.mem_map_of_mem hm)
  obtain ⟨m', hm', hId', hChannel, hOrdered⟩ := h.origin r hr hNotNil
  obtain rfl := h.eq_of_id hm' hm (hId'.trans hId)
  exact ⟨hChannel.symm, hOrdered.symm⟩

theorem Recorded.history_nodup (ch : Channel) : (x.history ch).Nodup := by
  have hPerm : (x.history ch).Perm ((x.inserted.flatten.filter
      (·.partitionKey = (ch.name, ch.args, true))).map MqNew.id) := by
    rw [List.filter_flatten, List.map_flatten, List.map_map, ← List.flatMap_def]
    exact List.Perm.flatMap_left _ fun batch _ => (windowPartition_perm batch _).map MqNew.id
  exact hPerm.nodup_iff.mpr (h.used.sublist (List.filter_sublist.map _))

/-- A poll only returns the head of a channel, among its ordered messages. -/
theorem Recorded.polled_head [JsonbCast] {op : Op} {s' : Store} {reply : Reply}
    (hExec : exec op x.store = .ok (s', reply)) {m : PolledMessage} (hm : m ∈ reply.polled)
    {b : MqNew} (hReturned : m.id = some b.id) (hb : b ∈ x.inserted.flatten)
    (hOrdered : b.ordered = true) : (x.store.fifo b.channel).head? = some b.id := by
  obtain ⟨choice, now, channelNames, batchSize, -, hPoll⟩ := exec_polled hExec hm
  obtain ⟨r, hr, hId, hReady, -⟩ := mqPoll_polled hPoll hm hReturned
  obtain ⟨hChannel, hSome⟩ := h.row_of_inserted hb hr hId
  rw [hOrdered] at hSome
  have hHead : r.afterMessageId = some uuidNil := by
    rcases mqUuidExists_eq_false_iff.mp hReady.first with hNone | hNil
    · simp [hNone] at hSome
    · exact hNil
  rw [← hChannel, ← hId]
  exact (h.integrity.chained.head_iff hr).mp hHead

/-- Where messages that were delivered leave a channel, they leave no gap:
each is the head of its channel as long as it is stored. -/
theorem Recorded.deletable_of_delivered {msgIds : List Uuid}
    (hDelivered : ∀ id ∈ msgIds, id ∈ x.delivered) : x.store.queues.Deletable msgIds := by
  intro ch a b c hTriple ha _
  have hPair : [a, b].Sublist (x.store.fifo ch) :=
    (List.sublist_append_left [a, b] [c]).trans hTriple
  rw [decide_eq_false_iff_not] at ha ⊢
  intro hb
  obtain ⟨r, hr, rfl, rfl, p, hAfter⟩ := h.integrity.chained.mem_fifo_iff.mp
    (hPair.subset (by simp : b ∈ [a, b]))
  have hFirst := (h.delivered r.id (hDelivered r.id hb)).2.2 r hr rfl
  have hHead : r.afterMessageId = some uuidNil := by
    rcases mqUuidExists_eq_false_iff.mp hFirst with hNone | hNil
    · simp [hNone] at hAfter
    · exact hNil
  obtain ⟨rest, hFifo⟩ := List.head?_eq_some_iff.mp ((h.integrity.chained.head_iff hr).mp hHead)
  have hNodup := (List.nodup_cons.mp (h.integrity.chained r.channel).nodup).2
  rw [hFifo] at hPair hNodup
  cases hPair with
  | cons _ hRest => exact (List.nodup_cons.mp hNodup).1 (hRest.subset (by simp))
  | cons_cons _ _ => exact ha hb

theorem Recorded.mqDelete_succeeds {msgIds : List Uuid}
    (hDelivered : ∀ id ∈ msgIds, id ∈ x.delivered) :
    ∃ s' notifications, mqDelete msgIds x.store = .ok (s', notifications) := by
  have hNil : uuidNil ∉ msgIds := fun hIn => (h.delivered _ (hDelivered _ hIn)).1 rfl
  rcases h.integrity.mqDelete_cases hNil with ⟨-, hDelete⟩ | ⟨hGap, -⟩
  · exact hDelete
  · exact absurd (h.deletable_of_delivered hDelivered) hGap

end InOrder

/-- The row of `r` follows the nil row, and it did not before. -/
def Promoted (s : Store) (r : MqMsg) : Prop :=
  r.afterMessageId = some uuidNil ∧ ∃ old ∈ s.msgs, old.id = r.id ∧
    old.afterMessageId ≠ some uuidNil

/-- Messages are removed only once they have been delivered, or with their
whole channel. -/
def FinishesDelivered (x : Session) : Op → Prop
  | .delete msgIds => ∀ id ∈ msgIds, id ∈ x.delivered
  | op => x.Fresh op

theorem FinishesDelivered.sparesNil {x : Session} {op : Op} (h : x.FinishesDelivered op)
    (hNil : uuidNil ∉ x.delivered) : x.Fresh op ∧ op.sparesNil := by
  cases op with
  | delete msgIds => exact ⟨trivial, fun hIn => hNil (h _ hIn)⟩
  | _ => exact ⟨h, trivial⟩

/-- The history lists ordered messages of a channel as they were inserted. -/
theorem sublist_history_of_precedes {x : Session} {a b : MqNew} (h : Precedes x.inserted a b)
    (ha : a.ordered = true) (hb : b.ordered = true) (hChannel : a.channel = b.channel) :
    [a.id, b.id].Sublist (x.history b.channel) := by
  have haIn {batch : List MqNew} (hIn : a ∈ batch) : a.id ∈ orderedIds batch b.channel :=
    mem_orderedIds.mpr ⟨a, hIn, hChannel, ha, rfl⟩
  have hbIn {batch : List MqNew} (hIn : b ∈ batch) : b.id ∈ orderedIds batch b.channel :=
    mem_orderedIds.mpr ⟨b, hIn, rfl, hb, rfl⟩
  rcases h with ⟨earlier, later, hBatches, haEarlier, hbLater⟩ | ⟨batch, hBatch, haB, hbB, hlt⟩
  · refine List.Sublist.trans ?_ (hBatches.flatMap (orderedIds · b.channel))
    simp only [List.flatMap_cons, List.flatMap_nil, List.append_nil]
    exact (List.singleton_sublist.mpr (haIn haEarlier)).append
      (List.singleton_sublist.mpr (hbIn hbLater))
  · refine List.Sublist.trans ?_
      ((List.singleton_sublist.mpr hBatch).flatMap (orderedIds · b.channel))
    simp only [List.flatMap_cons, List.flatMap_nil, List.append_nil]
    have hSorted : (orderedIds batch b.channel).Pairwise (· ≤ ·) := by
      rw [orderedIds_eq_insertionSort]
      exact List.pairwise_insertionSort _ _
    exact pair_sublist_of_lt hSorted (haIn haB) (hbIn hbB) hlt

section Runs

variable [JsonbCast]

theorem recorded_of_run {allowed : Session → Op → Prop} {migratedAt : Timestamp} {ops : List Op}
    {x : Session} (run : Run (Step allowed) (start migratedAt) ops x)
    (hAllowed : ∀ x op, uuidNil ∉ x.delivered → allowed x op → x.Fresh op ∧ op.sparesNil) :
    Recorded x := by
  apply run_invariant run (recorded_start migratedAt)
  intro x op s' reply h hOp hExec
  obtain ⟨hFresh, hNil⟩ := hAllowed x op (fun hNil => (h.delivered _ hNil).1 rfl) hOp
  exact h.step hFresh hNil hExec

/-- Strict in-order delivery: no poll returns an ordered message while an
earlier one of its channel is stored, and so none returns two of one channel. -/
theorem polled_in_order {migratedAt : Timestamp} {ops : List Op} {x : Session}
    (run : Run (Step fun x op => x.Fresh op ∧ op.sparesNil) (start migratedAt) ops x)
    {choice : PollChoice} {now : Timestamp} {channelNames : Option (List String)}
    {batchSize : Int4} {s' : Store} {reply : Reply}
    (hPoll : exec (.poll choice now channelNames batchSize) x.store = .ok (s', reply)) :
    (∀ a b : MqNew, Precedes x.inserted a b → a.ordered = true → b.ordered = true →
      a.channel = b.channel → some b.id ∈ reply.polled.map PolledMessage.id →
        x.store.row a.id = none) ∧
    ∀ a ∈ x.inserted.flatten, ∀ b ∈ x.inserted.flatten, a.ordered = true → b.ordered = true →
      a.channel = b.channel → some a.id ∈ reply.polled.map PolledMessage.id →
        some b.id ∈ reply.polled.map PolledMessage.id → a = b := by
  have h : Recorded x := recorded_of_run run fun _ _ _ hOp => hOp
  have hHead {b : MqNew} (hb : b ∈ x.inserted.flatten) (hOrdered : b.ordered = true)
      (hReturned : some b.id ∈ reply.polled.map PolledMessage.id) :
      (x.store.fifo b.channel).head? = some b.id := by
    obtain ⟨m, hm, hId⟩ := List.mem_map.mp hReturned
    exact h.polled_head hPoll hm hId hb hOrdered
  constructor
  · intro a b hPrecedes ha hb hChannel hReturned
    obtain ⟨haIn, hbIn⟩ := hPrecedes.mem
    have hOrder := sublist_history_of_precedes hPrecedes ha hb hChannel
    rw [Store.row_eq_none_iff]
    intro hStored
    obtain ⟨r, hr, hId⟩ := List.mem_map.mp hStored
    obtain ⟨hrChannel, hSome⟩ := h.row_of_inserted haIn hr hId
    have haFifo : a.id ∈ x.store.fifo b.channel := by
      rw [h.integrity.chained.mem_fifo_iff]
      rw [ha] at hSome
      exact ⟨r, hr, hrChannel.trans hChannel, hId, Option.isSome_iff_exists.mp hSome⟩
    -- a stored predecessor would stand behind the polled head
    obtain ⟨rest, hFifo⟩ := List.head?_eq_some_iff.mp (hHead hbIn hb hReturned)
    rw [hFifo, List.mem_cons] at haFifo
    have hNodup := h.history_nodup b.channel
    rcases haFifo with hSame | hBehind
    · have hPair := hNodup.sublist hOrder
      simp [hSame] at hPair
    · have hSwapped : [b.id, a.id].Sublist (x.store.fifo b.channel) := by
        rw [hFifo]
        exact (List.singleton_sublist.mpr hBehind).cons_cons b.id
      exact not_sublist_swap hNodup hOrder (hSwapped.trans (h.order b.channel))
  · intro a ha b hb haOrdered hbOrdered hChannel haReturned hbReturned
    have haHead := hHead ha haOrdered haReturned
    rw [hChannel, hHead hb hbOrdered hbReturned] at haHead
    exact h.eq_of_id ha hb (Option.some.inj haHead).symm

/-- Finishing any messages that polls have returned never violates a
constraint, whether they are still stored or not. -/
theorem finishing_succeeds {migratedAt : Timestamp} {ops : List Op} {x : Session}
    (run : Run (Step FinishesDelivered) (start migratedAt) ops x) {msgIds : List Uuid}
    (hDelivered : ∀ id ∈ msgIds, id ∈ x.delivered) :
    ∃ s' notifications, mqDelete msgIds x.store = .ok (s', notifications) ∧
      ∀ r₁ ∈ s'.msgs, ∀ r₂ ∈ s'.msgs, r₁.channel = r₂.channel →
        Promoted x.store r₁ → Promoted x.store r₂ → r₁ = r₂ := by
  have h : Recorded x := recorded_of_run run fun _ _ hNil hOp => hOp.sparesNil hNil
  obtain ⟨s', notifications, hDelete⟩ := h.mqDelete_succeeds hDelivered
  refine ⟨s', notifications, hDelete, ?_⟩
  rintro r₁ hr₁ r₂ hr₂ hChannel ⟨hFirst₁, -⟩ ⟨hFirst₂, -⟩
  have hKey : r₂.orderKey = r₁.orderKey := by
    rw [MqMsg.channel, MqMsg.channel, Channel.mk.injEq] at hChannel
    simp [MqMsg.orderKey, hFirst₁, hFirst₂, hChannel]
  have hOrdered : r₁.orderKey = some (r₁.channelName, r₁.channelArgs, uuidNil) := by
    simp [MqMsg.orderKey, hFirst₁]
  exact s'.afterIdx.eq_of_key hr₁ hr₂ hOrdered (hKey.trans hOrdered)

end Runs

theorem polled_in_order_of_two :
    let batch := [JobBuilder.orderedMessage 2 "second", JobBuilder.orderedMessage 1 "first"]
    let x := @call .nullOnly (.insert 0 batch) (start 0)
    ∃ s' reply, @exec .nullOnly (.poll .physical 0 none ⟨5, by decide, by decide⟩) x.store =
        .ok (s', reply) ∧
      reply.polled.map PolledMessage.id = [some 1] ∧
      ∀ a b : MqNew, Precedes x.inserted a b → a.ordered = true → b.ordered = true →
        a.channel = b.channel → some b.id ∈ reply.polled.map PolledMessage.id →
          x.store.row a.id = none := by
  intro batch x
  have run : Run (@Step .nullOnly fun x op => x.Fresh op ∧ op.sparesNil) (start 0)
      [.insert 0 batch] x :=
    .cons ⟨⟨fun _ _ => by simp [start, usedIds], trivial⟩, rfl⟩ .refl
  have hIds : (@exec .nullOnly (.poll .physical 0 none ⟨5, by decide, by decide⟩) x.store).map
      (fun result => result.2.polled.map PolledMessage.id) = .ok [some 1] := by decide +kernel
  obtain ⟨⟨s', reply⟩, hPoll, hReturned⟩ := exists_of_map_eq_ok hIds
  exact ⟨s', reply, hPoll, hReturned, (@polled_in_order .nullOnly _ _ _ run _ _ _ _ _ _ hPoll).1⟩

theorem finishing_succeeds_after_poll :
    let batch := [JobBuilder.orderedMessage 2 "second", JobBuilder.orderedMessage 1 "first"]
    let x := @call .nullOnly (.poll .physical 0 none ⟨5, by decide, by decide⟩)
      (@call .nullOnly (.insert 0 batch) (start 0))
    ∃ s' notifications, mqDelete [1] x.store = .ok (s', notifications) ∧
      ∀ r₁ ∈ s'.msgs, ∀ r₂ ∈ s'.msgs, r₁.channel = r₂.channel →
        Promoted x.store r₁ → Promoted x.store r₂ → r₁ = r₂ := by
  intro batch x
  have run : Run (@Step .nullOnly FinishesDelivered) (start 0)
      [.insert 0 batch, .poll .physical 0 none ⟨5, by decide, by decide⟩] x :=
    .cons ⟨fun _ _ => by simp [start, usedIds], rfl⟩ (.cons ⟨trivial, rfl⟩ .refl)
  have hDelivered : x.delivered = [1] := by decide +kernel
  exact @finishing_succeeds .nullOnly _ _ _ run [1] (by simp [hDelivered])

end Session

end Sqlxmq
