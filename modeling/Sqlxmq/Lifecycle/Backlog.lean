import Sqlxmq.Lifecycle.WorkConserving

/-! Runners share what is ready. While nothing else becomes due and no lease
runs out, polls take from the backlog what they ask for, each message once,
until nothing is left. -/
namespace Sqlxmq

open KeyedTable SqlNull LabelledRun

/-- No message becomes ready, or stops to be, between the two times. -/
def Steady (t u : Timestamp) (channelNames : Option (List String)) (s : Store) : Prop :=
  ∀ r ∈ s.msgs, ∀ now, t ≤ now → now < u → (Ready now channelNames r ↔ Ready t channelNames r)

/-- A backlog that polls can work off until `u`. Whatever they return is not
due again before. -/
structure Backlog (t u : Timestamp) (channelNames : Option (List String)) (s : Store) : Prop where
  steady : Steady t u channelNames s
  leased : ∀ r ∈ readyMsgs t channelNames s, u ≤ t + r.retryBackoff
  pollable : ∀ r ∈ readyMsgs t channelNames s, ∀ now, t ≤ now → now < u → Pollable now r

section Poll

variable {t u now : Timestamp} {channelNames : Option (List String)} {batchSize : Int4}
  {choice : PollChoice} {s s' : Store} {polled : List PolledMessage}

theorem Steady.readyMsgs_eq (h : Steady t u channelNames s) (hFrom : t ≤ now) (hTo : now < u) :
    readyMsgs now channelNames s = readyMsgs t channelNames s :=
  List.filter_congr fun r hr => decide_eq_decide.mpr (h r hr now hFrom hTo)

theorem steady_of_deadlines (h : ∀ r ∈ s.msgs, ∀ a, r.attemptAt = some a → a ≤ t ∨ u ≤ a) :
    Steady t u channelNames s := by
  intro r hr now hFrom hTo
  constructor
  · intro hReady
    obtain ⟨a, ha, hDue⟩ := isLe_iff.mp hReady.due
    have hBefore : a ≤ t := (h r hr a ha).resolve_right (not_le.mpr (hDue.trans_lt hTo))
    exact ⟨hReady.notNil, isLe_iff.mpr ⟨a, ha, hBefore⟩, hReady.first, hReady.selected⟩
  · intro hReady
    obtain ⟨a, ha, hDue⟩ := isLe_iff.mp hReady.due
    exact ⟨hReady.notNil, isLe_iff.mpr ⟨a, ha, hDue.trans hFrom⟩, hReady.first, hReady.selected⟩

/-- A row that was handed out is not ready again before its lease ends. -/
theorem not_ready_of_pollRow {r r' : MqMsg} (hRow : pollRow now r = .ok r')
    (hLease : u ≤ now + r.retryBackoff) {later : Timestamp} (hLater : later < u) :
    ¬ Ready later channelNames r' := by
  intro hReady
  obtain ⟨deadline, hAt, hDue⟩ := isLe_iff.mp hReady.due
  rw [(pollRow_eq_ok hRow).2] at hAt
  dsimp only at hAt
  split at hAt
  · cases hAt
  · obtain rfl := Option.some.inj hAt
    exact absurd (hLease.trans hDue) (not_le.mpr hLater)

section Update

variable {ids : List Uuid} {rows : List PolledMessage} (h : Backlog t u channelNames s)
  (hFrom : t ≤ now) (hReady : ∀ id ∈ ids, ∃ r ∈ readyMsgs t channelNames s, r.id = id)
  (hUpdate : pollUpdate s now ids s = .ok (s', rows))
include h hFrom hReady hUpdate

/-- The rows that a poll updates were ready, and are not when it is done. -/
theorem Backlog.selected {r : MqMsg} (hr : r ∈ s.msgs) (hSelects : pollSelects now ids r = true) :
    Ready t channelNames r ∧
      ∀ later < u, ¬ Ready later channelNames (updated (pollSelects now ids) (pollRow now) r) := by
  have hIn : r.id ∈ ids := by
    simp only [pollSelects, decide_eq_true_eq] at hSelects
    exact hSelects.1
  obtain ⟨r₀, hr₀, hId⟩ := hReady r.id hIn
  obtain rfl := List.inj_on_of_nodup_map s.msgsPkey (mem_readyMsgs.mp hr₀).1 hr hId
  have hLease : u ≤ now + r₀.retryBackoff := (h.leased r₀ hr₀).trans (Int.add_le_add_right hFrom _)
  exact ⟨(mem_readyMsgs.mp hr₀).2, fun later hLater =>
    not_ready_of_pollRow ((pollUpdate_eq_ok hUpdate).2.2.1 r₀ hr hSelects) hLease hLater⟩

theorem Backlog.steady_pollUpdate : Steady t u channelNames s' := by
  intro r' hr' later hLaterFrom hLater
  rw [(pollUpdate_eq_ok hUpdate).1] at hr'
  obtain ⟨r, hr, rfl⟩ := List.mem_map.mp hr'
  cases hSelects : pollSelects now ids r with
  | false =>
      rw [updated, hSelects]
      exact h.steady r hr later hLaterFrom hLater
  | true =>
      have hNot := (h.selected hFrom hReady hUpdate hr hSelects).2
      exact iff_of_false (hNot later hLater) (hNot t (hLaterFrom.trans_lt hLater))

/-- What is ready after the update is what was ready and not selected. -/
theorem Backlog.readyMsgs_pollUpdate (hSome : t < u) : readyMsgs t channelNames s' =
    (readyMsgs t channelNames s).filter fun r => !pollSelects now ids r := by
  have hSame : ∀ r ∈ s.msgs,
      decide (Ready t channelNames (updated (pollSelects now ids) (pollRow now) r)) =
        (!pollSelects now ids r && decide (Ready t channelNames r)) := by
    intro r hr
    cases hSelects : pollSelects now ids r with
    | false => simp [updated, hSelects]
    | true => simp [(h.selected hFrom hReady hUpdate hr hSelects).2 t hSome]
  rw [readyMsgs, readyMsgs, (pollUpdate_eq_ok hUpdate).1, List.filter_map, List.filter_filter,
    ← List.filter_congr hSame]
  refine (List.map_congr_left fun r hr => ?_).trans (List.map_id _)
  obtain ⟨hrIn, hReadyAfter⟩ := List.mem_filter.mp hr
  have hNot := (hSame r hrIn).symm.trans hReadyAfter
  rw [Bool.and_eq_true, Bool.not_eq_true'] at hNot
  simp [updated, hNot.1]

end Update

theorem filterMap_id_pollUpdate {snapshot : Store} {ids : List Uuid} {rows : List PolledMessage}
    (hUpdate : pollUpdate snapshot now ids s = .ok (s', rows)) :
    rows.filterMap PolledMessage.id = (s.msgs.filter (pollSelects now ids)).map MqMsg.id := by
  rw [(pollUpdate_eq_ok hUpdate).2.2.2, List.filterMap_map, ← List.filterMap_eq_map]
  refine List.filterMap_congr fun r _ => ?_
  simp [returning, (updated_sameIdentity pollRow_sameIdentity _ r).id]

/-- The wait row is no message. -/
theorem filterMap_id_mqPoll {rows : List PolledMessage} :
    (if rows = [] then [waitRow now channelNames s'] else rows).filterMap PolledMessage.id =
      rows.filterMap PolledMessage.id := by
  split
  · rename_i hNone
    simp [hNone, waitRow]
  · rfl

/-- What one poll takes from a backlog. -/
structure Takes (t : Timestamp) (channelNames : Option (List String)) (n : Nat) (s s' : Store)
    (ids : List Uuid) : Prop where
  distinct : ids.Nodup
  count : ids.length = min n (readyMsgs t channelNames s).length
  ready : ∀ id ∈ ids, id ∈ (readyMsgs t channelNames s).map MqMsg.id
  left : readyMsgs t channelNames s' = (readyMsgs t channelNames s).filter (·.id ∉ ids)

namespace Takes

variable {n m : Nat} {s'' : Store} {ids more : List Uuid}

theorem refl (t : Timestamp) (channelNames : Option (List String)) (s : Store) :
    Takes t channelNames 0 s s [] :=
  ⟨List.nodup_nil, by simp, by simp, by simp⟩

theorem length_left (h : Takes t channelNames n s s' ids) :
    (readyMsgs t channelNames s').length + ids.length = (readyMsgs t channelNames s).length := by
  have hDistinct : (((readyMsgs t channelNames s).filter (·.id ∈ ids)).map MqMsg.id).Nodup :=
    s.msgsPkey.sublist ((List.filter_sublist.trans List.filter_sublist).map _)
  have hTaken : (((readyMsgs t channelNames s).filter (·.id ∈ ids)).map MqMsg.id).Perm ids := by
    rw [List.perm_ext_iff_of_nodup hDistinct h.distinct]
    intro id
    constructor
    · intro hIn
      obtain ⟨r, hr, rfl⟩ := List.mem_map.mp hIn
      simpa using (List.mem_filter.mp hr).2
    · intro hIn
      obtain ⟨r, hr, rfl⟩ := List.mem_map.mp (h.ready id hIn)
      exact List.mem_map_of_mem (List.mem_filter.mpr ⟨hr, by simpa using hIn⟩)
  have hSplit := List.length_eq_length_filter_add (l := readyMsgs t channelNames s) (·.id ∈ ids)
  have hLength := hTaken.length_eq
  rw [List.length_map] at hLength
  simp only [h.left, decide_not]
  omega

/-- Two takes in a row are one. -/
theorem trans (h : Takes t channelNames n s s' ids) (hMore : Takes t channelNames m s' s'' more) :
    Takes t channelNames (n + m) s s'' (ids ++ more) where
  distinct := by
    refine List.nodup_append.mpr ⟨h.distinct, hMore.distinct, ?_⟩
    rintro id hId _ hAgain rfl
    obtain ⟨r, hr, rfl⟩ := List.mem_map.mp (hMore.ready id hAgain)
    rw [h.left] at hr
    simpa [hId] using (List.mem_filter.mp hr).2
  count := by
    have hFirst := h.count
    have hSecond := hMore.count
    have hLeft := h.length_left
    rw [List.length_append]
    omega
  ready := by
    intro id hIn
    rcases List.mem_append.mp hIn with hFirst | hSecond
    · exact h.ready id hFirst
    · obtain ⟨r, hr, rfl⟩ := List.mem_map.mp (hMore.ready id hSecond)
      rw [h.left] at hr
      exact List.mem_map_of_mem (List.mem_filter.mp hr).1
  left := by
    rw [hMore.left, h.left, List.filter_filter]
    refine List.filter_congr fun r _ => ?_
    rw [← Bool.decide_and, decide_eq_decide, List.mem_append, not_or, and_comm]

end Takes

theorem Backlog.poll (h : Backlog t u channelNames s) (hFrom : t ≤ now) (hTo : now < u)
    (hBatch : 1 ≤ batchSize.val)
    (hPoll : mqPoll choice now channelNames batchSize s = .ok (s', polled)) :
    Takes t channelNames batchSize.val.toNat s s' (polled.filterMap PolledMessage.id) ∧
      Backlog t u channelNames s' := by
  have hSame := h.steady.readyMsgs_eq hFrom hTo
  obtain ⟨ids, rows, hIds, hUpdate, rfl⟩ := mqPoll_eq_ok hPoll
  obtain ⟨ids', hIds', hNodup, hSpec, hLength⟩ := messagesToUpdate_spec choice now channelNames s
    (Int.le_of_lt hBatch)
  obtain rfl := Except.ok.inj (hIds'.symm.trans hIds)
  have hReadyNow : ∀ id ∈ ids', ∃ r ∈ readyMsgs now channelNames s, r.id = id :=
    fun id hId => (hSpec id hId).imp fun r hr => ⟨hr.1, hr.2.1⟩
  have hReady : ∀ id ∈ ids', ∃ r ∈ readyMsgs t channelNames s, r.id = id := hSame ▸ hReadyNow
  have hLeft : readyMsgs t channelNames s' = (readyMsgs t channelNames s).filter
      (·.id ∉ (s.msgs.filter (pollSelects now ids')).map MqMsg.id) := by
    rw [h.readyMsgs_pollUpdate hFrom hReady hUpdate (hFrom.trans_lt hTo)]
    refine List.filter_congr fun r hr => ?_
    have hMem := Store.mem_selectedIds (p := pollSelects now ids') (mem_readyMsgs.mp hr).1
    rw [Store.selectedIds] at hMem
    cases hSelects : pollSelects now ids' r <;> simp [hMem, hSelects]
  rw [filterMap_id_mqPoll, filterMap_id_pollUpdate hUpdate]
  refine ⟨⟨s.msgsPkey.sublist (List.filter_sublist.map _), ?_, ?_, hLeft⟩,
    h.steady_pollUpdate hFrom hReady hUpdate, ?_, ?_⟩
  · rw [(pollSelects_perm hNodup hReadyNow).length_eq, hLength, hSame]
  · intro id hIn
    obtain ⟨r, hr, rfl⟩ := List.mem_map.mp hIn
    obtain ⟨hrIn, hSelects⟩ := List.mem_filter.mp hr
    have hWasReady := (h.selected hFrom hReady hUpdate hrIn hSelects).1
    exact List.mem_map_of_mem (mem_readyMsgs.mpr ⟨hrIn, hWasReady⟩)
  · exact fun r hr => h.leased r (List.mem_filter.mp (hLeft ▸ hr)).1
  · exact fun r hr => h.pollable r (List.mem_filter.mp (hLeft ▸ hr)).1

theorem Backlog.poll_succeeds (h : Backlog t u channelNames s) (hFrom : t ≤ now) (hTo : now < u)
    (hBatch : 1 ≤ batchSize.val) (choice : PollChoice) :
    ∃ s' polled, mqPoll choice now channelNames batchSize s = .ok (s', polled) := by
  refine mqPoll_total choice (Int.le_of_lt hBatch) fun r hr hBlocks => ?_
  rw [h.steady.readyMsgs_eq hFrom hTo] at hr
  exact absurd (h.pollable r hr now hFrom hTo) hBlocks

end Poll

section Runs

variable {t u : Timestamp} {channelNames : Option (List String)}

/-- A poll of the backlog, by any of its runners. -/
def PollsBacklog (t u : Timestamp) (channelNames : Option (List String)) : Op → Prop
  | .poll _ now names batchSize =>
      names = channelNames ∧ t ≤ now ∧ now < u ∧ 1 ≤ batchSize.val
  | _ => False

def Op.batchSize : Op → Nat
  | .poll _ _ _ batchSize => batchSize.val.toNat
  | _ => 0

/-- Runners share a backlog. However many of them poll, in any order and with
any batch sizes, together they get as many messages as they ask for or as there
are, each once, and no poll fails. -/
theorem polls_share_backlog [JsonbCast] {x y : Session} {ops : List Op}
    (h : Backlog t u channelNames x.store)
    (run : Run (Session.Step fun _ op => PollsBacklog t u channelNames op) x ops y) :
    ∃ ids, y.delivered = x.delivered ++ ids ∧
      Takes t channelNames (ops.map Op.batchSize).sum x.store y.store ids ∧
      y.replies.length = x.replies.length + ops.length := by
  have hRun : ∃ ids, y.delivered = x.delivered ++ ids ∧
      Takes t channelNames (ops.map Op.batchSize).sum x.store y.store ids ∧
      y.replies.length = x.replies.length + ops.length ∧ Backlog t u channelNames y.store := by
    induction run with
    | refl => exact ⟨[], by simp, Takes.refl _ _ _, rfl, h⟩
    | @snoc ops y z op prior last ih =>
        obtain ⟨ids, hDelivered, hTakes, hReplies, hBacklog⟩ := ih
        obtain ⟨hPolls, rfl⟩ := last
        cases op with
        | poll choice now names batchSize =>
            obtain ⟨rfl, hFrom, hTo, hBatch⟩ := hPolls
            obtain ⟨s', polled, hPoll⟩ := hBacklog.poll_succeeds hFrom hTo hBatch choice
            obtain ⟨hMore, hLeft⟩ := hBacklog.poll hFrom hTo hBatch hPoll
            have hLonger : Session.delivered ⟨s', y.inserted ++ [], y.replies ++ [⟨[], polled⟩]⟩ =
                y.delivered ++ polled.filterMap PolledMessage.id := by simp [Session.delivered]
            rw [Session.call_eq (exec_poll hPoll)]
            refine ⟨ids ++ polled.filterMap PolledMessage.id, ?_, ?_, ?_, hLeft⟩
            · rw [← List.append_assoc, ← hDelivered]
              exact hLonger
            · simpa [Op.batchSize] using hTakes.trans hMore
            · simp [hReplies, Nat.add_assoc]
        | _ => exact hPolls.elim
  obtain ⟨ids, hDelivered, hTakes, hReplies, -⟩ := hRun
  exact ⟨ids, hDelivered, hTakes, hReplies⟩

end Runs

/-- Two runners and three jobs. The first asks for one, the second for five. -/
theorem polls_share_backlog_of_three :
    let _ : JsonbCast := .nullOnly
    let job (id : Uuid) : MqNew := (JobBuilder.newWithId id "job").message
    let x := Session.call (.insert 0 [job 1, job 2, job 3]) (.start 0)
    let poll (now : Timestamp) (n : Int4) : Op := .poll .physical now none n
    let y := Session.call (poll 1 (.ofBits 5)) (Session.call (poll 0 (.ofBits 1)) x)
    ∃ ids, y.delivered = ids ∧ ids.Nodup ∧ ids.length = 3 ∧ readyMsgs 0 none y.store = [] := by
  intro _ job x poll y
  have hDeadlines : ∀ r ∈ x.store.msgs, r.attemptAt = some 0 := by decide +kernel
  have hPollable : ∀ r ∈ x.store.msgs, Pollable 0 r ∧ Pollable second r := by decide +kernel
  have hBacklog : Backlog 0 second none x.store := by
    refine ⟨steady_of_deadlines fun r hr a ha => Or.inl ?_, by decide +kernel, ?_⟩
    · rw [hDeadlines r hr] at ha
      exact (Option.some.inj ha).ge
    · intro r hr now hFrom hTo
      obtain ⟨hEarly, hLate⟩ := hPollable r (mem_readyMsgs.mp hr).1
      exact hEarly.between hLate hFrom hTo.le
  have run : Run (Session.Step fun _ op => PollsBacklog 0 second none op) x
      [poll 0 (.ofBits 1), poll 1 (.ofBits 5)] y :=
    .cons ⟨⟨rfl, by decide, by decide, by decide⟩, rfl⟩
      (.cons ⟨⟨rfl, by decide, by decide, by decide⟩, rfl⟩ .refl)
  obtain ⟨ids, hDelivered, hTakes, -⟩ := polls_share_backlog hBacklog run
  have hReady : (readyMsgs 0 none x.store).length = 3 := by decide +kernel
  have hCount := hTakes.count
  have hAsked : ([poll 0 (.ofBits 1), poll 1 (.ofBits 5)].map Op.batchSize).sum = 6 := by decide
  rw [hReady, hAsked] at hCount
  refine ⟨ids, hDelivered, hTakes.distinct, hCount, ?_⟩
  have hLeft := hTakes.length_left
  rw [← List.length_eq_zero_iff]
  omega

end Sqlxmq
