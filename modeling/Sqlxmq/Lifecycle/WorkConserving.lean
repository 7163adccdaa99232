import Mathlib.Order.Bounds.Basic
import Sqlxmq.Crate.Api
import Sqlxmq.Library.NestedLimit

/-! What a poll finds. It takes channels at random and some messages of each,
and the limits on both must not cost a runner any work: a batch is as full as
the ready messages allow, and the wait for the next one is exact. -/
namespace Sqlxmq

open KeyedTable SqlNull LabelledRun NestedLimit

instance Ready.decidable (now : Timestamp) (channelNames : Option (List String)) (r : MqMsg) :
    Decidable (Ready now channelNames r) :=
  decidable_of_iff (r.id ≠ uuidNil ∧ isLe r.attemptAt now = true ∧
      mqUuidExists r.afterMessageId = false ∧ channelSelected channelNames r.channelName = true)
    ⟨fun h => ⟨h.1, h.2.1, h.2.2.1, h.2.2.2⟩, fun h => ⟨h.notNil, h.due, h.first, h.selected⟩⟩

def readyMsgs (now : Timestamp) (channelNames : Option (List String)) (s : Store) : List MqMsg :=
  s.msgs.filter fun r => Ready now channelNames r

@[simp] theorem mem_readyMsgs {now : Timestamp} {channelNames : Option (List String)} {s : Store}
    {r : MqMsg} : r ∈ readyMsgs now channelNames s ↔ r ∈ s.msgs ∧ Ready now channelNames r := by
  simp [readyMsgs]

/-- What a poll makes of ready messages: as many as fit into the batch, each
returned once and updated, and nothing else is. -/
structure FullBatch (now : Timestamp) (channelNames : Option (List String)) (batchSize : Int4)
    (s s' : Store) (polled : List PolledMessage) : Prop where
  count : polled.length = min batchSize.val.toNat (readyMsgs now channelNames s).length
  distinct : (polled.map PolledMessage.id).Nodup
  ready : ∀ m ∈ polled, ∃ r ∈ readyMsgs now channelNames s, m.id = some r.id
  rows : ∀ id,
    (∃ r r', s.row id = some r ∧ s'.row id = some r' ∧ Ready now channelNames r ∧
      pollRow now r = .ok r' ∧ returnedFor id polled = [returning s r']) ∨
    (s'.row id = s.row id ∧ returnedFor id polled = [])
  payloads : s'.payloads = s.payloads

/-- How long a poll that found nothing has to wait: forever if there is
nothing to wait for, and else until a poll finds a message, but no longer. -/
def ExactWait (now : Timestamp) (channelNames : Option (List String)) (batchSize : Int4)
    (s : Store) : Option Interval → Prop
  | none => ∀ t, readyMsgs t channelNames s = []
  | some w => 0 < w ∧
      (∀ choice t, t < now + w →
        mqPoll choice t channelNames batchSize s = .ok (s, [waitRow t channelNames s])) ∧
      ∀ choice, ∃ s' polled, mqPoll choice (now + w) channelNames batchSize s = .ok (s', polled) ∧
        ∃ m ∈ polled, m.id.isSome

/-- A poll never leaves a runner without work that it could have. -/
structure WorkConserving (choice : PollChoice) (now : Timestamp)
    (channelNames : Option (List String)) (batchSize : Int4) (s : Store) : Prop where
  busy : readyMsgs now channelNames s ≠ [] → ∃ s' polled,
    mqPoll choice now channelNames batchSize s = .ok (s', polled) ∧
      FullBatch now channelNames batchSize s s' polled
  idle : readyMsgs now channelNames s = [] → ∃ m,
    mqPoll choice now channelNames batchSize s = .ok (s, [m]) ∧ m.id = none ∧
      ExactWait now channelNames batchSize s m.waitTime

/-- A poll can update every ready message, unless the channel of the message
alone fills the batch with earlier ones. -/
def Unblocked (now : Timestamp) (channelNames : Option (List String)) (batchSize : Int4)
    (s : Store) : Prop :=
  ∀ r ∈ readyMsgs now channelNames s, ¬ Pollable now r →
    batchSize.val.toNat ≤ (readyMsgs now channelNames s).countP fun r' =>
      r'.channel = r.channel ∧ ¬ r.attemptsBefore r'

section Candidates

variable {choice : PollChoice} {now : Timestamp} {channelNames : Option (List String)}
  {batchSize : Int4} {s : Store}

/-- The ready messages of every active channel, as one poll orders them. -/
def readyQueues (choice : PollChoice) (now : Timestamp) (channelNames : Option (List String))
    (s : Store) : List (List MqMsg) :=
  (choice.shuffle (groups MqMsg.channel (readyMsgs now channelNames s))).map fun ch =>
    choice.sort ((readyMsgs now channelNames s).filter (·.channel = ch))

theorem readyQueues_perm (choice : PollChoice) (now : Timestamp)
    (channelNames : Option (List String)) (s : Store) :
    (readyQueues choice now channelNames s).flatten.Perm (readyMsgs now channelNames s) := by
  rw [readyQueues, ← List.flatMap_def]
  apply ((choice.shuffle_perm _).flatMap_right _).trans
  apply (List.Perm.flatMap_left _ fun ch _ => choice.sort_perm _).trans
  exact flatMap_groups_perm MqMsg.channel _

theorem readyQueues_ne_nil {queue : List MqMsg}
    (hQueue : queue ∈ readyQueues choice now channelNames s) : queue ≠ [] := by
  obtain ⟨ch, hCh, rfl⟩ := List.mem_map.mp hQueue
  obtain ⟨r, hr, hChannel⟩ := mem_groups.mp ((choice.shuffle_perm _).mem_iff.mp hCh)
  apply List.ne_nil_of_mem (a := r)
  rw [(choice.sort_perm _).mem_iff]
  simp [hr, hChannel]

theorem mqActiveChannels_eq (hBatch : 0 ≤ batchSize.val) :
    mqActiveChannels choice now channelNames batchSize s =
      .ok ((choice.shuffle (groups MqMsg.channel (readyMsgs now channelNames s))).take
        batchSize.val.toNat) := by
  have hRows : (s.msgs.filter fun r => r.id ≠ uuidNil ∧ isLe r.attemptAt now ∧
      channelSelected channelNames r.channelName ∧ !mqUuidExists r.afterMessageId) =
        readyMsgs now channelNames s := by
    apply List.filter_congr
    intro r _
    rw [decide_eq_decide]
    constructor
    · rintro ⟨hNotNil, hDue, hSelected, hFirst⟩
      exact ⟨hNotNil, hDue, by simpa using hFirst, hSelected⟩
    · intro h
      exact ⟨h.notNil, h.due, h.selected, by simp [h.first]⟩
  rw [mqActiveChannels, hRows]
  exact limit_eq_ok_iff.mpr ⟨hBatch, rfl⟩

/-- The lateral subquery sees the ready messages of the channel, although it
does not look at the filter on channel names again. -/
theorem readyMessages_eq (hBatch : 0 ≤ batchSize.val) {ch : Channel}
    (hCh : ch ∈ groups MqMsg.channel (readyMsgs now channelNames s)) :
    readyMessages choice now batchSize s ch =
      .ok (((choice.sort ((readyMsgs now channelNames s).filter (·.channel = ch))).take
        batchSize.val.toNat).map MqMsg.id) := by
  obtain ⟨other, hOther, rfl⟩ := mem_groups.mp hCh
  have hSelected := (mem_readyMsgs.mp hOther).2.selected
  have hRows : (s.msgs.filter fun r => r.id ≠ uuidNil ∧ isLe r.attemptAt now ∧
      r.channelName = other.channel.name ∧ r.channelArgs = other.channel.args ∧
        !mqUuidExists r.afterMessageId) =
      (readyMsgs now channelNames s).filter (·.channel = other.channel) := by
    rw [readyMsgs, List.filter_filter]
    apply List.filter_congr
    intro r _
    rw [← Bool.decide_and, decide_eq_decide]
    constructor
    · rintro ⟨hNotNil, hDue, hName, hArgs, hFirst⟩
      refine ⟨Channel.ext hName hArgs, hNotNil, hDue, by simpa using hFirst, ?_⟩
      rw [hName]
      exact hSelected
    · rintro ⟨hChannel, h⟩
      exact ⟨h.notNil, h.due, congrArg Channel.name hChannel, congrArg Channel.args hChannel,
        by simp [h.first]⟩
  rw [readyMessages, hRows, limit_eq_ok_iff.mpr ⟨hBatch, rfl⟩]
  rfl

theorem messagesToUpdate_eq (hBatch : 0 ≤ batchSize.val) :
    messagesToUpdate choice now channelNames batchSize s =
      .ok ((choice.join ((limitGroups batchSize.val.toNat
        (readyQueues choice now channelNames s)).map MqMsg.id)).take batchSize.val.toNat) := by
  let active := (choice.shuffle (groups MqMsg.channel (readyMsgs now channelNames s))).take
    batchSize.val.toNat
  have hEach : evaluate (readyMessages choice now batchSize s) active =
      .ok (active.map fun ch =>
        ((choice.sort ((readyMsgs now channelNames s).filter (·.channel = ch))).take
          batchSize.val.toNat).map MqMsg.id) := by
    apply evaluate_eq_map
    intro ch hCh
    exact readyMessages_eq hBatch ((choice.shuffle_perm _).mem_iff.mp (List.mem_of_mem_take hCh))
  have hFlatten : (active.map fun ch =>
        ((choice.sort ((readyMsgs now channelNames s).filter (·.channel = ch))).take
          batchSize.val.toNat).map MqMsg.id).flatten =
      (limitGroups batchSize.val.toNat (readyQueues choice now channelNames s)).map MqMsg.id := by
    rw [limitGroups, readyQueues, ← List.map_take, List.map_map, List.map_flatten, List.map_map]
    rfl
  rw [messagesToUpdate, mqActiveChannels_eq hBatch, ← hFlatten]
  change (do
    let msgs ← evaluate (readyMessages choice now batchSize s) active
    limit batchSize (choice.join msgs.flatten)) = _
  rw [hEach]
  exact limit_eq_ok_iff.mpr ⟨hBatch, rfl⟩

/-- The limits on channels and on the messages of each do not make the batch
any smaller. -/
theorem messagesToUpdate_spec (choice : PollChoice) (now : Timestamp)
    (channelNames : Option (List String)) (s : Store) (hBatch : 0 ≤ batchSize.val) :
    ∃ ids, messagesToUpdate choice now channelNames batchSize s = .ok ids ∧ ids.Nodup ∧
      (∀ id ∈ ids, ∃ r ∈ readyMsgs now channelNames s, r.id = id ∧
        r ∈ limitGroups batchSize.val.toNat (readyQueues choice now channelNames s)) ∧
      ids.length = min batchSize.val.toNat (readyMsgs now channelNames s).length := by
  refine ⟨_, messagesToUpdate_eq hBatch, ?_, ?_, ?_⟩
  · have hReady : ((readyMsgs now channelNames s).map MqMsg.id).Nodup :=
      s.msgsPkey.sublist (List.filter_sublist.map _)
    have hQueues := ((readyQueues_perm choice now channelNames s).map MqMsg.id).nodup_iff.mpr hReady
    have hTaken := hQueues.sublist ((limitGroups_sublist batchSize.val.toNat _).map MqMsg.id)
    exact ((choice.join_perm _).nodup_iff.mpr hTaken).sublist (List.take_sublist _ _)
  · intro id hId
    have hIn := (choice.join_perm _).mem_iff.mp (List.mem_of_mem_take hId)
    obtain ⟨r, hr, rfl⟩ := List.mem_map.mp hIn
    exact ⟨r, (readyQueues_perm _ _ _ _).mem_iff.mp ((limitGroups_sublist _ _).mem hr), rfl, hr⟩
  · rw [List.length_take, (choice.join_perm _).length_eq, List.length_map,
      min_length_limitGroups _ fun _ => readyQueues_ne_nil, (readyQueues_perm _ _ _ _).length_eq]

/-- A poll updates all of its candidates. -/
theorem pollSelects_perm {ids : List Uuid} (hIds : ids.Nodup)
    (hReady : ∀ id ∈ ids, ∃ r ∈ readyMsgs now channelNames s, r.id = id) :
    ((s.msgs.filter (pollSelects now ids)).map MqMsg.id).Perm ids := by
  have hDistinct : ((s.msgs.filter (pollSelects now ids)).map MqMsg.id).Nodup :=
    s.msgsPkey.sublist (List.filter_sublist.map _)
  rw [List.perm_ext_iff_of_nodup hDistinct hIds]
  intro id
  constructor
  · intro hId
    obtain ⟨r, hr, rfl⟩ := List.mem_map.mp hId
    have hSelected := (List.mem_filter.mp hr).2
    simp only [pollSelects, decide_eq_true_eq] at hSelected
    exact hSelected.1
  · intro hId
    obtain ⟨r, hr, rfl⟩ := hReady id hId
    rw [mem_readyMsgs] at hr
    refine List.mem_map_of_mem (List.mem_filter.mpr ⟨hr.1, ?_⟩)
    simpa [pollSelects] using ⟨hId, hr.2.due⟩

end Candidates

section Polls

variable {choice : PollChoice} {now : Timestamp} {channelNames : Option (List String)}
  {batchSize : Int4} {s s' : Store}

/-- A poll that finds nothing ready changes nothing. -/
theorem mqPoll_idle (hBatch : 0 ≤ batchSize.val) (hNone : readyMsgs now channelNames s = []) :
    mqPoll choice now channelNames batchSize s = .ok (s, [waitRow now channelNames s]) := by
  obtain ⟨ids, hIds, -, -, hLength⟩ := messagesToUpdate_spec choice now channelNames s hBatch
  obtain rfl : ids = [] := by
    rw [← List.length_eq_zero_iff, hLength, hNone]
    simp
  have hSelects : ∀ r, pollSelects now [] r = false := by
    intro r
    simp [pollSelects]
  have hRows : s.msgs.filter (pollSelects now []) = [] :=
    List.filter_eq_nil_iff.mpr fun r _ => by simp [hSelects r]
  have hUpdated : updated (pollSelects now []) (pollRow now) = id := by
    funext r
    simp [updated, hSelects r]
  obtain ⟨t, hUpdate⟩ := Store.updateMsgs_total (p := pollSelects now []) (f := pollRow now) (s := s)
    pollRow_sameIdentity (by simp [hSelects])
  obtain ⟨hMsgs, hPayloads, -⟩ := Store.updateMsgs_eq_ok hUpdate
  obtain rfl : t = s := by
    refine Store.ext (hMsgs.trans ?_) hPayloads
    rw [hUpdated, List.map_id]
  simp [mqPoll, hIds, pollUpdate, hUpdate, hRows, bind, Except.bind]

/-- Every successful poll hands out a full batch. -/
theorem mqPoll_fullBatch {polled : List PolledMessage} (hBatch : 1 ≤ batchSize.val)
    (hSome : readyMsgs now channelNames s ≠ [])
    (h : mqPoll choice now channelNames batchSize s = .ok (s', polled)) :
    FullBatch now channelNames batchSize s s' polled := by
  obtain ⟨ids, rows, hIds, hUpdate, hPolled⟩ := mqPoll_eq_ok h
  obtain ⟨ids', hIds', hNodup, hReady, hLength⟩ := messagesToUpdate_spec choice now channelNames s
    (Int.le_of_lt hBatch)
  obtain rfl := Except.ok.inj (hIds'.symm.trans hIds)
  obtain ⟨-, hPayloads, -, hRows⟩ := pollUpdate_eq_ok hUpdate
  have hReturned : (rows.map PolledMessage.id).Perm (ids'.map some) := by
    have hPerm := (pollSelects_perm hNodup fun id hId =>
      (hReady id hId).imp fun r hr => ⟨hr.1, hr.2.1⟩).map some
    rw [hRows, List.map_map]
    rw [List.map_map] at hPerm
    refine (List.Perm.of_eq (List.map_congr_left fun r _ => ?_)).trans hPerm
    simp [returning, (updated_sameIdentity pollRow_sameIdentity _ r).id]
  have hCount : rows.length = min batchSize.val.toNat (readyMsgs now channelNames s).length := by
    have hSameLength := hReturned.length_eq
    rwa [List.length_map, List.length_map, hLength] at hSameLength
  have hFound : rows ≠ [] := by
    have hReadyPos := List.length_pos_iff.mpr hSome
    rw [← List.length_pos_iff]
    omega
  rw [if_neg hFound] at hPolled
  subst hPolled
  refine ⟨hCount, ?_, ?_, mqPoll_row h, hPayloads⟩
  · exact hReturned.nodup_iff.mpr (hNodup.map (Option.some_injective _))
  · intro m hm
    obtain ⟨id, hId, hEq⟩ := List.mem_map.mp (hReturned.mem_iff.mp (List.mem_map_of_mem hm))
    obtain ⟨r, hr, rfl, -⟩ := hReady id hId
    exact ⟨r, hr, hEq.symm⟩

/-- A poll can only fail on a message that it cannot update. -/
theorem mqPoll_total (choice : PollChoice) (hBatch : 0 ≤ batchSize.val)
    (h : Unblocked now channelNames batchSize s) :
    ∃ s' polled, mqPoll choice now channelNames batchSize s = .ok (s', polled) := by
  obtain ⟨ids, hIds, -, hReady, -⟩ := messagesToUpdate_spec choice now channelNames s hBatch
  have hRow : ∀ r ∈ s.msgs, pollSelects now ids r = true → ∃ r', pollRow now r = .ok r' := by
    intro r hr hSelected
    simp only [pollSelects, decide_eq_true_eq] at hSelected
    obtain ⟨r₀, hr₀, hId, hQueued⟩ := hReady r.id hSelected.1
    obtain rfl := List.inj_on_of_nodup_map s.msgsPkey (mem_readyMsgs.mp hr₀).1 hr hId
    apply pollRow_total_iff.mpr
    by_contra hBlocks
    obtain ⟨taken, hTaken, hIn⟩ := List.mem_flatten.mp hQueued
    obtain ⟨queue, hQueue, rfl⟩ := List.mem_map.mp hTaken
    obtain ⟨ch, -, rfl⟩ := List.mem_map.mp (List.mem_of_mem_take hQueue)
    have hChannel : r₀.channel = ch := by
      have hFiltered := (choice.sort_perm _).mem_iff.mp (List.mem_of_mem_take hIn)
      simpa using (List.mem_filter.mp hFiltered).2
    -- whatever is within the limit has fewer messages before it
    have hFew := countP_lt_of_mem_take MqMsg.attemptsBefore (choice.sort_sorted _) hIn
      (or_self_iff.mp (MqMsg.attemptsBefore_total r₀ r₀))
    rw [(choice.sort_perm _).countP_eq, List.countP_filter] at hFew
    have hMany := h r₀ hr₀ hBlocks
    simp only [← hChannel, ← Bool.decide_and, and_comm] at hFew hMany
    omega
  obtain ⟨t, hUpdate⟩ := Store.updateMsgs_total pollRow_sameIdentity hRow
  exact ⟨t, _, by rw [mqPoll, hIds]; simp [pollUpdate, hUpdate, bind, Except.bind]; rfl⟩

/-- A database that prefers one message wherever it may choose. -/
def PollChoice.preferring (r : MqMsg) : PollChoice where
  shuffle := moveToFront r.channel
  shuffle_perm := moveToFront_perm _
  sort := fun rows => (moveToFront r rows).insertionSort MqMsg.attemptsBefore
  sort_perm := fun rows => (List.perm_insertionSort _ _).trans (moveToFront_perm r rows)
  sort_sorted := fun rows => PollChoice.physical.sort_sorted (moveToFront r rows)
  join := moveToFront r.id
  join_perm := moveToFront_perm _

/-- A database may choose any ready message that has room in the batch for
all the earlier ones of its channel. -/
theorem preferred_mem (hBatch : 1 ≤ batchSize.val) {r : MqMsg}
    (hReady : r ∈ readyMsgs now channelNames s)
    (hRoom : ((readyMsgs now channelNames s).countP fun r' =>
      r'.channel = r.channel ∧ ¬ r.attemptsBefore r') < batchSize.val.toNat) {ids : List Uuid}
    (hIds : messagesToUpdate (.preferring r) now channelNames batchSize s = .ok ids) :
    r.id ∈ ids := by
  have hPositive : 0 < batchSize.val.toNat := by omega
  obtain rfl := Except.ok.inj ((messagesToUpdate_eq (Int.le_of_lt hBatch)).symm.trans hIds)
  apply mem_take_moveToFront _ hPositive
  apply List.mem_map_of_mem
  rw [limitGroups, readyQueues, ← List.map_take, List.map_map]
  refine List.mem_flatten.mpr ⟨_, List.mem_map_of_mem (a := r.channel) ?_, ?_⟩
  · exact mem_take_moveToFront (mem_groups.mpr ⟨r, hReady, rfl⟩) hPositive
  · apply mem_take_insertionSort
    · simpa using hReady
    · rw [List.countP_filter]
      simpa only [← Bool.decide_and, and_comm] using hRoom

/-- Polls succeed whatever the database chooses exactly when no message
blocks them. -/
theorem mqPoll_total_iff (hBatch : 1 ≤ batchSize.val) :
    (∀ choice, ∃ s' polled, mqPoll choice now channelNames batchSize s = .ok (s', polled)) ↔
      Unblocked now channelNames batchSize s := by
  constructor
  · intro h r hReady hBlocks
    by_contra hRoom
    obtain ⟨s', polled, hPoll⟩ := h (.preferring r)
    obtain ⟨ids, rows, hIds, hUpdate, -⟩ := mqPoll_eq_ok hPoll
    have hChosen := preferred_mem hBatch hReady (not_le.mp hRoom) hIds
    have hIn := mem_readyMsgs.mp hReady
    have hRow := (pollUpdate_eq_ok hUpdate).2.2.1 r hIn.1
      (by simpa [pollSelects] using ⟨hChosen, hIn.2.due⟩)
    exact hBlocks (pollRow_total_iff.mp ⟨_, hRow⟩)
  · intro h choice
    exact mqPoll_total choice (Int.le_of_lt hBatch) h

/-- The longest backoff that a job can ask for, at the first poll. -/
example : (mqPoll .physical 0 none (.ofBits 1) (@Session.call .nullOnly (.insert 0
    [{ JobBuilder.newWithId 1 "job" with retryBackoff := 2 ^ 63 - 1 }.message]) (.start 0)).store).map
      Prod.snd = .error .datetimeFieldOverflow := by decide +kernel

end Polls

section Waiting

variable {now : Timestamp} {channelNames : Option (List String)} {batchSize : Int4} {s : Store}

/-- When the messages that only time holds back are due. -/
def deadlines (channelNames : Option (List String)) (s : Store) : List Timestamp :=
  (s.msgs.filter fun r => r.id ≠ uuidNil ∧ !mqUuidExists r.afterMessageId ∧
    channelSelected channelNames r.channelName).filterMap MqMsg.attemptAt

theorem readyMsgs_ne_nil_iff : readyMsgs now channelNames s ≠ [] ↔
    ∃ deadline ∈ deadlines channelNames s, deadline ≤ now := by
  constructor
  · intro hSome
    obtain ⟨r, hr⟩ := List.exists_mem_of_ne_nil _ hSome
    obtain ⟨hIn, hReady⟩ := mem_readyMsgs.mp hr
    obtain ⟨deadline, hAt, hDue⟩ := isLe_iff.mp hReady.due
    refine ⟨deadline, List.mem_filterMap.mpr ⟨r, List.mem_filter.mpr ⟨hIn, ?_⟩, hAt⟩, hDue⟩
    simp [hReady.notNil, hReady.first, hReady.selected]
  · rintro ⟨deadline, hListed, hDue⟩
    obtain ⟨r, hr, hAt⟩ := List.mem_filterMap.mp hListed
    obtain ⟨hIn, hEligible⟩ := List.mem_filter.mp hr
    simp only [ne_eq, Bool.not_eq_eq_eq_not, Bool.not_true, decide_eq_true_eq] at hEligible
    exact List.ne_nil_of_mem (mem_readyMsgs.mpr ⟨hIn, hEligible.1,
      isLe_iff.mpr ⟨deadline, hAt, hDue⟩, by simpa using hEligible.2.1, hEligible.2.2⟩)

/-- The wait is forever exactly when nothing will be ready. -/
theorem waitTime_eq_none_iff :
    waitTime now channelNames s = none ↔ ∀ t, readyMsgs t channelNames s = [] := by
  have hEmpty : waitTime now channelNames s = none ↔ deadlines channelNames s = [] := by
    rw [waitTime, Option.map_eq_none_iff, List.min?_eq_none_iff]
    rfl
  rw [hEmpty]
  constructor
  · intro hNone t
    by_contra hSome
    obtain ⟨deadline, hListed, -⟩ := readyMsgs_ne_nil_iff.mp hSome
    rw [hNone] at hListed
    cases hListed
  · intro hNever
    apply List.eq_nil_iff_forall_not_mem.mpr
    intro deadline hListed
    exact readyMsgs_ne_nil_iff.mpr ⟨deadline, hListed, le_rfl⟩ (hNever deadline)

/-- The wait ends at the first time that something is ready. -/
theorem waitTime_eq_some_iff {w : Interval} : waitTime now channelNames s = some w ↔
    IsLeast {t | readyMsgs t channelNames s ≠ []} (now + w) := by
  have hMin : waitTime now channelNames s = some w ↔
      (deadlines channelNames s).min? = some (now + w) := by
    rw [waitTime, Option.map_eq_some_iff]
    constructor
    · rintro ⟨first, hFirst, rfl⟩
      rw [add_sub_cancel]
      exact hFirst
    · intro hFirst
      exact ⟨now + w, hFirst, add_sub_cancel_left now w⟩
  rw [hMin, List.min?_eq_some_iff]
  constructor
  · rintro ⟨hListed, hLeast⟩
    refine ⟨readyMsgs_ne_nil_iff.mpr ⟨now + w, hListed, le_rfl⟩, fun t ht => ?_⟩
    obtain ⟨deadline, hOther, hDue⟩ := readyMsgs_ne_nil_iff.mp ht
    exact (hLeast deadline hOther).trans hDue
  · rintro ⟨hReady, hLeast⟩
    have hBound : ∀ deadline ∈ deadlines channelNames s, now + w ≤ deadline := by
      intro deadline hOther
      exact hLeast (readyMsgs_ne_nil_iff.mpr ⟨deadline, hOther, le_rfl⟩)
    obtain ⟨deadline, hListed, hDue⟩ := readyMsgs_ne_nil_iff.mp hReady
    have hFirst : deadline = now + w := le_antisymm hDue (hBound deadline hListed)
    exact ⟨hFirst ▸ hListed, hBound⟩

/-- The wait of a poll that found nothing is exact when no message blocks
the poll at its end. -/
theorem exactWait_iff (hBatch : 1 ≤ batchSize.val) (hNone : readyMsgs now channelNames s = []) :
    ExactWait now channelNames batchSize s (waitTime now channelNames s) ↔
      ∀ t, IsLeast {t | readyMsgs t channelNames s ≠ []} t →
        Unblocked t channelNames batchSize s := by
  cases hWait : waitTime now channelNames s with
  | none =>
      have hNever := waitTime_eq_none_iff.mp hWait
      exact ⟨fun _ t hFirst => absurd (hNever t) hFirst.1, fun _ => hNever⟩
  | some w =>
      have hFirst := waitTime_eq_some_iff.mp hWait
      constructor
      · rintro ⟨-, -, hFound⟩ t hOther
        obtain rfl := hOther.unique hFirst
        apply (mqPoll_total_iff hBatch).mp
        intro choice
        obtain ⟨s', polled, hPoll, -⟩ := hFound choice
        exact ⟨s', polled, hPoll⟩
      · intro hThen
        refine ⟨?_, ?_, ?_⟩
        · by_contra hPast
          obtain ⟨deadline, hListed, hDue⟩ := readyMsgs_ne_nil_iff.mp hFirst.1
          have hNow : deadline ≤ now := hDue.trans (add_le_of_nonpos_right (not_lt.mp hPast))
          exact readyMsgs_ne_nil_iff.mpr ⟨deadline, hListed, hNow⟩ hNone
        · intro choice t hEarly
          apply mqPoll_idle (Int.le_of_lt hBatch)
          by_contra hReady
          exact absurd (hFirst.2 hReady) (not_le.mpr hEarly)
        · intro choice
          obtain ⟨s', polled, hPoll⟩ := mqPoll_total choice (Int.le_of_lt hBatch) (hThen _ hFirst)
          have hFull := mqPoll_fullBatch hBatch hFirst.1 hPoll
          have hReadyPos := List.length_pos_iff.mpr hFirst.1
          have hCount := hFull.count
          obtain ⟨m, hm⟩ := List.exists_mem_of_length_pos (l := polled) (by omega)
          obtain ⟨r, -, hId⟩ := hFull.ready m hm
          exact ⟨s', polled, hPoll, m, hm, by simp [hId]⟩

/-- Polls are work-conserving whatever the database chooses exactly when no
ready message blocks them, and none will when the first messages are ready. -/
theorem mqPoll_workConserving_iff (hBatch : 1 ≤ batchSize.val) :
    (∀ choice, WorkConserving choice now channelNames batchSize s) ↔
      Unblocked now channelNames batchSize s ∧
        (readyMsgs now channelNames s = [] → ∀ t, IsLeast {t | readyMsgs t channelNames s ≠ []} t →
          Unblocked t channelNames batchSize s) := by
  have hIdle (choice : PollChoice) (hNone : readyMsgs now channelNames s = []) :
      mqPoll choice now channelNames batchSize s = .ok (s, [waitRow now channelNames s]) :=
    mqPoll_idle (Int.le_of_lt hBatch) hNone
  constructor
  · intro h
    refine ⟨?_, fun hNone => ?_⟩
    · apply (mqPoll_total_iff hBatch).mp
      intro choice
      by_cases hNone : readyMsgs now channelNames s = []
      · exact ⟨_, _, hIdle choice hNone⟩
      · obtain ⟨s', polled, hPoll, -⟩ := (h choice).busy hNone
        exact ⟨s', polled, hPoll⟩
    · obtain ⟨m, hPoll, -, hWait⟩ := (h .physical).idle hNone
      obtain rfl : waitRow now channelNames s = m := by simpa [hIdle _ hNone] using hPoll
      exact (exactWait_iff hBatch hNone).mp hWait
  · rintro ⟨hNow, hThen⟩ choice
    refine ⟨fun hSome => ?_, fun hNone => ?_⟩
    · obtain ⟨s', polled, hPoll⟩ := mqPoll_total choice (Int.le_of_lt hBatch) hNow
      exact ⟨s', polled, hPoll, mqPoll_fullBatch hBatch hSome hPoll⟩
    · exact ⟨_, hIdle choice hNone, rfl, (exactWait_iff hBatch hNone).mpr (hThen hNone)⟩

end Waiting

/-- Nothing blocks a poll that can update every message. -/
theorem unblocked_of_pollable {now : Timestamp} {s : Store} (h : ∀ r ∈ s.msgs, Pollable now r)
    (channelNames : Option (List String)) (batchSize : Int4) :
    Unblocked now channelNames batchSize s :=
  fun r hr hBlocks => absurd (h r (mem_readyMsgs.mp hr).1) hBlocks

theorem mqPoll_workConserving_of_spawn :
    let x := @Session.call .nullOnly (CrateCall.spawn 0 (.newWithId 1 "job")).op (.start 0)
    ∀ choice, WorkConserving choice 0 none (.ofBits 1) x.store := by
  intro x
  have hPollable : ∀ r ∈ x.store.msgs, Pollable 0 r := by decide +kernel
  have hReady : readyMsgs 0 none x.store ≠ [] := by decide +kernel
  exact (mqPoll_workConserving_iff (by decide)).mpr
    ⟨unblocked_of_pollable hPollable none _, fun hNone => absurd hNone hReady⟩

/-- A job with 2^31 retries is polled once, which takes its attempts to the
least number of their type. From then on the poll that would deliver it fails. -/
theorem mqPoll_not_workConserving :
    let _ : JsonbCast := .nullOnly
    let spawn : CrateCall := .spawn 0 { JobBuilder.newWithId 1 "job" with retries := 2147483648 }
    let poll : CrateCall := .poll .physical 0 none (.ofBits 1)
    let x := Session.call poll.op (Session.call spawn.op (.start 0))
    Run (Session.Step Session.CrateAllows) (.start 0) [spawn.op, poll.op] x ∧
      (readyMsgs second none x.store).map MqMsg.id = [1] ∧
      mqPoll .physical second none (.ofBits 1) x.store = .error .numericValueOutOfRange ∧
      ¬ WorkConserving .physical second none (.ofBits 1) x.store := by
  intro _ spawn poll x
  have hReady : (readyMsgs second none x.store).map MqMsg.id = [1] := by decide +kernel
  have hFails : (mqPoll .physical second none (.ofBits 1) x.store).map Prod.snd =
      .error .numericValueOutOfRange := by decide +kernel
  have hPoll : mqPoll .physical second none (.ofBits 1) x.store = .error .numericValueOutOfRange :=
    eq_error_of_map_eq_error hFails
  have run : Run (Session.Step Session.CrateAllows) (.start 0) [spawn.op, poll.op] x :=
    .cons ⟨⟨spawn, trivial, rfl⟩, rfl⟩ (.cons ⟨⟨poll, trivial, rfl⟩, rfl⟩ .refl)
  refine ⟨run, hReady, hPoll, fun h => ?_⟩
  have hSome : readyMsgs second none x.store ≠ [] := by
    intro hNone
    simp [hNone] at hReady
  obtain ⟨s', polled, hOk, -⟩ := h.busy hSome
  rw [hPoll] at hOk
  cases hOk

end Sqlxmq
