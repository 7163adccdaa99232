import Sqlxmq.Concurrency.Serial
import Sqlxmq.Database.RowStep

/-! The first version of `mq_latest_message` looked for the newest message of
a channel instead of the last one. The migration that fixes it is conservative:
an insert that the first version accepts has the same result in the second, and
as long as messages are created in order, there is no difference at all. -/
namespace Sqlxmq

open KeyedTable PredecessorLinks LabelledRun

namespace Setup

/-- `ORDER BY created_at DESC, id DESC` -/
def newerFirst (a b : MqMsg) : Prop :=
  b.createdAt < a.createdAt ∨ b.createdAt = a.createdAt ∧ b.id ≤ a.id

instance : DecidableRel newerFirst := fun a b =>
  inferInstanceAs (Decidable (b.createdAt < a.createdAt ∨ b.createdAt = a.createdAt ∧ b.id ≤ a.id))

/-- The ordered messages of a channel. -/
def orderedMsgs (s : Store) (channelName channelArgs : String) : List MqMsg :=
  s.msgs.filter fun r =>
    r.channelName = channelName ∧ r.channelArgs = channelArgs ∧ r.afterMessageId ≠ none ∧
      r.id ≠ uuidNil

/-- The most recently added message in a queue, as far as its time of creation
tells. -/
def mqLatestMessage (s : Store) (fromChannelName fromChannelArgs : String) : Uuid :=
  (((orderedMsgs s fromChannelName fromChannelArgs).insertionSort newerFirst).head?.map
    MqMsg.id).getD uuidNil

section Insert

variable [JsonbCast]

def newRows (now : Timestamp) (newMessages : List MqNew) (s : Store) : Except DbError NewRows := do
  let payloads ← evaluate newPayload newMessages
  let msgs ← evaluate (newMsg now) (laggedBehind (mqLatestMessage s) newMessages)
  .ok { payloads, msgs }

/-- Creates new messages. -/
def mqInsert (now : Timestamp) (newMessages : List MqNew) (s : Store) :
    Except DbError (Store × List String) := do
  let notifications ← pgNotify (groups MqNew.channelName newMessages)
  let new ← newRows now newMessages s
  let s' ← insertRows s new
  .ok (s', notifications)

/-- The calls of a database without the fix. Only inserts differ. -/
def exec (op : Op) (s : Store) : Except DbError (Store × Reply) :=
  match op with
  | .insert now newMessages => do
      let (s', notifications) ← mqInsert now newMessages s
      .ok (s', ⟨notifications, []⟩)
  | op => Sqlxmq.exec op s

/-- One transaction in such a database. -/
def call (op : Op) (x : Session) : Session :=
  match exec op x.store with
  | .ok (s', reply) => ⟨s', x.inserted ++ op.batches, x.replies ++ [reply]⟩
  | .error _ => x

def Step (x : Session) (op : Op) (y : Session) : Prop := op.sparesNil ∧ y = call op x

end Insert

section Tail

variable {s s' : Store} {ch : Channel}

theorem mem_orderedMsgs_iff (h : Integrity s) {r : MqMsg} (hr : r ∈ s.msgs) :
    r ∈ orderedMsgs s ch.name ch.args ↔ r.id ∈ s.fifo ch := by
  rw [h.chained.mem_fifo_iff]
  simp only [orderedMsgs, List.mem_filter, decide_eq_true_eq]
  constructor
  · rintro ⟨-, hName, hArgs, hAfter, -⟩
    obtain ⟨p, hp⟩ := Option.ne_none_iff_exists'.mp hAfter
    exact ⟨r, hr, Channel.ext hName hArgs, rfl, p, hp⟩
  · rintro ⟨r', hr', rfl, hId, p, hAfter⟩
    obtain rfl := List.inj_on_of_nodup_map s.msgsPkey hr' hr hId
    refine ⟨hr', rfl, rfl, by simp [hAfter], fun hNil => ?_⟩
    rw [h.nilRow_unordered hr' hNil] at hAfter
    cases hAfter

/-- The first version finds nothing in an empty chain, and otherwise the
newest message of the chain. -/
theorem mqLatestMessage_cases (h : Integrity s) (ch : Channel) :
    mqLatestMessage s ch.name ch.args = uuidNil ∧ s.fifo ch = [] ∨
      ∃ r ∈ s.msgs, mqLatestMessage s ch.name ch.args = r.id ∧ r.id ∈ s.fifo ch ∧
        ∀ other ∈ s.msgs, other.id ∈ s.fifo ch → newerFirst r other := by
  have hMem (r : MqMsg) : r ∈ (orderedMsgs s ch.name ch.args).insertionSort newerFirst ↔
      r ∈ orderedMsgs s ch.name ch.args := (List.perm_insertionSort _ _).mem_iff
  have hTotal : Std.Total newerFirst := ⟨fun a b => by
    unfold newerFirst
    rcases lt_trichotomy a.createdAt b.createdAt with hLt | hEq | hGt
    · exact Or.inr (Or.inl hLt)
    · rcases le_total a.id b.id with hLe | hLe
      · exact Or.inr (Or.inr ⟨hEq, hLe⟩)
      · exact Or.inl (Or.inr ⟨hEq.symm, hLe⟩)
    · exact Or.inl (Or.inl hGt)⟩
  have hTrans : IsTrans MqMsg newerFirst := ⟨fun a b c => by
    rintro (hab | ⟨hab, hIdab⟩) (hbc | ⟨hbc, hIdbc⟩)
    · exact Or.inl (hbc.trans hab)
    · exact Or.inl (hbc ▸ hab)
    · exact Or.inl (hab ▸ hbc)
    · exact Or.inr ⟨hbc.trans hab, hIdbc.trans hIdab⟩⟩
  have hSorted := List.pairwise_insertionSort newerFirst (orderedMsgs s ch.name ch.args)
  unfold mqLatestMessage
  cases hList : (orderedMsgs s ch.name ch.args).insertionSort newerFirst with
  | nil =>
      refine Or.inl ⟨rfl, List.eq_nil_iff_forall_not_mem.mpr fun a ha => ?_⟩
      obtain ⟨r, hr, -, rfl, -⟩ := h.chained.mem_fifo_iff.mp ha
      have hIn := (hMem r).mpr ((mem_orderedMsgs_iff h hr).mpr ha)
      rw [hList] at hIn
      cases hIn
  | cons r rest =>
      have hIn := (hMem r).mp (hList ▸ List.mem_cons_self)
      have hr : r ∈ s.msgs := (List.mem_filter.mp hIn).1
      refine Or.inr ⟨r, hr, rfl, (mem_orderedMsgs_iff h hr).mp hIn, fun other hOther hOtherIn => ?_⟩
      have hListed := (hMem other).mpr ((mem_orderedMsgs_iff h hOther).mpr hOtherIn)
      rw [hList] at hListed hSorted
      rcases List.mem_cons.mp hListed with rfl | hRest
      · exact Or.inr ⟨rfl, le_refl _⟩
      · exact (List.pairwise_cons.mp hSorted).1 other hRest

/-- The last message of a chain is the newest one. -/
def TailNewest (s : Store) (ch : Channel) : Prop :=
  ∀ r ∈ s.msgs, (s.fifo ch).getLast? = some r.id →
    ∀ other ∈ s.msgs, other.id ∈ s.fifo ch → newerFirst r other

/-- The first version is right exactly where the last message is the newest. -/
theorem mqLatestMessage_eq_iff (h : Integrity s) (ch : Channel) :
    mqLatestMessage s ch.name ch.args = Sqlxmq.mqLatestMessage s ch.name ch.args ↔
      TailNewest s ch := by
  rw [h.chained.mqLatestMessage_eq, List.getLastD_eq_getLast?]
  rcases mqLatestMessage_cases h ch with ⟨hNil, hEmpty⟩ | ⟨r, hr, hEq, hIn, hNewest⟩
  · simp [TailNewest, hNil, hEmpty]
  · obtain ⟨b, hLast⟩ := Option.ne_none_iff_exists'.mp
      (fun hNone => List.ne_nil_of_mem hIn (List.getLast?_eq_none_iff.mp hNone))
    have hb := List.mem_of_getLast? hLast
    rw [hEq, hLast, Option.getD_some]
    constructor
    · intro hSame r' hr' hId other hOther hOtherIn
      have hRow : r' = r := List.inj_on_of_nodup_map s.msgsPkey hr' hr
        ((Option.some.inj (hId.symm.trans hLast)).trans hSame.symm)
      exact hRow ▸ hNewest other hOther hOtherIn
    · intro hTail
      obtain ⟨last, hLastRow, -, rfl, -⟩ := h.chained.mem_fifo_iff.mp hb
      have hForth := hNewest last hLastRow hb
      have hBack := hTail last hLastRow hLast r hr hIn
      rcases hForth with hLt | ⟨hTime, hLe⟩
      · rcases hBack with hLt' | ⟨hTime, -⟩
        · exact absurd hLt' (Int.lt_asymm hLt)
        · exact absurd (hTime ▸ hLt) (Int.lt_irrefl _)
      · rcases hBack with hLt | ⟨-, hGe⟩
        · exact absurd (hTime ▸ hLt) (Int.lt_irrefl _)
        · exact le_antisymm hGe hLe

end Tail

section Accepted

variable [JsonbCast] {now : Timestamp} {newMessages : List MqNew} {s s' : Store} {new : NewRows}

/-- Where the first version is right about the tails, it prepares the same rows. -/
theorem newRows_eq (h : ∀ ch, orderedIds newMessages ch ≠ [] →
    mqLatestMessage s ch.name ch.args = Sqlxmq.mqLatestMessage s ch.name ch.args) :
    newRows now newMessages s = Sqlxmq.newRows now newMessages s := by
  have hRows : evaluate (newMsg now) (laggedBehind (mqLatestMessage s) newMessages) =
      evaluate (newMsg now) (lagged s newMessages) := evaluate_newMsg_congr (laggedBehind_congr h)
  rw [newRows, Sqlxmq.newRows, hRows]

/-- The first message of a batch in a channel is linked to what the query found. -/
theorem first_linked (hNew : newRows now newMessages s = .ok new) {ch : Channel}
    (hOrdered : orderedIds newMessages ch ≠ []) :
    ∃ a, (a, mqLatestMessage s ch.name ch.args) ∈ linksIn ch new.msgs := by
  obtain ⟨payloads, -, hMsgs⟩ := bind_eq_ok_iff.mp hNew
  obtain ⟨msgs, hRows, hEq⟩ := bind_eq_ok_iff.mp hMsgs
  obtain rfl := Except.ok.inj hEq
  have hSome : windowPartition newMessages (ch.name, ch.args, true) ≠ [] := by
    simpa [orderedIds] using hOrdered
  obtain ⟨m, rest, hWindow⟩ := List.exists_cons_of_ne_nil hSome
  obtain ⟨hm, hKey⟩ := mem_windowPartition.mp (hWindow ▸ List.mem_cons_self)
  have hFirst : (m, mqLatestMessage s ch.name ch.args) ∈
      laggedBehind (mqLatestMessage s) newMessages := by
    refine List.mem_flatMap.mpr ⟨_, mem_groups.mpr ⟨m, hm, hKey⟩, ?_⟩
    rw [hWindow]
    exact List.mem_cons_self
  obtain ⟨r, hr, hRow⟩ := evaluate_exists hRows hFirst
  simp only [MqNew.partitionKey, Prod.mk.injEq] at hKey
  refine ⟨m.id, mem_linksIn.mpr ⟨r, hr, ?_⟩⟩
  rw [(newMsg_eq_ok hRow).2]
  exact ⟨Channel.ext hKey.1 hKey.2.1, rfl, by simp [hKey.2.2]⟩

/-- The unique index accepts a link to the last message of a chain only. -/
theorem tail_of_accepted (h : Integrity s) (hNew : newRows now newMessages s = .ok new)
    (hInsert : insertRows s new = .ok s') {ch : Channel} (hOrdered : orderedIds newMessages ch ≠ []) :
    mqLatestMessage s ch.name ch.args = Sqlxmq.mqLatestMessage s ch.name ch.args := by
  rw [h.chained.mqLatestMessage_eq]
  have hFound : mqLatestMessage s ch.name ch.args = uuidNil ∨
      mqLatestMessage s ch.name ch.args ∈ s.fifo ch := by
    rcases mqLatestMessage_cases h ch with ⟨hNil, -⟩ | ⟨r, -, hEq, hIn, -⟩
    · exact Or.inl hNil
    · exact Or.inr (hEq ▸ hIn)
  obtain ⟨a, hLink⟩ := first_linked hNew hOrdered
  refine ((h.chained ch).unreferenced_iff hFound).mp fun b hTaken => ?_
  have hNodup := s'.snd_linksIn_nodup ch
  rw [(insertRows_eq_ok hInsert).1, linksIn_append, List.map_append, List.nodup_append] at hNodup
  exact hNodup.2.2 _ (List.mem_map_of_mem hTaken) _ (List.mem_map_of_mem hLink) rfl

/-- What the first version accepts, the second does in the same way. -/
theorem exec_of_accepted (h : Integrity s) {op : Op} {reply : Reply}
    (hExec : exec op s = .ok (s', reply)) : Sqlxmq.exec op s = .ok (s', reply) := by
  cases op with
  | insert now newMessages =>
      obtain ⟨⟨t, notifications⟩, hInsert, hEq⟩ := bind_eq_ok_iff.mp hExec
      obtain ⟨notes, hNotes, hRest⟩ := bind_eq_ok_iff.mp hInsert
      obtain ⟨new, hNew, hStore⟩ := bind_eq_ok_iff.mp hRest
      obtain ⟨u, hRows, hResult⟩ := bind_eq_ok_iff.mp hStore
      cases hResult
      cases hEq
      rw [newRows_eq fun ch hOrdered => tail_of_accepted h hNew hRows hOrdered] at hNew
      have hFixed : Sqlxmq.mqInsert now newMessages s = .ok (s', notifications) :=
        mqInsert_eq_ok_iff.mpr ⟨hNotes, new, hNew, hRows⟩
      simp [Sqlxmq.exec, hFixed, bind, Except.bind]
  | _ => exact hExec

/-- Where all tails that a batch needs are the newest, both versions agree. -/
theorem mqInsert_eq (h : Integrity s)
    (hNewest : ∀ ch, orderedIds newMessages ch ≠ [] → TailNewest s ch) :
    mqInsert now newMessages s = Sqlxmq.mqInsert now newMessages s := by
  have hRows : newRows now newMessages s = Sqlxmq.newRows now newMessages s :=
    newRows_eq fun ch hOrdered => (mqLatestMessage_eq_iff h ch).mpr (hNewest ch hOrdered)
  simp only [mqInsert, Sqlxmq.mqInsert, hRows]

/-- A call adds to the chain of a channel. -/
def Extends : Op → Channel → Prop
  | .insert _ newMessages, ch => orderedIds newMessages ch ≠ []
  | _, _ => False

/-- The first version refuses, of what the second accepts, exactly the inserts
that add to a chain whose last message is not the newest. -/
theorem exec_iff (h : Integrity s) {op : Op} {reply : Reply} :
    exec op s = .ok (s', reply) ↔
      Sqlxmq.exec op s = .ok (s', reply) ∧ ∀ ch, Extends op ch → TailNewest s ch := by
  cases op with
  | insert now newMessages =>
      constructor
      · intro hExec
        refine ⟨exec_of_accepted h hExec, fun ch hOrdered => ?_⟩
        obtain ⟨⟨t, notifications⟩, hInsert, -⟩ := bind_eq_ok_iff.mp hExec
        obtain ⟨_, -, hRest⟩ := bind_eq_ok_iff.mp hInsert
        obtain ⟨new, hNew, hStore⟩ := bind_eq_ok_iff.mp hRest
        obtain ⟨u, hRows, -⟩ := bind_eq_ok_iff.mp hStore
        exact (mqLatestMessage_eq_iff h ch).mp (tail_of_accepted h hNew hRows hOrdered)
      · rintro ⟨hFixed, hNewest⟩
        rw [← hFixed, exec, mqInsert_eq h hNewest]
        rfl
  | _ => simp [exec, Extends]

end Accepted

section InOrder

/-- Each chain is in the order in which its messages were created. -/
def CreatedInOrder (s : Store) : Prop :=
  ∀ ch, (s.fifo ch).Pairwise fun a b =>
    ∀ r ∈ s.msgs, ∀ r' ∈ s.msgs, r.id = a → r'.id = b → newerFirst r' r

theorem CreatedInOrder.tailNewest {s : Store} (hOrder : CreatedInOrder s) (ch : Channel) :
    TailNewest s ch := by
  intro r hr hLast other hOther hIn
  obtain ⟨front, hFront⟩ := List.getLast?_eq_some_iff.mp hLast
  have hPairs := hOrder ch
  rw [hFront, List.pairwise_append] at hPairs
  rw [hFront] at hIn
  rcases List.mem_append.mp hIn with hBefore | hSame
  · exact hPairs.2.2 _ hBefore _ (List.mem_singleton_self _) other hOther r hr rfl rfl
  · obtain rfl := List.inj_on_of_nodup_map s.msgsPkey hOther hr (List.mem_singleton.mp hSame)
    exact Or.inr ⟨rfl, le_refl _⟩

variable [JsonbCast] {s s' : Store} {reply : Reply}

/-- The rows of the messages that a call leaves are as old as before. -/
theorem exec_createdAt {op : Op} (hNoInsert : op.batches = [])
    (hExec : Sqlxmq.exec op s = .ok (s', reply)) {r' : MqMsg} (hr' : r' ∈ s'.msgs) :
    ∃ r ∈ s.msgs, r'.id = r.id ∧ r'.createdAt = r.createdAt := by
  rcases exec_row_cases hExec hr' with ⟨r, hr, hStep⟩ | ⟨now, newMessages, rfl, -⟩
  · exact ⟨r, hr, hStep.continues.id, hStep.createdAt⟩
  · cases hNoInsert

theorem CreatedInOrder.step {op : Op} (hOrder : CreatedInOrder s) (h : Integrity s)
    (hNil : op.sparesNil) (hNoInsert : op.batches = [])
    (hExec : Sqlxmq.exec op s = .ok (s', reply)) : CreatedInOrder s' := by
  intro ch
  have hSublist := h.fifo_sublist hNoInsert hNil hExec ch
  refine ((hOrder ch).sublist hSublist).imp fun {a b} hOlder r₁ hr₁ r₂ hr₂ ha hb => ?_
  obtain ⟨r, hr, hId, hTime⟩ := exec_createdAt hNoInsert hExec hr₁
  obtain ⟨r', hr', hId', hTime'⟩ := exec_createdAt hNoInsert hExec hr₂
  have hNewer := hOlder r hr r' hr' (hId ▸ ha) (hId' ▸ hb)
  unfold newerFirst at hNewer ⊢
  rwa [hId, hTime, hId', hTime']

/-- The rows of a batch are new, and created at the time of the insert. -/
theorem insert_createdAt {now : Timestamp} {newMessages : List MqNew}
    (hExec : Sqlxmq.exec (.insert now newMessages) s = .ok (s', reply)) {r : MqMsg}
    (hr : r ∈ s'.msgs) : r ∈ s.msgs ∧ r.id ∉ newMessages.map MqNew.id ∨
      r.id ∉ s.ids ∧ r.createdAt = now := by
  obtain ⟨⟨t, notifications⟩, hInsert, hEq⟩ := bind_eq_ok_iff.mp hExec
  obtain ⟨-, new, hNew, hRows⟩ := mqInsert_eq_ok_iff.mp hInsert
  cases hEq
  have hFresh := (insertRows_fresh hNew hRows).2
  rw [(insertRows_eq_ok hRows).1] at hr
  rcases List.mem_append.mp hr with hOld | hRow
  · refine Or.inl ⟨hOld, fun hIn => ?_⟩
    obtain ⟨m, hm, hId⟩ := List.mem_map.mp hIn
    exact hFresh m hm (hId ▸ Store.mem_ids_of_mem hOld)
  · obtain ⟨m, hm, previous, hMsg⟩ := newRows_mem hNew hRow
    rw [(newMsg_eq_ok hMsg).2]
    exact Or.inr ⟨hFresh m hm, rfl⟩

theorem CreatedInOrder.insert {now : Timestamp} {newMessages : List MqNew}
    (hOrder : CreatedInOrder s) (h : Integrity s)
    (hLater : ∀ r ∈ s.msgs, r.id ≠ uuidNil → r.createdAt < now)
    (hExec : Sqlxmq.exec (.insert now newMessages) s = .ok (s', reply)) : CreatedInOrder s' := by
  intro ch
  have hQueues : s'.queues = Op.onQueues (.insert now newMessages) s.queues :=
    h.exec_queues trivial hExec
  have hFifo : s'.fifo ch = s.fifo ch ++ orderedIds newMessages ch := by
    rw [orderedIds_eq_insertionSort]
    exact congrArg (fun q => q.ordered ch) hQueues
  have hOld {r : MqMsg} (hr : r ∈ s'.msgs) (hIn : r.id ∈ s.fifo ch) :
      r ∈ s.msgs ∧ r.createdAt < now := by
    obtain ⟨hNil, r₀, hr₀, -, hId⟩ := h.contains_iff.mp (Or.inl hIn)
    rcases insert_createdAt hExec hr with ⟨hStored, -⟩ | ⟨hFresh, -⟩
    · exact ⟨hStored, hLater r hStored hNil⟩
    · exact absurd (hId ▸ Store.mem_ids_of_mem hr₀) hFresh
  have hNow {r : MqMsg} (hr : r ∈ s'.msgs) (hIn : r.id ∈ orderedIds newMessages ch) :
      r.createdAt = now := by
    obtain ⟨m, hm, -, -, hId⟩ := mem_orderedIds.mp hIn
    rcases insert_createdAt hExec hr with ⟨-, hNew⟩ | ⟨-, hTime⟩
    · exact absurd (hId ▸ List.mem_map_of_mem hm) hNew
    · exact hTime
  rw [hFifo, List.pairwise_append]
  refine ⟨(hOrder ch).imp_of_mem ?_, ?_, ?_⟩
  · intro a b ha hb hOlder r hr r' hr' hId hId'
    exact hOlder r (hOld hr (hId ▸ ha)).1 r' (hOld hr' (hId' ▸ hb)).1 hId hId'
  · have hSorted : (orderedIds newMessages ch).Pairwise (· ≤ ·) := by
      rw [orderedIds_eq_insertionSort]
      exact List.pairwise_insertionSort _ _
    refine hSorted.imp_of_mem ?_
    intro a b ha hb hLe r hr r' hr' hId hId'
    exact Or.inr ⟨(hNow hr (hId ▸ ha)).trans (hNow hr' (hId' ▸ hb)).symm, hId ▸ hId' ▸ hLe⟩
  · intro a ha b hb r hr r' hr' hId hId'
    have hBefore := (hOld hr (hId ▸ ha)).2
    exact Or.inl (hNow hr' (hId' ▸ hb) ▸ hBefore)

/-- Inserts come later than all messages that are stored. -/
def Later (x : Session) : Op → Prop
  | .insert now _ => ∀ r ∈ x.store.msgs, r.id ≠ uuidNil → r.createdAt < now
  | _ => True

theorem run_createdInOrder {migratedAt : Timestamp} {ops : List Op} {x : Session}
    (run : Run (Session.Step fun x op => op.sparesNil ∧ Later x op) (.start migratedAt) ops x) :
    Integrity x.store ∧ CreatedInOrder x.store := by
  have hStart : CreatedInOrder (Store.initial migratedAt) := fun ch => by
    have hEmpty : (Store.initial migratedAt).fifo ch = [] :=
      congrFun (congrArg Queues.ordered (Store.initial_queues migratedAt)) ch
    simp [hEmpty]
  refine Session.run_invariant (P := fun x => Integrity x.store ∧ CreatedInOrder x.store) run
    ⟨.initial migratedAt, hStart⟩ ?_
  rintro x op s' reply ⟨h, hOrder⟩ ⟨hNil, hLater⟩ hExec
  refine ⟨h.of_exec hNil hExec, ?_⟩
  cases op with
  | insert now newMessages => exact hOrder.insert h hLater hExec
  | _ => exact hOrder.step h hNil rfl hExec

end InOrder

section Runs

variable [JsonbCast] {migratedAt : Timestamp} {ops : List Op} {x : Session}

/-- The migration is conservative. Any run of a database without it is, but for
calls that fail, a run with it. In the state that is reached, only inserts that
add to a chain whose last message is not the newest are told apart. -/
theorem run_simulated (run : Run Step (.start migratedAt) ops x) :
    (∃ accepted, accepted.Sublist ops ∧
      Run (Session.Step fun _ op => op.sparesNil) (.start migratedAt) accepted x) ∧
    ∀ op s' reply, exec op x.store = .ok (s', reply) ↔
      Sqlxmq.exec op x.store = .ok (s', reply) ∧ ∀ ch, Extends op ch → TailNewest x.store ch := by
  have hSimulated : ∃ accepted, accepted.Sublist ops ∧
      Run (Session.Step fun _ op => op.sparesNil) (.start migratedAt) accepted x := by
    induction run with
    | refl => exact ⟨[], List.Sublist.refl _, .refl⟩
    | @snoc ops x y op prior last ih =>
        obtain ⟨accepted, hSub, hRun⟩ := ih
        obtain ⟨hNil, rfl⟩ := last
        have h : Integrity x.store := (Session.run_integrity hRun fun _ _ _ hOp => hOp).1
        cases hExec : exec op x.store with
        | error e =>
            refine ⟨accepted, hSub.trans (List.sublist_append_left _ _), ?_⟩
            simpa [call, hExec] using hRun
        | ok result =>
            obtain ⟨s', reply⟩ := result
            refine ⟨accepted ++ [op], hSub.append (List.Sublist.refl _), hRun.snoc ⟨hNil, ?_⟩⟩
            rw [Session.call_eq (exec_of_accepted h hExec), call, hExec]
  obtain ⟨accepted, hSub, hRun⟩ := hSimulated
  have h : Integrity x.store := (Session.run_integrity hRun fun _ _ _ hOp => hOp).1
  exact ⟨⟨accepted, hSub, hRun⟩, fun op s' reply => exec_iff h⟩

/-- As long as messages are created in order, a database does not need the
migration: it makes the same run, and treats every call in the same way. -/
theorem in_order_agrees
    (run : Run (Session.Step fun x op => op.sparesNil ∧ Later x op) (.start migratedAt) ops x) :
    Run Step (.start migratedAt) ops x ∧ ∀ op, exec op x.store = Sqlxmq.exec op x.store := by
  have hAgree {ops : List Op} {x : Session} (run : Run (Session.Step fun x op =>
      op.sparesNil ∧ Later x op) (.start migratedAt) ops x) (op : Op) :
      exec op x.store = Sqlxmq.exec op x.store := by
    obtain ⟨h, hOrder⟩ := run_createdInOrder run
    cases op with
    | insert now newMessages =>
        rw [exec, mqInsert_eq h fun ch _ => hOrder.tailNewest ch]
        rfl
    | _ => rfl
  refine ⟨?_, hAgree run⟩
  induction run with
  | refl => exact .refl
  | snoc prior last ih =>
      refine ih.snoc ⟨last.1.1, ?_⟩
      rw [last.2, call, hAgree prior]
      rfl

end Runs

/-- Two inserts, of which the second to write has the earlier clock. -/
def skewedSession : Session :=
  @call .nullOnly (.insert 2 [JobBuilder.orderedMessage 2 "job"])
    (@call .nullOnly (.insert 3 [JobBuilder.orderedMessage 1 "job"]) (.start 0))

theorem skewedSession_run : Run (@Step .nullOnly) (.start 0)
    [.insert 3 [JobBuilder.orderedMessage 1 "job"], .insert 2 [JobBuilder.orderedMessage 2 "job"]]
    skewedSession :=
  .cons ⟨trivial, rfl⟩ (.cons ⟨trivial, rfl⟩ .refl)

/-- Now the first version refuses the next insert. -/
theorem run_simulated_of_skewed :
    let _ : JsonbCast := .nullOnly
    let next : Op := .insert 4 [JobBuilder.orderedMessage 3 "job"]
    (exec next skewedSession.store).toOption.isSome = false ∧
      (Sqlxmq.exec next skewedSession.store).toOption.isSome = true ∧
      ¬ ∀ ch, Extends next ch → TailNewest skewedSession.store ch := by
  intro _ next
  have hRefused : (exec next skewedSession.store).toOption.isSome = false := by decide +kernel
  have hAccepted : (Sqlxmq.exec next skewedSession.store).toOption.isSome = true := by decide +kernel
  refine ⟨hRefused, hAccepted, ?_⟩
  intro hNewest
  have hExec := ((run_simulated skewedSession_run).2 _ _ _).mpr
    ⟨eq_ok_getD_of_isSome hAccepted (.initial 0, .silent), hNewest⟩
  rw [hExec] at hRefused
  cases hRefused

/-- Two messages sent one after the other. -/
theorem in_order_agrees_of_two :
    let _ : JsonbCast := .nullOnly
    let insert (now : Timestamp) (id : Uuid) : Op := .insert now [JobBuilder.orderedMessage id "job"]
    let x := Session.call (insert 2 1) (Session.call (insert 1 2) (.start 0))
    x.inserted.length = 2 ∧ ∀ op, exec op x.store = Sqlxmq.exec op x.store := by
  intro _ insert x
  have hFirst : ∀ r ∈ (Store.initial 0).msgs, r.id ≠ uuidNil → r.createdAt < 1 := by decide +kernel
  have hSecond : ∀ r ∈ (Session.call (insert 1 2) (.start 0)).store.msgs,
      r.id ≠ uuidNil → r.createdAt < 2 := by decide +kernel
  have run : Run (Session.Step fun x op => op.sparesNil ∧ Later x op) (.start 0)
      [insert 1 2, insert 2 1] x :=
    .cons ⟨⟨trivial, hFirst⟩, rfl⟩ (.cons ⟨⟨trivial, hSecond⟩, rfl⟩ .refl)
  exact ⟨by decide +kernel, (in_order_agrees run).2⟩

end Setup

end Sqlxmq
