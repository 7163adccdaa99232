import Sqlxmq.Database.Delete
import Sqlxmq.Database.Insert

/-! The order of a channel. It is not stored: it is the list that one obtains
by following the links from the nil row. -/
namespace Sqlxmq

open KeyedTable PredecessorLinks

/-- The link that a row stores in a channel. -/
def MqMsg.link (ch : Channel) (r : MqMsg) : Option (Uuid × Uuid) :=
  if r.channel = ch then r.afterMessageId.map (r.id, ·) else none

/-- The links of the ordered messages of a channel. -/
def linksIn (ch : Channel) (rows : List MqMsg) : List (Uuid × Uuid) :=
  rows.filterMap (MqMsg.link ch)

/-- The ordered messages of a channel, read along the links from the nil row. -/
def Store.fifo (s : Store) (ch : Channel) : List Uuid :=
  follow (linksIn ch s.msgs) (linksIn ch s.msgs).length uuidNil

/-- The ordered messages of each channel form one chain that starts at the
nil row, without a branch or a cycle. -/
def Chained (s : Store) : Prop :=
  ∀ ch, Represents (linksIn ch s.msgs) uuidNil (s.fifo ch)

theorem MqMsg.link_eq_some_iff {ch : Channel} {r : MqMsg} {e : Uuid × Uuid} :
    r.link ch = some e ↔ r.channel = ch ∧ r.id = e.1 ∧ r.afterMessageId = some e.2 := by
  unfold link
  split
  · rw [Option.map_eq_some_iff]
    constructor
    · rintro ⟨p, hp, rfl⟩
      exact ⟨‹_›, rfl, hp⟩
    · rintro ⟨-, hId, hAfter⟩
      exact ⟨e.2, hAfter, by rw [hId]⟩
  · simp_all

theorem mem_linksIn {ch : Channel} {rows : List MqMsg} {a p : Uuid} :
    (a, p) ∈ linksIn ch rows ↔
      ∃ r ∈ rows, r.channel = ch ∧ r.id = a ∧ r.afterMessageId = some p := by
  simp [linksIn, MqMsg.link_eq_some_iff]

theorem linksIn_append (ch : Channel) (rows more : List MqMsg) :
    linksIn ch (rows ++ more) = linksIn ch rows ++ linksIn ch more :=
  List.filterMap_append

/-- Rewriting rows in place does not move a message. -/
theorem linksIn_map {f : MqMsg → MqMsg} (hf : ∀ r, MqMsg.SameIdentity r (f r)) (ch : Channel)
    (rows : List MqMsg) : linksIn ch (rows.map f) = linksIn ch rows := by
  rw [linksIn, List.filterMap_map]
  apply List.filterMap_congr
  intro r _
  simp [MqMsg.link, (hf r).channel, (hf r).id, (hf r).afterMessageId]

/-- The unique index says that no two messages of a channel have the same
predecessor. -/
theorem uniqueOn_orderKey_iff {rows : List MqMsg} :
    UniqueOn MqMsg.orderKey rows ↔ ∀ ch, ((linksIn ch rows).map Prod.snd).Nodup := by
  simp only [UniqueOn, linksIn, List.map_filterMap]
  simp only [List.Nodup, List.pairwise_filterMap]
  simp only [List.pairwise_iff_forall_sublist, Option.map_eq_some_iff, MqMsg.link_eq_some_iff,
    MqMsg.orderKey]
  constructor
  · rintro h ch a b hPair _ ⟨e, ⟨rfl, -, ha⟩, rfl⟩ _ ⟨e', ⟨hChannel, -, hb⟩, rfl⟩ hEq
    simp only [MqMsg.channel, Channel.mk.injEq] at hChannel
    exact h hPair _ ⟨_, ha, rfl⟩ _ ⟨_, hb, rfl⟩ (by simp [hChannel, hEq])
  · rintro h a b hPair _ ⟨p, ha, rfl⟩ _ ⟨q, hb, rfl⟩ hEq
    simp only [Prod.mk.injEq] at hEq
    exact h a.channel hPair _ ⟨(a.id, p), ⟨rfl, rfl, ha⟩, rfl⟩ _
      ⟨(b.id, q), ⟨by simp [MqMsg.channel, hEq], rfl, hb⟩, rfl⟩ hEq.2.2

theorem Store.snd_linksIn_nodup (s : Store) (ch : Channel) :
    ((linksIn ch s.msgs).map Prod.snd).Nodup :=
  uniqueOn_orderKey_iff.mp s.afterIdx ch

/-- A chain that the stored links represent is the one that is read back. -/
theorem Store.fifo_eq {s : Store} {ch : Channel} {l : List Uuid}
    (h : Represents (linksIn ch s.msgs) uuidNil l) : s.fifo ch = l :=
  h.follow_eq

theorem chained_of_represents {s : Store} (chain : Channel → List Uuid)
    (h : ∀ ch, Represents (linksIn ch s.msgs) uuidNil (chain ch)) : Chained s := by
  intro ch
  rw [Store.fifo_eq (h ch)]
  exact h ch

section Read

variable {s : Store} (h : Chained s)
include h

namespace Chained

theorem mem_fifo_iff {ch : Channel} {a : Uuid} :
    a ∈ s.fifo ch ↔
      ∃ r ∈ s.msgs, r.channel = ch ∧ r.id = a ∧ ∃ p, r.afterMessageId = some p := by
  rw [(h ch).mem_iff]
  simp only [mem_linksIn]
  constructor
  · rintro ⟨p, r, hr, hChannel, hId, hAfter⟩
    exact ⟨r, hr, hChannel, hId, p, hAfter⟩
  · rintro ⟨r, hr, hChannel, hId, p, hAfter⟩
    exact ⟨p, r, hr, hChannel, hId, hAfter⟩

theorem mem_ids_of_mem_fifo {ch : Channel} {a : Uuid} (ha : a ∈ s.fifo ch) : a ∈ s.ids := by
  obtain ⟨r, hr, -, rfl, -⟩ := h.mem_fifo_iff.mp ha
  exact Store.mem_ids_of_mem hr

/-- A predecessor is the nil row or a message of the same channel. -/
theorem pred_mem_fifo {r : MqMsg} (hr : r ∈ s.msgs) {a : Uuid}
    (hAfter : r.afterMessageId = some a) : a = uuidNil ∨ a ∈ s.fifo r.channel :=
  (h r.channel).pred_mem (mem_linksIn.mpr ⟨r, hr, rfl, rfl, hAfter⟩)

/-- The channel of a message is determined by the chain it is in. -/
theorem channel_eq {r : MqMsg} (hr : r ∈ s.msgs) {ch : Channel} (hIn : r.id ∈ s.fifo ch) :
    r.channel = ch := by
  obtain ⟨r', hr', hChannel, hId, -⟩ := h.mem_fifo_iff.mp hIn
  rwa [List.inj_on_of_nodup_map s.msgsPkey hr' hr hId] at hChannel

/-- The head of a chain is the message linked to the nil row. -/
theorem head_iff {r : MqMsg} (hr : r ∈ s.msgs) :
    r.afterMessageId = some uuidNil ↔ (s.fifo r.channel).head? = some r.id := by
  rw [← (h r.channel).head_iff, mem_linksIn]
  constructor
  · exact fun hAfter => ⟨r, hr, rfl, rfl, hAfter⟩
  · rintro ⟨r', hr', -, hId, hAfter⟩
    rwa [List.inj_on_of_nodup_map s.msgsPkey hr' hr hId] at hAfter

/-- An ordered message that waits for no other is the head of its chain. -/
theorem head_of_first {r : MqMsg} (hr : r ∈ s.msgs) (hFirst : mqUuidExists r.afterMessageId = false)
    {ch : Channel} (hIn : r.id ∈ s.fifo ch) : (s.fifo ch).head? = some r.id := by
  obtain ⟨r', hr', rfl, hId, p, hAfter⟩ := h.mem_fifo_iff.mp hIn
  obtain rfl := List.inj_on_of_nodup_map s.msgsPkey hr' hr hId
  have hHead : r'.afterMessageId = some uuidNil :=
    (mqUuidExists_eq_false_iff.mp hFirst).resolve_left (by simp [hAfter])
  exact (h.head_iff hr).mp hHead

/-- The candidates for the most recently added message are the last message
of the chain, whatever their creation times are. -/
theorem mem_tailCandidates_iff {r : MqMsg} (hr : r ∈ s.msgs) {ch : Channel} :
    r ∈ tailCandidates s ch.name ch.args ↔ r.id ∈ s.fifo ch ∧ r.id = (s.fifo ch).getLastD uuidNil := by
  have hCandidate : r ∈ tailCandidates s ch.name ch.args ↔ r.channel = ch ∧
      r.afterMessageId ≠ none ∧ r.id ≠ uuidNil ∧ ¬ ∃ r2 ∈ s.msgs, r2.afterMessageId = some r.id := by
    simp [tailCandidates, hr, MqMsg.channel, Channel.ext_iff, and_assoc]
  rw [hCandidate]
  constructor
  · rintro ⟨rfl, hAfter, hNil, hLast⟩
    have hIn : r.id ∈ s.fifo r.channel :=
      h.mem_fifo_iff.mpr ⟨r, hr, rfl, rfl, Option.ne_none_iff_exists'.mp hAfter⟩
    refine ⟨hIn, ((h r.channel).unreferenced_iff (Or.inr hIn)).mp fun b hLink => ?_⟩
    obtain ⟨r2, hr2, -, -, hAfter2⟩ := mem_linksIn.mp hLink
    exact hLast ⟨r2, hr2, hAfter2⟩
  · rintro ⟨hIn, hLast⟩
    obtain rfl := h.channel_eq hr hIn
    obtain ⟨r', hr', -, hId, p, hAfter⟩ := h.mem_fifo_iff.mp hIn
    obtain rfl := List.inj_on_of_nodup_map s.msgsPkey hr' hr hId
    have hNil : r'.id ≠ uuidNil := fun hEq => (h r'.channel).start_not_mem (hEq ▸ hIn)
    refine ⟨rfl, by simp [hAfter], hNil, ?_⟩
    rintro ⟨r2, hr2, hAfter2⟩
    -- a link from another channel would put the row into that channel
    rcases h.pred_mem_fifo hr2 hAfter2 with hEq | hIn2
    · exact hNil hEq
    · have hChannel := h.channel_eq hr hIn2
      apply ((h r'.channel).unreferenced_iff (Or.inr hIn)).mpr hLast r2.id
      exact mem_linksIn.mpr ⟨r2, hr2, hChannel.symm, rfl, hAfter2⟩

/-- The tail query finds the last message of the chain, or the nil row when
the chain is empty. -/
theorem mqLatestMessage_eq (ch : Channel) :
    mqLatestMessage s ch.name ch.args = (s.fifo ch).getLastD uuidNil := by
  unfold mqLatestMessage
  have hMem : ∀ r, r ∈ (tailCandidates s ch.name ch.args).insertionSort
      MqMsg.newerFirst ↔ r ∈ tailCandidates s ch.name ch.args :=
    fun r => (List.perm_insertionSort _ _).mem_iff
  cases hSorted : (tailCandidates s ch.name ch.args).insertionSort MqMsg.newerFirst with
  | cons r rest =>
      have hIn := (hMem r).mp (hSorted ▸ List.mem_cons_self)
      have hr : r ∈ s.msgs := (List.mem_filter.mp hIn).1
      exact ((h.mem_tailCandidates_iff hr).mp hIn).2
  | nil =>
      cases hFifo : s.fifo ch with
      | nil => rfl
      | cons a rest =>
          have hLast : (s.fifo ch).getLastD uuidNil ∈ s.fifo ch := by
            rw [hFifo, List.getLastD_cons]
            exact List.getLastD_mem_cons
          obtain ⟨r, hr, -, hId, -⟩ := h.mem_fifo_iff.mp hLast
          have hIn := (hMem r).mpr ((h.mem_tailCandidates_iff hr).mpr ⟨hId ▸ hLast, hId⟩)
          simp [hSorted] at hIn

end Chained

end Read

end Sqlxmq
