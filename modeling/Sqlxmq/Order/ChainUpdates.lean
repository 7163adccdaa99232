import Sqlxmq.Order.Chains

/-! What inserting and deleting do to the chains. An accepted insert extends
every chain at its end. A delete keeps the order of what is left, and it is
accepted exactly when it leaves no gap. -/
namespace Sqlxmq

open KeyedTable PredecessorLinks

section Insert

variable [JsonbCast] {now : Timestamp} {newMessages : List MqNew} {snapshot s s' : Store}
  {new : NewRows}

/-- In each channel the prepared rows continue the tail of the snapshot. -/
theorem linksIn_newRows (h : newRows now newMessages snapshot = .ok new) (ch : Channel) :
    linksIn ch new.msgs =
      links (mqLatestMessage snapshot ch.name ch.args) (orderedIds newMessages ch) := by
  rw [← lagged_links]
  refine evaluate_filterMap (MqMsg.link ch) (newLink ch) ?_ (newRows_eq_ok_iff.mp h).2
  intro e r hr
  rw [(newMsg_eq_ok hr).2]
  obtain ⟨m, previous⟩ := e
  cases hOrdered : m.ordered <;>
    simp [MqMsg.link, newLink, MqMsg.channel, MqNew.channel, hOrdered]

/-- The new identifiers are distinct and unused. -/
theorem insertRows_fresh (hNew : newRows now newMessages snapshot = .ok new)
    (hInsert : insertRows s new = .ok s') :
    (newMessages.map MqNew.id).Nodup ∧ ∀ m ∈ newMessages, m.id ∉ s.ids := by
  have hPkey := s'.msgsPkey
  rw [(insertRows_eq_ok hInsert).1, List.map_append] at hPkey
  obtain ⟨-, hNodup, hDisjoint⟩ := List.nodup_append.mp hPkey
  refine ⟨(newRows_msg_ids hNew).nodup_iff.mp hNodup, fun m hm hOld => ?_⟩
  exact hDisjoint m.id hOld m.id ((newRows_msg_ids hNew).mem_iff.mpr (List.mem_map_of_mem hm)) rfl

/-- Prepared rows continue the chains if they are linked to the tails. -/
theorem Chained.append_newRows (h : Chained s) (hNil : uuidNil ∈ s.ids)
    (hNew : newRows now newMessages snapshot = .ok new)
    (hNodup : (newMessages.map MqNew.id).Nodup) (hFresh : ∀ m ∈ newMessages, m.id ∉ s.ids)
    {ch : Channel} (hTail : orderedIds newMessages ch ≠ [] →
      mqLatestMessage snapshot ch.name ch.args = (s.fifo ch).getLastD uuidNil) :
    Represents (linksIn ch (s.msgs ++ new.msgs)) uuidNil
      (s.fifo ch ++ orderedIds newMessages ch) := by
  have hUnused {a : Uuid} (ha : a ∈ orderedIds newMessages ch) : a ∉ s.ids := by
    obtain ⟨m, hm, -, -, rfl⟩ := mem_orderedIds.mp ha
    exact hFresh m hm
  have hAll : (uuidNil :: (s.fifo ch ++ orderedIds newMessages ch)).Nodup := by
    rw [← List.cons_append, List.nodup_append]
    refine ⟨(h ch).nodup, orderedIds_nodup hNodup ch, ?_⟩
    rintro a ha _ hb rfl
    rcases List.mem_cons.mp ha with rfl | ha
    · exact hUnused hb hNil
    · exact hUnused hb (h.mem_ids_of_mem_fifo ha)
  rw [linksIn_append, linksIn_newRows hNew]
  refine (h ch).append ?_ hAll
  by_cases hEmpty : orderedIds newMessages ch = []
  · simp [hEmpty, links]
  · rw [hTail hEmpty]

/-- A stale insert is accepted only if it is not stale after all. It suffices
that the tail of the snapshot is still in the chain: the unique index then
forces it to be the tail of the store. -/
theorem Chained.insertRows (h : Chained s) (hNil : uuidNil ∈ s.ids)
    (hNew : newRows now newMessages snapshot = .ok new)
    (hInsert : Sqlxmq.insertRows s new = .ok s')
    (hTail : ∀ ch, orderedIds newMessages ch ≠ [] →
      mqLatestMessage snapshot ch.name ch.args = uuidNil ∨
        mqLatestMessage snapshot ch.name ch.args ∈ s.fifo ch) (ch : Channel) :
    Represents (linksIn ch s'.msgs) uuidNil (s.fifo ch ++ orderedIds newMessages ch) := by
  obtain ⟨hNodup, hFresh⟩ := insertRows_fresh hNew hInsert
  have hUnique := s'.snd_linksIn_nodup ch
  rw [(insertRows_eq_ok hInsert).1] at hUnique ⊢
  apply h.append_newRows hNil hNew hNodup hFresh
  intro hOrdered
  rw [linksIn_append, linksIn_newRows hNew] at hUnique
  cases hIds : orderedIds newMessages ch with
  | nil => exact absurd hIds hOrdered
  | cons a m =>
      rw [hIds] at hUnique
      exact (h ch).eq_getLastD_of_snd_nodup (hTail ch hOrdered) hUnique

/-- A single insert transaction computes its links from the store it writes
to. -/
theorem Chained.insert (h : Chained s) (hNil : uuidNil ∈ s.ids)
    (hNew : newRows now newMessages s = .ok new) (hInsert : Sqlxmq.insertRows s new = .ok s')
    (ch : Channel) :
    Represents (linksIn ch s'.msgs) uuidNil (s.fifo ch ++ orderedIds newMessages ch) := by
  obtain ⟨hNodup, hFresh⟩ := insertRows_fresh hNew hInsert
  rw [(insertRows_eq_ok hInsert).1]
  exact h.append_newRows hNil hNew hNodup hFresh fun _ => h.mqLatestMessage_eq ch

end Insert

section Delete

variable {p : MqMsg → Bool} {s t : Store}

theorem setDefault_link (gone : List Uuid) (ch : Channel) (r : MqMsg) :
    (setDefault gone r).link ch =
      (r.link ch).map fun e => (e.1, if e.2 ∈ gone then uuidNil else e.2) := by
  unfold MqMsg.link
  rw [setDefault_channel, setDefault_id, setDefault_afterMessageId]
  split
  · simp [Option.map_map, Function.comp_def]
  · rfl

private theorem linksIn_setDefault {gone : List Uuid} {rows : List MqMsg}
    (hGone : ∀ r ∈ rows, r.id ∈ gone ↔ p r = true) (ch : Channel) :
    linksIn ch ((rows.filter fun r => !p r).map (setDefault gone)) =
      relink (· ∈ gone) uuidNil (linksIn ch rows) := by
  induction rows with
  | nil => rfl
  | cons r rest ih =>
      have hRest := ih fun r' hr' => hGone r' (List.mem_cons_of_mem _ hr')
      have hHead := hGone r (by simp)
      cases hp : p r with
      | true =>
          have hIn : r.id ∈ gone := hHead.mpr hp
          rw [List.filter_cons_of_neg (by simp [hp]), hRest]
          cases hLink : r.link ch with
          | none => rw [linksIn, linksIn, List.filterMap_cons_none hLink]
          | some e =>
              obtain ⟨-, hId, -⟩ := MqMsg.link_eq_some_iff.mp hLink
              rw [linksIn, linksIn, List.filterMap_cons_some hLink]
              exact (relink_cons_gone (by simpa [← hId] using hIn)).symm
      | false =>
          have hNotIn : r.id ∉ gone := fun hIn => by simp [hp] at hHead; exact hHead hIn
          rw [List.filter_cons_of_pos (by simp [hp]), List.map_cons]
          have hSet := setDefault_link gone ch r
          cases hLink : r.link ch with
          | none =>
              rw [hLink] at hSet
              rw [linksIn, List.filterMap_cons_none hSet, linksIn, List.filterMap_cons_none hLink]
              exact hRest
          | some e =>
              obtain ⟨-, hId, -⟩ := MqMsg.link_eq_some_iff.mp hLink
              rw [hLink] at hSet
              rw [linksIn, List.filterMap_cons_some hSet, linksIn, List.filterMap_cons_some hLink,
                relink_cons_kept (by simpa [← hId] using hNotIn)]
              exact congrArg₂ List.cons (by simp) hRest

/-- The foreign key action relinks the chains. -/
theorem linksIn_remaining (p : MqMsg → Bool) (s : Store) (ch : Channel) :
    linksIn ch (s.remaining p) = relink (· ∈ s.selectedIds p) uuidNil (linksIn ch s.msgs) :=
  linksIn_setDefault (fun _ hr => Store.mem_selectedIds hr) ch

/-- The unique index accepts what is left exactly when every chain keeps a
contiguous part. -/
theorem Chained.uniqueOn_remaining_iff (h : Chained s) (hNil : uuidNil ∉ s.selectedIds p) :
    UniqueOn MqMsg.orderKey (s.remaining p) ↔
      ∀ ch, Contiguous (· ∈ s.selectedIds p) (s.fifo ch) := by
  rw [uniqueOn_orderKey_iff]
  apply forall_congr'
  intro ch
  rw [linksIn_remaining]
  exact (h ch).relink_snd_nodup_iff (by simpa using hNil)

/-- A delete that succeeds removes its identifiers from the chains and keeps
the order of the others. -/
theorem Chained.deleteMsgs (h : Chained s) (hNil : uuidNil ∉ s.selectedIds p)
    (hDelete : s.deleteMsgs p = .ok t) (ch : Channel) :
    Represents (linksIn ch t.msgs) uuidNil ((s.fifo ch).filter (· ∉ s.selectedIds p)) := by
  have hMsgs := (Store.deleteMsgs_eq_ok hDelete).1
  have hUnique := t.afterIdx
  rw [hMsgs] at hUnique
  rw [hMsgs, linksIn_remaining]
  simpa using (h ch).relink (by simpa using hNil) ((h.uniqueOn_remaining_iff hNil).mp hUnique ch)

/-- Where a message is promoted to the head of its channel, the old head was
deleted. -/
theorem Chained.head_deleted (h : Chained s) (hNil : uuidNil ∉ s.selectedIds p)
    (hDelete : s.deleteMsgs p = .ok t) {r : MqMsg} (hr : r ∈ s.msgs) (hKept : p r = false)
    {a : Uuid} (hAfter : r.afterMessageId = some a) (hGone : a ∈ s.selectedIds p) :
    ∃ r₀ ∈ s.msgs, p r₀ = true ∧ r₀.channel = r.channel ∧ r₀.afterMessageId = some uuidNil := by
  have hIn : r.id ∈ s.fifo r.channel := h.mem_fifo_iff.mpr ⟨r, hr, rfl, rfl, a, hAfter⟩
  obtain ⟨b, hHead⟩ : ∃ b, (s.fifo r.channel).head? = some b := by
    cases hFifo : s.fifo r.channel with
    | nil => simp [hFifo] at hIn
    | cons b rest => exact ⟨b, rfl⟩
  have hHeadLink := ((h r.channel).head_iff b).mpr hHead
  obtain ⟨r₀, hr₀, hChannel, rfl, hAfter₀⟩ := mem_linksIn.mp hHeadLink
  refine ⟨r₀, hr₀, ?_, hChannel, hAfter₀⟩
  by_contra hHeadKept
  -- both the old head and the promoted message would now follow the nil row
  have hUnique := t.snd_linksIn_nodup r.channel
  rw [(Store.deleteMsgs_eq_ok hDelete).1, linksIn_remaining] at hUnique
  have hOld : (r₀.id, uuidNil) ∈ relink (· ∈ s.selectedIds p) uuidNil (linksIn r.channel s.msgs) := by
    refine List.mem_map.mpr ⟨(r₀.id, uuidNil), List.mem_filter.mpr ⟨hHeadLink, ?_⟩, by simp [hNil]⟩
    simpa [Store.mem_selectedIds hr₀] using hHeadKept
  have hNew : (r.id, uuidNil) ∈ relink (· ∈ s.selectedIds p) uuidNil (linksIn r.channel s.msgs) := by
    refine List.mem_map.mpr ⟨(r.id, a), List.mem_filter.mpr ⟨?_, ?_⟩, by simp [hGone]⟩
    · exact mem_linksIn.mpr ⟨r, hr, rfl, rfl, hAfter⟩
    · simp [Store.mem_selectedIds hr, hKept]
  have hSame := congrArg Prod.fst (List.inj_on_of_nodup_map hUnique hOld hNew rfl)
  obtain rfl := List.inj_on_of_nodup_map s.msgsPkey hr₀ hr hSame
  rw [hAfter₀, Option.some.injEq] at hAfter
  exact hNil (hAfter ▸ hGone)

end Delete

end Sqlxmq
