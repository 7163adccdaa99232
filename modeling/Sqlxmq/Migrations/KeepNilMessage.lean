import Sqlxmq.Crate.JobBuilder
import Sqlxmq.Order.Integrity

/-! The first versions of `mq_clear` and `mq_clear_all` did not spare the nil
row. Without it no ordered message can be sent, and the migration that fixes
them does not bring it back. -/
namespace Sqlxmq

open KeyedTable PredecessorLinks LabelledRun

namespace Clear

/-- Deletes all messages from a list of channel names. -/
def mqClear (channelNames : List String) (s : Store) : Except DbError Store := do
  let p : MqMsg → Bool := fun r => r.channelName ∈ channelNames
  let s' ← s.deleteMsgs p
  .ok (s'.deletePayloads (s.selectedIds p))

/-- Deletes all messages. -/
def mqClearAll (s : Store) : Except DbError Store := do
  let p : MqMsg → Bool := fun _ => true
  let s' ← s.deleteMsgs p
  .ok (s'.deletePayloads (s.selectedIds p))

section Calls

variable [JsonbCast]

/-- The calls of a database before or after the migration. -/
def exec (migrated : Bool) (op : Op) (s : Store) : Except DbError (Store × Reply) :=
  match migrated, op with
  | false, .clear channelNames => do
      let s' ← mqClear channelNames s
      .ok (s', .silent)
  | false, .clearAll => do
      let s' ← mqClearAll s
      .ok (s', .silent)
  | _, op => Sqlxmq.exec op s

/-- One transaction. A failed call leaves no trace. -/
def call (migrated : Bool) (op : Op) (s : Store) : Store :=
  match exec migrated op s with
  | .ok (s', _) => s'
  | .error _ => s

/-- A call of either version, that does not send a message with the nil UUID. -/
def Step (s : Store) (c : Bool × Op) (t : Store) : Prop :=
  (∀ m ∈ c.2.batches.flatten, m.id ≠ uuidNil) ∧ t = call c.1 c.2 s

end Calls

/-- There is no nil row, and no row needs it. -/
structure NilLost (s : Store) : Prop where
  nil : uuidNil ∉ s.ids
  unordered : ∀ r ∈ s.msgs, r.afterMessageId = none

section Lost

variable {s s' t : Store}

theorem deleteMsgs_continues {p : MqMsg → Bool} (hDelete : s.deleteMsgs p = .ok t) :
    ∀ r' ∈ t.msgs, ∃ r ∈ s.msgs, p r = false ∧ Continues r r' := by
  intro r' hr'
  rw [(Store.deleteMsgs_eq_ok hDelete).1] at hr'
  obtain ⟨r, hr, rfl⟩ := List.mem_map.mp hr'
  obtain ⟨hIn, hKept⟩ := List.mem_filter.mp hr
  exact ⟨r, hIn, by simpa using hKept, setDefault_continues _ r⟩

/-- Nothing that is left becomes ordered, and no row becomes the nil row. -/
theorem NilLost.of_continues (h : NilLost s)
    (hRows : ∀ r' ∈ s'.msgs, ∃ r ∈ s.msgs, Continues r r') : NilLost s' where
  nil := by
    intro hNil
    obtain ⟨r', hr', hId⟩ := List.mem_map.mp hNil
    obtain ⟨r, hr, hContinues⟩ := hRows r' hr'
    exact h.nil (List.mem_map.mpr ⟨r, hr, hContinues.id.symm.trans hId⟩)
  unordered := by
    intro r' hr'
    obtain ⟨r, hr, hContinues⟩ := hRows r' hr'
    have hSome := hContinues.isSome
    rw [h.unordered r hr] at hSome
    simpa using hSome

theorem NilLost.of_deleteMsgs (h : NilLost s) {p : MqMsg → Bool} (hDelete : s.deleteMsgs p = .ok t)
    (ids : List Uuid) : NilLost (t.deletePayloads ids) :=
  h.of_continues fun r' hr' => by
    obtain ⟨r, hr, -, hContinues⟩ := deleteMsgs_continues hDelete r' hr'
    exact ⟨r, hr, hContinues⟩

theorem NilLost.mqLatestMessage_eq (h : NilLost s) (ch : Channel) :
    mqLatestMessage s ch.name ch.args = uuidNil := by
  have hNone (ch : Channel) : linksIn ch s.msgs = [] := by
    rw [List.eq_nil_iff_forall_not_mem]
    rintro ⟨a, p⟩ hLink
    obtain ⟨r, hr, -, -, hAfter⟩ := mem_linksIn.mp hLink
    rw [h.unordered r hr] at hAfter
    cases hAfter
  have hChained : Chained s := chained_of_represents (fun _ => []) fun ch => by
    rw [hNone ch]
    exact .empty uuidNil
  have hEmpty : s.fifo ch = [] := Store.fifo_eq (hNone ch ▸ Represents.empty uuidNil)
  rw [hChained.mqLatestMessage_eq, hEmpty]
  rfl

variable [JsonbCast]

/-- The first ordered message of a batch needs the nil row. -/
theorem NilLost.unordered_of_insert (h : NilLost s) {now : Timestamp} {newMessages : List MqNew}
    (hNotNil : ∀ m ∈ newMessages, m.id ≠ uuidNil) {new : NewRows}
    (hNew : newRows now newMessages s = .ok new) (hInsert : insertRows s new = .ok s') :
    ∀ m ∈ newMessages, m.ordered = false := by
  intro m hm
  by_contra hOrdered
  have hIn : m.id ∈ orderedIds newMessages m.channel :=
    mem_orderedIds.mpr ⟨m, hm, rfl, by simpa using hOrdered, rfl⟩
  obtain ⟨a, rest, hIds⟩ := List.exists_cons_of_ne_nil (List.ne_nil_of_mem hIn)
  have hLink : (a, uuidNil) ∈ linksIn m.channel new.msgs := by
    rw [linksIn_newRows hNew, h.mqLatestMessage_eq, hIds]
    exact List.mem_cons_self
  obtain ⟨r, hr, -, -, hAfter⟩ := mem_linksIn.mp hLink
  have hMsgs := (insertRows_eq_ok hInsert).1
  have hNil := s'.afterFkey r (hMsgs ▸ List.mem_append_right _ hr) uuidNil hAfter
  rw [hMsgs, List.map_append] at hNil
  rcases List.mem_append.mp hNil with hOld | hNewId
  · exact h.nil hOld
  · rw [(newRows_msg_ids hNew).mem_iff] at hNewId
    obtain ⟨m', hm', hId⟩ := List.mem_map.mp hNewId
    exact hNotNil m' hm' hId

/-- A first version of clearing deletes rows, and the other calls are the same. -/
theorem exec_cases {migrated : Bool} {op : Op} {reply : Reply}
    (hExec : exec migrated op s = .ok (s', reply)) :
    (∃ p u, s.deleteMsgs p = .ok u ∧ s' = u.deletePayloads (s.selectedIds p)) ∨
      Sqlxmq.exec op s = .ok (s', reply) := by
  cases migrated with
  | true => exact Or.inr hExec
  | false =>
      cases op with
      | clear channelNames =>
          obtain ⟨t, hClear, hEq⟩ := bind_eq_ok_iff.mp hExec
          obtain ⟨u, hDelete, hPayloads⟩ := bind_eq_ok_iff.mp hClear
          cases hEq
          exact Or.inl ⟨_, u, hDelete, (Except.ok.inj hPayloads).symm⟩
      | clearAll =>
          obtain ⟨t, hClear, hEq⟩ := bind_eq_ok_iff.mp hExec
          obtain ⟨u, hDelete, hPayloads⟩ := bind_eq_ok_iff.mp hClear
          cases hEq
          exact Or.inl ⟨_, u, hDelete, (Except.ok.inj hPayloads).symm⟩
      | _ => exact Or.inr hExec

/-- An insert that is accepted has no ordered message. -/
theorem NilLost.insert (h : NilLost s) {migrated : Bool} {now : Timestamp}
    {newMessages : List MqNew} (hNotNil : ∀ m ∈ newMessages, m.id ≠ uuidNil) {reply : Reply}
    (hExec : exec migrated (.insert now newMessages) s = .ok (s', reply)) :
    (∀ m ∈ newMessages, m.ordered = false) ∧ NilLost s' := by
  have hSame : Sqlxmq.exec (.insert now newMessages) s = .ok (s', reply) := by
    cases migrated <;> exact hExec
  obtain ⟨⟨t, notifications⟩, hInsert, hEq⟩ := bind_eq_ok_iff.mp hSame
  obtain ⟨-, new, hNew, hRows⟩ := mqInsert_eq_ok_iff.mp hInsert
  cases hEq
  have hUnordered := h.unordered_of_insert hNotNil hNew hRows
  have hMsgs := (insertRows_eq_ok hRows).1
  refine ⟨hUnordered, fun hNil => ?_, fun r hr => ?_⟩
  · rw [Store.ids, hMsgs, List.map_append] at hNil
    rcases List.mem_append.mp hNil with hOld | hNewId
    · exact h.nil hOld
    · rw [(newRows_msg_ids hNew).mem_iff] at hNewId
      obtain ⟨m, hm, hId⟩ := List.mem_map.mp hNewId
      exact hNotNil m hm hId
  · rcases List.mem_append.mp (hMsgs ▸ hr) with hOld | hRow
    · exact h.unordered r hOld
    · obtain ⟨m, hm, previous, hMsg⟩ := newRows_mem hNew hRow
      rw [(newMsg_eq_ok hMsg).2, hUnordered m hm]
      rfl

theorem NilLost.step (h : NilLost s) {c : Bool × Op} (hStep : Step s c t) : NilLost t := by
  obtain ⟨hNotNil, rfl⟩ := hStep
  obtain ⟨migrated, op⟩ := c
  unfold call
  cases hExec : exec migrated op s with
  | error e => exact h
  | ok result =>
      obtain ⟨s', reply⟩ := result
      rcases exec_cases hExec with ⟨p, u, hDelete, rfl⟩ | hSame
      · exact h.of_deleteMsgs hDelete _
      · cases op with
        | insert now newMessages =>
            exact (h.insert (by simpa [Op.batches] using hNotNil) hExec).2
        | _ =>
            refine h.of_continues fun r' hr' => ?_
            rcases exec_row_origin hSame hr' with hOld | ⟨_, _, hOp, -⟩
            · exact hOld
            · cases hOp

end Lost

/-- The conditions of a DELETE only matter on stored rows. -/
theorem deleteMsgs_congr {p q : MqMsg → Bool} {s : Store} (h : ∀ r ∈ s.msgs, p r = q r) :
    s.deleteMsgs p = s.deleteMsgs q ∧ s.selectedIds p = s.selectedIds q := by
  have hIds : s.selectedIds p = s.selectedIds q := by
    rw [Store.selectedIds, Store.selectedIds, List.filter_congr h]
  have hRemaining : s.remaining p = s.remaining q := by
    rw [Store.remaining, Store.remaining, hIds]
    exact congrArg _ (List.filter_congr fun r hr => by rw [h r hr])
  exact ⟨by simp only [Store.deleteMsgs, hRemaining], hIds⟩

/-- The nil row is in the channel without a name. -/
def NilChannel (s : Store) : Prop := ∀ r ∈ s.msgs, r.id = uuidNil → r.channelName = ""

section Clear

variable {s s' : Store} {channelNames : List String}

theorem mqClear_eq (hChannel : NilChannel s) (hOther : "" ∉ channelNames) :
    mqClear channelNames s = Sqlxmq.mqClear channelNames s := by
  have hSelects : ∀ r ∈ s.msgs, decide (r.channelName ∈ channelNames) =
      decide (r.channelName ∈ channelNames ∧ r.id ≠ uuidNil) := by
    intro r hr
    rw [decide_eq_decide]
    exact ⟨fun hIn => ⟨hIn, fun hNil => hOther (hChannel r hr hNil ▸ hIn)⟩, And.left⟩
  obtain ⟨hDelete, hIds⟩ := deleteMsgs_congr hSelects
  unfold mqClear Sqlxmq.mqClear
  dsimp only
  rw [hDelete, hIds]

/-- A chain that is left would still begin at the nil row. -/
theorem nilLost_of_clear (h : Integrity s) (hChannel : NilChannel s) (hNil : "" ∈ channelNames)
    (hClear : mqClear channelNames s = .ok s') : NilLost s' := by
  obtain ⟨t, hDelete, hPayloads⟩ := bind_eq_ok_iff.mp hClear
  cases hPayloads
  have hGone : uuidNil ∉ t.ids := by
    intro hIn
    obtain ⟨r', hr', hId⟩ := List.mem_map.mp hIn
    obtain ⟨r, hr, hKept, hContinues⟩ := deleteMsgs_continues hDelete r' hr'
    rw [hChannel r hr (hContinues.id.symm.trans hId)] at hKept
    simp [hNil] at hKept
  refine ⟨hGone, fun r' hr' => ?_⟩
  by_contra hOrdered
  obtain ⟨r, hr, hKept, hContinues⟩ := deleteMsgs_continues hDelete r' hr'
  have hSome : r.afterMessageId ≠ none := by
    rw [← Option.isSome_iff_ne_none, ← hContinues.isSome]
    exact Option.isSome_iff_ne_none.mpr hOrdered
  obtain ⟨a, rest, hFifo⟩ := List.exists_cons_of_ne_nil (List.ne_nil_of_mem
    (h.chained.mem_fifo_iff.mpr ⟨r, hr, rfl, rfl, Option.ne_none_iff_exists'.mp hSome⟩))
  obtain ⟨head, hHead, hSame, rfl, -⟩ := h.chained.mem_fifo_iff.mp (hFifo ▸ List.mem_cons_self)
  have hFirst : head.afterMessageId = some uuidNil := by
    rw [h.chained.head_iff hHead, hSame, hFifo]
    rfl
  have hStays : decide (head.channelName ∈ channelNames) = false := by
    have hName : head.channelName = r.channelName := congrArg Channel.name hSame
    rwa [hName]
  have hLeft : setDefault (s.selectedIds fun r => decide (r.channelName ∈ channelNames)) head ∈
      t.msgs := by
    rw [(Store.deleteMsgs_eq_ok hDelete).1]
    exact List.mem_map_of_mem (List.mem_filter.mpr ⟨hHead, by simp [hStays]⟩)
  exact hGone (t.afterFkey _ hLeft uuidNil (by simp [hFirst]))

theorem nilLost_of_clearAll (hClear : mqClearAll s = .ok s') : NilLost s' := by
  obtain ⟨t, hDelete, hPayloads⟩ := bind_eq_ok_iff.mp hClear
  cases hPayloads
  have hEmpty : ∀ r ∈ t.msgs, False := by
    intro r hr
    obtain ⟨_, -, hKept, -⟩ := deleteMsgs_continues hDelete r hr
    cases hKept
  refine ⟨fun hNil => ?_, fun r hr => (hEmpty r hr).elim⟩
  obtain ⟨r, hr, -⟩ := List.mem_map.mp hNil
  exact hEmpty r hr

end Clear

section Runs

variable [JsonbCast] {migratedAt : Timestamp} {ops : List Op} {x : Session}

theorem nilChannel_of_run
    (run : Run (Session.Step fun _ op => op.sparesNil) (.start migratedAt) ops x) :
    NilChannel x.store := by
  have hBoth : Integrity x.store ∧ NilChannel x.store := by
    refine Session.run_invariant (P := fun x => Integrity x.store ∧ NilChannel x.store) run
      ⟨.initial migratedAt, fun r hr _ => by rw [List.mem_singleton.mp hr]⟩ ?_
    rintro x op s' reply ⟨h, hChannel⟩ hNil hExec
    refine ⟨h.of_exec hNil hExec, fun r' hr' hId => ?_⟩
    rcases exec_row_origin hExec hr' with ⟨r, hr, hContinues⟩ | ⟨now, newMessages, rfl, m, hm, _, hRow⟩
    · exact (congrArg Channel.name hContinues.channel).trans
        (hChannel r hr (hContinues.id.symm.trans hId))
    · obtain ⟨⟨t, notifications⟩, hInsert, -⟩ := bind_eq_ok_iff.mp hExec
      obtain ⟨-, new, hNew, hRows⟩ := mqInsert_eq_ok_iff.mp hInsert
      have hNilId : m.id = uuidNil := by
        rw [(newMsg_eq_ok hRow).2] at hId
        exact hId
      exact absurd (hNilId ▸ h.nil_mem_ids) ((insertRows_fresh hNew hRows).2 m hm)
  exact hBoth.2

/-- What the first version of clearing can break. It is the second version
unless it clears the channel without a name. Otherwise, once it has succeeded,
no ordered message can be sent again, before or after the migration. -/
theorem clear_loses_order
    (run : Run (Session.Step fun _ op => op.sparesNil) (.start migratedAt) ops x) :
    (∀ channelNames, "" ∉ channelNames →
      exec false (.clear channelNames) x.store = Sqlxmq.exec (.clear channelNames) x.store) ∧
    ∀ op, (op = .clearAll ∨ ∃ channelNames, "" ∈ channelNames ∧ op = .clear channelNames) →
      ∀ s reply, exec false op x.store = .ok (s, reply) → ∀ calls t, Run Step s calls t →
        ∀ migrated now newMessages result, (∀ m ∈ newMessages, m.id ≠ uuidNil) →
          (∃ m ∈ newMessages, m.ordered = true) →
            exec migrated (.insert now newMessages) t ≠ .ok result := by
  have h : Integrity x.store := (Session.run_integrity run fun _ _ _ hOp => hOp).1
  have hChannel := nilChannel_of_run run
  constructor
  · intro channelNames hOther
    show (mqClear channelNames x.store >>= _) = _
    rw [mqClear_eq hChannel hOther]
    rfl
  · intro op hOp s reply hExec calls t after migrated now newMessages result hNotNil hOrdered hInsert
    have hStart : NilLost s := by
      rcases hOp with rfl | ⟨channelNames, hNil, rfl⟩
      · obtain ⟨u, hClear, hEq⟩ := bind_eq_ok_iff.mp hExec
        cases hEq
        exact nilLost_of_clearAll hClear
      · obtain ⟨u, hClear, hEq⟩ := bind_eq_ok_iff.mp hExec
        cases hEq
        exact nilLost_of_clear h hChannel hNil hClear
    have hLost : NilLost t := after.invariant hStart fun _ _ _ hLost hStep => hLost.step hStep
    obtain ⟨m, hm, hSome⟩ := hOrdered
    have hNone := (hLost.insert hNotNil hInsert).1 m hm
    rw [hSome] at hNone
    cases hNone

end Runs

/-- The first version of `mq_clear_all`, then the migration, then an ordered
message. -/
theorem clear_loses_order_of_clear_all :
    let _ : JsonbCast := .nullOnly
    let s := call false .clearAll (.initial 0)
    s.ids = [] ∧ ∀ result,
      exec true (.insert 1 [JobBuilder.orderedMessage 1 "job"]) s ≠ .ok result := by
  intro _ s
  have hCleared : (exec false .clearAll (.initial 0)).toOption.isSome := by decide +kernel
  have hExec := eq_ok_getD_of_isSome hCleared (.initial 0, .silent)
  have hStore : s = ((exec false .clearAll (.initial 0)).toOption.getD (.initial 0, .silent)).1 := by
    simp only [s, call]
    rw [hExec]
    rfl
  refine ⟨by decide +kernel, fun result => ?_⟩
  rw [hStore]
  exact (@clear_loses_order .nullOnly 0 [] (.start 0) .refl).2 .clearAll (Or.inl rfl) _ _ hExec [] _ .refl
    true 1 _ result (by decide) (by decide)

end Clear

end Sqlxmq
