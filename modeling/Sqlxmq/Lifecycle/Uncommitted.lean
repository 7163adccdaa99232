import Sqlxmq.Lifecycle.TwoPhase

/-! The other half of two-phase commit: a message that was only reserved is
not run. Between the poll and the dispatch other transactions may come, so the
invariant is about all of the runners' batches and not only about the store. -/
namespace Sqlxmq

open KeyedTable SqlNull LabelledRun

/-- Only a commit of a message makes it committed. -/
theorem RowStep.uncommitted {r r' : MqMsg} {op : Op} {reply : Reply} (h : RowStep r op reply r')
    (hOpen : r.commitInterval ≠ none) (hCommitted : r'.commitInterval = none) :
    ∃ msgIds, op = .commit msgIds ∧ r.id ∈ msgIds := by
  cases h with
  | poll ready row returned =>
      rw [(pollRow_eq_ok row).2] at hCommitted
      exact absurd hCommitted hOpen
  | @commit msgIds =>
      unfold commitRow at hCommitted
      split at hCommitted
      · rename_i hTakes
        exact ⟨msgIds, rfl, hTakes.1⟩
      · exact absurd hCommitted hOpen
  | keepAlive =>
      unfold keepAliveRow at hCommitted
      split at hCommitted
      · rename_i hTakes
        obtain ⟨a, ha, -⟩ := isLt_iff.mp hTakes.2
        obtain ⟨c, hc⟩ := Option.ne_none_iff_exists'.mp hOpen
        simp [ha, hc] at hCommitted
      · exact absurd hCommitted hOpen
  | checkpoint row =>
      rw [(checkpointRow_eq_ok row).2] at hCommitted
      exact absurd hCommitted hOpen
  | relink gone noGrant notReturned =>
      rw [setDefault_eq] at hCommitted
      exact absurd hCommitted hOpen

namespace TwoPhaseState

/-- The message was sent without a commit interval, or a commit took effect. -/
def Permitted (x : TwoPhaseState) (id : Uuid) : Prop :=
  (∃ m ∈ x.session.inserted.flatten, m.id = id ∧ m.commitInterval = none) ∨ id ∈ x.committed

/-- Wherever a message counts as committed, it may be run. -/
structure Guarded (x : TwoPhaseState) : Prop where
  rows : ∀ r ∈ x.session.store.msgs, r.id ≠ uuidNil → r.commitInterval = none → x.Permitted r.id
  batches : ∀ n messages, x.runners n = .polled messages ∨ x.runners n = .cleaned messages →
    ∀ id ∈ (dispatched messages).map CurrentJob.id, x.Permitted id
  started : ∀ id ∈ x.started, x.Permitted id

theorem guarded_start (migratedAt : Timestamp) : Guarded (start migratedAt) where
  rows := by
    intro r hr hNotNil
    obtain rfl := List.mem_singleton.mp hr
    exact absurd rfl hNotNil
  batches := by simp [start]
  started := by simp [start]

section Steps

variable [JsonbCast] {x : TwoPhaseState} {op : Op} {s' : Store} {reply : Reply} {n : Nat}

theorem Permitted.call {id : Uuid} (h : x.Permitted id) (op : Op) : (x.call op).Permitted id := by
  rcases h with ⟨m, hm, hSent⟩ | hCommitted
  · refine Or.inl ⟨m, ?_, hSent⟩
    cases hExec : exec op x.session.store with
    | error e => simpa [TwoPhaseState.call, Session.call, hExec] using hm
    | ok result =>
        rw [TwoPhaseState.call, Session.call_eq hExec, List.flatten_append]
        exact List.mem_append_left _ hm
  · exact Or.inr (List.mem_append_left _ hCommitted)

namespace Guarded

variable (h : Guarded x)
include h

/-- A row that a call leaves committed was so before, or was just sent, or is
committed by this very call. -/
theorem rows_call (hExec : exec op x.session.store = .ok (s', reply)) :
    ∀ r' ∈ s'.msgs, r'.id ≠ uuidNil → r'.commitInterval = none → (x.call op).Permitted r'.id := by
  intro r' hr' hNotNil hCommitted
  rcases exec_row_cases hExec hr' with ⟨r, hr, hStep⟩ | ⟨now, batch, rfl, m, hm, previous, hRow⟩
  · have hId := hStep.continues.id
    by_cases hOpen : r.commitInterval = none
    · rw [hId]
      exact (h.rows r hr (hId ▸ hNotNil) hOpen).call op
    · obtain ⟨msgIds, rfl, hIn⟩ := hStep.uncommitted hOpen hCommitted
      refine Or.inr (List.mem_append_right _ (List.mem_filter.mpr ⟨hId ▸ hIn, ?_⟩))
      simp [hId, Store.row_of_mem hr, hOpen]
  · refine Or.inl ⟨m, ?_, ?_⟩
    · rw [TwoPhaseState.call, Session.call_eq hExec, List.flatten_append]
      exact List.mem_append_right _ (by simpa [Op.batches] using hm)
    · rw [(newMsg_eq_ok hRow).2] at hCommitted ⊢
      exact ⟨rfl, hCommitted⟩

theorem call (hExec : exec op x.session.store = .ok (s', reply)) : Guarded (x.call op) := by
  refine ⟨?_, fun n messages hPhase id hId => ?_, fun id hId => ?_⟩
  · rw [TwoPhaseState.call, Session.call_eq hExec]
    have hRows := h.rows_call hExec
    rw [TwoPhaseState.call, Session.call_eq hExec] at hRows
    exact hRows
  · exact (h.batches n messages hPhase id hId).call op
  · exact (h.started id hId).call op

omit [JsonbCast] in
/-- A runner goes on with rows that may be run. -/
theorem setRunner {phase : BatchPhase} (hPhase : ∀ messages, phase = .polled messages ∨
    phase = .cleaned messages → ∀ id ∈ (dispatched messages).map CurrentJob.id, x.Permitted id) :
    Guarded (x.setRunner n phase) := by
  refine ⟨h.rows, fun k messages hHeld => ?_, h.started⟩
  by_cases hSame : k = n
  · subst hSame
    rw [setRunner_self] at hHeld
    exact hPhase messages hHeld
  · rw [setRunner_of_ne hSame] at hHeld
    exact h.batches k messages hHeld

/-- A poll says that a message is committed only if its row is. -/
theorem polled (hExec : exec op x.session.store = .ok (s', reply)) :
    ∀ id ∈ (dispatched reply.polled).map CurrentJob.id, (x.call op).Permitted id := by
  intro id hId
  obtain ⟨job, hJob, rfl⟩ := List.mem_map.mp hId
  obtain ⟨msg, hMsg, hPattern⟩ := List.mem_filterMap.mp hJob
  obtain ⟨hMsgId, hTrue⟩ := currentJob_id hPattern
  obtain ⟨choice, now, channelNames, batchSize, rfl, hPoll⟩ := exec_polled hExec hMsg
  obtain ⟨r, -, hRowId, hReady, r', hr', hRow, rfl⟩ := mqPoll_polled hPoll hMsg hMsgId
  have hSame : r'.id = job.id := Option.some.inj hMsgId
  have hNotNil : r'.id ≠ uuidNil := by
    rw [(pollRow_sameIdentity _ _ hRow).id]
    exact hReady.notNil
  have hCommitted : r'.commitInterval = none := by simpa [returning] using hTrue
  exact hSame ▸ h.rows_call hExec r' hr' hNotNil hCommitted

theorem step {event : TwoPhaseEvent} {y : TwoPhaseState} (hStep : TwoPhaseStep x event y) :
    Guarded y := by
  cases hStep with
  | client noPoll fresh finished done => exact h.call done
  | poll isPoll idle done =>
      refine (h.call done).setRunner fun messages hPhase => ?_
      simp only [BatchPhase.polled.injEq, reduceCtorEq, or_false] at hPhase
      exact hPhase ▸ h.polled done
  | @nothingExpired n messages polled none =>
      refine h.setRunner fun held hPhase => ?_
      simp only [BatchPhase.cleaned.injEq, reduceCtorEq, false_or] at hPhase
      exact hPhase ▸ h.batches n messages (Or.inl polled)
  | @clean n messages result polled some done =>
      refine (h.call done).setRunner fun held hPhase id hId => ?_
      simp only [BatchPhase.cleaned.injEq, reduceCtorEq, false_or] at hPhase
      exact (h.batches n messages (Or.inl polled) id (hPhase ▸ hId)).call _
  | @dispatch n messages cleaned =>
      have hIdle : Guarded (x.setRunner n .idle) := h.setRunner (by simp)
      refine ⟨hIdle.rows, hIdle.batches, fun id hId => ?_⟩
      rcases List.mem_append.mp hId with hOld | hNew
      · exact h.started id hOld
      · exact h.batches n messages (Or.inr cleaned) id hNew

end Guarded

end Steps

/-- A reserved message is not run. In every interleaving of the transactions of
clients and runners, with commits at any time, each message that was
dispatched was sent without a commit interval, or a commit took effect on it. -/
theorem uncommitted_not_started [JsonbCast] {migratedAt : Timestamp} {events : List TwoPhaseEvent}
    {x : TwoPhaseState} (run : Run TwoPhaseStep (start migratedAt) events x) :
    ∀ id ∈ x.started, (∃ m ∈ x.session.inserted.flatten, m.id = id ∧ m.commitInterval = none) ∨
      id ∈ x.committed :=
  (run.invariant (guarded_start migratedAt) fun _ _ _ hGuarded hStep => hGuarded.step hStep).started

/-- A reserved job that is committed, polled and dispatched. -/
theorem uncommitted_not_started_of_commit :
    let _ : JsonbCast := .nullOnly
    let x := polled 0 (inserted.call (.commit [1]))
    ∃ (messages : List PolledMessage) (y : TwoPhaseState), x.runners 0 = .polled messages ∧
      y.started = [1] ∧
      ((∃ m ∈ y.session.inserted.flatten, m.id = 1 ∧ m.commitInterval = none) ∨ 1 ∈ y.committed) := by
  intro _ x
  have hPolled : (match x.runners 0 with
      | .polled messages => (idsToDelete messages, (dispatched messages).map CurrentJob.id)
      | _ => ([], [])) = ([], [1]) := by decide +kernel
  obtain ⟨messages, hMessages⟩ : ∃ messages, x.runners 0 = .polled messages := ⟨_, rfl⟩
  rw [hMessages] at hPolled
  obtain ⟨hNothing, hJobs⟩ := Prod.mk.inj hPolled
  let z := x.setRunner 0 (.cleaned messages)
  let y := { z.setRunner 0 .idle with started := z.started ++ (dispatched messages).map CurrentJob.id }
  have run : Run TwoPhaseStep (start 0)
      [.client (.insert 0 [reserved]), .client (.commit [1]), .poll 0 (.pollOne 0), .clean 0,
        .dispatch 0] y :=
    .cons inserted_step (.cons (.client rfl trivial (by simp)
      (eq_ok_getD_of_isSome (by rfl) (.initial 0, .silent))) (.cons (polled_step rfl (by rfl))
        (.cons (.nothingExpired hMessages hNothing) (.cons (.dispatch setRunner_self) .refl))))
  have hStarted : y.started = [1] := by
    show [] ++ (dispatched messages).map CurrentJob.id = [1]
    rw [hJobs, List.nil_append]
  exact ⟨messages, y, hMessages, hStarted,
    uncommitted_not_started run 1 (hStarted ▸ List.mem_singleton_self 1)⟩

end TwoPhaseState

end Sqlxmq
