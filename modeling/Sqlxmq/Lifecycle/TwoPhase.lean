import Sqlxmq.Crate.Api
import Sqlxmq.Database.RowStep
import Sqlxmq.Order.Delivery

/-! Two-phase commit. A producer commits its messages at any time, while any
number of runners poll, delete what they found expired, and dispatch the
rest, each in separate transactions. -/
namespace Sqlxmq

open KeyedTable LabelledRun

/-- How far a runner is with the rows of its last poll. -/
inductive BatchPhase where
  | idle
  | polled (messages : List PolledMessage)
  | cleaned (messages : List PolledMessage)

/-- The database session of all clients and runners, with the messages on
which a commit took effect, those dispatched, and those cleared. -/
structure TwoPhaseState where
  session : Session
  runners : Nat → BatchPhase
  committed : List Uuid
  started : List Uuid
  cleared : List Uuid

inductive TwoPhaseEvent where
  | client (op : Op)
  | poll (n : Nat) (op : Op)
  | clean (n : Nat)
  | dispatch (n : Nat)

/-- The messages that a call finds uncommitted and commits. -/
def Op.commits (s : Store) : Op → List Uuid
  | .commit msgIds => msgIds.filter fun id => (s.row id).any fun r => r.commitInterval ≠ none
  | _ => []

def Op.clearedIds (s : Store) (op : Op) : List Uuid :=
  match op.clears with
  | some p => s.selectedIds p
  | none => []

namespace TwoPhaseState

def start (migratedAt : Timestamp) : TwoPhaseState := ⟨.start migratedAt, fun _ => .idle, [], [], []⟩

def setRunner (x : TwoPhaseState) (n : Nat) (phase : BatchPhase) : TwoPhaseState :=
  { x with runners := Function.update x.runners n phase }

/-- The store and the replies after a call, and what it commits or clears. -/
def call [JsonbCast] (x : TwoPhaseState) (op : Op) : TwoPhaseState :=
  { x with
    session := x.session.call op
    committed := x.committed ++ op.commits x.session.store
    cleared := x.cleared ++ op.clearedIds x.session.store }

end TwoPhaseState

/-- One transaction, or the dispatch that follows it. Clients never reuse an
identifier, and only delete what was dispatched. -/
inductive TwoPhaseStep [JsonbCast] (x : TwoPhaseState) : TwoPhaseEvent → TwoPhaseState → Prop where
  | client {op : Op} {result : Store × Reply} (noPoll : op.isPoll = false)
      (fresh : x.session.Fresh op)
      (finished : ∀ msgIds, op = .delete msgIds → ∀ id ∈ msgIds, id ∈ x.started)
      (done : exec op x.session.store = .ok result) : TwoPhaseStep x (.client op) (x.call op)
  | poll {n : Nat} {op : Op} {s' : Store} {reply : Reply} (isPoll : op.isPoll = true)
      (idle : x.runners n = .idle) (done : exec op x.session.store = .ok (s', reply)) :
      TwoPhaseStep x (.poll n op) ((x.call op).setRunner n (.polled reply.polled))
  | nothingExpired {n : Nat} {messages : List PolledMessage} (polled : x.runners n = .polled messages)
      (none : idsToDelete messages = []) :
      TwoPhaseStep x (.clean n) (x.setRunner n (.cleaned messages))
  | clean {n : Nat} {messages : List PolledMessage} {result : Store × Reply}
      (polled : x.runners n = .polled messages) (some : idsToDelete messages ≠ [])
      (done : exec (.delete (idsToDelete messages)) x.session.store = .ok result) :
      TwoPhaseStep x (.clean n)
        ((x.call (.delete (idsToDelete messages))).setRunner n (.cleaned messages))
  | dispatch {n : Nat} {messages : List PolledMessage} (cleaned : x.runners n = .cleaned messages) :
      TwoPhaseStep x (.dispatch n)
        { x.setRunner n .idle with
          started := x.started ++ (dispatched messages).map CurrentJob.id }

namespace TwoPhaseState

/-- A runner is about to dispatch the message. -/
def Held (x : TwoPhaseState) (id : Uuid) : Prop :=
  ∃ n messages, (x.runners n = .polled messages ∨ x.runners n = .cleaned messages) ∧
    id ∈ (dispatched messages).map CurrentJob.id

/-- A runner has found the message expired and not deleted it yet. -/
def Condemned (x : TwoPhaseState) (id : Uuid) : Prop :=
  ∃ n messages, x.runners n = .polled messages ∧ id ∈ idsToDelete messages

/-- The message is stored, and it will be polled again or is about to be
dispatched. -/
def Deliverable (x : TwoPhaseState) (id : Uuid) : Prop :=
  ∃ r, x.session.store.row id = some r ∧ (r.attemptAt ≠ none ∨ x.Held id)

/-- Each message with a commit that took effect is delivered or will be,
unless it is cleared. -/
def CommittedKept (x : TwoPhaseState) : Prop :=
  ∀ id ∈ x.committed, id ∈ x.started ∨ id ∈ x.cleared ∨ x.Deliverable id

/-- A commit does not take effect on a message that some runner is about to
delete. -/
def InTime (x : TwoPhaseState) : TwoPhaseEvent → Prop
  | .client op => ∀ id ∈ op.commits x.session.store, ¬ x.Condemned id
  | _ => True

structure Sound (x : TwoPhaseState) : Prop where
  recorded : x.session.Recorded
  batches : ∀ n messages, x.runners n = .polled messages ∨ x.runners n = .cleaned messages →
    ∃ reply ∈ x.session.replies, reply.polled = messages
  finished : ∀ id ∈ x.started, id ∈ x.session.delivered
  known : ∀ id ∈ x.committed, id ∈ x.session.usedIds ∨ id = uuidNil
  committed : ∀ id ∈ x.committed, ∀ r, x.session.store.row id = some r → r.commitInterval = none
  kept : ∀ id ∈ x.committed, id ∈ x.started ∨ id ∈ x.cleared ∨
    x.Deliverable id ∧ ¬ x.Condemned id
  /-- The last attempt of an uncommitted message condemns it. -/
  scheduled : ∀ id r, x.session.store.row id = some r → r.commitInterval ≠ none →
    r.attemptAt ≠ none ∨ x.Condemned id

theorem sound_start (migratedAt : Timestamp) : Sound (start migratedAt) where
  recorded := Session.recorded_start migratedAt
  batches := by simp [start]
  finished := by simp [start]
  known := by simp [start]
  committed := by simp [start]
  kept := by simp [start]
  scheduled := by
    intro id r hr hOpen
    obtain rfl := List.mem_singleton.mp (Store.row_eq_some_iff.mp hr).1
    exact absurd rfl hOpen

section Runners

variable {x y : TwoPhaseState} {id : Uuid} {n : Nat} {phase : BatchPhase}
  {messages : List PolledMessage}

@[simp] theorem setRunner_self : (x.setRunner n phase).runners n = phase := by
  simp [setRunner]

theorem setRunner_of_ne {k : Nat} (h : k ≠ n) : (x.setRunner n phase).runners k = x.runners k := by
  simp [setRunner, h]

/-- A runner without rows may start another batch. -/
theorem Held.setRunner_of_idle (h : x.Held id) (hIdle : x.runners n = .idle) :
    (x.setRunner n phase).Held id := by
  obtain ⟨k, held, hPhase, hIn⟩ := h
  refine ⟨k, held, ?_, hIn⟩
  rw [setRunner_of_ne]
  · exact hPhase
  · rintro rfl
    simp [hIdle] at hPhase

theorem Held.setRunner_cleaned (h : x.Held id) (hPolled : x.runners n = .polled messages) :
    (x.setRunner n (.cleaned messages)).Held id := by
  obtain ⟨k, held, hPhase, hIn⟩ := h
  by_cases hSame : k = n
  · subst hSame
    obtain rfl : messages = held := by simpa [hPolled] using hPhase
    exact ⟨k, messages, Or.inr setRunner_self, hIn⟩
  · exact ⟨k, held, by rwa [setRunner_of_ne hSame], hIn⟩

theorem Condemned.setRunner (h : x.Condemned id) (hOther : ∀ messages, x.runners n ≠ .polled messages) :
    (x.setRunner n phase).Condemned id := by
  obtain ⟨k, found, hPhase, hIn⟩ := h
  refine ⟨k, found, ?_, hIn⟩
  rw [setRunner_of_ne]
  · exact hPhase
  · rintro rfl
    exact hOther found hPhase

/-- Only a poll condemns a message. -/
theorem Condemned.of_setRunner (h : (x.setRunner n phase).Condemned id) :
    x.Condemned id ∨ ∃ messages, phase = .polled messages ∧ id ∈ idsToDelete messages := by
  obtain ⟨k, found, hPhase, hIn⟩ := h
  by_cases hSame : k = n
  · subst hSame
    rw [setRunner_self] at hPhase
    exact Or.inr ⟨found, hPhase, hIn⟩
  · rw [setRunner_of_ne hSame] at hPhase
    exact Or.inl ⟨k, found, hPhase, hIn⟩

end Runners

section Calls

variable [JsonbCast] {op : Op} {s s' : Store} {reply : Reply} {id : Uuid}

omit [JsonbCast] in
theorem mem_commits (hId : id ∈ op.commits s) :
    ∃ msgIds, op = .commit msgIds ∧ id ∈ msgIds ∧
      ∃ r, s.row id = some r ∧ r.commitInterval ≠ none := by
  cases op with
  | commit msgIds =>
      obtain ⟨hIn, hFound⟩ := List.mem_filter.mp hId
      cases hr : s.row id with
      | none => simp [hr] at hFound
      | some r => exact ⟨msgIds, rfl, hIn, r, rfl, by simpa [hr] using hFound⟩
  | _ => cases hId

/-- A commit that takes effect leaves a committed row. -/
theorem row_of_mem_commits (hExec : exec op s = .ok (s', reply)) (hId : id ∈ op.commits s) :
    ∃ r r', s.row id = some r ∧ s'.row id = some r' ∧ r'.commitInterval = none ∧
      RowStep r op reply r' := by
  obtain ⟨msgIds, rfl, hIn, r, hr, hOpen⟩ := mem_commits hId
  cases hExec
  refine ⟨r, commitRow msgIds r, hr, by simp [mqCommit, Store.mapMsgs_row, hr], ?_, .commit⟩
  obtain rfl : r.id = id := (Store.row_eq_some_iff.mp hr).2
  simp [commitRow, hIn, hOpen]

/-- A message that is neither deleted nor cleared keeps its row. -/
theorem row_kept (hExec : exec op s = .ok (s', reply)) {r : MqMsg} (hr : s.row id = some r)
    (hDeleted : ∀ msgIds, op = .delete msgIds → id ∉ msgIds) :
    (∃ r', s'.row id = some r' ∧ RowStep r op reply r') ∨ id ∈ op.clearedIds s := by
  refine (exec_row hExec hr).imp_right fun ⟨hRemoved, _⟩ => ?_
  obtain ⟨hIn, rfl⟩ := Store.row_eq_some_iff.mp hr
  cases op with
  | delete msgIds => exact absurd (by simpa [Op.removes] using hRemoved) (hDeleted msgIds rfl)
  | clear channelNames => exact (Store.mem_selectedIds hIn).mpr hRemoved
  | clearAll => exact (Store.mem_selectedIds hIn).mpr hRemoved
  | _ => cases hRemoved

theorem row_eq_none_of_deleted {msgIds : List Uuid} (hExec : exec (.delete msgIds) s = .ok (s', reply))
    (hId : id ∈ msgIds) : s'.row id = none := by
  rw [Store.row_eq_none_iff, mem_ids_mqDelete (exec_delete_eq_ok_iff.mp hExec).1]
  exact fun hStored => hStored.2 hId

/-- A row after a call made a step, or it is new and scheduled. -/
theorem row_origin (hExec : exec op s = .ok (s', reply)) {r' : MqMsg} (hr' : s'.row id = some r') :
    r'.attemptAt ≠ none ∨ ∃ r, s.row id = some r ∧ RowStep r op reply r' := by
  obtain ⟨hIn, rfl⟩ := Store.row_eq_some_iff.mp hr'
  rcases exec_row_cases hExec hIn with ⟨r, hr, hStep⟩ | ⟨_, _, -, m, -, _, hRow⟩
  · exact Or.inr ⟨r, hStep.continues.id ▸ Store.row_of_mem hr, hStep⟩
  · rw [(newMsg_eq_ok hRow).2]
    exact Or.inl (by simp)

/-- Of a committed message a poll returns a row that will be dispatched. -/
theorem dispatched_of_committed (hIntegrity : Integrity s) (hExec : exec op s = .ok (s', reply))
    {m : PolledMessage} (hm : m ∈ returnedFor id reply.polled)
    (hCommitted : ∀ r', s'.row id = some r' → r'.commitInterval = none) :
    m.isCommitted = some true ∧ id ∈ (dispatched reply.polled).map CurrentJob.id := by
  obtain ⟨hIn, hId⟩ := List.mem_filter.mp hm
  have hId : m.id = some id := by simpa using hId
  obtain ⟨_, _, _, _, rfl, hPoll⟩ := exec_polled hExec hIn
  obtain ⟨-, hName, hBackoff⟩ := hIntegrity.polled_name hPoll hIn hId
  obtain ⟨r, -, -, -, r', hr', -, rfl⟩ := mqPoll_polled hPoll hIn hId
  have hTrue : (returning s r').isCommitted = some true := by
    have hNone := hCommitted r' (Store.row_eq_some_iff.mpr ⟨hr', Option.some.inj hId⟩)
    simp [returning, hNone]
  obtain ⟨job, hJob⟩ := Option.isSome_iff_exists.mp
    (currentJob_isSome_iff.mpr ⟨hTrue, by simp [hId], hName, hBackoff⟩)
  have hJobId : job.id = id := Option.some.inj ((currentJob_id hJob).1.symm.trans hId)
  exact ⟨hTrue, hJobId ▸ List.mem_map_of_mem (List.mem_filterMap.mpr ⟨_, hIn, hJob⟩)⟩

/-- A message is only lost to a call that deletes or clears it. -/
theorem Deliverable.call {x : TwoPhaseState} (h : x.Deliverable id) (hNoPoll : op.isPoll = false)
    (hExec : exec op x.session.store = .ok (s', reply))
    (hDeleted : ∀ msgIds, op = .delete msgIds → id ∉ msgIds) :
    (x.call op).Deliverable id ∨ id ∈ op.clearedIds x.session.store := by
  obtain ⟨r, hr, hLive⟩ := h
  have hSilent := exec_polled_eq_nil hExec hNoPoll
  refine (row_kept hExec hr hDeleted).imp_left ?_
  rintro ⟨r', hr', hStep⟩
  refine ⟨r', ?_, hLive.imp_left (hStep.scheduled (by simp [hSilent]))⟩
  rw [TwoPhaseState.call, Session.call_eq hExec]
  exact hr'

end Calls

namespace Sound

variable [JsonbCast] {x : TwoPhaseState} {op : Op} {s' : Store} {reply : Reply} (h : Sound x)
  (hFresh : x.session.Fresh op) (hNil : op.sparesNil)
  (hExec : exec op x.session.store = .ok (s', reply))
include h hExec

include hFresh hNil in
theorem recorded_call : (x.call op).session.Recorded := by
  rw [call, Session.call_eq hExec]
  exact h.recorded.step hFresh hNil hExec

theorem known_call : ∀ id ∈ (x.call op).committed,
    id ∈ (x.call op).session.usedIds ∨ id = uuidNil := by
  intro id hId
  rw [call, Session.call_eq hExec, Session.usedIds_append, List.mem_append]
  have hKnown : id ∈ x.session.usedIds ∨ id = uuidNil := by
    rcases List.mem_append.mp hId with hOld | hNew
    · exact h.known id hOld
    · obtain ⟨_, -, -, r, hr, -⟩ := mem_commits hNew
      obtain ⟨hIn, rfl⟩ := Store.row_eq_some_iff.mp hr
      by_cases hNotNil : r.id = uuidNil
      · exact Or.inr hNotNil
      · obtain ⟨m, hm, hmId, -⟩ := h.recorded.origin r hIn hNotNil
        exact Or.inl (hmId ▸ List.mem_map_of_mem hm)
  exact hKnown.imp_left Or.inl

include hFresh hNil in
theorem committed_call : ∀ id ∈ (x.call op).committed, ∀ r',
    s'.row id = some r' → r'.commitInterval = none := by
  intro id hId r' hr'
  rcases List.mem_append.mp hId with hOld | hNew
  · cases hr : x.session.store.row id with
    | some r => exact (exec_row_step hExec hr hr').committed (h.committed id hOld r hr)
    | none =>
        have hUnused : ∀ m ∈ op.batches.flatten, m.id ≠ id := by
          rintro m hm rfl
          have hRecorded := h.recorded.step hFresh hNil hExec
          have hUsed := hRecorded.used
          have hNotNil := hRecorded.notNil
          rw [Session.usedIds_append] at hUsed hNotNil
          have hIn := List.mem_map_of_mem (f := MqNew.id) hm
          rcases h.known m.id hOld with hKnown | hEq
          · exact (List.nodup_append.mp hUsed).2.2 _ hKnown _ hIn rfl
          · exact hNotNil (List.mem_append_right _ (hEq ▸ hIn))
        rw [(exec_row_none hExec hr hUnused).1] at hr'
        cases hr'
  · obtain ⟨_, r, _, hr, hCommitted, -⟩ := row_of_mem_commits hExec hNew
    obtain rfl := Option.some.inj (hr.symm.trans hr')
    exact hCommitted

/-- What was delivered and handed to jobs before a call still was. -/
theorem history_call : (∀ reply' ∈ x.session.replies, reply' ∈ (x.call op).session.replies) ∧
    ∀ id ∈ x.started, id ∈ (x.call op).session.delivered := by
  rw [call, Session.call_eq hExec]
  exact ⟨fun _ hIn => List.mem_append_left _ hIn, fun id hId =>
    Session.mem_delivered_append.mpr (Or.inl (h.finished id hId))⟩

end Sound

namespace Sound

variable [JsonbCast] {x : TwoPhaseState} (h : Sound x)
include h

/-- A message whose commit takes effect in time is scheduled. -/
theorem deliverable_commit {op : Op} {s' : Store} {reply : Reply} {id : Uuid}
    (hNoPoll : op.isPoll = false) (hExec : exec op x.session.store = .ok (s', reply))
    (hId : id ∈ op.commits x.session.store) (hInTime : ¬ x.Condemned id) :
    (x.call op).Deliverable id := by
  have hSilent := exec_polled_eq_nil hExec hNoPoll
  obtain ⟨_, -, -, _, hr₀, hOpen⟩ := mem_commits hId
  obtain ⟨r, r', hr, hr', -, hStep⟩ := row_of_mem_commits hExec hId
  obtain rfl := Option.some.inj (hr₀.symm.trans hr)
  have hScheduled := (h.scheduled id _ hr hOpen).resolve_right hInTime
  refine ⟨r', ?_, Or.inl (hStep.scheduled (by simp [hSilent]) hScheduled)⟩
  rw [TwoPhaseState.call, Session.call_eq hExec]
  exact hr'

/-- A call keeps every committed message when it deletes only what was
dispatched or found expired, and commits in time. -/
theorem call {op : Op} {s' : Store} {reply : Reply} (hNoPoll : op.isPoll = false)
    (hFresh : x.session.Fresh op) (hNil : op.sparesNil)
    (hDeletes : ∀ msgIds, op = .delete msgIds → ∀ id ∈ msgIds, id ∈ x.started ∨ x.Condemned id)
    (hInTime : x.InTime (.client op)) (hExec : exec op x.session.store = .ok (s', reply)) :
    Sound (x.call op) := by
  have hStore : (x.call op).session.store = s' := by
    rw [TwoPhaseState.call, Session.call_eq hExec]
  have hSilent := exec_polled_eq_nil hExec hNoPoll
  obtain ⟨hReplies, hDelivered⟩ := h.history_call hExec
  refine ⟨h.recorded_call hFresh hNil hExec, ?_, hDelivered, h.known_call hExec, ?_, ?_, ?_⟩
  · intro n messages hPhase
    obtain ⟨reply', hReply, hEq⟩ := h.batches n messages hPhase
    exact ⟨reply', hReplies reply' hReply, hEq⟩
  · rw [hStore]
    exact h.committed_call hFresh hNil hExec
  · intro id hId
    rcases List.mem_append.mp hId with hOld | hNew
    · rcases h.kept id hOld with hStarted | hCleared | ⟨hLive, hSpared⟩
      · exact Or.inl hStarted
      · exact Or.inr (Or.inl (List.mem_append_left _ hCleared))
      · by_cases hStarted : id ∈ x.started
        · exact Or.inl hStarted
        have hSpares : ∀ msgIds, op = .delete msgIds → id ∉ msgIds := fun msgIds hOp hIn =>
          (hDeletes msgIds hOp id hIn).elim hStarted hSpared
        rcases hLive.call hNoPoll hExec hSpares with hStill | hCleared
        · exact Or.inr (Or.inr ⟨hStill, hSpared⟩)
        · exact Or.inr (Or.inl (List.mem_append_right _ hCleared))
    · have hSpared := hInTime id hNew
      exact Or.inr (Or.inr ⟨h.deliverable_commit hNoPoll hExec hNew hSpared, hSpared⟩)
  · intro id r' hr' hOpen
    rw [hStore] at hr'
    rcases row_origin hExec hr' with hNew | ⟨r, hr, hStep⟩
    · exact Or.inl hNew
    · apply (h.scheduled id r hr (mt hStep.committed hOpen)).imp_left
      exact hStep.scheduled (by simp [hSilent])

section Poll

variable {choice : PollChoice} {now : Timestamp} {channelNames : Option (List String)}
  {batchSize : Int4} {n : Nat} {s' : Store} {reply : Reply} (hIdle : x.runners n = .idle)
  (hExec : exec (.poll choice now channelNames batchSize) x.session.store = .ok (s', reply))
include hIdle hExec

/-- A poll hands a committed message to its runner as committed. -/
theorem deliverable_poll {id : Uuid} (hId : id ∈ x.committed) (hLive : x.Deliverable id)
    (hSpared : ¬ x.Condemned id) :
    ((x.call (.poll choice now channelNames batchSize)).setRunner n (.polled reply.polled)).Deliverable id ∧
      ¬ ((x.call (.poll choice now channelNames batchSize)).setRunner n
        (.polled reply.polled)).Condemned id := by
  have hFresh : x.session.Fresh (.poll choice now channelNames batchSize) := trivial
  have hReturns {m : PolledMessage} (hm : m ∈ returnedFor id reply.polled) :=
    dispatched_of_committed h.recorded.integrity hExec hm
      (h.committed_call hFresh trivial hExec id (List.mem_append_left _ hId))
  obtain ⟨r, hr, hLive⟩ := hLive
  obtain rfl : r.id = id := (Store.row_eq_some_iff.mp hr).2
  constructor
  · rcases exec_row hExec hr with ⟨r', hr', hStep⟩ | ⟨hRemoved, -⟩
    · refine ⟨r', ?_, ?_⟩
      · rw [setRunner, TwoPhaseState.call, Session.call_eq hExec]
        exact hr'
      · cases hReturned : returnedFor r.id reply.polled with
        | nil =>
            apply hLive.imp (hStep.scheduled hReturned)
            intro hHeld
            exact Held.setRunner_of_idle (x := x.call _) hHeld hIdle
        | cons m rest =>
            have hm : m ∈ returnedFor r.id reply.polled := hReturned ▸ List.mem_cons_self
            exact Or.inr ⟨n, reply.polled, Or.inl setRunner_self, (hReturns hm).2⟩
    · cases hRemoved
  · intro hCondemned
    rcases hCondemned.of_setRunner with hOld | ⟨messages, hEq, hIn⟩
    · exact hSpared hOld
    · cases hEq
      obtain ⟨m, hm, hFalse, hmId⟩ := mem_idsToDelete.mp hIn
      have hTrue := (hReturns (List.mem_filter.mpr ⟨hm, by simpa using hmId⟩)).1
      rw [hFalse] at hTrue
      cases hTrue

/-- A poll that takes the last attempt of an uncommitted message condemns it. -/
theorem scheduled_poll {r' : MqMsg} (hr' : s'.row r'.id = some r') (hOpen : r'.commitInterval ≠ none) :
    r'.attemptAt ≠ none ∨
      ((x.call (.poll choice now channelNames batchSize)).setRunner n
        (.polled reply.polled)).Condemned r'.id := by
  rcases row_origin hExec hr' with hNew | ⟨r, hr, hStep⟩
  · exact Or.inl hNew
  · have hSameId : r.id = r'.id := (Store.row_eq_some_iff.mp hr).2
    cases hStep with
    | @poll _ _ _ _ _ s _ ready row returned =>
        have hm : returning s r' ∈ returnedFor r.id reply.polled :=
          returned ▸ List.mem_singleton_self _
        have hIn := (List.mem_filter.mp hm).1
        refine Or.inr ⟨n, reply.polled, setRunner_self, mem_idsToDelete.mpr ⟨_, hIn, ?_, rfl⟩⟩
        simp [returning, hOpen]
    | relink gone noGrant notReturned =>
        rw [setDefault_eq] at hOpen ⊢
        apply (h.scheduled r.id r (hSameId ▸ hr) hOpen).imp_right
        intro hCondemned
        exact Condemned.setRunner (x := x.call _) hCondemned (by simp [TwoPhaseState.call, hIdle])

end Poll

theorem poll {op : Op} {n : Nat} {s' : Store} {reply : Reply} (hPoll : op.isPoll = true)
    (hIdle : x.runners n = .idle) (hExec : exec op x.session.store = .ok (s', reply)) :
    Sound ((x.call op).setRunner n (.polled reply.polled)) := by
  obtain ⟨choice, now, channelNames, batchSize, rfl⟩ :
      ∃ choice now channelNames batchSize, op = .poll choice now channelNames batchSize := by
    cases op <;> simp_all [Op.isPoll]
  have hSession := Session.call_eq hExec
  obtain ⟨hReplies, hDelivered⟩ := h.history_call hExec
  have hFresh : x.session.Fresh (.poll choice now channelNames batchSize) := trivial
  refine ⟨h.recorded_call trivial trivial hExec, ?_, hDelivered, h.known_call hExec, ?_, ?_, ?_⟩
  · intro k messages hPhase
    by_cases hSame : k = n
    · subst hSame
      obtain rfl : reply.polled = messages := by simpa using hPhase
      refine ⟨reply, ?_, rfl⟩
      rw [setRunner, TwoPhaseState.call, hSession]
      exact List.mem_append_right _ (List.mem_singleton_self _)
    · rw [setRunner_of_ne hSame] at hPhase
      obtain ⟨reply', hReply, hEq⟩ := h.batches k messages hPhase
      exact ⟨reply', hReplies reply' hReply, hEq⟩
  · rw [setRunner, TwoPhaseState.call, hSession]
    exact h.committed_call hFresh trivial hExec
  · intro id hId
    have hNone : Op.commits x.session.store (.poll choice now channelNames batchSize) = [] := rfl
    rw [setRunner, TwoPhaseState.call, hNone, List.append_nil] at hId
    rcases h.kept id hId with hStarted | hCleared | ⟨hLive, hSpared⟩
    · exact Or.inl hStarted
    · exact Or.inr (Or.inl (List.mem_append_left _ hCleared))
    · exact Or.inr (Or.inr (h.deliverable_poll hIdle hExec hId hLive hSpared))
  · intro id r' hr' hOpen
    rw [setRunner, TwoPhaseState.call, hSession] at hr'
    obtain rfl : r'.id = id := (Store.row_eq_some_iff.mp hr').2
    exact h.scheduled_poll hIdle hExec hr' hOpen

/-- The deletion of expired messages cannot fail, and it spares the others. -/
theorem deleteExpired {n : Nat} {messages : List PolledMessage}
    (hPolled : x.runners n = .polled messages) :
    (∃ s' reply, exec (.delete (idsToDelete messages)) x.session.store = .ok (s', reply)) ∧
      Sound (x.call (.delete (idsToDelete messages))) ∧
      ∀ id ∈ idsToDelete messages,
        (x.call (.delete (idsToDelete messages))).session.store.row id = none := by
  obtain ⟨reply, hReply, rfl⟩ := h.batches n messages (Or.inl hPolled)
  have hIds : ∀ id ∈ idsToDelete reply.polled, id ∈ x.session.delivered := fun id hId =>
    Session.idsToDelete_subset_delivered hReply hId
  obtain ⟨s', notifications, hDelete⟩ := h.recorded.mqDelete_succeeds hIds
  have hExec : exec (.delete (idsToDelete reply.polled)) x.session.store =
      .ok (s', ⟨notifications, []⟩) := exec_delete_eq_ok_iff.mpr ⟨hDelete, rfl⟩
  refine ⟨⟨s', _, hExec⟩, h.call rfl trivial ?_ ?_ ?_ hExec, ?_⟩
  · exact fun hIn => (h.recorded.delivered _ (hIds _ hIn)).1 rfl
  · intro msgIds hOp id hId
    cases hOp
    exact Or.inr ⟨n, _, hPolled, hId⟩
  · intro id hId
    cases hId
  · intro id hId
    rw [TwoPhaseState.call, Session.call_eq hExec]
    exact row_eq_none_of_deleted hExec hId

/-- A runner that has polled can always go on. -/
theorem clean_succeeds {n : Nat} {messages : List PolledMessage}
    (hPolled : x.runners n = .polled messages) :
    TwoPhaseStep x (.clean n) (x.setRunner n (.cleaned messages)) ∨
      TwoPhaseStep x (.clean n)
        ((x.call (.delete (idsToDelete messages))).setRunner n (.cleaned messages)) := by
  by_cases hNone : idsToDelete messages = []
  · exact Or.inl (.nothingExpired hPolled hNone)
  · obtain ⟨s', reply, hExec⟩ := (h.deleteExpired hPolled).1
    exact Or.inr (.clean hPolled hNone hExec)

omit [JsonbCast] in
theorem clean {n : Nat} {messages : List PolledMessage} (hPolled : x.runners n = .polled messages)
    (hDeleted : ∀ id ∈ idsToDelete messages, x.session.store.row id = none) :
    Sound (x.setRunner n (.cleaned messages)) := by
  refine ⟨h.recorded, ?_, h.finished, h.known, h.committed, fun id hId => ?_, ?_⟩
  · intro k held hPhase
    apply h.batches k held
    by_cases hSame : k = n
    · subst hSame
      exact Or.inl (hPolled.trans (by simpa using hPhase))
    · rwa [setRunner_of_ne hSame] at hPhase
  · rcases h.kept id hId with hStarted | hCleared | ⟨⟨r, hr, hLive⟩, hSpared⟩
    · exact Or.inl hStarted
    · exact Or.inr (Or.inl hCleared)
    · refine Or.inr (Or.inr ⟨⟨r, hr, hLive.imp_right (·.setRunner_cleaned hPolled)⟩, ?_⟩)
      intro hCondemned
      rcases hCondemned.of_setRunner with hOld | ⟨_, hEq, -⟩
      · exact hSpared hOld
      · cases hEq
  · intro id r hr hOpen
    apply (h.scheduled id r hr hOpen).imp_right
    rintro ⟨k, found, hPhase, hIn⟩
    refine ⟨k, found, ?_, hIn⟩
    rw [setRunner_of_ne]
    · exact hPhase
    · rintro rfl
      obtain rfl : messages = found := by simpa [hPolled] using hPhase
      cases (hDeleted id hIn).symm.trans hr

omit [JsonbCast] in
theorem dispatch {n : Nat} {messages : List PolledMessage}
    (hCleaned : x.runners n = .cleaned messages) :
    Sound { x.setRunner n .idle with
      started := x.started ++ (dispatched messages).map CurrentJob.id } := by
  refine ⟨h.recorded, ?_, ?_, h.known, h.committed, fun id hId => ?_, ?_⟩
  · intro k held hPhase
    by_cases hSame : k = n
    · subst hSame
      simp at hPhase
    · exact h.batches k held (by rwa [setRunner_of_ne hSame] at hPhase)
  · intro id hId
    rcases List.mem_append.mp hId with hOld | hNew
    · exact h.finished id hOld
    · obtain ⟨reply, hReply, rfl⟩ := h.batches n messages (Or.inr hCleaned)
      exact Session.handedOut_subset_delivered (List.mem_flatMap.mpr ⟨reply, hReply, hNew⟩)
  · rcases h.kept id hId with hStarted | hCleared | ⟨⟨r, hr, hLive⟩, hSpared⟩
    · exact Or.inl (List.mem_append_left _ hStarted)
    · exact Or.inr (Or.inl hCleared)
    · by_cases hNew : id ∈ (dispatched messages).map CurrentJob.id
      · exact Or.inl (List.mem_append_right _ hNew)
      · have hStill : x.Held id → (x.setRunner n .idle).Held id := by
          rintro ⟨k, held, hPhase, hIn⟩
          refine ⟨k, held, ?_, hIn⟩
          rw [setRunner_of_ne]
          · exact hPhase
          · rintro rfl
            simp only [hCleaned, reduceCtorEq, BatchPhase.cleaned.injEq, false_or] at hPhase
            exact hNew (hPhase ▸ hIn)
        refine Or.inr (Or.inr ⟨⟨r, hr, hLive.imp_right hStill⟩, fun hCondemned => ?_⟩)
        have hBefore : (x.setRunner n .idle).Condemned id := hCondemned
        rcases hBefore.of_setRunner with hOld | ⟨_, hEq, -⟩
        · exact hSpared hOld
        · cases hEq
  · intro id r hr hOpen
    apply (h.scheduled id r hr hOpen).imp_right
    intro hCondemned
    exact Condemned.setRunner hCondemned (by simp [hCleaned])

theorem step {event : TwoPhaseEvent} {y : TwoPhaseState} (hStep : TwoPhaseStep x event y)
    (hInTime : x.InTime event) : Sound y := by
  cases hStep with
  | @client op result noPoll fresh finished done =>
      refine h.call noPoll fresh ?_ (fun msgIds hOp id hId => Or.inl (finished msgIds hOp id hId))
        hInTime done
      cases op with
      | delete msgIds =>
          intro hIn
          have hStarted := finished msgIds rfl _ hIn
          exact (h.recorded.delivered _ (h.finished _ hStarted)).1 rfl
      | _ => trivial
  | poll isPoll idle done => exact h.poll isPoll idle done
  | nothingExpired polled none => exact h.clean polled (by simp [none])
  | clean polled some done =>
      obtain ⟨-, hSound, hDeleted⟩ := h.deleteExpired polled
      exact hSound.clean polled hDeleted
  | dispatch cleaned => exact h.dispatch cleaned

end Sound

/-- Two-phase commit keeps its promise while commits come in time: each
message with a commit that took effect has been dispatched or cleared, or it
is still stored and will be. -/
theorem committed_kept [JsonbCast] {migratedAt : Timestamp} {events : List TwoPhaseEvent} {x : TwoPhaseState}
    (run : Run (fun x event y => TwoPhaseStep x event y ∧ x.InTime event) (start migratedAt)
      events x) : x.CommittedKept := by
  have h : Sound x := run.invariant (sound_start migratedAt)
    fun _ _ _ hSound ⟨hStep, hInTime⟩ => hSound.step hStep hInTime
  intro id hId
  exact (h.kept id hId).imp_right (Or.imp_right And.left)

section Expired

/-- A job that has to be committed within a second. -/
def reserved : MqNew := JobBuilder.reservedMessage 1 "job"

def inserted : TwoPhaseState := @call .nullOnly (start 0) (.insert 0 [reserved])

/-- The first runner polls. -/
def polled (now : Timestamp) (x : TwoPhaseState) : TwoPhaseState :=
  (@call .nullOnly x (.pollOne now)).setRunner 0
    (.polled (@Store.pollOne .nullOnly now x.session.store).2.polled)

theorem inserted_step : @TwoPhaseStep .nullOnly (start 0) (.client (.insert 0 [reserved])) inserted := by
  let _ : JsonbCast := .nullOnly
  exact .client rfl (fun _ _ => by simp [start, Session.start, Session.usedIds]) (by simp)
    (eq_ok_getD_of_isSome (by rfl) (.initial 0, .silent))

theorem polled_step {x : TwoPhaseState} {now : Timestamp} (hIdle : x.runners 0 = .idle)
    (hPoll : (@exec .nullOnly (.pollOne now) x.session.store).toOption.isSome) :
    @TwoPhaseStep .nullOnly x (.poll 0 (.pollOne now)) (polled now x) := by
  let _ : JsonbCast := .nullOnly
  exact .poll rfl hIdle (Store.pollOne_eq hPoll)

end Expired

theorem committed_kept_of_polled :
    let x := polled 0 (@call .nullOnly inserted (.commit [1]))
    x.committed = [1] ∧ x.CommittedKept := by
  intro x
  let _ : JsonbCast := .nullOnly
  have run : Run (fun x event y => TwoPhaseStep x event y ∧ x.InTime event) (start 0)
      [.client (.insert 0 [reserved]), .client (.commit [1]), .poll 0 (.pollOne 0)] x := by
    refine .cons ⟨inserted_step, fun id hId => by cases hId⟩
      (.cons ⟨.client rfl trivial (by simp)
        (eq_ok_getD_of_isSome (by rfl) (.initial 0, .silent)), ?_⟩
        (.cons ⟨polled_step rfl (by rfl), trivial⟩ .refl))
    rintro id hId ⟨n, messages, hPhase, -⟩
    cases hPhase
  exact ⟨by decide +kernel, committed_kept run⟩

/-- The commit comes after a runner has polled the message as expired, and
before it deletes it. The commit takes effect, and the message is lost. -/
theorem committed_lost :
    let _ : JsonbCast := .nullOnly
    let x := (polled second inserted).call (.commit [1])
    ∃ messages events, x.runners 0 = .polled messages ∧
      Run TwoPhaseStep (start 0) events
        ((x.call (.delete (idsToDelete messages))).setRunner 0 (.cleaned messages)) ∧
      ¬ CommittedKept ((x.call (.delete (idsToDelete messages))).setRunner 0 (.cleaned messages)) := by
  intro _ x
  have hExpired : (match x.runners 0 with
      | .polled messages => idsToDelete messages
      | _ => []) = [1] := by decide +kernel
  obtain ⟨messages, hMessages⟩ : ∃ messages, x.runners 0 = .polled messages := ⟨_, rfl⟩
  rw [hMessages] at hExpired
  dsimp only at hExpired
  refine ⟨messages, [.client (.insert 0 [reserved]), .poll 0 (.pollOne second), .client (.commit [1]),
    .clean 0], hMessages, ?_, ?_⟩
  · have hDelete : (exec (.delete (idsToDelete messages)) x.session.store).toOption.isSome := by
      rw [hExpired]
      rfl
    exact .cons inserted_step (.cons (polled_step rfl (by rfl)) (.cons (.client rfl trivial (by simp)
      (eq_ok_getD_of_isSome (by rfl) (.initial 0, .silent))) (.cons (.clean hMessages
        (by simp [hExpired]) (eq_ok_getD_of_isSome hDelete (.initial 0, .silent))) .refl)))
  · rw [hExpired]
    intro hKept
    have hCommitted : 1 ∈ (x.call (.delete [1])).committed := by decide +kernel
    have hNotCleared : 1 ∉ (x.call (.delete [1])).cleared := by decide +kernel
    have hGone : (x.call (.delete [1])).session.store.row 1 = none := by decide +kernel
    rcases hKept 1 hCommitted with hStarted | hCleared | ⟨r, hr, -⟩
    · cases hStarted
    · exact hNotCleared hCleared
    · cases hGone.symm.trans hr

end TwoPhaseState

end Sqlxmq
