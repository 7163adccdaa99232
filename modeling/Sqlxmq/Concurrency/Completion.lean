import Sqlxmq.Crate.Runner
import Sqlxmq.Database.RowStep

/-! Completing a job in the transaction of its effects. A message is handed
out again when its next attempt is due, so several executions of it may be
alive, and each may try to complete it. -/
namespace Sqlxmq

open KeyedTable LabelledRun

/-- Progress of an execution. `found` says whether there was a row when its
transaction called `mq_delete`, which then holds the lock of that row. -/
inductive Phase where
  | running
  | deleting (found : Bool)
  | completed (found : Bool)
  | failed
deriving DecidableEq

structure Execution where
  id : Uuid
  phase : Phase
deriving DecidableEq

/-- The committed store, and the executions in the order of their dispatch. -/
structure CompletionState where
  store : Store
  executions : List Execution

inductive CompletionEvent where
  | call (op : Op)
  | delete (n : Nat)
  | commit (n : Nat)
  | fail (n : Nat)

namespace CompletionState

def start (s : Store) : CompletionState := ⟨s, []⟩

/-- Execution `n` is one of the message `id`, and this is its phase. -/
def At (x : CompletionState) (n : Nat) (id : Uuid) (phase : Phase) : Prop :=
  x.executions[n]? = some ⟨id, phase⟩

/-- Some transaction has deleted the row and not committed yet. -/
def Locked (x : CompletionState) (id : Uuid) : Prop := ∃ n, x.At n id (.deleting true)

def setPhase (x : CompletionState) (n : Nat) (id : Uuid) (phase : Phase) : CompletionState :=
  { x with executions := x.executions.set n ⟨id, phase⟩ }

/-- The jobs that a call hands out start to run. -/
def dispatch (x : CompletionState) (jobs : List CurrentJob) : CompletionState :=
  { x with executions := x.executions ++ jobs.map fun job => ⟨job.id, .running⟩ }

end CompletionState

/-- One event of an interleaving. Writers wait for the lock of a row. A
DELETE that finds no row has nothing to wait for. -/
inductive CompletionStep [JsonbCast] (x : CompletionState) :
    CompletionEvent → CompletionState → Prop where
  | call {op : Op} {s' : Store} {reply : Reply} (keeps : ∀ r, op.removes r = false)
      (unused : ∀ m ∈ op.batches.flatten, ∀ e ∈ x.executions, m.id ≠ e.id)
      (waits : ∀ id, x.Locked id → s'.row id = x.store.row id)
      (done : exec op x.store = .ok (s', reply)) :
      CompletionStep x (.call op) ({ x with store := s' }.dispatch (dispatched reply.polled))
  | delete {n : Nat} {id : Uuid} {result : Store × List String} (running : x.At n id .running)
      (waits : ¬ x.Locked id) (done : mqDelete [id] x.store = .ok result) :
      CompletionStep x (.delete n) (x.setPhase n id (.deleting (id ∈ x.store.ids)))
  | commit {n : Nat} {id : Uuid} {found : Bool} {s' : Store} {notifications : List String}
      (deleting : x.At n id (.deleting found))
      (done : mqDelete [id] x.store = .ok (s', notifications)) :
      CompletionStep x (.commit n) ({ x with store := s' }.setPhase n id (.completed found))
  | fail {n : Nat} {id : Uuid} {phase : Phase} (started : x.At n id phase)
      (unfinished : ∀ found, phase ≠ .completed found) :
      CompletionStep x (.fail n) (x.setPhase n id .failed)

namespace CompletionState

/-- Of all executions of a message, at most one commits its effects. -/
def AtMostOnce (x : CompletionState) : Prop :=
  ∀ m n id found found', x.At m id (.completed found) → x.At n id (.completed found') → m = n

/-- The executions that found the row exclude each other, and one that found
none was preceded by one that did. -/
structure Exclusive (x : CompletionState) : Prop where
  locked : ∀ {n id}, x.At n id (.deleting true) → id ∈ x.store.ids
  alone : ∀ {m n id}, x.At m id (.deleting true) → x.At n id (.deleting true) → m = n
  gone : ∀ {n id}, x.At n id (.completed true) → id ∉ x.store.ids
  once : ∀ {m n id}, x.At m id (.completed true) → x.At n id (.completed true) → m = n
  stored : ∀ {n id phase}, x.At n id phase →
    id ∈ x.store.ids ∨ ∃ m, x.At m id (.completed true)
  missed : ∀ {n id phase}, x.At n id phase → phase = .deleting false ∨ phase = .completed false →
    ∃ m, x.At m id (.completed true)

theorem locked_iff {x : CompletionState} {id : Uuid} :
    x.Locked id ↔ ⟨id, .deleting true⟩ ∈ x.executions :=
  List.mem_iff_getElem?.symm

theorem exclusive_start (s : Store) : Exclusive (start s) := by
  constructor <;> simp [start, At]

section Phases

variable {x : CompletionState} {n m : Nat} {id id' : Uuid} {phase phase' old : Phase}

@[simp] theorem setPhase_store : (x.setPhase n id phase).store = x.store := rfl

theorem At.unique (h : x.At n id phase) (h' : x.At n id' phase') : id = id' ∧ phase = phase' := by
  have hSame := Option.some.inj (h.symm.trans h')
  exact ⟨congrArg Execution.id hSame, congrArg Execution.phase hSame⟩

theorem at_setPhase (hOld : x.At n id old) : (x.setPhase n id phase).At m id' phase' ↔
    m = n ∧ id' = id ∧ phase' = phase ∨ m ≠ n ∧ x.At m id' phase' := by
  have hIn : n < x.executions.length := (List.getElem?_eq_some_iff.mp hOld).1
  rw [At, setPhase, List.getElem?_set]
  by_cases hSame : n = m
  · subst hSame
    simp [hIn, eq_comm]
  · simp [hSame, Ne.symm hSame, At]

/-- A finished execution stays finished. -/
theorem At.setPhase_of_ne (h : x.At m id' phase') (hOld : x.At n id old) (hPhase : phase' ≠ old) :
    (x.setPhase n id phase).At m id' phase' := by
  refine (at_setPhase hOld).mpr (Or.inr ⟨?_, h⟩)
  rintro rfl
  exact hPhase (h.unique hOld).2

/-- An execution has a phase that was not just entered from before. -/
theorem At.of_setPhase (h : (x.setPhase n id phase).At m id' phase') (hOld : x.At n id old)
    (hPhase : phase' ≠ phase) : x.At m id' phase' := by
  rcases (at_setPhase hOld).mp h with ⟨-, -, hSame⟩ | ⟨-, hBefore⟩
  · exact absurd hSame hPhase
  · exact hBefore

theorem At.dispatch (h : x.At n id phase) (jobs : List CurrentJob) :
    (x.dispatch jobs).At n id phase := by
  rw [At, CompletionState.dispatch, List.getElem?_append_left (List.getElem?_eq_some_iff.mp h).1]
  exact h

theorem at_dispatch {jobs : List CurrentJob} (h : (x.dispatch jobs).At n id phase) :
    x.At n id phase ∨ phase = .running ∧ ∃ job ∈ jobs, job.id = id := by
  rcases Nat.lt_or_ge n x.executions.length with hBefore | hNew
  · rw [At, CompletionState.dispatch, List.getElem?_append_left hBefore] at h
    exact Or.inl h
  · rw [At, CompletionState.dispatch, List.getElem?_append_right hNew] at h
    obtain ⟨job, hJob, hEq⟩ := List.mem_map.mp (List.mem_of_getElem? h)
    cases hEq
    exact Or.inr ⟨rfl, job, hJob, rfl⟩

end Phases

/-- A job that a call hands out is stored. -/
theorem mem_ids_of_dispatched [JsonbCast] {op : Op} {s s' : Store} {reply : Reply}
    (h : exec op s = .ok (s', reply)) {job : CurrentJob} (hJob : job ∈ dispatched reply.polled) :
    job.id ∈ s'.ids := by
  obtain ⟨m, hm, hPattern⟩ := List.mem_filterMap.mp hJob
  obtain ⟨_, _, _, _, rfl, hPoll⟩ := exec_polled h hm
  obtain ⟨r, -, -, -, r', hr', -, rfl⟩ := mqPoll_polled hPoll hm (currentJob_id hPattern).1
  have hId : r'.id = job.id := Option.some.inj (currentJob_id hPattern).1
  exact hId ▸ Store.mem_ids_of_mem hr'

namespace Exclusive

variable {x : CompletionState} (h : Exclusive x)
include h

theorem call [JsonbCast] {op : Op} {s' : Store} {reply : Reply}
    (hKeeps : ∀ r, op.removes r = false)
    (hUnused : ∀ m ∈ op.batches.flatten, ∀ e ∈ x.executions, m.id ≠ e.id)
    (hDone : exec op x.store = .ok (s', reply)) :
    Exclusive ({ x with store := s' }.dispatch (dispatched reply.polled)) := by
  have hStays {id : Uuid} (hId : id ∈ x.store.ids) : id ∈ s'.ids := by
    obtain ⟨r, hr⟩ := Option.isSome_iff_exists.mp (Store.row_isSome_iff.mpr hId)
    rcases exec_row hDone hr with ⟨r', hr', -⟩ | ⟨hRemoved, -⟩
    · exact Store.row_isSome_iff.mp (by simp [hr'])
    · rw [hKeeps] at hRemoved
      cases hRemoved
  have hOld {n : Nat} {id : Uuid} {phase : Phase}
      (hAt : ({ x with store := s' }.dispatch (dispatched reply.polled)).At n id phase)
      (hPhase : phase ≠ .running) : x.At n id phase :=
    (at_dispatch hAt).resolve_right fun hNew => hPhase hNew.1
  have hMono {n : Nat} {id : Uuid} {phase : Phase} (hAt : x.At n id phase) :
      ({ x with store := s' }.dispatch (dispatched reply.polled)).At n id phase :=
    At.dispatch (x := { x with store := s' }) hAt _
  constructor
  · intro n id hLocked
    exact hStays (h.locked (hOld hLocked (by simp)))
  · intro m n id hm hn
    exact h.alone (hOld hm (by simp)) (hOld hn (by simp))
  · intro n id hn
    have hBefore := hOld hn (by simp)
    have hNone := Store.row_eq_none_iff.mpr (h.gone hBefore)
    refine Store.row_eq_none_iff.mp (exec_row_none hDone hNone fun m hm => ?_).1
    exact hUnused m hm _ (List.mem_of_getElem? hBefore)
  · intro m n id hm hn
    exact h.once (hOld hm (by simp)) (hOld hn (by simp))
  · intro n id phase hn
    rcases at_dispatch hn with hBefore | ⟨-, job, hJob, rfl⟩
    · exact (h.stored hBefore).imp hStays fun ⟨m, hm⟩ => ⟨m, hMono hm⟩
    · exact Or.inl (mem_ids_of_dispatched hDone hJob)
  · intro n id phase hn hPhase
    have hBefore := hOld hn (by rcases hPhase with rfl | rfl <;> simp)
    obtain ⟨m, hm⟩ := h.missed hBefore hPhase
    exact ⟨m, hMono hm⟩

/-- A change of phase leaves every message stored or completed. -/
theorem stored_setPhase {n m : Nat} {id id' : Uuid} {old new phase : Phase} (hOld : x.At n id old)
    (hUnfinished : old ≠ .completed true) (hm : (x.setPhase n id new).At m id' phase) :
    id' ∈ x.store.ids ∨ ∃ k, (x.setPhase n id new).At k id' (.completed true) := by
  have hStored : id' ∈ x.store.ids ∨ ∃ k, x.At k id' (.completed true) := by
    rcases (at_setPhase hOld).mp hm with ⟨-, rfl, -⟩ | ⟨-, hm⟩
    · exact h.stored hOld
    · exact h.stored hm
  exact hStored.imp_right fun ⟨k, hk⟩ => ⟨k, hk.setPhase_of_ne hOld hUnfinished.symm⟩

/-- Whatever an execution found, no other one holds the row it deletes. -/
theorem eq_of_deleting {m n : Nat} {id : Uuid} {found : Bool}
    (hDeleting : x.At n id (.deleting found)) (hm : x.At m id (.deleting true)) : m = n := by
  cases found with
  | true => exact h.alone hm hDeleting
  | false =>
      obtain ⟨k, hk⟩ := h.missed hDeleting (Or.inl rfl)
      exact absurd (h.locked hm) (h.gone hk)

/-- When a deletion commits, its message was found by an execution. -/
theorem completed_setPhase {n : Nat} {id : Uuid} {found : Bool}
    (hDeleting : x.At n id (.deleting found)) :
    ∃ k, (x.setPhase n id (.completed found)).At k id (.completed true) := by
  cases found with
  | true => exact ⟨n, (at_setPhase hDeleting).mpr (Or.inl ⟨rfl, rfl, rfl⟩)⟩
  | false =>
      obtain ⟨k, hk⟩ := h.missed hDeleting (Or.inl rfl)
      exact ⟨k, hk.setPhase_of_ne hDeleting (by simp)⟩

theorem delete {n : Nat} {id : Uuid} (hRunning : x.At n id .running) (hWaits : ¬ x.Locked id) :
    Exclusive (x.setPhase n id (.deleting (id ∈ x.store.ids))) := by
  have hMono {m : Nat} {id' : Uuid} (hm : x.At m id' (.completed true)) :
      (x.setPhase n id (.deleting (id ∈ x.store.ids))).At m id' (.completed true) :=
    hm.setPhase_of_ne hRunning (by simp)
  constructor
  · intro m id' hm
    rcases (at_setPhase hRunning).mp hm with ⟨-, rfl, hFound⟩ | ⟨-, hm⟩
    · simpa using hFound
    · exact h.locked hm
  · intro m k id' hm hk
    rcases (at_setPhase hRunning).mp hm with ⟨rfl, rfl, -⟩ | ⟨-, hmOld⟩ <;>
      rcases (at_setPhase hRunning).mp hk with ⟨rfl, hId, -⟩ | ⟨-, hkOld⟩
    · rfl
    · exact absurd ⟨k, hkOld⟩ hWaits
    · exact absurd ⟨m, hId ▸ hmOld⟩ hWaits
    · exact h.alone hmOld hkOld
  · intro m id' hm
    exact h.gone (hm.of_setPhase hRunning (by simp))
  · intro m k id' hm hk
    exact h.once (hm.of_setPhase hRunning (by simp)) (hk.of_setPhase hRunning (by simp))
  · intro m id' phase hm
    exact h.stored_setPhase hRunning (by simp) hm
  · intro m id' phase hm hPhase
    rcases (at_setPhase hRunning).mp hm with ⟨-, rfl, rfl⟩ | ⟨-, hm⟩
    · have hAbsent : id' ∉ x.store.ids := by simpa using hPhase
      obtain ⟨k, hk⟩ := (h.stored hRunning).resolve_left hAbsent
      exact ⟨k, hMono hk⟩
    · obtain ⟨k, hk⟩ := h.missed hm hPhase
      exact ⟨k, hMono hk⟩

theorem commit {n : Nat} {id : Uuid} {found : Bool} {s' : Store} {notifications : List String}
    (hDeleting : x.At n id (.deleting found))
    (hDone : mqDelete [id] x.store = .ok (s', notifications)) :
    Exclusive ({ x with store := s' }.setPhase n id (.completed found)) := by
  have hIds {id' : Uuid} : id' ∈ s'.ids ↔ id' ∈ x.store.ids ∧ id' ≠ id := by
    rw [mem_ids_mqDelete hDone, List.mem_singleton]
  have hSet {m : Nat} {id' : Uuid} {phase : Phase} :
      ({ x with store := s' }.setPhase n id (.completed found)).At m id' phase ↔
        m = n ∧ id' = id ∧ phase = .completed found ∨ m ≠ n ∧ x.At m id' phase :=
    at_setPhase (x := { x with store := s' }) hDeleting
  have hMono {m : Nat} {id' : Uuid} (hm : x.At m id' (.completed true)) :
      ({ x with store := s' }.setPhase n id (.completed found)).At m id' (.completed true) := by
    refine hSet.mpr (Or.inr ⟨?_, hm⟩)
    rintro rfl
    cases (hm.unique hDeleting).2
  -- a commit that found the row is the first of its message
  have hFirst : found = true → ∀ m, ¬ x.At m id (.completed true) := by
    rintro rfl m hm
    exact h.gone hm (h.locked hDeleting)
  have hCompleted : ∃ k, ({ x with store := s' }.setPhase n id (.completed found)).At k id
      (.completed true) :=
    h.completed_setPhase hDeleting
  constructor
  · intro m id' hm
    rcases hSet.mp hm with ⟨-, -, hPhase⟩ | ⟨hOther, hmOld⟩
    · cases hPhase
    · refine hIds.mpr ⟨h.locked hmOld, ?_⟩
      rintro rfl
      exact hOther (h.eq_of_deleting hDeleting hmOld)
  · intro m k id' hm hk
    exact h.alone (At.of_setPhase (x := { x with store := s' }) hm hDeleting (by simp))
      (At.of_setPhase (x := { x with store := s' }) hk hDeleting (by simp))
  · intro m id' hm hIn
    obtain ⟨hIn, hNe⟩ := hIds.mp hIn
    rcases hSet.mp hm with ⟨-, hId, -⟩ | ⟨-, hm⟩
    · exact hNe hId
    · exact h.gone hm hIn
  · intro m k id' hm hk
    rcases hSet.mp hm with ⟨rfl, rfl, hPhase⟩ | ⟨-, hmOld⟩ <;>
      rcases hSet.mp hk with ⟨rfl, hId, hPhase'⟩ | ⟨-, hkOld⟩
    · rfl
    · exact absurd hkOld (hFirst (by cases hPhase; rfl) k)
    · exact absurd (hId ▸ hmOld) (hFirst (by cases hPhase'; rfl) m)
    · exact h.once hmOld hkOld
  · intro m id' phase hm
    by_cases hSame : id' = id
    · exact Or.inr (hSame ▸ hCompleted)
    · have hm := (hSet.mp hm).resolve_left fun hNew => hSame hNew.2.1
      rcases h.stored hm.2 with hStored | ⟨k, hk⟩
      · exact Or.inl (hIds.mpr ⟨hStored, hSame⟩)
      · exact Or.inr ⟨k, hMono hk⟩
  · intro m id' phase hm hPhase
    rcases hSet.mp hm with ⟨-, rfl, -⟩ | ⟨-, hm⟩
    · exact hCompleted
    · obtain ⟨k, hk⟩ := h.missed hm hPhase
      exact ⟨k, hMono hk⟩

theorem fail {n : Nat} {id : Uuid} {phase : Phase} (hStarted : x.At n id phase)
    (hUnfinished : ∀ found, phase ≠ .completed found) : Exclusive (x.setPhase n id .failed) := by
  have hOld {m : Nat} {id' : Uuid} {phase' : Phase} (hPhase : phase' ≠ .failed)
      (hm : (x.setPhase n id .failed).At m id' phase') : x.At m id' phase' :=
    hm.of_setPhase hStarted hPhase
  constructor
  · exact fun hm => h.locked (hOld (by simp) hm)
  · exact fun hm hk => h.alone (hOld (by simp) hm) (hOld (by simp) hk)
  · exact fun hm => h.gone (hOld (by simp) hm)
  · exact fun hm hk => h.once (hOld (by simp) hm) (hOld (by simp) hk)
  · intro m id' phase' hm
    exact h.stored_setPhase hStarted (hUnfinished true) hm
  · intro m id' phase' hm hPhase
    obtain ⟨k, hk⟩ := h.missed (hOld (by rcases hPhase with rfl | rfl <;> simp) hm) hPhase
    exact ⟨k, hk.setPhase_of_ne hStarted (hUnfinished true).symm⟩

end Exclusive

/-- At most one execution of each message commits its effects, exactly when
no execution commits whose `mq_delete` found the row already gone. -/
theorem at_most_once_iff [JsonbCast] {s : Store} {events : List CompletionEvent}
    {x : CompletionState} (run : Run CompletionStep (start s) events x) :
    x.AtMostOnce ↔ ∀ n id, ¬ x.At n id (.completed false) := by
  have h : Exclusive x := by
    apply run.invariant (exclusive_start s)
    intro x event y hExclusive hStep
    cases hStep with
    | call keeps unused waits done => exact hExclusive.call keeps unused done
    | delete running waits done => exact hExclusive.delete running waits
    | commit deleting done => exact hExclusive.commit deleting done
    | fail started unfinished => exact hExclusive.fail started unfinished
  constructor
  · intro hOnce n id hn
    obtain ⟨m, hm⟩ := h.missed hn (Or.inr rfl)
    obtain rfl := hOnce m n id true false hm hn
    cases (hm.unique hn).2
  · intro hFound m n id found found' hm hn
    cases found with
    | false => exact absurd hm (hFound m id)
    | true =>
        cases found' with
        | false => exact absurd hn (hFound n id)
        | true => exact h.once hm hn

section Twice

def jobStore : Store :=
  (@transact .nullOnly (.insert 0 [(JobBuilder.newWithId 1 "job").message]) (.initial 0)).1

/-- What a poll hands out starts to run. -/
def polled (now : Timestamp) (x : CompletionState) : CompletionState :=
  let result := @Store.pollOne .nullOnly now x.store
  { x with store := result.1 }.dispatch (dispatched result.2.polled)

/-- An execution deletes its row and commits. -/
def completed (x : CompletionState) (n : Nat) (found : Bool) : CompletionState :=
  let y := x.setPhase n 1 (.deleting found)
  let result := (mqDelete [1] y.store).toOption.getD (y.store, [])
  { y with store := result.1 }.setPhase n 1 (.completed found)

/-- A job is polled again at its deadline, while it still runs. -/
def twice : CompletionState := polled second (polled 0 (start jobStore))

theorem polled_step {now : Timestamp} {x : CompletionState}
    (hRunning : ∀ e ∈ x.executions, e.phase = .running)
    (hPoll : (@exec .nullOnly (.pollOne now) x.store).toOption.isSome) :
    @CompletionStep .nullOnly x (.call (.pollOne now)) (polled now x) := by
  let _ : JsonbCast := .nullOnly
  refine .call (fun _ => rfl) (by simp [Op.pollOne, Op.batches]) (fun id hLocked => ?_)
    (Store.pollOne_eq hPoll)
  cases hRunning _ (locked_iff.mp hLocked)

theorem twice_run : Run (@CompletionStep .nullOnly) (start jobStore)
    [.call (.pollOne 0), .call (.pollOne second)] twice :=
  .cons (polled_step (by simp [start]) (by rfl))
    (.cons (polled_step (by decide +kernel) (by rfl)) .refl)

theorem completed_run {x : CompletionState} {events : List CompletionEvent} {n : Nat} {found : Bool}
    (run : Run (@CompletionStep .nullOnly) (start jobStore) events x)
    (hRunning : x.At n 1 .running) (hFree : ⟨1, .deleting true⟩ ∉ x.executions)
    (hFound : decide (1 ∈ x.store.ids) = found) (hDelete : (mqDelete [1] x.store).toOption.isSome) :
    Run (@CompletionStep .nullOnly) (start jobStore) (events ++ [.delete n] ++ [.commit n])
      (x.completed n found) := by
  let _ : JsonbCast := .nullOnly
  have hDone := eq_ok_getD_of_isSome hDelete (x.store, [])
  have hFirst : CompletionStep x (.delete n) (x.setPhase n 1 (.deleting found)) :=
    hFound ▸ .delete hRunning (mt locked_iff.mp hFree) hDone
  have hAt : (x.setPhase n 1 (.deleting found)).At n 1 (.deleting found) :=
    (at_setPhase hRunning).mpr (Or.inl ⟨rfl, rfl, rfl⟩)
  exact .snoc (.snoc run hFirst) (.commit hAt hDone)

theorem completedOnce_run : ∃ events,
    Run (@CompletionStep .nullOnly) (start jobStore) events (twice.completed 0 true) :=
  ⟨_, completed_run twice_run (by rfl) (by decide +kernel) (by decide +kernel) (by rfl)⟩

end Twice

theorem at_most_once_of_first : (twice.completed 0 true).AtMostOnce := by
  let _ : JsonbCast := .nullOnly
  obtain ⟨events, run⟩ := completedOnce_run
  apply (at_most_once_iff run).mpr
  intro n id hn
  have hIn := List.mem_of_getElem? hn
  have hOnly : (twice.completed 0 true).executions = [⟨1, .completed true⟩, ⟨1, .running⟩] := by
    decide +kernel
  simp [hOnly] at hIn

/-- Both executions of a job commit. The second finds no row to delete. -/
theorem both_executions_commit :
    let x := (twice.completed 0 true).completed 1 false
    (∃ events, Run (@CompletionStep .nullOnly) (start jobStore) events x) ∧ ¬ x.AtMostOnce := by
  intro x
  obtain ⟨events, run⟩ := completedOnce_run
  refine ⟨⟨_, completed_run run (by rfl) (by decide +kernel) (by decide +kernel) (by rfl)⟩, ?_⟩
  intro hOnce
  have hSame := hOnce 0 1 1 true false (by rfl) (by rfl)
  cases hSame

end CompletionState

end Sqlxmq
