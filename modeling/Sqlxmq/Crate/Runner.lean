import Sqlxmq.Crate.JobBuilder
import Sqlxmq.Database.Poll

/-! What the job runner makes of the rows that a poll returns. -/
namespace Sqlxmq

/-- Handle to the currently executing job. -/
structure CurrentJob where
  id : Uuid
  name : String
  payloadJson : Option String
  payloadBytes : Option (List UInt8)
deriving DecidableEq

/-- A negative interval becomes no time at all. -/
def toDuration (interval : Interval) : Duration := interval.toNat

/-- The rows of a poll that the runner deletes: uncommitted messages whose
commit interval has elapsed. -/
def idsToDelete (messages : List PolledMessage) : List Uuid :=
  (messages.filter fun msg => msg.isCommitted = some false).filterMap PolledMessage.id

/-- The pattern that a row has to match to be dispatched. -/
def PolledMessage.currentJob (msg : PolledMessage) : Option CurrentJob :=
  match msg.id, msg.isCommitted, msg.name, msg.retryBackoff with
  | some id, some true, some name, some _ =>
      some { id, name, payloadJson := msg.payloadJson, payloadBytes := msg.payloadBytes }
  | _, _, _, _ => none

/-- The jobs that are dispatched for the rows of a poll. -/
def dispatched (messages : List PolledMessage) : List CurrentJob :=
  messages.filterMap PolledMessage.currentJob

def maxWait : Duration := 60 * 1000000

/-- How long the runner sleeps after a poll, unless it is notified. -/
def waitDuration (messages : List PolledMessage) : Duration :=
  ((messages.filterMap PolledMessage.waitTime).map toDuration).min?.getD maxWait

/-- The notification channels that a runner listens on. -/
def startListener (channelNames : Option (List String)) : List String :=
  match channelNames with
  | some channels => channels.map ("mq_" ++ ·)
  | none => ["mq"]

theorem currentJob_isSome_iff {msg : PolledMessage} :
    msg.currentJob.isSome ↔ msg.isCommitted = some true ∧ msg.id.isSome ∧ msg.name.isSome ∧
      msg.retryBackoff.isSome := by
  obtain ⟨id, isCommitted, name, payloadJson, payloadBytes, retryBackoff, waitTime⟩ := msg
  rcases isCommitted with _ | _ | _ <;> cases id <;> cases name <;> cases retryBackoff <;>
    simp [PolledMessage.currentJob]

theorem currentJob_id {msg : PolledMessage} {job : CurrentJob} (h : msg.currentJob = some job) :
    msg.id = some job.id ∧ msg.isCommitted = some true := by
  unfold PolledMessage.currentJob at h
  split at h
  · cases h
    exact ⟨‹_›, ‹_›⟩
  · cases h

theorem currentJob_fields {msg : PolledMessage} {currentJob : CurrentJob}
    (h : msg.currentJob = some currentJob) :
    msg.id = some currentJob.id ∧ msg.name = some currentJob.name ∧
      msg.payloadJson = currentJob.payloadJson ∧ msg.payloadBytes = currentJob.payloadBytes := by
  unfold PolledMessage.currentJob at h
  split at h
  · cases h
    exact ⟨‹_›, ‹_›, rfl, rfl⟩
  · cases h

theorem mem_idsToDelete {messages : List PolledMessage} {id : Uuid} :
    id ∈ idsToDelete messages ↔ ∃ msg ∈ messages, msg.isCommitted = some false ∧ msg.id = some id := by
  simp [idsToDelete, and_assoc]

end Sqlxmq
