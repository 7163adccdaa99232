import Sqlxmq.Crate.Api
import Sqlxmq.Lifecycle.Contents

/-! Typed payloads. A value is sent as the text that `serde_json` makes of it,
stored as `JSONB`, and read back from the text that the database returns. -/
namespace Sqlxmq

open KeyedTable LabelledRun

/-- `serde_json` for the values of one type. -/
structure Serde (ε α : Type) where
  toString : α → Except ε String
  fromStr : String → Except ε α

namespace Checkpoint

/-- Construct a new checkpoint which also keeps the job alive for the specified
interval. -/
def newKeepAlive (duration : Duration) : Checkpoint := ⟨duration, 0, none, none⟩

/-- Construct a new checkpoint. -/
def new : Checkpoint := ⟨0, 0, none, none⟩

def setExtraRetries (checkpoint : Checkpoint) (extraRetries : UInt64) : Checkpoint :=
  { checkpoint with extraRetries }

def setRawJson (checkpoint : Checkpoint) (rawJson : String) : Checkpoint :=
  { checkpoint with payloadJson := some rawJson }

def setRawBytes (checkpoint : Checkpoint) (rawBytes : List UInt8) : Checkpoint :=
  { checkpoint with payloadBytes := some rawBytes }

/-- `value` is what `serde_json::to_string` returns. -/
def setJson {ε : Type} (checkpoint : Checkpoint) (value : Except ε String) : Except ε Checkpoint := do
  let text ← value
  .ok { checkpoint with payloadJson := some text }

end Checkpoint

section Json

variable {ε α : Type}

/-- Extracts the JSON payload belonging to this job, if present. -/
def CurrentJob.json (serde : Serde ε α) (job : CurrentJob) : Except ε (Option α) :=
  match job.payloadJson with
  | some payloadJson => (serde.fromStr payloadJson).map some
  | none => .ok none

variable [JsonbCast]

/-- What the cast to `JSONB` makes of a value's text still reads as the value. -/
def Serde.Survives (serde : Serde ε α) : Prop :=
  ∀ value text stored, serde.toString value = .ok text → JsonbCast.cast text = some stored →
    serde.fromStr stored = .ok value

/-- A call that gives a job the value as its payload. -/
inductive WritesJson (serde : Serde ε α) (id : Uuid) (value : α) : Op → Prop where
  | spawn {now : Timestamp} {builder job : JobBuilder} (same : builder.id = id)
      (set : builder.setJson (serde.toString value) = .ok job) :
      WritesJson serde id value (CrateCall.spawn now job).op
  | checkpoint {now : Timestamp} {before checkpoint : Checkpoint}
      (set : before.setJson (serde.toString value) = .ok checkpoint) :
      WritesJson serde id value (CrateCall.checkpoint now id checkpoint).op

/-- A call that gives the job no other JSON payload. -/
def Op.SparesJson (id : Uuid) : Op → Prop
  | .insert _ newMessages => ∀ m ∈ newMessages, m.id ≠ id
  | .checkpoint _ msgId _ newPayloadJson _ _ => msgId = id → newPayloadJson = none
  | _ => True

/-- The contents under the identifier, if any, hold the stored form of the value. -/
def Carries (serde : Serde ε α) (id : Uuid) (value : α) (c : Contents) : Prop :=
  ∀ content, c id = some content → ∃ text stored, serde.toString value = .ok text ∧
    JsonbCast.cast text = some stored ∧ content.payloadJson = some stored

variable {serde : Serde ε α} {id : Uuid} {value : α}

theorem Carries.spares {c : Contents} {op : Op} (h : Carries serde id value c) (hOp : op.SparesJson id) :
    Carries serde id value (op.onContents c) := by
  intro content hContent
  cases op with
  | insert now newMessages =>
      have hNone : lookup MqNew.id newMessages id = none := lookup_eq_none_iff.mpr hOp
      exact h content (by simpa [Op.onContents, hNone] using hContent)
  | delete msgIds =>
      simp only [Op.onContents] at hContent
      split at hContent
      · cases hContent
      · exact h content hContent
  | checkpoint now msgId duration newPayloadJson newPayloadBytes extraRetries =>
      simp only [Op.onContents] at hContent
      split at hContent
      · rename_i hId
        obtain ⟨before, hBefore, rfl⟩ := Option.map_eq_some_iff.mp hContent
        obtain ⟨text, stored, hText, hCast, hStored⟩ := h before hBefore
        rw [hOp hId.symm]
        exact ⟨text, stored, hText, hCast, hStored⟩
      · exact h content hContent
  | clear channelNames => exact h content (Option.filter_eq_some_iff.mp hContent).1
  | clearAll => cases hContent
  | _ => exact h content hContent

theorem jsonb_some_eq_ok {text : String} {json : Option String} (h : jsonb (some text) = .ok json) :
    ∃ stored, JsonbCast.cast text = some stored ∧ json = some stored := by
  cases hCast : JsonbCast.cast text with
  | none => simp [jsonb, hCast] at h
  | some stored => exact ⟨stored, rfl, by simpa [hCast] using jsonb_eq_ok h⟩

/-- An accepted call that writes the value leaves its stored form. -/
theorem WritesJson.carries {op : Op} {s s' : Store} {reply : Reply} (h : WritesJson serde id value op)
    (hStore : Integrity s) (hExec : exec op s = .ok (s', reply)) :
    Carries serde id value s'.contents := by
  intro content hContent
  rw [hStore.exec_contents hExec] at hContent
  cases h with
  | spawn same set =>
      obtain ⟨text, hText, hJob⟩ := bind_eq_ok_iff.mp set
      cases hJob
      obtain ⟨⟨t, notifications⟩, hInsert, -⟩ := bind_eq_ok_iff.mp hExec
      obtain ⟨hNotes, new, hNew, -⟩ := mqInsert_eq_ok_iff.mp hInsert
      obtain ⟨json, hJson⟩ := (insertable_of_newRows hNotes hNew).payloads _ (List.mem_singleton_self _)
      obtain ⟨stored, hCast, -⟩ := jsonb_some_eq_ok hJson
      refine ⟨text, stored, hText, hCast, ?_⟩
      simp only [CrateCall.op, Op.onContents, lookup, JobBuilder.message, same, decide_true,
        List.find?_cons_of_pos, Option.map_some, Option.some_or, Option.some.injEq] at hContent
      simp [← hContent, MqNew.content, hCast]
  | checkpoint set =>
      obtain ⟨text, hText, hCheckpoint⟩ := bind_eq_ok_iff.mp set
      cases hCheckpoint
      obtain ⟨t, hCheckpoint, -⟩ := bind_eq_ok_iff.mp hExec
      simp only [CrateCall.op, Op.onContents, if_true] at hContent
      obtain ⟨before, hBefore, rfl⟩ := Option.map_eq_some_iff.mp hContent
      rw [Store.contents_eq] at hBefore
      obtain ⟨r, -, hPayload⟩ := Option.bind_eq_some_iff.mp hBefore
      obtain ⟨q, hq, rfl⟩ := Option.map_eq_some_iff.mp hPayload
      obtain ⟨json, hJson, -⟩ := mqCheckpoint_setPayload hCheckpoint hq
      obtain ⟨stored, hCast, -⟩ := jsonb_some_eq_ok hJson
      exact ⟨text, stored, hText, hCast, by simp [Content.checkpoint, hCast]⟩

/-- A typed payload survives its way through the queue. Whatever else is
called after an accepted call that writes a value for a job, until another one
gives it a payload, the job reads back the value whenever it is handed out. -/
theorem json_round_trip (hSurvives : serde.Survives) {migratedAt : Timestamp} {ops later : List Op}
    {x z : Session} (run : Run (Session.Step fun _ op => op.sparesNil) (.start migratedAt) ops x)
    {op : Op} (hWrites : WritesJson serde id value op) {s' : Store} {reply : Reply}
    (hExec : exec op x.store = .ok (s', reply))
    (rest : Run (Session.Step fun _ op => op.sparesNil ∧ op.SparesJson id) (x.call op) later z)
    {choice : PollChoice} {now : Timestamp} {channelNames : Option (List String)} {batchSize : Int4}
    {t : Store} {polled : List PolledMessage}
    (hPoll : mqPoll choice now channelNames batchSize z.store = .ok (t, polled)) :
    ∀ job ∈ dispatched polled, job.id = id → job.json serde = .ok (some value) := by
  have hStart : Integrity x.store := (Session.run_integrity run fun _ _ _ hOp => hOp).1
  have hNil : op.sparesNil := by
    cases hWrites <;> trivial
  obtain ⟨hStore, hCarries⟩ : Integrity z.store ∧ Carries serde id value z.store.contents := by
    rw [Session.call_eq hExec] at rest
    refine Session.run_invariant (P := fun z => Integrity z.store ∧ Carries serde id value z.store.contents)
      rest ⟨hStart.of_exec hNil hExec, hWrites.carries hStart hExec⟩ ?_
    rintro y op s' reply ⟨hStore, hCarries⟩ ⟨hNil, hSpares⟩ hExec
    refine ⟨hStore.of_exec hNil hExec, ?_⟩
    rw [hStore.exec_contents hExec]
    exact hCarries.spares hSpares
  intro job hJob hId
  obtain ⟨m, hm, hPattern⟩ := List.mem_filterMap.mp hJob
  obtain ⟨hPolled, -, hPayload, -⟩ := currentJob_fields hPattern
  rw [hId] at hPolled
  obtain ⟨content, hContent, -, hJson, -⟩ := hStore.polled_contents (exec_poll hPoll) hm hPolled
  obtain ⟨text, stored, hText, hCast, hStored⟩ := hCarries content hContent
  rw [CurrentJob.json, ← hPayload, hJson, hStored]
  simp [hSurvives value text stored hText hCast, Except.map]

end Json

/-- A progress that is kept as the only value of its type. -/
def unitSerde : Serde Unit Unit where
  toString _ := .ok "null"
  fromStr text := if text = "null" then .ok () else .error ()

/-- A checkpoint with a payload, and a retry after it. -/
theorem json_round_trip_of_checkpoint :
    let _ : JsonbCast := .nullOnly
    let checkpoint := ((Checkpoint.newKeepAlive 0).setExtraRetries 1).setRawJson "null"
    let x := Session.call (.insert 0 [(JobBuilder.newWithId 1 "job").message]) (.start 0)
    let z := Session.call (CrateCall.checkpoint 0 1 checkpoint).op x
    ∃ t polled, mqPoll .physical 0 none (.ofBits 1) z.store = .ok (t, polled) ∧
      (dispatched polled).map (CurrentJob.json unitSerde) = [.ok (some ())] := by
  intro _ checkpoint x z
  have hSurvives : unitSerde.Survives := by
    intro value text stored hText hCast
    cases hText
    cases hCast
    rfl
  have run : Run (Session.Step fun _ op => op.sparesNil) (.start 0)
      [.insert 0 [(JobBuilder.newWithId 1 "job").message]] x := .cons ⟨trivial, rfl⟩ .refl
  have hSet : ((Checkpoint.newKeepAlive 0).setExtraRetries 1).setJson (unitSerde.toString ()) =
      .ok checkpoint := rfl
  have hWrites : WritesJson unitSerde 1 () (CrateCall.checkpoint 0 1 checkpoint).op := .checkpoint hSet
  have hAccepted : (exec (CrateCall.checkpoint 0 1 checkpoint).op x.store).map (fun _ => ()) = .ok () := by
    decide +kernel
  obtain ⟨⟨s', reply⟩, hExec, -⟩ := exists_of_map_eq_ok hAccepted
  have hPolled : (mqPoll .physical 0 none (.ofBits 1) z.store).map (fun result =>
      (dispatched result.2).map CurrentJob.id) = .ok [1] := by decide +kernel
  obtain ⟨⟨t, polled⟩, hPoll, hJobs⟩ := exists_of_map_eq_ok hPolled
  obtain ⟨job, hJob, hId⟩ := List.map_eq_singleton_iff.mp hJobs
  refine ⟨t, polled, hPoll, ?_⟩
  rw [hJob, List.map_singleton, json_round_trip hSurvives run hWrites hExec .refl hPoll job
    (hJob ▸ List.mem_singleton_self job) hId]

end Sqlxmq
