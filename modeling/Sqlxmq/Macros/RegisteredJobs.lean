import Sqlxmq.Crate.Registry
import Sqlxmq.Lifecycle.Contents
import Sqlxmq.Macros.JobDefaults

/-! From the function under `#[job]` to a message in the queue and back: a
message that is sent with the builder of a job is run by the function of that
job, whatever happened to it in the queue. -/
namespace Sqlxmq

open KeyedTable LabelledRun

/-- A call on a builder between its construction and `spawn`. -/
inductive BuilderSetter where
  | setChannelName (channelName : String)
  | setChannelArgs (channelArgs : String)
  | setRetries (retries : UInt32)
  | setRetryBackoff (retryBackoff : Duration)
  | setCommitInterval (commitInterval : Option Duration)
  | setOrdered (ordered : Bool)
  | setDelay (delay : Duration)
  | setRawJson (rawJson : String)
  | setRawBytes (rawBytes : List UInt8)

def BuilderSetter.run (builder : JobBuilder) : BuilderSetter → JobBuilder
  | .setChannelName channelName => builder.setChannelName channelName
  | .setChannelArgs channelArgs => builder.setChannelArgs channelArgs
  | .setRetries retries => builder.setRetries retries
  | .setRetryBackoff retryBackoff => builder.setRetryBackoff retryBackoff
  | .setCommitInterval commitInterval => builder.setCommitInterval commitInterval
  | .setOrdered ordered => builder.setOrdered ordered
  | .setDelay delay => builder.setDelay delay
  | .setRawJson rawJson => builder.setRawJson rawJson
  | .setRawBytes rawBytes => builder.setRawBytes rawBytes

/-- No call on a builder changes the name of its job, but a prototype can put
another builder in its place. -/
def JobBuilder.KeepsName (build : JobBuilder.BuildFn) : Prop :=
  ∀ builder result, build builder = some result → result.name = builder.name

theorem BuilderSetter.run_name (setters : List BuilderSetter) (builder : JobBuilder) :
    (setters.foldl BuilderSetter.run builder).name = builder.name := by
  induction setters generalizing builder with
  | nil => rfl
  | cons setter rest ih =>
      rw [List.foldl_cons, ih]
      cases setter <;> rfl

/-- The message is that of a builder of the job. -/
def NamedJob.Sends (job : NamedJob) (m : MqNew) : Prop :=
  ∃ (id : Uuid) (builder : JobBuilder) (setters : List BuilderSetter),
    job.builderWithId id = some builder ∧
    m = (setters.foldl BuilderSetter.run builder).message

theorem NamedJob.Sends.name {job : NamedJob} {m : MqNew} (h : job.Sends m)
    (hKeeps : JobBuilder.KeepsName job.buildFn) : m.name = job.name := by
  obtain ⟨id, builder, setters, hBuilder, rfl⟩ := h
  show (setters.foldl BuilderSetter.run builder).name = job.name
  rw [BuilderSetter.run_name]
  exact hKeeps _ _ hBuilder

section Expand

variable [Float64]

theorem BuilderCall.run_name {item : JobItem} (hProto : ∀ p, JobBuilder.KeepsName (item.path p))
    {builder result : JobBuilder} {call : BuilderCall} (h : call.run item builder = some result) :
    result.name = builder.name := by
  cases call with
  | setProto proto => exact hProto proto _ _ h
  | setRetryBackoff backoffSecs =>
      obtain ⟨backoff, -, rfl⟩ := Option.map_eq_some_iff.mp h
      rfl
  | _ =>
      cases h
      rfl

variable [Application]

/-- The static that the expansion declares, with the function that runs it. -/
def JobOptions.registeredJob (options : JobOptions) (item : JobItem)
    (inputs : List Application.TypeId) (inner : CurrentJob → List Context → Application.Future) :
    RegisteredJob where
  toNamedJob := options.namedJob item
  runFn := ⟨options.fqName item, inputs, inner⟩
  named := rfl

/-- The defaults of a job keep its name, if the prototypes do. -/
theorem JobOptions.registeredJob_keepsName (options : JobOptions) {item : JobItem}
    (hProto : ∀ p, JobBuilder.KeepsName (item.path p)) {inputs : List Application.TypeId}
    {inner : CurrentJob → List Context → Application.Future} :
    JobBuilder.KeepsName (options.registeredJob item inputs inner).buildFn := by
  show ∀ builder result, options.chain.foldlM (BuilderCall.run item) builder = some result →
    result.name = builder.name
  generalize options.chain = chain
  intro builder
  induction chain generalizing builder with
  | nil =>
      intro result h
      cases h
      rfl
  | cons call rest ih =>
      intro result h
      obtain ⟨next, hCall, hRest⟩ := Option.bind_eq_some_iff.mp h
      exact (ih next result hRest).trans (BuilderCall.run_name hProto hCall)

end Expand

section Reach

variable [Application]

/-- A job of a batch is a message that one of the registered jobs has sent,
with the payload that is stored for it, and it runs the function of that job. -/
structure RunsSender (jobs : List RegisteredJob) (calls : List RegistryCall) (x : Session)
    (currentJob : CurrentJob) (handling : Handling) : Prop where
  stored : ∃ content, x.store.contents currentJob.id = some content ∧
    currentJob.payloadJson = content.payloadJson ∧ currentJob.payloadBytes = content.payloadBytes
  runs : ∃ job ∈ jobs, ∃ m ∈ x.inserted.flatten, job.Sends m ∧ m.id = currentJob.id ∧
    ∃ contexts, List.Forall₂ (fun ty context => ∃ c, contextOf calls ty = some c ∧
        context = ⟨ty, c⟩) job.runFn.inputs contexts ∧
      handling = .spawned ⟨job.name, job.runFn.inner currentJob contexts, errorHandlerOf calls⟩

variable [JsonbCast] {jobs : List RegisteredJob} {registry : JobRegistry}
  {calls : List RegistryCall}

/-- What was sent with the builder of a registered job is run by its function.
In any reachable state of the queue, a poll is dispatched without a panic, and
each job of it runs the function of the job that sent it, with the stored
payload and the contexts that were set last. -/
theorem dispatched_run_sender (hNew : JobRegistry.new jobs = .ok registry)
    (hKeeps : ∀ job ∈ jobs, JobBuilder.KeepsName job.buildFn)
    (hContexts : ∀ job ∈ jobs, ∀ ty ∈ job.runFn.inputs, (contextOf calls ty).isSome)
    {migratedAt : Timestamp} {ops : List Op} {x : Session}
    (run : Run (Session.Step fun _ op => op.sparesNil) (.start migratedAt) ops x)
    (hSent : ∀ m ∈ x.inserted.flatten, ∃ job ∈ jobs, job.Sends m) {choice : PollChoice}
    {now : Timestamp} {channelNames : Option (List String)} {batchSize : Int4} {s' : Store}
    {messages : List PolledMessage}
    (hPoll : mqPoll choice now channelNames batchSize x.store = .ok (s', messages)) :
    ((calls.foldl RegistryCall.run registry).dispatchAll (dispatched messages)).2 = none ∧
      List.Forall₂ (RunsSender jobs calls x) (dispatched messages)
        ((calls.foldl RegistryCall.run registry).dispatchAll (dispatched messages)).1 := by
  have hIntegrity : Integrity x.store := (Session.run_integrity run fun _ _ _ hOp => hOp).1
  let op : Op := .poll choice now channelNames batchSize
  have hExec : exec op x.store = .ok (s', ⟨[], messages⟩) := exec_poll hPoll
  -- A job of the batch is stored, and it was sent by a registered job of its name.
  have hOrigin : ∀ currentJob ∈ dispatched messages,
      (∃ content, x.store.contents currentJob.id = some content ∧
        currentJob.payloadJson = content.payloadJson ∧
        currentJob.payloadBytes = content.payloadBytes) ∧
      ∃ job ∈ jobs, job.name = currentJob.name ∧ ∃ m ∈ x.inserted.flatten, job.Sends m ∧
        m.id = currentJob.id := by
    intro currentJob hIn
    obtain ⟨msg, hMsg, hJob⟩ := List.mem_filterMap.mp hIn
    obtain ⟨hId, hName, hJson, hBytes⟩ := currentJob_fields hJob
    obtain ⟨content, hContent, hContentName, hContentJson, hContentBytes⟩ :=
      hIntegrity.polled_contents hExec hMsg hId
    obtain ⟨m, hm, hmId, hmName, -⟩ := Session.contents_inserted run hContent
    obtain ⟨job, hJobIn, hSends⟩ := hSent m hm
    refine ⟨⟨content, hContent, hJson.symm.trans hContentJson, hBytes.symm.trans hContentBytes⟩,
      job, hJobIn, ?_, m, hm, hSends, hmId⟩
    have hSame : content.name = currentJob.name :=
      Option.some.inj (hContentName.symm.trans hName)
    rw [← hSends.name (hKeeps job hJobIn), hmName, hSame]
  obtain ⟨before, after, hSplit, hHandles, -, hEnd⟩ :=
    JobRegistry.dispatchAll_handles calls hNew (dispatched messages)
  have hDone : after = [] ∧
      ((calls.foldl RegistryCall.run registry).dispatchAll (dispatched messages)).2 = none := by
    refine hEnd.resolve_right ?_
    rintro ⟨currentJob, rest, ty, -, ⟨job, hJob, -, hInput, hNone⟩, -⟩
    have hSome := hContexts job hJob ty hInput
    rw [hNone] at hSome
    cases hSome
  obtain ⟨rfl, hNoPanic⟩ := hDone
  rw [List.append_nil] at hSplit
  refine ⟨hNoPanic, ?_⟩
  rw [← hSplit] at hHandles
  refine ((List.forall₂_and_left _ _).mpr ⟨hOrigin, hHandles⟩).imp ?_
  rintro currentJob handling ⟨⟨hStored, job, hJob, hName, m, hm, hSends, hId⟩, hHandled⟩
  cases hHandled with
  | @known found contexts hFound hFoundName hProvided =>
      have hSame : found.name = job.name := hFoundName.trans hName.symm
      obtain rfl : found = job :=
        List.inj_on_of_nodup_map (JobRegistry.new_eq_ok hNew).1 hFound hJob hSame
      exact ⟨hStored, found, hJob, m, hm, hSends, hId, contexts, hProvided, rfl⟩
  | unknown hUnknown => exact absurd hName (hUnknown job hJob)

end Reach

/-- `#[job(channel_name = "foo")]` on a function with one context. -/
theorem dispatched_run_sender_of_example :
    let _ : JsonbCast := .nullOnly
    let _ : Float64 := .digits
    let _ : Application := .greeting
    let item : JobItem := {
      modulePath := "jobs"
      name := "example_job"
      path := fun _ => some
      fromSecsF64 := fun _ => none }
    let options : JobOptions := { JobOptions.default with channelName := some "foo" }
    let exampleJob := options.registeredJob item [()] fun currentJob contexts =>
      (currentJob, contexts.map (·.2))
    let calls : List RegistryCall := [.setContext ⟨(), "Hello"⟩]
    let m := (((JobBuilder.newWithId 1 "jobs::example_job").setChannelName "foo").setRawJson
      "null").message
    let x := Session.call (.insert 0 [m]) (.start 0)
    ∃ registry s' messages, JobRegistry.new [exampleJob] = .ok registry ∧
      mqPoll .physical 0 none (.ofBits 1) x.store = .ok (s', messages) ∧
      (dispatched messages).length = 1 ∧
      List.Forall₂ (RunsSender [exampleJob] calls x) (dispatched messages)
        ((calls.foldl RegistryCall.run registry).dispatchAll (dispatched messages)).1 := by
  intro _ _ _ item options exampleJob calls m x
  have hPolled : (mqPoll .physical 0 none (.ofBits 1) x.store).map (fun result =>
      (dispatched result.2).length) = .ok 1 := by decide +kernel
  obtain ⟨⟨s', messages⟩, hPoll, hLength⟩ := exists_of_map_eq_ok hPolled
  have hDistinct : ([exampleJob].map (·.name)).Nodup := List.nodup_singleton _
  obtain ⟨registry, hNew⟩ := JobRegistry.new_eq_ok_iff.mpr hDistinct
  have hKeeps : JobBuilder.KeepsName exampleJob.buildFn :=
    options.registeredJob_keepsName fun _ _ _ h => by cases h; rfl
  have run : Run (Session.Step fun _ op => op.sparesNil) (.start 0) [.insert 0 [m]] x :=
    .cons ⟨trivial, rfl⟩ .refl
  have hSends : exampleJob.Sends m :=
    ⟨1, (JobBuilder.newWithId 1 "jobs::example_job").setChannelName "foo", [.setRawJson "null"], rfl,
      rfl⟩
  have hInserted : x.inserted.flatten = [m] := rfl
  refine ⟨registry, s', messages, hNew, hPoll, hLength, ?_⟩
  refine (dispatched_run_sender hNew ?_ ?_ run ?_ hPoll).2
  · exact fun job hJob => List.mem_singleton.mp hJob ▸ hKeeps
  · exact fun job hJob ty _ => rfl
  · intro m' hm'
    rw [hInserted, List.mem_singleton] at hm'
    exact ⟨exampleJob, List.mem_singleton_self _, hm' ▸ hSends⟩

end Sqlxmq
