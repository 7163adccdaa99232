import Mathlib.Logic.Function.Basic
import Sqlxmq.Crate.Runner

/-! The job registry. The function that it gives to the runner looks a job up
by name and collects the contexts that the job asks for. It runs on the task
of the main loop, and so does its panic if a context is missing. -/
namespace Sqlxmq

open KeyedTable

/-- What the application brings along: the types of its contexts, and the
futures that its jobs return. -/
class Application where
  TypeId : Type
  Value : TypeId → Type
  typeName : TypeId → String
  Future : Type
  decEq : DecidableEq TypeId

attribute [reducible, instance] Application.decEq

/-- The message of a panic. -/
abbrev PanicMessage := String

/-- An error for the error handler. That of a job is known by its `Debug` text. -/
inductive BoxedError where
  | unknownJob
  | job (debug : String)
deriving DecidableEq

def BoxedError.debug : BoxedError → String
  | .unknownJob => "UnknownJobError"
  | .job debug => debug

/-- An error handler, by what it writes to the log. -/
abbrev ErrorHandler := String → BoxedError → List String

def defaultErrorHandler : ErrorHandler := fun name error =>
  ["Job `" ++ name ++ "` failed: " ++ error.debug]

section Registry

variable [Application]

/-- A context with its type. -/
abbrev Context := (ty : Application.TypeId) × Application.Value ty

/-- The function that `#[job]` generates: `inner` is the one under the
attribute, and `inputs` are the types of its arguments after the first. -/
structure RunFn where
  name : String
  inputs : List Application.TypeId
  inner : CurrentJob → List Context → Application.Future

/-- A named job with the function that runs it. Both go by the same name. -/
structure RegisteredJob extends NamedJob where
  runFn : RunFn
  named : runFn.name = name

structure JobRegistry where
  errorHandler : ErrorHandler
  jobMap : List RegisteredJob
  contextMap : (ty : Application.TypeId) → Option (Application.Value ty)

/-- A task that awaits the future of a job. -/
structure JobTask where
  name : String
  future : Application.Future
  errorHandler : ErrorHandler

/-- What the task has logged once its future is ready. -/
def JobTask.log (task : JobTask) (elapsed : String) : Except BoxedError Unit → List String
  | .ok () => ["Job `" ++ task.name ++ "` started.",
      "Job `" ++ task.name ++ "` completed in " ++ elapsed ++ "s."]
  | .error e => ("Job `" ++ task.name ++ "` started.") :: task.errorHandler task.name e

/-- What becomes of a job that the runner passes to the registry. One that is
not known is dropped. -/
inductive Handling where
  | spawned (task : JobTask)
  | reported (log : List String)

namespace JobRegistry

/-- The check of `HashMap::insert` in the loop of `new`. -/
def checkDuplicate (jobMap : List RegisteredJob) (job : RegisteredJob) : Option PanicMessage :=
  if (lookup (·.name) jobMap job.name).isSome then
    some ("Duplicate job registered: " ++ job.name)
  else none

/-- Construct a new job registry from the provided job list. -/
def new (jobs : List RegisteredJob) : Except PanicMessage JobRegistry := do
  let jobMap ← insertAll checkDuplicate [] jobs
  .ok { errorHandler := defaultErrorHandler, jobMap, contextMap := fun _ => none }

/-- Set a function to be called whenever a job returns an error. -/
def setErrorHandler (registry : JobRegistry) (errorHandler : ErrorHandler) : JobRegistry :=
  { registry with errorHandler }

/-- Provide context for the jobs. -/
def setContext (registry : JobRegistry) (context : Context) : JobRegistry :=
  { registry with contextMap := Function.update registry.contextMap context.1 (some context.2) }

def noContext (ty : Application.TypeId) : PanicMessage :=
  "No context of type `" ++ Application.typeName ty ++ "` has been provided."

/-- Access job context. Will panic if context with this type has not been
provided. -/
def context (registry : JobRegistry) (ty : Application.TypeId) : Except PanicMessage Context :=
  match registry.contextMap ty with
  | some c => .ok ⟨ty, c⟩
  | none => .error (noContext ty)

/-- Look-up a job by name. -/
def resolveJob (registry : JobRegistry) (name : String) : Option RegisteredJob :=
  lookup (·.name) registry.jobMap name

def spawnInternal (registry : JobRegistry) (name : String) (f : Application.Future) : JobTask where
  name
  future := f
  errorHandler := registry.errorHandler

/-- The arguments are evaluated before the task is spawned. -/
def runJob (registry : JobRegistry) (runFn : RunFn) (currentJob : CurrentJob) :
    Except PanicMessage JobTask := do
  let contexts ← evaluate registry.context runFn.inputs
  .ok (registry.spawnInternal runFn.name (runFn.inner currentJob contexts))

/-- The function that a job runner made from the registry dispatches to. -/
def runner (registry : JobRegistry) (currentJob : CurrentJob) : Except PanicMessage Handling :=
  match registry.resolveJob currentJob.name with
  | some job => (registry.runJob job.runFn currentJob).map .spawned
  | none => .ok (.reported (registry.errorHandler currentJob.name .unknownJob))

/-- The jobs of a batch are dispatched in turn, up to the first panic. -/
def dispatchAll (registry : JobRegistry) : List CurrentJob → List Handling × Option PanicMessage
  | [] => ([], none)
  | currentJob :: rest => match registry.runner currentJob with
      | .error message => ([], some message)
      | .ok handling =>
          let (handled, panic) := registry.dispatchAll rest
          (handling :: handled, panic)

end JobRegistry

/-- A call that configures a registry. -/
inductive RegistryCall where
  | setErrorHandler (errorHandler : ErrorHandler)
  | setContext (context : Context)

def RegistryCall.run (registry : JobRegistry) : RegistryCall → JobRegistry
  | .setErrorHandler errorHandler => registry.setErrorHandler errorHandler
  | .setContext context => registry.setContext context

/-- The context of a type that a call provides. -/
def RegistryCall.provides (ty : Application.TypeId) : RegistryCall → Option (Application.Value ty)
  | .setErrorHandler _ => none
  | .setContext context => if h : context.1 = ty then some (h ▸ context.2) else none

def RegistryCall.handles : RegistryCall → Option ErrorHandler
  | .setErrorHandler errorHandler => some errorHandler
  | .setContext _ => none

/-- What the application set last. -/
def contextOf (calls : List RegistryCall) (ty : Application.TypeId) :
    Option (Application.Value ty) :=
  calls.reverse.findSome? (RegistryCall.provides ty)

def errorHandlerOf (calls : List RegistryCall) : ErrorHandler :=
  (calls.reverse.findSome? RegistryCall.handles).getD defaultErrorHandler

/-- What is to become of a job. One that is known runs its own function in the
contexts that were set last, and any other goes to the error handler. -/
inductive Handles (jobs : List RegisteredJob) (calls : List RegistryCall) (currentJob : CurrentJob) :
    Handling → Prop where
  | known {job : RegisteredJob} {contexts : List Context} (registered : job ∈ jobs)
      (name : job.name = currentJob.name)
      (provided : List.Forall₂ (fun ty context => ∃ c, contextOf calls ty = some c ∧
        context = ⟨ty, c⟩) job.runFn.inputs contexts) :
      Handles jobs calls currentJob
        (.spawned ⟨job.name, job.runFn.inner currentJob contexts, errorHandlerOf calls⟩)
  | unknown (unregistered : ∀ job ∈ jobs, job.name ≠ currentJob.name) :
      Handles jobs calls currentJob
        (.reported (errorHandlerOf calls currentJob.name .unknownJob))

/-- A job that cannot be run, since one of its contexts was never set. -/
def Lacks (jobs : List RegisteredJob) (calls : List RegistryCall) (currentJob : CurrentJob)
    (ty : Application.TypeId) : Prop :=
  ∃ job ∈ jobs, job.name = currentJob.name ∧ ty ∈ job.runFn.inputs ∧ contextOf calls ty = none

section Dispatch

variable {jobs : List RegisteredJob} {registry : JobRegistry} {calls : List RegistryCall}
  {currentJob : CurrentJob}

namespace JobRegistry

theorem checkDuplicate_eq_none_iff {jobMap : List RegisteredJob} {job : RegisteredJob} :
    checkDuplicate jobMap job = none ↔ job.name ∉ jobMap.map (·.name) := by
  simp [checkDuplicate, lookup_isSome_iff]

/-- A registry holds all of its jobs, under different names. -/
theorem new_eq_ok (h : new jobs = .ok registry) :
    (jobs.map (·.name)).Nodup ∧ registry = ⟨defaultErrorHandler, jobs, fun _ => none⟩ := by
  obtain ⟨jobMap, hInsert, hEq⟩ := bind_eq_ok_iff.mp h
  obtain rfl : jobMap = jobs := insertAll_eq_append hInsert
  have hUnique : UniqueOn (fun job : RegisteredJob => some job.name) jobMap := by
    refine UniqueOn.insertAll (by simp [UniqueOn]) (fun rows r hCheck => ?_) hInsert
    simpa [conflicts] using checkDuplicate_eq_none_iff.mp hCheck
  exact ⟨(uniqueOn_some _ _).mp hUnique, (Except.ok.inj hEq).symm⟩

/-- It is constructed unless two jobs have the same name. The panic names the
first job whose name is taken. -/
theorem new_eq_ok_iff : (∃ registry, new jobs = .ok registry) ↔ (jobs.map (·.name)).Nodup := by
  constructor
  · rintro ⟨registry, hNew⟩
    exact (new_eq_ok hNew).1
  · intro hDistinct
    cases hInsert : insertAll checkDuplicate [] jobs with
    | ok jobMap =>
        exact ⟨⟨defaultErrorHandler, jobMap, fun _ => none⟩, by simp [new, hInsert, bind, Except.bind]⟩
    | error message =>
        obtain ⟨before, job, after, rfl, hTaken⟩ := insertAll_eq_error hInsert
        have hFresh : job.name ∉ before.map (·.name) := by
          simp only [List.map_append, List.map_cons, List.nodup_append, List.mem_cons] at hDistinct
          exact fun hIn => hDistinct.2.2 _ hIn _ (Or.inl rfl) rfl
        rw [List.nil_append, checkDuplicate_eq_none_iff.mpr hFresh] at hTaken
        cases hTaken

theorem new_eq_error {message : PanicMessage} (h : new jobs = .error message) :
    ∃ before job after, jobs = before ++ job :: after ∧ job.name ∈ before.map (·.name) ∧
      message = "Duplicate job registered: " ++ job.name := by
  have hInsert : insertAll checkDuplicate [] jobs = .error message := by
    cases hResult : insertAll checkDuplicate [] jobs with
    | ok jobMap => simp [new, hResult, bind, Except.bind] at h
    | error e => simpa [new, hResult, bind, Except.bind] using h
  obtain ⟨before, job, after, hSplit, hTaken⟩ := insertAll_eq_error hInsert
  rw [List.nil_append, checkDuplicate] at hTaken
  split at hTaken
  · exact ⟨before, job, after, hSplit, lookup_isSome_iff.mp ‹_›, (Option.some.inj hTaken).symm⟩
  · cases hTaken

theorem run_jobMap (registry : JobRegistry) (calls : List RegistryCall) :
    (calls.foldl RegistryCall.run registry).jobMap = registry.jobMap := by
  induction calls generalizing registry with
  | nil => rfl
  | cons call rest ih =>
      rw [List.foldl_cons, ih]
      cases call <;> rfl

theorem run_contextMap (registry : JobRegistry) (ty : Application.TypeId) :
    (calls.foldl RegistryCall.run registry).contextMap ty =
      (contextOf calls ty).or (registry.contextMap ty) := by
  refine read_foldl_last (fun registry => registry.contextMap ty) (RegistryCall.provides ty)
    (fun registry call => ?_) registry
  cases call with
  | setErrorHandler errorHandler => rfl
  | setContext context =>
      by_cases hType : context.1 = ty
      · subst hType
        simp [RegistryCall.run, RegistryCall.provides, setContext]
      · have hOther : ty ≠ context.1 := fun hEq => hType hEq.symm
        simp [RegistryCall.run, RegistryCall.provides, setContext, hType, hOther]

theorem run_errorHandler (registry : JobRegistry) :
    some (calls.foldl RegistryCall.run registry).errorHandler =
      (calls.reverse.findSome? RegistryCall.handles).or (some registry.errorHandler) := by
  refine read_foldl_last (fun registry => some registry.errorHandler) RegistryCall.handles
    (fun registry call => ?_) registry
  cases call <;> rfl

/-- Which jobs are known, and what is set, after the registry is configured. -/
theorem configured (calls : List RegistryCall) (h : new jobs = .ok registry) :
    (jobs.map (·.name)).Nodup ∧ (calls.foldl RegistryCall.run registry).jobMap = jobs ∧
    (calls.foldl RegistryCall.run registry).contextMap = contextOf calls ∧
    (calls.foldl RegistryCall.run registry).errorHandler = errorHandlerOf calls := by
  obtain ⟨hDistinct, rfl⟩ := new_eq_ok h
  refine ⟨hDistinct, run_jobMap _ calls, ?_, ?_⟩
  · funext ty
    rw [run_contextMap, Option.or_none]
  · apply Option.some.inj
    rw [run_errorHandler, errorHandlerOf]
    cases calls.reverse.findSome? RegistryCall.handles <;> rfl

theorem context_eq_ok_iff {ty : Application.TypeId} {context : Context} :
    registry.context ty = .ok context ↔
      ∃ c, registry.contextMap ty = some c ∧ context = ⟨ty, c⟩ := by
  unfold JobRegistry.context
  cases registry.contextMap ty with
  | none => simp
  | some c => simp [eq_comm]

theorem context_eq_error {ty : Application.TypeId} {message : PanicMessage}
    (h : registry.context ty = .error message) :
    registry.contextMap ty = none ∧ message = noContext ty := by
  unfold JobRegistry.context at h
  cases hFound : registry.contextMap ty with
  | none => simpa [hFound, eq_comm] using h
  | some c => simp [hFound] at h

/-- A job is handled as it is meant to be, or the runner panics since one of
its contexts was never set. -/
theorem runner_cases (calls : List RegistryCall) (hNew : new jobs = .ok registry)
    (currentJob : CurrentJob) :
    (∃ handling, (calls.foldl RegistryCall.run registry).runner currentJob = .ok handling ∧
      Handles jobs calls currentJob handling ∧ ∀ ty, ¬ Lacks jobs calls currentJob ty) ∨
    ∃ ty, (calls.foldl RegistryCall.run registry).runner currentJob = .error (noContext ty) ∧
      Lacks jobs calls currentJob ty := by
  obtain ⟨hDistinct, hJobs, hContexts, hHandler⟩ := configured calls hNew
  generalize calls.foldl RegistryCall.run registry = configured at hJobs hContexts hHandler
  unfold runner resolveJob
  rw [hJobs, hHandler]
  cases hFound : lookup (·.name) jobs currentJob.name with
  | none =>
      have hUnknown := lookup_eq_none_iff.mp hFound
      refine Or.inl ⟨_, rfl, .unknown hUnknown, ?_⟩
      rintro ty ⟨job, hJob, hName, -⟩
      exact hUnknown job hJob hName
  | some job =>
      have hJob := mem_of_lookup hFound
      have hKey := key_of_lookup hFound
      have hName : job.name = currentJob.name := hKey
      cases hContext : evaluate configured.context job.runFn.inputs with
      | ok contexts =>
          have hProvided : List.Forall₂ (fun ty context => ∃ c, contextOf calls ty = some c ∧
              context = ⟨ty, c⟩) job.runFn.inputs contexts := by
            simpa only [evaluate_eq_ok_iff, context_eq_ok_iff, hContexts] using hContext
          have hRun : configured.runJob job.runFn currentJob =
              .ok ⟨job.name, job.runFn.inner currentJob contexts, errorHandlerOf calls⟩ := by
            simp [runJob, hContext, bind, Except.bind, spawnInternal, job.named, hHandler]
          refine Or.inl ⟨_, by simp [hRun, Except.map], .known hJob hName hProvided, ?_⟩
          rintro ty ⟨other, hOther, hSame, hInput, hMissing⟩
          obtain rfl : other = job :=
            List.inj_on_of_nodup_map hDistinct hOther hJob (hSame.trans hName.symm)
          obtain ⟨context, -, hGiven⟩ := evaluate_exists hContext hInput
          obtain ⟨c, hSome, -⟩ := context_eq_ok_iff.mp hGiven
          rw [hContexts, hMissing] at hSome
          cases hSome
      | error message =>
          obtain ⟨ty, hInput, hMissing⟩ := evaluate_eq_error hContext
          obtain ⟨hNone, rfl⟩ := context_eq_error hMissing
          have hRun : configured.runJob job.runFn currentJob = .error (noContext ty) := by
            simp [runJob, hContext, bind, Except.bind]
          exact Or.inr ⟨ty, by simp [hRun, Except.map], job, hJob, hName, hInput, hContexts ▸ hNone⟩

/-- A batch is dispatched up to the first job that lacks a context. -/
theorem dispatchAll_handles (calls : List RegistryCall) (hNew : new jobs = .ok registry)
    (batch : List CurrentJob) :
    ∃ before after, batch = before ++ after ∧
      List.Forall₂ (Handles jobs calls) before
        ((calls.foldl RegistryCall.run registry).dispatchAll batch).1 ∧
      (∀ currentJob ∈ before, ∀ ty, ¬ Lacks jobs calls currentJob ty) ∧
      (after = [] ∧ ((calls.foldl RegistryCall.run registry).dispatchAll batch).2 = none ∨
        ∃ currentJob rest ty, after = currentJob :: rest ∧ Lacks jobs calls currentJob ty ∧
          ((calls.foldl RegistryCall.run registry).dispatchAll batch).2 = some (noContext ty)) := by
  induction batch with
  | nil => exact ⟨[], [], rfl, .nil, by simp, Or.inl ⟨rfl, rfl⟩⟩
  | cons currentJob rest ih =>
      rcases runner_cases calls hNew currentJob with
        ⟨handling, hRunner, hHandles, hHas⟩ | ⟨ty, hRunner, hLacks⟩
      · obtain ⟨before, after, rfl, hBefore, hNone, hAfter⟩ := ih
        simp only [dispatchAll, hRunner]
        refine ⟨currentJob :: before, after, rfl, .cons hHandles hBefore, ?_, hAfter⟩
        exact List.forall_mem_cons.mpr ⟨hHas, hNone⟩
      · simp only [dispatchAll, hRunner]
        exact ⟨[], currentJob :: rest, rfl, .nil, by simp,
          Or.inr ⟨currentJob, rest, ty, rfl, hLacks, rfl⟩⟩

end JobRegistry

/-- What a registry does with any batch. It exists when the names of its jobs
differ. Each job of the batch runs the function of its name in the contexts
that were set last, or is reported as unknown, up to the first that lacks a
context. So every batch is dispatched in full if and only if all contexts of
all jobs are set. -/
theorem registry_dispatches (jobs : List RegisteredJob) (calls : List RegistryCall) :
    ((∃ registry, JobRegistry.new jobs = .ok registry) ↔ (jobs.map (·.name)).Nodup) ∧
    ∀ registry, JobRegistry.new jobs = .ok registry →
      (∀ batch, ∃ before after, batch = before ++ after ∧
        List.Forall₂ (Handles jobs calls) before
          ((calls.foldl RegistryCall.run registry).dispatchAll batch).1 ∧
        (∀ currentJob ∈ before, ∀ ty, ¬ Lacks jobs calls currentJob ty) ∧
        (after = [] ∧ ((calls.foldl RegistryCall.run registry).dispatchAll batch).2 = none ∨
          ∃ currentJob rest ty, after = currentJob :: rest ∧ Lacks jobs calls currentJob ty ∧
            ((calls.foldl RegistryCall.run registry).dispatchAll batch).2 = some (JobRegistry.noContext ty))) ∧
      ((∀ batch, ((calls.foldl RegistryCall.run registry).dispatchAll batch).2 = none) ↔
        ∀ job ∈ jobs, ∀ ty ∈ job.runFn.inputs, (contextOf calls ty).isSome) := by
  refine ⟨JobRegistry.new_eq_ok_iff, fun registry hNew =>
    ⟨JobRegistry.dispatchAll_handles calls hNew, ?_⟩⟩
  constructor
  · intro hTotal job hJob ty hInput
    by_contra hMissing
    have hNone : contextOf calls ty = none := by simpa using hMissing
    let currentJob : CurrentJob := ⟨0, job.name, none, none⟩
    have hLacks : Lacks jobs calls currentJob ty := ⟨job, hJob, rfl, hInput, hNone⟩
    rcases JobRegistry.runner_cases calls hNew currentJob with
      ⟨-, -, -, hHas⟩ | ⟨ty', hRunner, -⟩
    · exact hHas ty hLacks
    · have hPanic := hTotal [currentJob]
      simp [JobRegistry.dispatchAll, hRunner] at hPanic
  · intro hSet batch
    obtain ⟨before, after, -, -, -, ⟨-, hDone⟩ | ⟨currentJob, rest, ty, -, hLacks, -⟩⟩ :=
      JobRegistry.dispatchAll_handles calls hNew batch
    · exact hDone
    · obtain ⟨job, hJob, -, hInput, hNone⟩ := hLacks
      have hSome := hSet job hJob ty hInput
      rw [hNone] at hSome
      cases hSome

end Dispatch

end Registry

/-- An application with a context of type `&'static str`. -/
@[reducible] def Application.greeting : Application where
  TypeId := Unit
  Value := fun _ => String
  typeName := fun _ => "&str"
  Future := CurrentJob × List String
  decEq := inferInstance

/-- A job with one context, which is set twice. -/
theorem registry_dispatches_greeting :
    let _ : Application := .greeting
    let job : RegisteredJob := {
      name := "job"
      buildFn := some
      runFn := ⟨"job", [()], fun currentJob contexts => (currentJob, contexts.map (·.2))⟩
      named := rfl }
    let calls : List RegistryCall := [.setContext ⟨(), "Goodbye"⟩, .setContext ⟨(), "Hello"⟩]
    ∃ registry, JobRegistry.new [job] = .ok registry ∧
      (∀ batch, ((calls.foldl RegistryCall.run registry).dispatchAll batch).2 = none) ∧
      contextOf calls () = some "Hello" := by
  intro _ job calls
  obtain ⟨hNew, hDispatches⟩ := registry_dispatches [job] calls
  obtain ⟨registry, hRegistry⟩ := hNew.mpr (List.nodup_singleton _)
  exact ⟨registry, hRegistry, (hDispatches registry hRegistry).2.mpr fun _ _ _ _ => rfl, rfl⟩

end Sqlxmq
