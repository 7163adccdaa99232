import Sqlxmq.Crate.JobBuilder
import Sqlxmq.Macros.JobAttribute

/-! The job that `#[job]` declares. Its arguments can be given in any order,
and the values that they give override those of the prototype. -/
namespace Sqlxmq

open KeyedTable Syn

section Expand

variable [Float64]

/-- The function under `#[job]`, and what the names in the expansion mean:
the function that a path refers to, and `Duration::from_secs_f64`, which
panics if there is no such duration. -/
structure JobItem where
  modulePath : String
  name : String
  path : Path → JobBuilder.BuildFn
  fromSecsF64 : Float64.Value → Option Duration

/-- A call in the method chain on the builder. -/
inductive BuilderCall where
  | setProto (proto : Path)
  | setChannelName (channelName : String)
  | setRetries (retries : UInt32)
  | setRetryBackoff (backoffSecs : Float64.Value)
  | setOrdered (ordered : Bool)

def BuilderCall.run (item : JobItem) (builder : JobBuilder) : BuilderCall → Option JobBuilder
  | .setProto proto => builder.setProto (item.path proto)
  | .setChannelName channelName => some (builder.setChannelName channelName)
  | .setRetries retries => some (builder.setRetries retries)
  | .setRetryBackoff backoffSecs => (item.fromSecsF64 backoffSecs).map builder.setRetryBackoff
  | .setOrdered ordered => some (builder.setOrdered ordered)

/-- The calls are in this order, whatever the order of the arguments was. -/
def JobOptions.chain (options : JobOptions) : List BuilderCall :=
  (options.proto.map .setProto).toList ++
    (options.channelName.map .setChannelName).toList ++
    (options.retries.map .setRetries).toList ++
    (options.backoffSecs.map .setRetryBackoff).toList ++
    (options.ordered.map .setOrdered).toList

def JobOptions.fqName (options : JobOptions) (item : JobItem) : String :=
  match options.name with
  | some name => name
  | none => item.modulePath ++ "::" ++ item.name

/-- The static that the expansion declares. -/
def JobOptions.namedJob (options : JobOptions) (item : JobItem) : NamedJob :=
  .newInternal (options.fqName item)
    fun builder => options.chain.foldlM (BuilderCall.run item) builder

/-- The attribute `#[job]`: the compile errors and the declared job. -/
def job (item : JobItem) (args : List NestedMeta) :
    Except Panic (List Syn.Error × NamedJob) := do
  let (options, errors) ← interpretJobArgs .default args
  .ok (errors, options.namedJob item)

end Expand

section Accepted

variable [Float64] {options options' : JobOptions} {arg : NestedMeta} {args : List NestedMeta}

/-- The macro takes the first path of `proto(path, ..)`, also if there is more. -/
def extendedProto : NestedMeta → Option Setting
  | .ofMeta (.list p (.ofMeta (.path function) :: _ :: _)) =>
      if p.getIdent = some "proto" then some (.proto function) else none
  | _ => none

/-- What the macro takes an argument for. -/
def effective (arg : NestedMeta) : Option Setting :=
  (documented arg).or (extendedProto arg)

/-- An argument whose name is not a single identifier. It is passed over. -/
def Ignored : NestedMeta → Prop
  | .ofMeta m => m.getPath.getIdent = none
  | .lit _ => False

theorem extendedProto_eq_some_iff {setting : Setting} :
    extendedProto arg = some setting ↔ ∃ p function next rest,
      arg = .ofMeta (.list p (.ofMeta (.path function) :: next :: rest)) ∧
        p.getIdent = some "proto" ∧ setting = .proto function := by
  constructor
  · intro h
    unfold extendedProto at h
    split at h
    · rename_i p function next rest
      split at h
      · exact ⟨p, function, next, rest, rfl, ‹_›, (Option.some.inj h).symm⟩
      · cases h
    · cases h
  · rintro ⟨p, function, next, rest, rfl, hName, rfl⟩
    simp [extendedProto, hName]

theorem effective_of_documented {setting : Setting} (h : documented arg = some setting) :
    effective arg = some setting := by
  simp [effective, h]

theorem effective_of_ignored (h : Ignored arg) : effective arg = none := by
  cases arg with
  | lit l => cases h
  | ofMeta m =>
      have hExtended : extendedProto (.ofMeta m) = none := by
        refine Option.eq_none_iff_forall_ne_some.mpr fun setting hSetting => ?_
        obtain ⟨p, function, next, rest, hList, hName, -⟩ := extendedProto_eq_some_iff.mp hSetting
        obtain rfl := NestedMeta.ofMeta.inj hList
        have hNone : p.getIdent = none := h
        rw [hNone] at hName
        cases hName
      simp [effective, documented_of_unnamed h, hExtended]

/-- What the macro does with an argument that it does not report. -/
inductive Accepted (options : JobOptions) (arg : NestedMeta) : JobOptions → Prop where
  | ignored (ignored : Ignored arg) : Accepted options arg options
  | taken (setting : Setting) (effective : effective arg = some setting)
      (fresh : options.given setting.option = false) :
      Accepted options arg (options.apply setting)

theorem interpretJobArg_ignored (h : Ignored arg) :
    interpretJobArg options arg = .ok (options, .ok ()) := by
  cases arg with
  | lit l => cases h
  | ofMeta m =>
      have hNone : m.getPath.getIdent = none := h
      simp [interpretJobArg, hNone]

theorem interpretJobArg_extendedProto {setting : Setting} (h : extendedProto arg = some setting)
    (hFresh : options.given setting.option = false) :
    interpretJobArg options arg = .ok (options.apply setting, .ok ()) := by
  obtain ⟨p, function, next, rest, rfl, hName, rfl⟩ := extendedProto_eq_some_iff.mp h
  have hUnset : options.proto.isNone = true := by
    simpa [JobOptions.given, Setting.option] using hFresh
  simp [interpretJobArg, Meta.getPath, hName, optionValue, interpretOption, hUnset, JobOptions.apply]

theorem accepted_of_interpretJobArg (h : interpretJobArg options arg = .ok (options', .ok ())) :
    Accepted options arg options' := by
  by_cases hHandled : Handled options arg
  · obtain ⟨result, hResult, hTreated⟩ := interpretJobArg_treated hHandled
    obtain rfl := Except.ok.inj (hResult.symm.trans h)
    cases hTreated with
    | taken setting hDocumented hFresh =>
        exact .taken setting (effective_of_documented hDocumented) hFresh
  · obtain ⟨m, rfl, hIdent | ⟨p, rfl⟩ | ⟨p, function, next, rest, rfl, hName, hUnset⟩⟩ :=
      not_handled_cases hHandled
    · have hIgnored : Ignored (.ofMeta m) := hIdent
      rw [interpretJobArg_ignored hIgnored] at h
      cases h
      exact .ignored hIgnored
    · simp only [interpretJobArg, optionValue] at h
      split at h <;> cases h
      exact .ignored ‹_›
    · have hExtended : extendedProto (.ofMeta (.list p (.ofMeta (.path function) :: next :: rest))) =
          some (.proto function) := by
        simp [extendedProto, hName]
      rw [interpretJobArg_extendedProto hExtended hUnset] at h
      cases h
      exact .taken (.proto function) (by simp [effective, documented, hExtended]) hUnset

theorem interpretJobArg_documented {setting : Setting} (h : documented arg = some setting)
    (hFresh : options.given setting.option = false) :
    interpretJobArg options arg = .ok (options.apply setting, .ok ()) := by
  have hHandled : Handled options arg := by
    by_contra hNot
    have hNone := (interpretJobArg_of_not_handled hNot).1
    rw [h] at hNone
    cases hNone
  obtain ⟨result, hResult, hTreated⟩ := interpretJobArg_treated hHandled
  cases hTreated with
  | taken other hOther _ =>
      obtain rfl := Option.some.inj (h.symm.trans hOther)
      exact hResult
  | reported e hWrong =>
      have hGiven := hWrong setting h
      rw [hFresh] at hGiven
      cases hGiven

theorem Accepted.interpretJobArg_eq (h : Accepted options arg options') :
    interpretJobArg options arg = .ok (options', .ok ()) := by
  cases h with
  | ignored hIgnored => exact interpretJobArg_ignored hIgnored
  | taken setting hEffective hFresh =>
      rcases Option.or_eq_some_iff.mp hEffective with hDocumented | ⟨-, hExtended⟩
      · exact interpretJobArg_documented hDocumented hFresh
      · exact interpretJobArg_extendedProto hExtended hFresh

/-- What makes a list of arguments acceptable after these options. The order of
the list plays no part in it. -/
structure AcceptsFrom (options : JobOptions) (args : List NestedMeta) : Prop where
  readable : ∀ arg ∈ args, Ignored arg ∨ (effective arg).isSome
  once : ((args.filterMap effective).map Setting.option).Nodup
  fresh : ∀ setting ∈ args.filterMap effective, options.given setting.option = false

theorem AcceptsFrom.perm {args' : List NestedMeta} (h : AcceptsFrom options args)
    (hPerm : args.Perm args') : AcceptsFrom options args' where
  readable := fun arg hArg => h.readable arg (hPerm.mem_iff.mpr hArg)
  once := ((hPerm.filterMap effective).map Setting.option).nodup_iff.mp h.once
  fresh := fun setting hSetting => h.fresh setting ((hPerm.filterMap effective).mem_iff.mpr hSetting)

theorem acceptsFrom_cons_of_ignored {rest : List NestedMeta} (hIgnored : Ignored arg) :
    AcceptsFrom options (arg :: rest) ↔ AcceptsFrom options rest := by
  have hNone := effective_of_ignored hIgnored
  constructor
  · rintro ⟨hReadable, hOnce, hFresh⟩
    rw [List.filterMap_cons_none hNone] at hOnce hFresh
    exact ⟨fun other hOther => hReadable other (by simp [hOther]), hOnce, hFresh⟩
  · rintro ⟨hReadable, hOnce, hFresh⟩
    rw [← List.filterMap_cons_none hNone] at hOnce hFresh
    exact ⟨List.forall_mem_cons.mpr ⟨.inl hIgnored, hReadable⟩, hOnce, hFresh⟩

theorem acceptsFrom_cons_of_effective {rest : List NestedMeta} {setting : Setting}
    (hEffective : effective arg = some setting) :
    AcceptsFrom options (arg :: rest) ↔
      options.given setting.option = false ∧ AcceptsFrom (options.apply setting) rest := by
  constructor
  · rintro ⟨hReadable, hOnce, hFresh⟩
    rw [List.filterMap_cons_some hEffective] at hOnce hFresh
    obtain ⟨hNew, hOnceRest⟩ := List.nodup_cons.mp hOnce
    obtain ⟨hFirst, hFreshRest⟩ := List.forall_mem_cons.mp hFresh
    refine ⟨hFirst, fun other hOther => hReadable other (by simp [hOther]), hOnceRest, ?_⟩
    intro other hOther
    have hDifferent : other.option ≠ setting.option :=
      fun hEq => hNew (hEq ▸ List.mem_map_of_mem hOther)
    simp [hDifferent, hFreshRest other hOther]
  · rintro ⟨hFirst, hReadable, hOnce, hFresh⟩
    have hRest : ∀ other ∈ rest.filterMap effective,
        other.option ≠ setting.option ∧ options.given other.option = false := by
      intro other hOther
      simpa using hFresh other hOther
    have hNew : setting.option ∉ (rest.filterMap effective).map Setting.option := by
      intro hAgain
      obtain ⟨other, hOther, hEq⟩ := List.mem_map.mp hAgain
      exact (hRest other hOther).1 hEq
    refine ⟨List.forall_mem_cons.mpr ⟨.inr (by simp [hEffective]), hReadable⟩, ?_, ?_⟩
    · rw [List.filterMap_cons_some hEffective]
      exact List.nodup_cons.mpr ⟨hNew, hOnce⟩
    · rw [List.filterMap_cons_some hEffective]
      exact List.forall_mem_cons.mpr ⟨hFirst, fun other hOther => (hRest other hOther).2⟩

/-- The run of the macro over a list that it accepts. -/
theorem interpretJobArgs_eq_ok_iff : interpretJobArgs options args = .ok (options', []) ↔
    AcceptsFrom options args ∧ options' = (args.filterMap effective).foldl JobOptions.apply options := by
  induction args generalizing options with
  | nil =>
      have hNil : AcceptsFrom options [] := ⟨by simp, by simp, by simp⟩
      simp [interpretJobArgs, hNil, eq_comm]
  | cons arg rest ih =>
      rw [interpretJobArgs_cons_eq_ok_iff]
      constructor
      · rintro ⟨mid, hArg, hRest⟩
        obtain ⟨hAccepts, hFinal⟩ := ih.mp hRest
        cases accepted_of_interpretJobArg hArg with
        | ignored hIgnored =>
            rw [List.filterMap_cons_none (effective_of_ignored hIgnored)]
            exact ⟨(acceptsFrom_cons_of_ignored hIgnored).mpr hAccepts, hFinal⟩
        | taken setting hEffective hFresh =>
            rw [List.filterMap_cons_some hEffective]
            exact ⟨(acceptsFrom_cons_of_effective hEffective).mpr ⟨hFresh, hAccepts⟩, hFinal⟩
      · rintro ⟨hAccepts, hFinal⟩
        rcases hAccepts.readable arg (by simp) with hIgnored | hSome
        · rw [List.filterMap_cons_none (effective_of_ignored hIgnored)] at hFinal
          have hRest := (acceptsFrom_cons_of_ignored hIgnored).mp hAccepts
          exact ⟨options, interpretJobArg_ignored hIgnored, ih.mpr ⟨hRest, hFinal⟩⟩
        · obtain ⟨setting, hEffective⟩ := Option.isSome_iff_exists.mp hSome
          rw [List.filterMap_cons_some hEffective] at hFinal
          obtain ⟨hFresh, hRest⟩ := (acceptsFrom_cons_of_effective hEffective).mp hAccepts
          exact ⟨options.apply setting, (Accepted.taken setting hEffective hFresh).interpretJobArg_eq,
            ih.mpr ⟨hRest, hFinal⟩⟩

/-- Settings of different options do not touch each other's field. -/
theorem JobOptions.apply_comm (options : JobOptions) (first second : Setting)
    (hOption : first.option ≠ second.option) :
    (options.apply first).apply second = (options.apply second).apply first := by
  cases first <;> cases second <;> first | rfl | exact absurd rfl hOption

/-- The order of the arguments makes no difference. -/
theorem interpretJobArgs_perm {args' : List NestedMeta}
    (hAccepted : interpretJobArgs options args = .ok (options', [])) (hPerm : args.Perm args') :
    interpretJobArgs options args' = .ok (options', []) := by
  obtain ⟨hAccepts, hFinal⟩ := interpretJobArgs_eq_ok_iff.mp hAccepted
  refine interpretJobArgs_eq_ok_iff.mpr ⟨hAccepts.perm hPerm, ?_⟩
  rw [hFinal]
  exact foldl_eq_of_perm JobOptions.apply_comm hAccepts.once (hPerm.filterMap effective) options

end Accepted

section Values

variable [Float64]

/-- The value of one option: how a setting gives it and where the options
keep it. -/
structure JobValue (γ : Type) where
  option : JobOption
  ofSetting : Setting → Option γ
  read : JobOptions → Option γ
  option_of_isSome : ∀ setting, (ofSetting setting).isSome → setting.option = option := by
    intro setting h
    cases setting <;> first | rfl | cases h
  read_apply : ∀ options setting,
      read (options.apply setting) = (ofSetting setting).or (read options) := by
    intro options setting
    cases setting <;> rfl
  read_default : read .default = none := by rfl

namespace JobValue

def proto : JobValue Path where
  option := .proto
  ofSetting
    | .proto function => some function
    | _ => none
  read := JobOptions.proto

def name : JobValue String where
  option := .name
  ofSetting
    | .name name => some name
    | _ => none
  read := JobOptions.name

def channelName : JobValue String where
  option := .channelName
  ofSetting
    | .channelName channelName => some channelName
    | _ => none
  read := JobOptions.channelName

def retries : JobValue UInt32 where
  option := .retries
  ofSetting
    | .retries retries => some retries
    | _ => none
  read := JobOptions.retries

def backoffSecs : JobValue Float64.Value where
  option := .backoffSecs
  ofSetting
    | .backoffSecs backoffSecs => some backoffSecs
    | _ => none
  read := JobOptions.backoffSecs

def ordered : JobValue Bool where
  option := .ordered
  ofSetting
    | .ordered ordered => some ordered
    | _ => none
  read := JobOptions.ordered

/-- The value that the arguments give. -/
def explicit {γ : Type} (value : JobValue γ) (args : List NestedMeta) : Option γ :=
  (args.filterMap effective).findSome? value.ofSetting

/-- The options hold what the arguments give. -/
theorem read_eq_explicit {γ : Type} (value : JobValue γ) {args : List NestedMeta}
    {options : JobOptions} (hAccepted : interpretJobArgs .default args = .ok (options, [])) :
    value.read options = value.explicit args := by
  obtain ⟨hAccepts, rfl⟩ := interpretJobArgs_eq_ok_iff.mp hAccepted
  rw [read_foldl value.read_apply value.option_of_isSome hAccepts.once, value.read_default,
    Option.or_none, explicit]

/-- A value counts wherever it is given. -/
theorem explicit_eq_some_iff {γ : Type} (value : JobValue γ) {args : List NestedMeta}
    {options : JobOptions} (hAccepted : interpretJobArgs .default args = .ok (options, []))
    {v : γ} : value.explicit args = some v ↔
      ∃ arg ∈ args, ∃ setting, effective arg = some setting ∧ value.ofSetting setting = some v := by
  obtain ⟨hAccepts, -⟩ := interpretJobArgs_eq_ok_iff.mp hAccepted
  rw [explicit, findSome?_eq_some_iff_mem value.option_of_isSome hAccepts.once]
  constructor
  · rintro ⟨setting, hSetting, hv⟩
    obtain ⟨arg, hArg, hEffective⟩ := List.mem_filterMap.mp hSetting
    exact ⟨arg, hArg, setting, hEffective, hv⟩
  · rintro ⟨arg, hArg, setting, hEffective, hv⟩
    exact ⟨setting, List.mem_filterMap.mpr ⟨arg, hArg, hEffective⟩, hv⟩

end JobValue

end Values

section Builder

variable [Float64] {item : JobItem} {options : JobOptions} {args : List NestedMeta}

/-- The builder after the prototype, if the arguments give one. -/
def prototyped (item : JobItem) (args : List NestedMeta) (builder : JobBuilder) :
    Option JobBuilder :=
  match JobValue.proto.explicit args with
  | some function => item.path function builder
  | none => some builder

/-- The backoff that the arguments give, if there is such a duration. -/
def explicitBackoff (item : JobItem) (args : List NestedMeta) (default : Duration) :
    Option Duration :=
  match JobValue.backoffSecs.explicit args with
  | some backoffSecs => item.fromSecsF64 backoffSecs
  | none => some default

/-- What the arguments give overrides what the prototype left, which
otherwise stays. -/
structure Overrides (item : JobItem) (args : List NestedMeta)
    (prototyped builder : JobBuilder) : Prop where
  channelName : builder.channelName =
    (JobValue.channelName.explicit args).getD prototyped.channelName
  retries : builder.retries = (JobValue.retries.explicit args).getD prototyped.retries
  retryBackoff : explicitBackoff item args prototyped.retryBackoff = some builder.retryBackoff
  ordered : builder.ordered = (JobValue.ordered.explicit args).getD prototyped.ordered
  others : builder = { prototyped with
    channelName := builder.channelName
    retries := builder.retries
    retryBackoff := builder.retryBackoff
    ordered := builder.ordered }

theorem run_setProto (builder : JobBuilder) :
    ((JobValue.proto.explicit args).map BuilderCall.setProto).toList.foldlM
      (BuilderCall.run item) builder = prototyped item args builder := by
  unfold prototyped
  cases JobValue.proto.explicit args with
  | none => rfl
  | some function => simp [BuilderCall.run, JobBuilder.setProto]

theorem run_setChannelName (channelName : Option String) (builder : JobBuilder) :
    (channelName.map BuilderCall.setChannelName).toList.foldlM (BuilderCall.run item) builder =
      some (builder.setChannelName (channelName.getD builder.channelName)) := by
  cases channelName <;> rfl

theorem run_setRetries (retries : Option UInt32) (builder : JobBuilder) :
    (retries.map BuilderCall.setRetries).toList.foldlM (BuilderCall.run item) builder =
      some (builder.setRetries (retries.getD builder.retries)) := by
  cases retries <;> rfl

theorem run_setRetryBackoff (builder : JobBuilder) :
    ((JobValue.backoffSecs.explicit args).map BuilderCall.setRetryBackoff).toList.foldlM
      (BuilderCall.run item) builder =
        (explicitBackoff item args builder.retryBackoff).map builder.setRetryBackoff := by
  unfold explicitBackoff
  cases JobValue.backoffSecs.explicit args with
  | none => rfl
  | some backoffSecs => simp [BuilderCall.run]

theorem run_setOrdered (ordered : Option Bool) (builder : JobBuilder) :
    (ordered.map BuilderCall.setOrdered).toList.foldlM (BuilderCall.run item) builder =
      some (builder.setOrdered (ordered.getD builder.ordered)) := by
  cases ordered <;> rfl

theorem overrides_iff {left result : JobBuilder} : Overrides item args left result ↔
    ∃ retryBackoff, explicitBackoff item args left.retryBackoff = some retryBackoff ∧
      (((left.setChannelName ((JobValue.channelName.explicit args).getD left.channelName)).setRetries
        ((JobValue.retries.explicit args).getD left.retries)).setRetryBackoff retryBackoff).setOrdered
          ((JobValue.ordered.explicit args).getD left.ordered) = result := by
  constructor
  · rintro ⟨hChannelName, hRetries, hRetryBackoff, hOrdered, hOthers⟩
    refine ⟨result.retryBackoff, hRetryBackoff, ?_⟩
    rw [← hChannelName, ← hRetries, ← hOrdered]
    exact hOthers.symm
  · rintro ⟨retryBackoff, hRetryBackoff, rfl⟩
    exact ⟨rfl, rfl, hRetryBackoff, rfl, rfl⟩

/-- The prototype comes first, and no other call touches another's field. -/
theorem run_chain_iff (hAccepted : interpretJobArgs .default args = .ok (options, []))
    {builder result : JobBuilder} :
    options.chain.foldlM (BuilderCall.run item) builder = some result ↔
      ∃ left, prototyped item args builder = some left ∧ Overrides item args left result := by
  have hProto : options.proto = _ := JobValue.proto.read_eq_explicit hAccepted
  have hChannelName : options.channelName = _ := JobValue.channelName.read_eq_explicit hAccepted
  have hRetries : options.retries = _ := JobValue.retries.read_eq_explicit hAccepted
  have hBackoffSecs : options.backoffSecs = _ := JobValue.backoffSecs.read_eq_explicit hAccepted
  have hOrdered : options.ordered = _ := JobValue.ordered.read_eq_explicit hAccepted
  rw [JobOptions.chain, hProto, hChannelName, hRetries, hBackoffSecs, hOrdered]
  simp only [List.foldlM_append, run_setProto, run_setChannelName, run_setRetries,
    run_setRetryBackoff, run_setOrdered, overrides_iff]
  cases prototyped item args builder with
  | none => simp
  | some left =>
      simp only [Option.bind_eq_bind, Option.bind_some, Option.bind_eq_some_iff,
        Option.map_eq_some_iff, Option.some.injEq, exists_eq_left']
      constructor
      · rintro ⟨_, ⟨retryBackoff, hRetryBackoff, rfl⟩, rfl⟩
        exact ⟨retryBackoff, hRetryBackoff, rfl⟩
      · rintro ⟨retryBackoff, hRetryBackoff, rfl⟩
        exact ⟨_, ⟨retryBackoff, hRetryBackoff, rfl⟩, rfl⟩

theorem job_of_accepted (item : JobItem)
    (hAccepted : interpretJobArgs .default args = .ok (options, [])) :
    job item args = .ok ([], options.namedJob item) := by
  simp [job, hAccepted, bind, Except.bind]

/-- The job is named by its arguments, or else by its function. -/
theorem namedJob_name (hAccepted : interpretJobArgs .default args = .ok (options, [])) :
    (options.namedJob item).name =
      (JobValue.name.explicit args).getD (item.modulePath ++ "::" ++ item.name) := by
  have hName : options.name = _ := JobValue.name.read_eq_explicit hAccepted
  rw [← hName]
  show options.fqName item = _
  unfold JobOptions.fqName
  cases options.name <;> rfl

theorem namedJob_builderWithId_iff (hAccepted : interpretJobArgs .default args = .ok (options, []))
    (id : Uuid) (builder : JobBuilder) :
    (options.namedJob item).builderWithId id = some builder ↔ ∃ left,
      prototyped item args (.newWithId id (options.namedJob item).name) = some left ∧
        Overrides item args left builder :=
  run_chain_iff hAccepted

/-- The options and the job do not depend on the order of the arguments. The
job's builder has what the arguments give, and otherwise what the prototype
left. -/
theorem job_overrides_of_perm {args' : List NestedMeta}
    (hAccepted : interpretJobArgs .default args = .ok (options, [])) (hPerm : args.Perm args') :
    interpretJobArgs .default args' = .ok (options, []) ∧
      ∀ item : JobItem, ∃ namedJob, job item args = .ok ([], namedJob) ∧
        job item args' = .ok ([], namedJob) ∧ ∀ newV4 builder,
          namedJob.builder newV4 = some builder ↔ ∃ left,
            prototyped item args (.new newV4 namedJob.name) = some left ∧
              Overrides item args left builder := by
  have hAccepted' := interpretJobArgs_perm hAccepted hPerm
  refine ⟨hAccepted', fun item => ⟨options.namedJob item, job_of_accepted item hAccepted,
    job_of_accepted item hAccepted', fun newV4 builder => ?_⟩⟩
  exact namedJob_builderWithId_iff hAccepted newV4 builder

end Builder

/-- `#[job("my_job", proto(my_proto), retries = 0, ordered)]`, written the other
way round, where the prototype sets the channel name and the retries. -/
theorem my_job_overrides :
    let _ : Float64 := .digits
    let named : NestedMeta := .lit (.str "my_job")
    let proto : NestedMeta := .ofMeta (.list (.ofIdent "proto") [.ofMeta (.path (.ofIdent "my_proto"))])
    let retries : NestedMeta := .ofMeta (.nameValue (.ofIdent "retries") (.int ⟨false, 0⟩))
    let ordered : NestedMeta := .ofMeta (.path (.ofIdent "ordered"))
    let myProto : JobBuilder.BuildFn := fun builder =>
      some ((builder.setChannelName "bar").setRetries 9)
    let item : JobItem := {
      modulePath := "jobs"
      name := "example"
      path := fun _ => myProto
      fromSecsF64 := fun _ => none }
    ∃ namedJob, job item [ordered, retries, proto, named] = .ok ([], namedJob) ∧
      ∀ newV4, namedJob.builder newV4 = some { JobBuilder.new newV4 namedJob.name with
        channelName := "bar"
        retries := 0
        ordered := true } := by
  intro _ named proto retries ordered myProto item
  have hAccepted : interpretJobArgs .default [named, proto, retries, ordered] =
      .ok (⟨some (.ofIdent "my_proto"), some "my_job", none, some 0, none, some true⟩, []) := rfl
  have hPerm : [named, proto, retries, ordered].Perm [ordered, retries, proto, named] :=
    (List.reverse_perm _).symm
  obtain ⟨-, hJob⟩ := job_overrides_of_perm hAccepted hPerm
  obtain ⟨namedJob, -, hDeclared, hBuilder⟩ := hJob item
  refine ⟨namedJob, hDeclared, fun newV4 => (hBuilder newV4 _).mpr ⟨_, rfl, ?_⟩⟩
  exact ⟨rfl, rfl, rfl, rfl, rfl⟩

end Sqlxmq
