import Mathlib.Data.List.Basic
import Sqlxmq.Library.KeyedTable
import Sqlxmq.Macros.JobOptions

/-! The documented arguments of `#[job]`, and when the macro accepts exactly
these and reports every other one. -/
namespace Sqlxmq

open KeyedTable Syn

/-- The options, each of which may be given once. -/
inductive JobOption where
  | proto
  | name
  | channelName
  | retries
  | backoffSecs
  | ordered
deriving DecidableEq

/-- What follows the path in an argument `proto(path, ..)`. -/
def afterProto : NestedMeta → Option (List NestedMeta)
  | .ofMeta (.list p (.ofMeta (.path _) :: rest)) =>
      if p.getIdent = some "proto" then some rest else none
  | _ => none

theorem afterProto_eq_some_iff {arg : NestedMeta} {rest : List NestedMeta} :
    afterProto arg = some rest ↔ ∃ p function,
      arg = .ofMeta (.list p (.ofMeta (.path function) :: rest)) ∧ p.getIdent = some "proto" := by
  constructor
  · intro h
    unfold afterProto at h
    split at h
    · rename_i p function items
      split at h
      · obtain rfl := Option.some.inj h
        exact ⟨p, function, rfl, ‹_›⟩
      · cases h
    · cases h
  · rintro ⟨p, function, rfl, hName⟩
    simp [afterProto, hName]

/-- A named argument has a single identifier as its name, and a list has an
item. -/
def Named : NestedMeta → Prop
  | .lit _ => True
  | .ofMeta m => m.getPath.getIdent.isSome ∧ ∀ p nested, m = .list p nested → nested ≠ []

section Documented

variable [Float64]

/-- What the documentation says that an argument sets. -/
inductive Setting where
  | proto (function : Path)
  | name (name : String)
  | channelName (channelName : String)
  | retries (retries : UInt32)
  | backoffSecs (backoffSecs : Float64.Value)
  | ordered (ordered : Bool)

def Setting.option : Setting → JobOption
  | .proto _ => .proto
  | .name _ => .name
  | .channelName _ => .channelName
  | .retries _ => .retries
  | .backoffSecs _ => .backoffSecs
  | .ordered _ => .ordered

/-- The documented forms of an argument. -/
def documented : NestedMeta → Option Setting
  | .lit (.str s) => some (.name s)
  | .lit _ => none
  | .ofMeta (.path p) => if p.getIdent = some "ordered" then some (.ordered true) else none
  | .ofMeta (.list p [.ofMeta (.path function)]) =>
      if p.getIdent = some "proto" then some (.proto function) else none
  | .ofMeta (.list _ _) => none
  | .ofMeta (.nameValue p lit) =>
      match p.getIdent, lit with
      | some "name", .str s => some (.name s)
      | some "channel_name", .str s => some (.channelName s)
      | some "retries", .int n => n.base10ParseU32.toOption.map .retries
      | some "backoff_secs", .float n => some (.backoffSecs (Float64.parse n.base10Digits))
      | some "backoff_secs", .int n => some (.backoffSecs (Float64.parse n.base10Digits))
      | some "ordered", .bool b => some (.ordered b)
      | _, _ => none

namespace JobOptions

/-- The option has a value. -/
def given (options : JobOptions) : JobOption → Bool
  | .proto => options.proto.isSome
  | .name => options.name.isSome
  | .channelName => options.channelName.isSome
  | .retries => options.retries.isSome
  | .backoffSecs => options.backoffSecs.isSome
  | .ordered => options.ordered.isSome

def apply (options : JobOptions) : Setting → JobOptions
  | .proto function => { options with proto := some function }
  | .name name => { options with name := some name }
  | .channelName channelName => { options with channelName := some channelName }
  | .retries retries => { options with retries := some retries }
  | .backoffSecs backoffSecs => { options with backoffSecs := some backoffSecs }
  | .ordered ordered => { options with ordered := some ordered }

theorem given_default (o : JobOption) : default.given o = false := by
  cases o <;> rfl

/-- A setting gives its own option and no other. -/
@[simp] theorem given_apply (options : JobOptions) (setting : Setting) (o : JobOption) :
    (options.apply setting).given o = (decide (o = setting.option) || options.given o) := by
  cases setting <;> cases o <;> rfl

end JobOptions

/-- What an argument has to look like for the macro to treat it as documented
when it comes after these options. -/
structure Handled (options : JobOptions) (arg : NestedMeta) : Prop where
  named : Named arg
  proto : ∀ rest, afterProto arg = some rest → rest = [] ∨ options.given .proto = true

section Step

variable {options : JobOptions} {arg : NestedMeta}

/-- How an argument is to be treated: it is taken over if it is documented and
its option is not given yet, and reported otherwise. -/
inductive Treated (options : JobOptions) (arg : NestedMeta) : Interpreted → Prop where
  | taken (setting : Setting) (documented : documented arg = some setting)
      (fresh : options.given setting.option = false) :
      Treated options arg (options.apply setting, .ok ())
  | reported (e : Syn.Error)
      (wrong : ∀ setting, documented arg = some setting → options.given setting.option = true) :
      Treated options arg (options, .error e)

/-- The branch of an option that has such a value. -/
theorem treated_setting (setting : Setting) {result : Interpreted}
    (hDocumented : documented arg = some setting)
    (hResult : result = if options.given setting.option = false
      then (options.apply setting, .ok ()) else unexpected options arg) :
    Treated options arg result := by
  rw [hResult]
  split
  · exact .taken setting hDocumented ‹_›
  · rename_i hGiven
    refine .reported _ fun other hOther => ?_
    obtain rfl := Option.some.inj (hDocumented.symm.trans hOther)
    simpa using hGiven

theorem treated_error (hNone : documented arg = none) (e : Syn.Error) :
    Treated options arg (options, .error e) :=
  .reported e fun setting hSetting => by simp [hNone] at hSetting

/-- The branches of everything else. -/
theorem treated_unexpected {result : Interpreted} (hNone : documented arg = none)
    (hResult : result = unexpected options arg) : Treated options arg result :=
  hResult ▸ treated_error hNone _

theorem interpretOption_lit {p : Path} {name : String} (hName : p.getIdent = some name)
    (lit : Lit) :
    Treated options (.ofMeta (.nameValue p lit))
      (interpretOption options (.ofMeta (.nameValue p lit)) name (.lit lit)) := by
  cases lit with
  | str s =>
      by_cases hIsName : name = "name"
      · subst hIsName
        exact treated_setting (.name s) (by simp [documented, hName])
          (by simp [interpretOption, JobOptions.given, JobOptions.apply, Setting.option])
      by_cases hIsChannel : name = "channel_name"
      · subst hIsChannel
        exact treated_setting (.channelName s) (by simp [documented, hName])
          (by simp [interpretOption, JobOptions.given, JobOptions.apply, Setting.option])
      exact treated_unexpected (by simp [documented, hName, hIsName, hIsChannel])
        (by simp [interpretOption, hIsName, hIsChannel])
  | int n =>
      by_cases hIsRetries : name = "retries"
      · subst hIsRetries
        cases hParse : n.base10ParseU32 with
        | ok retries =>
            exact treated_setting (.retries retries)
              (by simp [documented, hName, hParse, Except.toOption])
              (by simp [interpretOption, hParse, JobOptions.given, JobOptions.apply, Setting.option])
        | error message =>
            have hNone : documented (.ofMeta (.nameValue p (.int n))) = none := by
              simp [documented, hName, hParse, Except.toOption]
            simp only [interpretOption, hParse]
            split <;> exact treated_error hNone _
      by_cases hIsBackoff : name = "backoff_secs"
      · subst hIsBackoff
        exact treated_setting (.backoffSecs (Float64.parse n.base10Digits))
          (by simp [documented, hName])
          (by simp [interpretOption, JobOptions.given, JobOptions.apply, Setting.option])
      exact treated_unexpected (by simp [documented, hName, hIsRetries, hIsBackoff])
        (by simp [interpretOption, hIsRetries, hIsBackoff])
  | float n =>
      by_cases hIsBackoff : name = "backoff_secs"
      · subst hIsBackoff
        exact treated_setting (.backoffSecs (Float64.parse n.base10Digits))
          (by simp [documented, hName])
          (by simp [interpretOption, JobOptions.given, JobOptions.apply, Setting.option])
      exact treated_unexpected (by simp [documented, hName, hIsBackoff])
        (by simp [interpretOption, hIsBackoff])
  | bool b =>
      by_cases hIsOrdered : name = "ordered"
      · subst hIsOrdered
        exact treated_setting (.ordered b) (by simp [documented, hName])
          (by simp [interpretOption, JobOptions.given, JobOptions.apply, Setting.option])
      exact treated_unexpected (by simp [documented, hName, hIsOrdered])
        (by simp [interpretOption, hIsOrdered])
  | _ => exact treated_unexpected (by simp [documented]) (by simp [interpretOption])

theorem interpretOption_none {p : Path} {name : String} (hName : p.getIdent = some name) :
    Treated options (.ofMeta (.path p)) (interpretOption options (.ofMeta (.path p)) name .none) := by
  by_cases hIsOrdered : name = "ordered"
  · subst hIsOrdered
    exact treated_setting (.ordered true) (by simp [documented, hName])
      (by simp [interpretOption, JobOptions.given, JobOptions.apply, Setting.option])
  · exact treated_unexpected (by simp [documented, hName, hIsOrdered])
      (by simp [interpretOption, hIsOrdered])

theorem interpretOption_path {p function : Path} {name : String} {rest : List NestedMeta}
    (hName : p.getIdent = some name)
    (hRest : name = "proto" → rest = [] ∨ options.given .proto = true) :
    Treated options (.ofMeta (.list p (.ofMeta (.path function) :: rest)))
      (interpretOption options (.ofMeta (.list p (.ofMeta (.path function) :: rest))) name
        (.path function)) := by
  by_cases hIsProto : name = "proto"
  · subst hIsProto
    cases rest with
    | nil =>
        exact treated_setting (.proto function) (by simp [documented, hName])
          (by simp [interpretOption, JobOptions.given, JobOptions.apply, Setting.option])
    | cons next rest =>
        have hGiven : options.proto.isSome := by simpa [JobOptions.given] using hRest rfl
        exact treated_unexpected (by simp [documented])
          (by simp [interpretOption, Option.isNone_eq_false_iff.mpr hGiven])
  · refine treated_unexpected ?_ (by simp [interpretOption, hIsProto])
    cases rest <;> simp [documented, hName, hIsProto]

theorem interpretJobArg_list {p : Path} {name : String} {first : NestedMeta}
    {rest : List NestedMeta} (hName : p.getIdent = some name)
    (hProto : ∀ items, afterProto (.ofMeta (.list p (first :: rest))) = some items →
      items = [] ∨ options.given .proto = true) :
    ∃ result, interpretJobArg options (.ofMeta (.list p (first :: rest))) = .ok result ∧
      Treated options (.ofMeta (.list p (first :: rest))) result := by
  have hUnusable (hValue : optionValue (.list p (first :: rest)) = .ok none) :
      interpretJobArg options (.ofMeta (.list p (first :: rest))) =
        .ok (unexpected options (.ofMeta (.list p (first :: rest)))) := by
    simp [interpretJobArg, Meta.getPath, hName, hValue]
  cases first with
  | lit l => exact ⟨_, hUnusable rfl, treated_error (by simp [documented]) _⟩
  | ofMeta item =>
      cases item with
      | path function =>
          refine ⟨interpretOption options _ name (.path function), ?_,
            interpretOption_path hName ?_⟩
          · simp [interpretJobArg, Meta.getPath, hName, optionValue]
          · rintro rfl
            exact hProto rest (by simp [afterProto, hName])
      | _ => exact ⟨_, hUnusable rfl, treated_error (by simp [documented]) _⟩

/-- One argument that is named as the macro expects is treated as documented. -/
theorem interpretJobArg_treated (h : Handled options arg) :
    ∃ result, interpretJobArg options arg = .ok result ∧ Treated options arg result := by
  obtain ⟨hNamed, hProto⟩ := h
  cases arg with
  | lit l =>
      cases l with
      | str s =>
          have hResult : interpretJobArg options (.lit (.str s)) =
              .ok (if options.name.isNone then ({ options with name := some s }, .ok ())
                else unexpected options (.lit (.str s))) := by
            simp only [interpretJobArg]
            split <;> rfl
          exact ⟨_, hResult, treated_setting (.name s) rfl
            (by simp [JobOptions.given, JobOptions.apply, Setting.option])⟩
      | _ => exact ⟨_, rfl, treated_error rfl _⟩
  | ofMeta m =>
      obtain ⟨hIdent, hItems⟩ := hNamed
      obtain ⟨name, hName⟩ := Option.isSome_iff_exists.mp hIdent
      cases m with
      | path p =>
          refine ⟨interpretOption options (.ofMeta (.path p)) name .none, ?_,
            interpretOption_none hName⟩
          simp [interpretJobArg, hName, optionValue]
      | list p nested =>
          cases nested with
          | nil => exact absurd rfl (hItems p [] rfl)
          | cons first rest => exact interpretJobArg_list hName hProto
      | nameValue p lit =>
          refine ⟨interpretOption options (.ofMeta (.nameValue p lit)) name (.lit lit), ?_,
            interpretOption_lit hName lit⟩
          simp [interpretJobArg, hName, optionValue]

/-- The shapes that the macro does not handle. -/
theorem not_handled_cases (h : ¬ Handled options arg) : ∃ m, arg = .ofMeta m ∧
    (m.getPath.getIdent = none ∨ (∃ p, m = .list p []) ∨
      ∃ p function next rest, m = .list p (.ofMeta (.path function) :: next :: rest) ∧
        p.getIdent = some "proto" ∧ options.given .proto = false) := by
  cases arg with
  | lit l => exact absurd ⟨trivial, fun rest hRest => by simp [afterProto] at hRest⟩ h
  | ofMeta m =>
      refine ⟨m, rfl, ?_⟩
      by_contra hOther
      simp only [not_or, not_exists, not_and] at hOther
      obtain ⟨hIdent, hItems, hProto⟩ := hOther
      refine h ⟨⟨Option.isSome_iff_ne_none.mpr hIdent, ?_⟩, ?_⟩
      · rintro p _ hList rfl
        exact hItems p hList
      · intro rest hRest
        obtain ⟨p, function, hList, hName⟩ := afterProto_eq_some_iff.mp hRest
        cases rest with
        | nil => exact Or.inl rfl
        | cons next rest =>
            obtain rfl := NestedMeta.ofMeta.inj hList
            exact Or.inr (by simpa [Option.isSome_iff_ne_none] using hProto p function next rest rfl hName)

theorem documented_of_unnamed {m : Meta} (h : m.getPath.getIdent = none) :
    documented (.ofMeta m) = none := by
  cases m with
  | path p =>
      have hNone : p.getIdent = none := h
      simp [documented, hNone]
  | list p nested =>
      have hNone : p.getIdent = none := h
      unfold documented
      split <;> simp_all
  | nameValue p lit =>
      have hNone : p.getIdent = none := h
      simp [documented, hNone]

/-- They are not documented, and the macro does not report them. -/
theorem interpretJobArg_of_not_handled (h : ¬ Handled options arg) :
    documented arg = none ∧
      ∀ result, interpretJobArg options arg = .ok result → result.2 = .ok () := by
  obtain ⟨m, rfl, hIdent | ⟨p, rfl⟩ | ⟨p, function, next, rest, rfl, hName, hProto⟩⟩ :=
    not_handled_cases h
  · refine ⟨documented_of_unnamed hIdent, fun result hResult => ?_⟩
    simp only [interpretJobArg, hIdent, Except.ok.injEq] at hResult
    rw [← hResult]
  · refine ⟨by simp [documented], fun result hResult => ?_⟩
    simp only [interpretJobArg, optionValue] at hResult
    split at hResult <;> cases hResult
    rfl
  · refine ⟨by simp [documented], fun result hResult => ?_⟩
    have hNone : options.proto.isNone = true := by simpa [JobOptions.given] using hProto
    simp only [interpretJobArg, Meta.getPath, hName, optionValue, interpretOption, hNone, if_true,
      Except.ok.injEq] at hResult
    rw [← hResult]

end Step

/-- The run of the macro over its arguments, next to the options that the
arguments before gave. It reports an argument exactly if that is wrong. -/
def ReportsExactly (options : JobOptions) (given : List JobOption) : List NestedMeta → Prop
  | [] => True
  | arg :: rest => ∃ options' result, interpretJobArg options arg = .ok (options', result) ∧
      ((∃ e, result = .error e) ↔
        ∀ setting, documented arg = some setting → setting.option ∈ given) ∧
      ReportsExactly options' (given ++ (documented arg).toList.map Setting.option) rest

/-- What all arguments have to look like for the macro to work as documented,
when it starts with these options. -/
structure HandledFrom (options : JobOptions) (args : List NestedMeta) : Prop where
  named : ∀ arg ∈ args, Named arg
  proto : options.given .proto = false →
    ∀ rest, args.findSome? afterProto = some rest → rest = []

/-- An argument adds the option that it is documented to give. -/
theorem Treated.given {options : JobOptions} {arg : NestedMeta} {result : Interpreted}
    (h : Treated options arg result) (o : JobOption) :
    result.1.given o = true ↔
      options.given o = true ∨ o ∈ (documented arg).toList.map Setting.option := by
  cases h with
  | taken setting hDocumented hFresh =>
      simp [hDocumented, or_comm]
  | reported e hWrong =>
      constructor
      · exact Or.inl
      · rintro (hGiven | hNew)
        · exact hGiven
        · obtain ⟨setting, hSetting, rfl⟩ := List.mem_map.mp hNew
          exact hWrong setting (by simpa using hSetting)

/-- It reports exactly the wrong arguments. -/
theorem Treated.error_iff {options : JobOptions} {arg : NestedMeta} {result : Interpreted}
    (h : Treated options arg result) : (∃ e, result.2 = .error e) ↔
      ∀ setting, documented arg = some setting → options.given setting.option = true := by
  cases h with
  | taken setting hDocumented hFresh =>
      constructor
      · rintro ⟨e, hError⟩
        cases hError
      · intro hWrong
        rw [hWrong setting hDocumented] at hFresh
        cases hFresh
  | reported e hWrong => exact ⟨fun _ => hWrong, fun _ => ⟨e, rfl⟩⟩

/-- The prototype is documented as `proto(path)`. -/
theorem documented_proto_iff {arg : NestedMeta} :
    JobOption.proto ∈ (documented arg).toList.map Setting.option ↔ afterProto arg = some [] := by
  rw [afterProto_eq_some_iff]
  constructor
  · intro h
    obtain ⟨setting, hSetting, hOption⟩ := List.mem_map.mp h
    have hDocumented : documented arg = some setting := by simpa using hSetting
    cases setting with
    | proto function =>
        unfold documented at hDocumented
        split at hDocumented <;> try cases hDocumented
        · split at hDocumented <;> cases hDocumented
        · split at hDocumented
          · cases hDocumented
            exact ⟨_, function, rfl, ‹_›⟩
          · cases hDocumented
        · split at hDocumented <;> simp at hDocumented
    | _ => cases hOption
  · rintro ⟨p, function, rfl, hName⟩
    simp [documented, hName, Setting.option]

/-- Arguments are handled one after the other. -/
theorem handledFrom_cons {options : JobOptions} {arg : NestedMeta} {args : List NestedMeta}
    {result : Interpreted} (hTreated : Treated options arg result) :
    HandledFrom options (arg :: args) ↔ Handled options arg ∧ HandledFrom result.1 args := by
  have hGiven := hTreated.given .proto
  rw [documented_proto_iff] at hGiven
  constructor
  · rintro ⟨hNamed, hProto⟩
    have hFirst : ∀ rest, afterProto arg = some rest → rest = [] ∨ options.given .proto = true := by
      intro rest hRest
      cases hUnset : options.given .proto with
      | true => exact Or.inr rfl
      | false => exact Or.inl (hProto hUnset rest (by simp [hRest]))
    refine ⟨⟨hNamed arg (by simp), hFirst⟩, fun other hOther => hNamed other (by simp [hOther]), ?_⟩
    intro hUnset rest hRest
    rw [hUnset, Bool.false_eq_true, false_iff, not_or] at hGiven
    cases hAfter : afterProto arg with
    | none => exact hProto (by simpa using hGiven.1) rest (by simpa [hAfter] using hRest)
    | some items =>
        rcases hFirst items hAfter with rfl | hSet
        · exact absurd hAfter hGiven.2
        · exact absurd hSet hGiven.1
  · rintro ⟨⟨hNamed, hFirst⟩, hNamedRest, hProto⟩
    refine ⟨by simpa using ⟨hNamed, hNamedRest⟩, fun hUnset rest hRest => ?_⟩
    cases hAfter : afterProto arg with
    | none =>
        refine hProto ?_ rest (by simpa [hAfter] using hRest)
        simpa [hUnset, hAfter] using hGiven
    | some items =>
        obtain rfl : items = rest := by simpa [hAfter] using hRest
        rcases hFirst items hAfter with hNone | hSet
        · exact hNone
        · rw [hUnset] at hSet
          cases hSet

/-- The macro reports exactly the wrong arguments when it handles them all. -/
theorem reportsExactly_iff {options : JobOptions} {given : List JobOption} {args : List NestedMeta}
    (hGiven : ∀ o, options.given o = true ↔ o ∈ given) :
    ReportsExactly options given args ↔ HandledFrom options args := by
  induction args generalizing options given with
  | nil => exact ⟨fun _ => ⟨by simp, by simp⟩, fun _ => trivial⟩
  | cons arg rest ih =>
      by_cases hHandled : Handled options arg
      · obtain ⟨result, hResult, hTreated⟩ := interpretJobArg_treated hHandled
        have hGiven' : ∀ o, result.1.given o = true ↔
            o ∈ given ++ (documented arg).toList.map Setting.option := by
          intro o
          rw [hTreated.given, List.mem_append, hGiven]
        have hWrong := hTreated.error_iff
        simp only [hGiven] at hWrong
        rw [handledFrom_cons hTreated, ← ih hGiven']
        constructor
        · rintro ⟨options', _, hEq, -, hRest⟩
          obtain rfl := Except.ok.inj (hEq.symm.trans hResult)
          exact ⟨hHandled, hRest⟩
        · rintro ⟨-, hRest⟩
          exact ⟨result.1, result.2, hResult, hWrong, hRest⟩
      · obtain ⟨hNone, hSilent⟩ := interpretJobArg_of_not_handled hHandled
        constructor
        · rintro ⟨options', result, hResult, hReported, -⟩
          obtain ⟨e, hError⟩ := hReported.mpr fun setting hSetting => by simp [hNone] at hSetting
          have hOk := hSilent _ hResult
          rw [hError] at hOk
          cases hOk
        · rintro ⟨hNamed, hProto⟩
          refine absurd ⟨hNamed arg (by simp), fun items hItems => ?_⟩ hHandled
          cases hUnset : options.given .proto with
          | true => exact Or.inr rfl
          | false => exact Or.inl (hProto hUnset items (by simp [hItems]))

/-- Every argument has a documented form, and no option is given twice. -/
def Grammatical (args : List NestedMeta) : Prop :=
  (∀ arg ∈ args, (documented arg).isSome) ∧
    ((args.filterMap documented).map Setting.option).Nodup

/-- Arguments are accepted one after the other. -/
theorem interpretJobArgs_cons_eq_ok_iff {options final : JobOptions} {arg : NestedMeta}
    {rest : List NestedMeta} :
    interpretJobArgs options (arg :: rest) = .ok (final, []) ↔ ∃ options',
      interpretJobArg options arg = .ok (options', .ok ()) ∧
        interpretJobArgs options' rest = .ok (final, []) := by
  simp only [interpretJobArgs, bind, Except.bind]
  cases interpretJobArg options arg with
  | error panic => simp
  | ok first =>
      obtain ⟨options', result⟩ := first
      cases hRest : interpretJobArgs options' rest with
      | error panic => cases result <;> simp [hRest]
      | ok last =>
          obtain ⟨last, errors⟩ := last
          cases result <;> simp [hRest]

theorem accepts_cons_iff {options options' : JobOptions} {arg : NestedMeta} {rest : List NestedMeta}
    {result : Except Syn.Error Unit} (hResult : interpretJobArg options arg = .ok (options', result)) :
    (∃ final, interpretJobArgs options (arg :: rest) = .ok (final, [])) ↔
      result = .ok () ∧ ∃ final, interpretJobArgs options' rest = .ok (final, []) := by
  constructor
  · rintro ⟨final, hFinal⟩
    obtain ⟨next, hArg, hRest⟩ := interpretJobArgs_cons_eq_ok_iff.mp hFinal
    rw [hResult] at hArg
    cases hArg
    exact ⟨rfl, final, hRest⟩
  · rintro ⟨rfl, final, hRest⟩
    exact ⟨final, interpretJobArgs_cons_eq_ok_iff.mpr ⟨options', hResult, hRest⟩⟩

theorem grammatical_cons_iff {arg : NestedMeta} {rest : List NestedMeta} {setting : Setting}
    (hSetting : documented arg = some setting) : Grammatical (arg :: rest) ↔
      setting.option ∉ (rest.filterMap documented).map Setting.option ∧ Grammatical rest := by
  simp only [Grammatical, List.filterMap_cons, hSetting, List.map_cons, List.nodup_cons,
    List.forall_mem_cons, Option.isSome_some, true_and]
  exact and_left_comm

/-- What is reported exactly is accepted exactly if nothing is wrong. -/
theorem ReportsExactly.accepts_iff {options : JobOptions} {given : List JobOption}
    {args : List NestedMeta} (h : ReportsExactly options given args) :
    (∃ final, interpretJobArgs options args = .ok (final, [])) ↔
      Grammatical args ∧ ∀ o ∈ (args.filterMap documented).map Setting.option, o ∉ given := by
  induction args generalizing options given with
  | nil => simp [interpretJobArgs, Grammatical]
  | cons arg rest ih =>
      obtain ⟨options', result, hResult, hReported, hRest⟩ := h
      rw [accepts_cons_iff hResult, ih hRest]
      cases result with
      | error e =>
          have hWrong := hReported.mp ⟨e, rfl⟩
          constructor
          · rintro ⟨hOk, -⟩
            cases hOk
          · rintro ⟨⟨hDocumented, -⟩, hFresh⟩
            obtain ⟨setting, hSetting⟩ := Option.isSome_iff_exists.mp (hDocumented arg (by simp))
            exact absurd (hWrong setting hSetting) (hFresh _ (by simp [hSetting]))
      | ok _ =>
          have hRight : ¬ ∀ setting, documented arg = some setting → setting.option ∈ given := by
            intro hWrong
            obtain ⟨e, hError⟩ := hReported.mpr hWrong
            cases hError
          simp only [not_forall] at hRight
          obtain ⟨setting, hSetting, hFresh⟩ := hRight
          rw [grammatical_cons_iff hSetting]
          simp only [hSetting, List.filterMap_cons, List.map_cons, List.forall_mem_cons,
            Option.toList_some, List.map_nil, List.mem_append, List.mem_singleton, not_or]
          constructor
          · rintro ⟨-, hGrammatical, hOthers⟩
            exact ⟨⟨fun hAgain => (hOthers _ hAgain).2 rfl, hGrammatical⟩, hFresh,
              fun o ho => (hOthers o ho).1⟩
          · rintro ⟨⟨hOnce, hGrammatical⟩, -, hOthers⟩
            exact ⟨trivial, hGrammatical, fun o ho => ⟨hOthers o ho, fun hEq => hOnce (hEq ▸ ho)⟩⟩

/-- The macro accepts exactly what its documentation describes. -/
structure ExactlyDocumented (args : List NestedMeta) : Prop where
  accepts : (∃ options, interpretJobArgs .default args = .ok (options, [])) ↔ Grammatical args
  reports : ReportsExactly .default [] args

/-- The macro accepts exactly what its documentation describes if all named
arguments have single identifiers as names, no list is empty, and the first
prototype that is given is the only item of its list. -/
theorem exactlyDocumented_iff (args : List NestedMeta) :
    ExactlyDocumented args ↔ (∀ arg ∈ args, Named arg) ∧
      ∀ rest, args.findSome? afterProto = some rest → rest = [] := by
  have hReports : ReportsExactly .default [] args ↔ HandledFrom .default args :=
    reportsExactly_iff (by simp [JobOptions.given_default])
  constructor
  · intro h
    obtain ⟨hNamed, hProto⟩ := hReports.mp h.reports
    exact ⟨hNamed, hProto rfl⟩
  · rintro ⟨hNamed, hProto⟩
    have hExact := hReports.mpr ⟨hNamed, fun _ => hProto⟩
    exact ⟨by simpa using hExact.accepts_iff, hExact⟩

end Documented

/-- `retries::max = 5` is accepted and ignored, `proto(a, b)` is accepted as
`proto(a)`, and the macro panics on `proto()`. -/
theorem not_exactlyDocumented :
    let _ : Float64 := .digits
    let ignored : NestedMeta :=
      .ofMeta (.nameValue ⟨false, [⟨"retries", .none⟩, ⟨"max", .none⟩]⟩ (.int ⟨false, 5⟩))
    let pair : NestedMeta := .ofMeta (.list (.ofIdent "proto")
      [.ofMeta (.path (.ofIdent "a")), .ofMeta (.path (.ofIdent "b"))])
    let empty : NestedMeta := .ofMeta (.list (.ofIdent "proto") [])
    interpretJobArgs .default [ignored] = .ok (.default, []) ∧
      interpretJobArgs .default [pair] =
        .ok ({ JobOptions.default with proto := some (.ofIdent "a") }, []) ∧
      interpretJobArgs .default [empty] = .error .indexOutOfBounds ∧
      documented ignored = none ∧ documented pair = none ∧ documented empty = none ∧
      ¬ ExactlyDocumented [ignored] ∧ ¬ ExactlyDocumented [pair] ∧ ¬ ExactlyDocumented [empty] := by
  intro _ ignored pair empty
  have hIgnored : interpretJobArgs .default [ignored] = .ok (.default, []) := rfl
  have hPair : interpretJobArgs .default [pair] =
      .ok ({ JobOptions.default with proto := some (.ofIdent "a") }, []) := rfl
  have hEmpty : interpretJobArgs .default [empty] = .error .indexOutOfBounds := rfl
  refine ⟨hIgnored, hPair, hEmpty, rfl, rfl, rfl, ?_, ?_, ?_⟩
  · intro h
    have hDocumented := (h.accepts.mp ⟨_, hIgnored⟩).1 ignored (by simp)
    cases hDocumented
  · intro h
    have hDocumented := (h.accepts.mp ⟨_, hPair⟩).1 pair (by simp)
    cases hDocumented
  · intro h
    obtain ⟨options, result, hResult, -⟩ := h.reports
    cases hResult

end Sqlxmq
