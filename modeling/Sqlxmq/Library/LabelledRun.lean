/-! Finite runs of a labelled step relation, with the trace of their labels.
The relation may be nondeterministic, so a statement about every run covers
every interleaving that the relation allows. -/
namespace LabelledRun

universe u v w
variable {State : Type u} {Label : Type v}

/-- A run from `start`, extended at its end one step at a time. -/
inductive Run (step : State → Label → State → Prop) (start : State) :
    List Label → State → Prop where
  | refl : Run step start [] start
  | snoc {trace : List Label} {s t : State} {label : Label}
      (prior : Run step start trace s) (last : step s label t) :
      Run step start (trace ++ [label]) t

variable {step : State → Label → State → Prop} {start finish : State} {trace : List Label}

/-- A step in front of a run. -/
theorem Run.cons {first : Label} {middle : State} (hFirst : step start first middle)
    (rest : Run step middle trace finish) : Run step start (first :: trace) finish := by
  induction rest with
  | refl => exact .snoc .refl hFirst
  | snoc prior last ih => exact .snoc ih last

/-- What holds at the start and is kept by every step holds at the end. -/
theorem Run.invariant {P : State → Prop} (run : Run step start trace finish)
    (hStart : P start) (hStep : ∀ s label t, P s → step s label t → P t) : P finish := by
  induction run with
  | refl => exact hStart
  | snoc prior last ih => exact hStep _ _ _ ih last

/-- What differs between the ends of a run was changed by one of its steps. -/
theorem Run.exists_change {β : Type w} (f : State → β) (run : Run step start trace finish)
    (h : f start ≠ f finish) : ∃ before label after s t, trace = before ++ label :: after ∧
      Run step start before s ∧ step s label t ∧ f s ≠ f t := by
  induction run with
  | refl => exact absurd rfl h
  | @snoc trace s t label prior last ih =>
      by_cases hPrior : f start = f s
      · exact ⟨trace, label, [], s, t, rfl, prior, last, hPrior ▸ h⟩
      · obtain ⟨before, label', after, s', t', rfl, run', hStep, hChange⟩ := ih hPrior
        exact ⟨before, label', after ++ [label], s', t', by simp, run', hStep, hChange⟩

end LabelledRun
