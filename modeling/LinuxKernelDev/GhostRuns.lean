import LinuxKernelDev.TransitionRuns

/-!
# Recording what a run does

A record kept beside the state of a system observes every action and the state
in which it is taken, and influences nothing.  Every run has a record, and
forgetting the record gives the run back.
-/

namespace LinuxKernelDev.Transition

universe u v w

variable {σ : Type u} {α : Type v} {γ : Type w} {step : σ → α → Option σ}
  {record : σ → α → γ → γ}

/-- A step of the system that also updates the record. -/
def ghostStep (step : σ → α → Option σ) (record : σ → α → γ → γ)
    (observed : σ × γ) (action : α) : Option (σ × γ) :=
  (step observed.1 action).map fun next =>
    (next, record observed.1 action observed.2)

theorem ghostStep_eq_some_iff {observed next : σ × γ} {action : α} :
    ghostStep step record observed action = some next ↔
      step observed.1 action = some next.1 ∧
        record observed.1 action observed.2 = next.2 := by
  obtain ⟨state, ghost⟩ := next
  rw [ghostStep, Option.map_eq_some_iff]
  constructor
  · rintro ⟨state, taken, same⟩
    obtain ⟨rfl, rfl⟩ := Prod.mk.inj same
    exact ⟨taken, rfl⟩
  · rintro ⟨taken, rfl⟩
    exact ⟨state, taken, rfl⟩

/-- Every run has a record. -/
theorem exists_ghost_run {state final : σ} {actions : List α}
    (reached : run step state actions = some final) (ghost : γ) :
    ∃ last, run (ghostStep step record) (state, ghost) actions =
      some (final, last) := by
  induction actions generalizing state ghost with
  | nil =>
      obtain rfl := Option.some.inj reached
      exact ⟨ghost, rfl⟩
  | cons action actions ih =>
      obtain ⟨next, taken, rest⟩ := run_cons_eq_some_iff.mp reached
      obtain ⟨last, ran⟩ := ih rest (record state action ghost)
      exact ⟨last, run_cons_eq_some_iff.mpr
        ⟨_, ghostStep_eq_some_iff.mpr ⟨taken, rfl⟩, ran⟩⟩

/-- The actions of a run are permitted with the record as without it. -/
theorem permits_ghostStep {permitted : σ → α → Prop} {state : σ}
    {actions : List α} (permits : Permits step permitted state actions)
    (ghost : γ) :
    Permits (ghostStep step record)
      (fun observed action => permitted observed.1 action) (state, ghost)
      actions := by
  induction actions generalizing state ghost with
  | nil => trivial
  | cons action actions ih =>
      refine ⟨permits.1, ?_⟩
      have later := permits.2
      cases taken : step state action with
      | none => simp [ghostStep, taken]
      | some next =>
          rw [taken] at later
          simpa [ghostStep, taken] using ih later (record state action ghost)

end LinuxKernelDev.Transition
