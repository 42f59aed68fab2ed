/-!
# Runs of guarded transition functions

A system takes actions; an action that is disabled in a state has no
successor.  This file gives the invariant rule for whole runs, a version for
runs whose actions are all taken in permitted states, the rule that lifts a
step-by-step projection of one system onto another to runs, and the rule that
finds a run to a final state from a rank that steps can lower.
-/

namespace LinuxKernelDev.Transition

universe u v w x

variable {σ : Type u} {α : Type v} {τ : Type w} {β : Type x}

/-- Takes the listed actions in order. -/
def run (step : σ → α → Option σ) : σ → List α → Option σ
  | state, [] => some state
  | state, action :: actions =>
      (step state action).bind fun next => run step next actions

/-- Every action of a run is taken in a state that permits it. -/
def Permits (step : σ → α → Option σ) (permitted : σ → α → Prop) :
    σ → List α → Prop
  | _, [] => True
  | state, action :: actions =>
      permitted state action ∧
        match step state action with
        | none => True
        | some next => Permits step permitted next actions

/-- Whether a run is permitted can be computed. -/
def decidePermits (step : σ → α → Option σ) (permitted : σ → α → Prop)
    [∀ state action, Decidable (permitted state action)] :
    ∀ state actions, Decidable (Permits step permitted state actions)
  | _, [] => isTrue trivial
  | state, action :: actions =>
      @instDecidableAnd _ _ inferInstance
        (match step state action with
        | none => isTrue trivial
        | some next => decidePermits step permitted next actions)

variable {step : σ → α → Option σ} {permitted : σ → α → Prop}

instance [∀ state action, Decidable (permitted state action)] (state : σ)
    (actions : List α) : Decidable (Permits step permitted state actions) :=
  decidePermits step permitted state actions

@[simp]
theorem run_nil (state : σ) : run step state [] = some state := rfl

theorem run_cons_eq_some_iff {state final : σ} {action : α}
    {actions : List α} :
    run step state (action :: actions) = some final ↔
      ∃ next, step state action = some next ∧
        run step next actions = some final :=
  Option.bind_eq_some_iff

theorem run_append (state : σ) (first second : List α) :
    run step state (first ++ second) =
      (run step state first).bind fun middle => run step middle second := by
  induction first generalizing state with
  | nil => rfl
  | cons action first ih =>
      rw [List.cons_append, run, run, Option.bind_assoc]
      exact congrArg _ (funext ih)

/-- An invariant of permitted steps is an invariant of permitted runs. -/
theorem invariant_of_permits (invariant : σ → Prop)
    (preserved : ∀ state action next, invariant state →
      permitted state action → step state action = some next →
        invariant next)
    {state final : σ} {actions : List α} (start : invariant state)
    (permits : Permits step permitted state actions)
    (reached : run step state actions = some final) : invariant final := by
  induction actions generalizing state with
  | nil =>
      obtain rfl := Option.some.inj reached
      exact start
  | cons action actions ih =>
      obtain ⟨next, taken, rest⟩ := run_cons_eq_some_iff.mp reached
      obtain ⟨allowed, later⟩ := permits
      rw [taken] at later
      exact ih (preserved state action next start allowed taken) later rest

/-- An invariant of all steps is an invariant of all runs. -/
theorem invariant_of_run (invariant : σ → Prop)
    (preserved : ∀ state action next, invariant state →
      step state action = some next → invariant next)
    {state final : σ} {actions : List α} (start : invariant state)
    (reached : run step state actions = some final) : invariant final := by
  induction actions generalizing state with
  | nil =>
      obtain rfl := Option.some.inj reached
      exact start
  | cons action actions ih =>
      obtain ⟨next, taken, rest⟩ := run_cons_eq_some_iff.mp reached
      exact ih (preserved state action next start taken) rest

/-- A relation between the states and what the actions so far have left behind
holds along every run if every step keeps it. -/
theorem history_of_run (related : σ → List β → Prop) (left : α → List β)
    (preserved : ∀ state action next past, related state past →
      step state action = some next → related next (past ++ left action))
    {state final : σ} {past : List β} {actions : List α}
    (start : related state past)
    (reached : run step state actions = some final) :
    related final (past ++ actions.flatMap left) := by
  induction actions generalizing state past with
  | nil =>
      obtain rfl := Option.some.inj reached
      simpa using start
  | cons action actions ih =>
      obtain ⟨next, taken, rest⟩ := run_cons_eq_some_iff.mp reached
      rw [List.flatMap_cons, ← List.append_assoc]
      exact ih (preserved state action next past start taken) rest

/-- The same for runs whose actions are permitted. -/
theorem history_of_permits (related : σ → List β → Prop) (left : α → List β)
    (preserved : ∀ state action next past, related state past →
      permitted state action → step state action = some next →
        related next (past ++ left action))
    {state final : σ} {past : List β} {actions : List α}
    (start : related state past)
    (permits : Permits step permitted state actions)
    (reached : run step state actions = some final) :
    related final (past ++ actions.flatMap left) := by
  induction actions generalizing state past with
  | nil =>
      obtain rfl := Option.some.inj reached
      simpa using start
  | cons action actions ih =>
      obtain ⟨next, taken, rest⟩ := run_cons_eq_some_iff.mp reached
      obtain ⟨allowed, later⟩ := permits
      rw [taken] at later
      rw [List.flatMap_cons, ← List.append_assoc]
      exact ih (preserved state action next past start allowed taken) later
        rest

/-- If every step from a state with the invariant projects to a run of another
system, so does every run. -/
theorem exists_projected_run (invariant : σ → Prop)
    {stepBelow : τ → β → Option τ} (project : σ → τ)
    (preserved : ∀ state action next, invariant state →
      step state action = some next → invariant next)
    (simulated : ∀ state action next, invariant state →
      step state action = some next →
        ∃ below, run stepBelow (project state) below = some (project next))
    {state final : σ} {actions : List α} (start : invariant state)
    (reached : run step state actions = some final) :
    ∃ below, run stepBelow (project state) below = some (project final) := by
  induction actions generalizing state with
  | nil =>
      obtain rfl := Option.some.inj reached
      exact ⟨[], rfl⟩
  | cons action actions ih =>
      obtain ⟨next, taken, rest⟩ := run_cons_eq_some_iff.mp reached
      obtain ⟨first, firstRun⟩ := simulated state action next start taken
      obtain ⟨second, secondRun⟩ :=
        ih (preserved state action next start taken) rest
      refine ⟨first ++ second, ?_⟩
      rw [run_append, firstRun]
      exact secondRun

/-- If every state with the invariant is final or has a chosen step that keeps
the invariant and lowers the rank, a final state is reached by chosen steps. -/
theorem exists_run_of_rank (invariant done : σ → Prop) (chosen : α → Prop)
    (rank : σ → Nat)
    (progress : ∀ state, invariant state → done state ∨
      ∃ action next, chosen action ∧ step state action = some next ∧
        invariant next ∧ rank next < rank state)
    {state : σ} (start : invariant state) :
    ∃ actions final, (∀ action ∈ actions, chosen action) ∧
      run step state actions = some final ∧ done final := by
  induction same : rank state using Nat.strongRecOn generalizing state with
  | ind bound ih =>
      subst same
      rcases progress state start with finished |
        ⟨action, next, isChosen, taken, kept, lower⟩
      · exact ⟨[], state, fun _ absent => absurd absent List.not_mem_nil, rfl,
          finished⟩
      · obtain ⟨actions, final, allChosen, reached, finished⟩ :=
          ih (rank next) lower kept rfl
        exact ⟨action :: actions, final,
          List.forall_mem_cons.mpr ⟨isChosen, allChosen⟩,
          run_cons_eq_some_iff.mpr ⟨next, taken, reached⟩, finished⟩

end LinuxKernelDev.Transition
