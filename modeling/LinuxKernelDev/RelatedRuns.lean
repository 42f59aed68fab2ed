import Mathlib.Data.List.Basic

/-!
# Runs that stop no later than others

Two fallible runs that do the same until the second one may stop early, with
one of some permitted errors.  If the second run is stopped by any other error,
so is the first, and if it succeeds, so does the first, with a related result.
The relation is kept by sequencing and by loops.

The second relation starts from a first run that succeeds: the second run then
has the same result or stops with one of the permitted errors.
-/

namespace LinuxKernelDev.RelatedRuns

universe u v w

variable {ε : Type u} {σ τ : Type v} {α : Type w}

/-- The second run stops no later than the first one. -/
def Precedes (early : ε → Prop) (related : σ → τ → Prop)
    (first : Except ε σ) : Except ε τ → Prop
  | .error stop => early stop ∨ first = .error stop
  | .ok result => ∃ other, first = .ok other ∧ related other result

namespace Precedes

variable {early : ε → Prop} {related : σ → τ → Prop}

theorem refl (run : Except ε σ) : Precedes early Eq run run := by
  cases run with
  | error stop => exact .inr rfl
  | ok result => exact ⟨result, rfl, rfl⟩

theorem of_ok {first : σ} {second : τ} (same : related first second) :
    Precedes early related (.ok first) (.ok second) :=
  ⟨first, rfl, same⟩

theorem bind {σ' τ' : Type v} {next : σ' → τ' → Prop}
    {first : Except ε σ} {second : Except ε τ} {firstNext : σ → Except ε σ'}
    {secondNext : τ → Except ε τ'}
    (precedes : Precedes early related first second)
    (later : ∀ left right, related left right →
      Precedes early next (firstNext left) (secondNext right)) :
    Precedes early next (first >>= firstNext) (second >>= secondNext) := by
  cases second with
  | error stop =>
      rcases precedes with permitted | rfl
      · exact .inl permitted
      · exact .inr rfl
  | ok result =>
      obtain ⟨left, rfl, holds⟩ := precedes
      exact later left result holds

/-- A part that the two runs share. -/
theorem bind_same {ρ : Type v} (run : Except ε ρ) {firstNext : ρ → Except ε σ}
    {secondNext : ρ → Except ε τ}
    (later : ∀ value, run = .ok value →
      Precedes early related (firstNext value) (secondNext value)) :
    Precedes early related (run >>= firstNext) (run >>= secondNext) := by
  cases run with
  | error stop => exact .inr rfl
  | ok value => exact later value rfl

/-- A loop, step by step. -/
theorem foldlM {firstStep : σ → α → Except ε σ} {secondStep : τ → α → Except ε τ}
    {items : List α}
    (step : ∀ left right, related left right → ∀ item ∈ items,
      Precedes early related (firstStep left item) (secondStep right item))
    {left : σ} {right : τ} (start : related left right) :
    Precedes early related (items.foldlM firstStep left)
      (items.foldlM secondStep right) := by
  induction items generalizing left right with
  | nil => exact of_ok start
  | cons item items ih =>
      rw [List.foldlM_cons, List.foldlM_cons]
      exact (step left right start item List.mem_cons_self).bind
        fun newLeft newRight holds => ih
          (fun left right holds item member =>
            step left right holds item (List.mem_cons_of_mem _ member)) holds

end Precedes

/-- If the first run succeeds, the second one has the same result or stops
with a permitted error. -/
def Retraces (early : ε → Prop) (first second : Except ε σ) : Prop :=
  ∀ result, first = .ok result →
    second = .ok result ∨ ∃ stop, early stop ∧ second = .error stop

namespace Retraces

variable {early : ε → Prop}

theorem refl (run : Except ε σ) : Retraces early run run :=
  fun _ => Or.inl

theorem bind {first second : Except ε σ} {firstNext secondNext : σ → Except ε τ}
    (retraces : Retraces early first second)
    (later : ∀ value, first = .ok value →
      Retraces early (firstNext value) (secondNext value)) :
    Retraces early (first >>= firstNext) (second >>= secondNext) := by
  intro result succeeded
  cases first with
  | error stop => cases succeeded
  | ok value =>
      rcases retraces value rfl with rfl | ⟨stop, permitted, rfl⟩
      · exact later value rfl result succeeded
      · exact .inr ⟨stop, permitted, rfl⟩

/-- A loop, step by step. -/
theorem foldlM {firstStep secondStep : σ → α → Except ε σ} {items : List α}
    (step : ∀ state, ∀ item ∈ items,
      Retraces early (firstStep state item) (secondStep state item))
    (state : σ) :
    Retraces early (items.foldlM firstStep state)
      (items.foldlM secondStep state) := by
  induction items generalizing state with
  | nil => exact refl _
  | cons item items ih =>
      rw [List.foldlM_cons, List.foldlM_cons]
      refine (step state item List.mem_cons_self).bind fun next _ => ih ?_ next
      intro state item member
      exact step state item (List.mem_cons_of_mem _ member)

/-- A loop of checks. -/
theorem forM {firstCheck secondCheck : α → Except ε PUnit.{v + 1}}
    {items : List α}
    (check : ∀ item ∈ items,
      Retraces early (firstCheck item) (secondCheck item)) :
    Retraces early (ForM.forM items firstCheck)
      (ForM.forM items secondCheck) := by
  induction items with
  | nil => exact refl _
  | cons item items ih =>
      rw [List.forM_cons, List.forM_cons]
      refine (check item List.mem_cons_self).bind fun _ _ => ih ?_
      intro item member
      exact check item (List.mem_cons_of_mem _ member)

end Retraces

end LinuxKernelDev.RelatedRuns
