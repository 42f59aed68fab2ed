import Mathlib.Data.List.Nodup
import Mathlib.Data.List.Sublists

/-!
# Registries of keyed values

A registry is a list of keys with their values, in the order in which the keys
were entered.  A key that is there already is not entered again; a refresh asks
for a new value of every key and drops the keys that have none.  The keys do
not interfere: what a registry holds for a key is determined by the changes
that concern it.
-/

namespace LinuxKernelDev.KeyedRegistry

universe u v

variable {κ : Type u} {ν : Type v}

inductive Change (κ : Type u) (ν : Type v) where
  | enter (key : κ) (value : ν)
  | remove (key : κ)
  | refresh (current : κ → Option ν)

def keys (entries : List (κ × ν)) : List κ := entries.map Prod.fst

/-- The keys that a change tries to enter. -/
def Change.entered : Change κ ν → List κ
  | .enter key _ => [key]
  | .remove _ => []
  | .refresh _ => []

variable [DecidableEq κ]

def change (entries : List (κ × ν)) : Change κ ν → List (κ × ν)
  | .enter key value =>
      if key ∈ keys entries then entries else entries ++ [(key, value)]
  | .remove key => entries.filter fun entry => entry.1 ≠ key
  | .refresh current =>
      entries.filterMap fun entry => (current entry.1).map (Prod.mk entry.1)

/-- What a change does to the value of one key. -/
def track (key : κ) (held : Option ν) : Change κ ν → Option ν
  | .enter entered value =>
      if entered = key then some (held.getD value) else held
  | .remove removed => if removed = key then none else held
  | .refresh current => held.bind fun _ => current key

variable {entries : List (κ × ν)} {key : κ}

theorem lookup_eq_none_iff : entries.lookup key = none ↔ key ∉ keys entries := by
  rw [List.lookup_eq_none_iff, keys, List.mem_map]
  constructor
  · rintro absent ⟨entry, member, rfl⟩
    exact absurd (absent entry member) (by simp)
  · intro absent entry member
    have other : key ≠ entry.1 := fun same => absent ⟨entry, member, same.symm⟩
    simpa using other

theorem lookup_change (entries : List (κ × ν)) (key : κ) (next : Change κ ν) :
    (change entries next).lookup key = track key (entries.lookup key) next := by
  cases next with
  | enter entered value =>
      simp only [change, track]
      split_ifs with present same same
      · subst same
        have found := mt lookup_eq_none_iff.mp (not_not.mpr present)
        obtain ⟨held, isHeld⟩ := Option.ne_none_iff_exists'.mp found
        rw [isHeld, Option.getD_some]
      · rfl
      · subst same
        rw [List.lookup_append, lookup_eq_none_iff.mpr present]
        simp
      · have other : (key == entered) = false := by simpa using Ne.symm same
        rw [List.lookup_append, List.lookup_cons, other, List.lookup_nil,
          Option.or_none]
  | remove removed =>
      simp only [change, track]
      induction entries with
      | nil => simp
      | cons entry entries ih =>
          obtain ⟨first, value⟩ := entry
          by_cases gone : first = removed
          · rw [List.filter_cons_of_neg (by simpa using gone), ih]
            split_ifs with same
            · rfl
            · have other : (key == first) = false := by
                simpa [gone] using Ne.symm same
              rw [List.lookup_cons, other]
          · rw [List.filter_cons_of_pos (by simpa using gone), List.lookup_cons,
              List.lookup_cons, ih]
            by_cases here : key = first
            · have kept : removed ≠ key := fun same => gone (by rw [same, here])
              simp [here, Ne.symm gone]
            · have other : (key == first) = false := by simpa using here
              rw [other]
  | refresh current =>
      simp only [change, track]
      induction entries with
      | nil => simp
      | cons entry entries ih =>
          obtain ⟨first, value⟩ := entry
          by_cases here : key = first
          · subst here
            rw [List.filterMap_cons, List.lookup_cons, beq_self_eq_true]
            cases fresh : current key with
            | none =>
                simp only [Option.map_none, ih, fresh]
                cases entries.lookup key <;> rfl
            | some value => simp
          · have other : (key == first) = false := by simpa using here
            rw [List.filterMap_cons, List.lookup_cons, other, ← ih]
            cases current first with
            | none => rfl
            | some value => simp [List.lookup_cons, other]

/-- What a registry holds for a key after a sequence of changes. -/
theorem lookup_foldl_change (entries : List (κ × ν)) (key : κ)
    (changes : List (Change κ ν)) :
    (changes.foldl change entries).lookup key =
      changes.foldl (track key) (entries.lookup key) := by
  induction changes generalizing entries with
  | nil => rfl
  | cons next changes ih =>
      rw [List.foldl_cons, List.foldl_cons, ih, lookup_change]

theorem keys_change_sublist (entries : List (κ × ν)) (next : Change κ ν) :
    (keys (change entries next)).Sublist (keys entries ++ next.entered) := by
  cases next with
  | enter key value =>
      simp only [change]
      split_ifs with present
      · exact List.sublist_append_left _ _
      · rw [keys, List.map_append]
        exact .refl _
  | remove key =>
      rw [Change.entered, List.append_nil]
      exact List.filter_sublist.map _
  | refresh current =>
      rw [Change.entered, List.append_nil]
      simp only [change, keys]
      induction entries with
      | nil => simp
      | cons entry entries ih =>
          rw [List.filterMap_cons, List.map_cons]
          cases current entry.1 with
          | none => exact ih.cons _
          | some value => exact ih.cons_cons _

/-- The keys stand in the order in which they were entered. -/
theorem keys_foldl_change_sublist (entries : List (κ × ν))
    (changes : List (Change κ ν)) :
    (keys (changes.foldl change entries)).Sublist
      (keys entries ++ changes.flatMap Change.entered) := by
  induction changes generalizing entries with
  | nil => simp
  | cons next changes ih =>
      rw [List.foldl_cons, List.flatMap_cons, ← List.append_assoc]
      exact (ih _).trans ((keys_change_sublist entries next).append_right _)

theorem nodup_keys_change (nodup : (keys entries).Nodup) (next : Change κ ν) :
    (keys (change entries next)).Nodup := by
  cases next with
  | enter key value =>
      simp only [change]
      split_ifs with present
      · exact nodup
      · rw [keys, List.map_append, List.map_singleton, ← List.concat_eq_append]
        exact nodup.concat present
  | remove key =>
      have shorter := keys_change_sublist entries (.remove key)
      rw [Change.entered, List.append_nil] at shorter
      exact nodup.sublist shorter
  | refresh current =>
      have shorter := keys_change_sublist entries (.refresh current)
      rw [Change.entered, List.append_nil] at shorter
      exact nodup.sublist shorter

end LinuxKernelDev.KeyedRegistry
