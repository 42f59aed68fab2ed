import Mathlib.Data.List.Nodup
import Mathlib.Data.List.Range
import Mathlib.Data.Set.Function
import Mathlib.Order.Interval.Set.Defs

/-!
# Numbers handed out in order

An allocator that only counts up stores each number it hands out at a key that
had none.  A value of zero means that a key has no number.  The allocation is
packed if the numbers stored are exactly those handed out, each at one key.
-/

namespace LinuxKernelDev.BumpAllocation

open Function

variable {κ : Type*} {keys : Set κ} {value : κ → Nat} {first next : Nat}

/-- The numbers stored at the keys are those from `first` up to `next`, each
at one key. -/
def Packed (keys : Set κ) (value : κ → Nat) (first next : Nat) : Prop :=
  Set.BijOn value {key ∈ keys | value key ≠ 0} (Set.Ico first next)

theorem packed_empty (value : κ → Nat) (first : Nat) :
    Packed ∅ value first first := by
  have none : {key ∈ (∅ : Set κ) | value key ≠ 0} = ∅ := by simp
  have nothing : Set.Ico first first = ∅ := by
    ext number
    simp [Set.Ico]
  rw [Packed, none, nothing]
  exact Set.bijOn_empty value

namespace Packed

theorem range (packed : Packed keys value first next) {key : κ}
    (mem : key ∈ keys) (nonzero : value key ≠ 0) :
    first ≤ value key ∧ value key < next :=
  packed.mapsTo ⟨mem, nonzero⟩

theorem eq_of_value_eq (packed : Packed keys value first next) {key other : κ}
    (mem : key ∈ keys) (otherMem : other ∈ keys) (nonzero : value key ≠ 0)
    (same : value key = value other) : key = other :=
  packed.injOn ⟨mem, nonzero⟩ ⟨otherMem, same ▸ nonzero⟩ same

/-- The keys keep their values, and new keys have no number. -/
theorem extend (packed : Packed keys value first next) {newKeys : Set κ}
    {newValue : κ → Nat} (subset : keys ⊆ newKeys)
    (same : ∀ key ∈ keys, newValue key = value key)
    (unused : ∀ key ∈ newKeys, key ∉ keys → newValue key = 0) :
    Packed newKeys newValue first next := by
  have domain : {key ∈ newKeys | newValue key ≠ 0} =
      {key ∈ keys | value key ≠ 0} := by
    ext key
    constructor
    · rintro ⟨mem, nonzero⟩
      have old : key ∈ keys := by_contra fun new => nonzero (unused key mem new)
      exact ⟨old, same key old ▸ nonzero⟩
    · rintro ⟨mem, nonzero⟩
      exact ⟨subset mem, same key mem ▸ nonzero⟩
  rw [Packed, domain]
  exact packed.congr fun key held => (same key held.1).symm

theorem congr (packed : Packed keys value first next) {newValue : κ → Nat}
    (same : ∀ key ∈ keys, newValue key = value key) :
    Packed keys newValue first next :=
  packed.extend subset_rfl same fun _ mem new => absurd mem new

/-- The next number goes to a key that has none. -/
theorem allocate [DecidableEq κ] (packed : Packed keys value first next)
    (started : first ≤ next) (positive : 0 < first) {key : κ}
    (mem : key ∈ keys) (free : value key = 0) :
    Packed keys (update value key next) first (next + 1) := by
  have domain : {other ∈ keys | update value key next other ≠ 0} =
      insert key {other ∈ keys | value other ≠ 0} := by
    ext other
    by_cases same : other = key
    · subst same
      refine iff_of_true ⟨mem, ?_⟩ (Set.mem_insert other _)
      rw [update_self]
      omega
    · simp [same]
  have range : Set.Ico first (next + 1) =
      insert (update value key next key) (Set.Ico first next) := by
    ext number
    simp only [update_self, Set.mem_Ico, Set.mem_insert_iff]
    omega
  have old : Set.BijOn (update value key next) {other ∈ keys | value other ≠ 0}
      (Set.Ico first next) :=
    Set.BijOn.congr packed fun other held => by
      rw [update_of_ne]
      rintro rfl
      exact held.2 free
  rw [Packed, domain, range]
  refine old.insert ?_
  rw [update_self, Set.mem_Ico]
  omega

/-- The numbers stored at a listing of the keys. -/
theorem perm_range' (packed : Packed keys value first next) {listed : List κ}
    (nodup : listed.Nodup) (complete : ∀ key, key ∈ listed ↔ key ∈ keys) :
    ((listed.map value).filter fun number => decide (number ≠ 0)).Perm
      (List.range' first (next - first)) := by
  have held : ∀ key, key ∈ listed.filter (fun key => decide (value key ≠ 0)) ↔
      key ∈ {key ∈ keys | value key ≠ 0} := by
    intro key
    rw [List.mem_filter, decide_eq_true_eq, complete]
    rfl
  rw [List.filter_map]
  refine (List.perm_ext_iff_of_nodup ?_ (List.nodup_range' ..)).2
    fun number => ?_
  · refine List.Nodup.map_on (fun key mem other otherMem same => ?_)
      (nodup.filter _)
    exact packed.injOn ((held key).1 mem) ((held other).1 otherMem) same
  · have image : number ∈ (listed.filter
        fun key => decide (value key ≠ 0)).map value ↔
          number ∈ Set.Ico first next := by
      rw [← packed.image_eq, List.mem_map]
      exact exists_congr fun key => and_congr_left' (held key)
    refine image.trans ?_
    rw [Set.mem_Ico, List.mem_range'_1]
    omega

end Packed

end LinuxKernelDev.BumpAllocation
