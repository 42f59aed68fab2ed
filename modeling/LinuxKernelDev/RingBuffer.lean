import Mathlib.Data.List.Basic
import Mathlib.Logic.Function.Basic
import Mathlib.Tactic.SplitIfs

/-!
# Items laid out in a ring of cells

A memory is a function from addresses to values, and its first `capacity` cells
form a ring.  `holding capacity start items memory` is the memory that differs
from `memory` only in the cells from `start` on, around the ring, which hold
`items`.  Writing after the last item and taking the first one are both
described by this one function.
-/

namespace LinuxKernelDev.RingBuffer

open Function

variable {α : Type*} {capacity start : Nat}

/-- The cell `n` places after `start`. -/
def position (capacity start n : Nat) : Nat :=
  if start + n < capacity then start + n else start + n - capacity

/-- How many places the cell `i` lies after `start`. -/
def distance (capacity start i : Nat) : Nat :=
  if start ≤ i then i - start else i + capacity - start

/-- The memory whose ring cells from `start` on hold `items`. -/
def holding (capacity start : Nat) (items : List α) (memory : Nat → α) :
    Nat → α := fun i =>
  if i < capacity then
    items[distance capacity start i]?.getD (memory i)
  else memory i

theorem position_lt (within : start < capacity) {n : Nat}
    (bound : n ≤ capacity) : position capacity start n < capacity := by
  unfold position
  split_ifs <;> omega

theorem distance_position (within : start < capacity) {n : Nat}
    (bound : n < capacity) :
    distance capacity start (position capacity start n) = n := by
  unfold distance position
  split_ifs <;> omega

theorem eq_position_iff (within : start < capacity) {n i : Nat}
    (bound : n < capacity) (inRing : i < capacity) :
    i = position capacity start n ↔ distance capacity start i = n := by
  unfold distance position
  split_ifs <;> omega

/-- Items do not reach a cell that is too far from the first. -/
theorem holding_of_length_le {items : List α} {i : Nat}
    (far : items.length ≤ distance capacity start i) (memory : Nat → α) :
    holding capacity start items memory i = memory i := by
  simp [holding, List.getElem?_eq_none far]

theorem holding_nil (memory : Nat → α) :
    holding capacity start [] memory = memory := by
  funext i
  exact holding_of_length_le (Nat.zero_le _) memory

theorem holding_position (within : start < capacity) {n : Nat}
    (bound : n < capacity) (items : List α) (memory : Nat → α) :
    holding capacity start items memory (position capacity start n) =
      items[n]?.getD (memory (position capacity start n)) := by
  simp [holding, position_lt within (Nat.le_of_lt bound),
    distance_position within bound]

/-- A write to a cell of the ring is seen in the item at that place. -/
theorem update_holding (within : start < capacity) {n : Nat}
    (bound : n < capacity) (value : α) {items written : List α}
    (here : written[n]? = some value)
    (elsewhere : ∀ j, j ≠ n → written[j]? = items[j]?)
    (memory : Nat → α) :
    update (holding capacity start items memory)
        (position capacity start n) value =
      holding capacity start written memory := by
  funext i
  by_cases same : i = position capacity start n
  · rw [same, update_self, holding_position within bound, here,
      Option.getD_some]
  · rw [update_of_ne same]
    unfold holding
    split_ifs with inRing
    · rw [elsewhere _ fun equal =>
        same ((eq_position_iff within bound inRing).mpr equal)]
    · rfl

/-- Writing behind the last item appends to the items. -/
theorem update_append (within : start < capacity) {items : List α}
    (space : items.length < capacity) (item : α) (memory : Nat → α) :
    update (holding capacity start items memory)
        (position capacity start items.length) item =
      holding capacity start (items ++ [item]) memory := by
  refine update_holding within space item (by simp) (fun j other => ?_) memory
  rcases Nat.lt_or_gt_of_ne other with below | above
  · rw [List.getElem?_append_left below]
  · rw [List.getElem?_eq_none (by simp; omega),
      List.getElem?_eq_none (by omega)]

/-- Writing over an item replaces it. -/
theorem update_replace (within : start < capacity) {first rest : List α}
    {item : α} (fits : (first ++ item :: rest).length ≤ capacity)
    (replacement : α) (memory : Nat → α) :
    update (holding capacity start (first ++ item :: rest) memory)
        (position capacity start first.length) replacement =
      holding capacity start (first ++ replacement :: rest) memory := by
  simp only [List.length_append, List.length_cons] at fits
  refine update_holding within (by omega) replacement (by simp)
    (fun j other => ?_) memory
  rcases Nat.lt_or_gt_of_ne other with below | above
  · rw [List.getElem?_append_left below, List.getElem?_append_left below]
  · obtain ⟨k, rfl⟩ : ∃ k, j = first.length + (k + 1) :=
      ⟨j - first.length - 1, by omega⟩
    simp only [List.getElem?_append_right (Nat.le_add_right _ _),
      Nat.add_sub_cancel_left, List.getElem?_cons_succ]

/-- The leading items may as well be part of the memory. -/
theorem holding_append (within : start < capacity) (first second : List α)
    (fits : first.length + second.length ≤ capacity) (memory : Nat → α) :
    holding capacity start (first ++ second) memory =
      holding capacity (position capacity start first.length) second
        (holding capacity start first memory) := by
  funext i
  by_cases inRing : i < capacity
  · have split : distance capacity (position capacity start first.length) i =
        if distance capacity start i < first.length then
          distance capacity start i + capacity - first.length
        else distance capacity start i - first.length := by
      unfold distance position
      split_ifs <;> omega
    by_cases early : distance capacity start i < first.length
    · rw [if_pos early] at split
      have far : second.length ≤
          distance capacity (position capacity start first.length) i := by
        omega
      rw [holding_of_length_le far]
      simp [holding, inRing, List.getElem?_append_left early]
    · rw [if_neg early] at split
      have late : first.length ≤ distance capacity start i := by omega
      simp [holding, inRing, split, List.getElem?_append_right late,
        List.getElem?_eq_none late]
  · simp [holding, inRing]

/-- Copies of the value that fills the memory change nothing. -/
theorem holding_replicate (n : Nat) (filler : α) :
    (holding capacity start (List.replicate n filler) fun _ => filler) =
      fun _ => filler := by
  funext i
  simp only [holding, List.getElem?_replicate]
  split_ifs <;> rfl

/-- The number of cells of the ring with a property. -/
def occupied (capacity : Nat) (property : Nat → Bool) : Nat :=
  (List.range capacity).countP property

theorem occupied_congr {first second : Nat → Bool}
    (agree : ∀ cell, first cell = second cell) :
    occupied capacity first = occupied capacity second :=
  congrArg (occupied capacity) (funext agree)

/-- Properties that differ in one cell. -/
theorem occupied_of_agree {first second : Nat → Bool} {cell : Nat}
    (inRing : cell < capacity)
    (agree : ∀ other, other ≠ cell → first other = second other) :
    occupied capacity first + (if second cell then 1 else 0) =
      occupied capacity second + if first cell then 1 else 0 := by
  have split := List.perm_cons_erase (List.mem_range.mpr inRing)
  have rest : ((List.range capacity).erase cell).countP first =
      ((List.range capacity).erase cell).countP second := by
    refine List.countP_congr fun other member => ?_
    have distinct := (List.nodup_range.mem_erase_iff.mp member).1
    rw [agree other distinct]
  unfold occupied
  rw [split.countP_eq, split.countP_eq, List.countP_cons, List.countP_cons,
    rest]
  omega

end LinuxKernelDev.RingBuffer
