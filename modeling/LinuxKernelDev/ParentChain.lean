import Mathlib.Data.Finset.Card
import Mathlib.Data.Fintype.Card

/-!
# Chains of parents

A partial function sends each element to its parent.  The chain from an
element leads to a root when iterating the function meets the root.  The
number of steps is then determined, different elements of the chain are at
different distances, and the distance is bounded by the number of elements
that have a parent.
-/

namespace LinuxKernelDev.ParentChain

variable {α : Type*}

/-- Following `parent` from an element first meets `root` after the given
number of steps. -/
inductive LeadsTo (parent : α → Option α) (root : α) : Nat → α → Prop
  | root : LeadsTo parent root 0 root
  | step {steps : Nat} {child next : α} (notRoot : child ≠ root)
      (parentEq : parent child = some next)
      (rest : LeadsTo parent root steps next) :
      LeadsTo parent root (steps + 1) child

namespace LeadsTo

variable {parent : α → Option α} {root : α}

theorem steps_unique {first second : Nat} {element : α}
    (left : LeadsTo parent root first element)
    (right : LeadsTo parent root second element) : first = second := by
  induction left generalizing second with
  | root =>
      cases right with
      | root => rfl
      | step notRoot _ _ => exact absurd rfl notRoot
  | step notRoot parentEq _ ih =>
      cases right with
      | root => exact absurd rfl notRoot
      | step _ otherEq rest =>
          rw [parentEq, Option.some.injEq] at otherEq
          subst otherEq
          rw [ih rest]

/-- Only the parents of elements other than the root matter. -/
theorem mono {other : α → Option α} {steps : Nat} {element : α}
    (leads : LeadsTo parent root steps element)
    (agree : ∀ child next, child ≠ root → parent child = some next →
      other child = some next) : LeadsTo other root steps element := by
  induction leads with
  | root => exact .root
  | step notRoot parentEq _ ih =>
      exact .step notRoot (agree _ _ notRoot parentEq) ih

/-- Every positive distance up to that of an element occurs on its chain. -/
theorem exists_at {steps : Nat} {element : α}
    (leads : LeadsTo parent root steps element) {distance : Nat}
    (positive : 0 < distance) (atMost : distance ≤ steps) :
    ∃ other next, LeadsTo parent root distance other ∧
      parent other = some next := by
  induction leads with
  | root => omega
  | @step steps child next notRoot parentEq rest ih =>
      rcases Nat.lt_or_ge steps distance with beyond | within
      · obtain rfl : distance = steps + 1 := by omega
        exact ⟨child, next, .step notRoot parentEq rest, parentEq⟩
      · exact ih within

/-- A chain is no longer than a set containing all elements with a parent. -/
theorem steps_le_card {steps : Nat} {element : α} {members : Finset α}
    (leads : LeadsTo parent root steps element)
    (inside : ∀ child next, parent child = some next → child ∈ members) :
    steps ≤ members.card := by
  classical
  have located : ∀ index : Fin steps, ∃ other ∈ members,
      LeadsTo parent root (index.val + 1) other := by
    intro index
    obtain ⟨other, next, otherLeads, parentEq⟩ :=
      leads.exists_at (Nat.succ_pos index.val) index.isLt
    exact ⟨other, inside other next parentEq, otherLeads⟩
  choose other otherMem otherLeads using located
  have injective : Function.Injective other := by
    intro first second same
    have secondLeads := otherLeads second
    rw [← same] at secondLeads
    have distance := (otherLeads first).steps_unique secondLeads
    exact Fin.ext (by omega)
  have image : (Finset.univ.image other).card = steps := by
    rw [Finset.card_image_of_injective _ injective, Finset.card_fin]
  calc
    steps = (Finset.univ.image other).card := image.symm
    _ ≤ members.card := by
      apply Finset.card_le_card
      intro element elementMem
      obtain ⟨index, -, rfl⟩ := Finset.mem_image.mp elementMem
      exact otherMem index

end LeadsTo

end LinuxKernelDev.ParentChain
