import Mathlib.Logic.Function.Basic
import Mathlib.Tactic.SplitIfs

/-!
# Views of a paged memory

A memory consists of frames of `size` words, and an address space sees some of
them through a table from page numbers to frames.  If an address space maps a
range of addresses to places that are all different, its accesses in the range
act on an array, and two address spaces with the same places share the array.
-/

namespace LinuxKernelDev.PagedViews

open Function

universe u v w x

variable {φ : Type u} {ω : Type v} {σ : Type w} {τ : Type x}

/-- A place is a frame with an offset. -/
abbrev Memory (φ : Type u) (ω : Type v) := φ × Nat → ω

abbrev Table (φ : Type u) := Nat → Option φ

/-- The place of an address, if its page is mapped. -/
def placeOf (size : Nat) (table : Table φ) (address : Nat) :
    Option (φ × Nat) :=
  (table (address / size)).map fun frame => (frame, address % size)

def read (size : Nat) (table : Table φ) (memory : Memory φ ω)
    (address : Nat) : Option ω :=
  (placeOf size table address).map memory

def write [DecidableEq φ] (size : Nat) (table : Table φ)
    (memory : Memory φ ω) (address : Nat) (value : ω) :
    Option (Memory φ ω) :=
  (placeOf size table address).map fun place => update memory place value

/-- From `base` on, just the first `count` words are mapped. -/
def Maps (size : Nat) (table : Table φ) (base count : Nat)
    (places : Nat → φ × Nat) : Prop :=
  ∀ index, placeOf size table (base + index) =
    if index < count then some (places index) else none

def Holds (memory : Memory φ ω) (places : Nat → φ × Nat) (count : Nat)
    (array : Nat → ω) : Prop :=
  ∀ index, index < count → memory (places index) = array index

section Access

variable {size : Nat} {table : Table φ} {base count : Nat}
  {places : Nat → φ × Nat} {memory : Memory φ ω} {array : Nat → ω}

theorem Maps.read_eq (maps : Maps size table base count places)
    (holds : Holds memory places count array) (index : Nat) :
    read size table memory (base + index) =
      if index < count then some (array index) else none := by
  rw [read, maps index]
  split_ifs with within
  · rw [Option.map_some, holds index within]
  · rfl

theorem Maps.write_eq [DecidableEq φ]
    (maps : Maps size table base count places) (index : Nat) (value : ω) :
    write size table memory (base + index) value =
      if index < count then some (update memory (places index) value)
      else none := by
  rw [write, maps index]
  split_ifs <;> rfl

/-- A write to one word leaves the others alone. -/
theorem Holds.update [DecidableEq φ] (holds : Holds memory places count array)
    (distinct : ∀ first second, first < count → second < count →
      places first = places second → first = second)
    {index : Nat} (within : index < count) (value : ω) :
    Holds (Function.update memory (places index) value) places count
      (Function.update array index value) := by
  intro other otherWithin
  by_cases same : other = index
  · subst same
    rw [update_self, update_self]
  · have apart : places other ≠ places index := fun equal =>
      same (distinct other index otherWithin within equal)
    rw [update_of_ne apart, update_of_ne same]
    exact holds other otherWithin

end Access

/-- What the listed accesses return, one after the other. -/
def outputs {α : Type*} (access : σ → α → Option (List ω × σ)) :
    σ → List α → Option (List ω)
  | _, [] => some []
  | state, item :: items =>
      (access state item).bind fun result =>
        (outputs access result.2 items).map (result.1 ++ ·)

/-- Two systems return the same if their accesses do so in related states and
lead to related states. -/
theorem outputs_eq_of_related {α : Type*}
    {access : σ → α → Option (List ω × σ)}
    {accessBelow : τ → α → Option (List ω × τ)} (related : σ → τ → Prop)
    (simulated : ∀ state below item, related state below →
      Option.Rel (fun result resultBelow => result.1 = resultBelow.1 ∧
        related result.2 resultBelow.2) (access state item)
        (accessBelow below item))
    {state : σ} {below : τ} (start : related state below) (items : List α) :
    outputs access state items = outputs accessBelow below items := by
  induction items generalizing state below with
  | nil => rfl
  | cons item items ih =>
      have same := simulated state below item start
      rw [outputs, outputs]
      generalize access state item = result,
        accessBelow below item = resultBelow at same ⊢
      cases same with
      | none => rfl
      | some both => rw [Option.bind_some, Option.bind_some, both.1, ih both.2]

end LinuxKernelDev.PagedViews
