import Mathlib.Algebra.GroupWithZero.Nat
import Mathlib.Data.List.Basic
import Mathlib.Data.List.Nodup
import Mathlib.Data.List.Pairwise
import Mathlib.Logic.Function.Basic

/-!
# Successful runs of fallible loops

A loop that may stop early is a monadic fold in `Except`.  When every single
step succeeds exactly under a condition on the current state and then performs
a pure update, the whole loop succeeds exactly when the conditions hold along
the pure fold.  This file states that correspondence once and then removes the
state from the conditions in the cases where that is possible: conditions that
ignore the state, loops that skip some elements, and loops that claim keys
which must not have been claimed before.  The last sections describe a table
filled by a sequence of writes and count elements with a property.
-/

namespace LinuxKernelDev.LoopRules

universe u v w

variable {ε : Type u} {σ : Type v} {α β : Type w}

theorem bind_eq_ok_iff {first : Except ε α} {next : α → Except ε β} {result : β} :
    (first >>= next) = .ok result ↔
      ∃ value, first = .ok value ∧ next value = .ok result := by
  cases first <;> simp [bind, Except.bind]

theorem bind_eq_error_iff {first : Except ε α} {next : α → Except ε β}
    {stop : ε} :
    (first >>= next) = .error stop ↔
      first = .error stop ∨
        ∃ value, first = .ok value ∧ next value = .error stop := by
  cases first <;> simp [bind, Except.bind]

/-- Every step of a fold is admissible in the state from which it is taken. -/
def Admits (admissible : σ → α → Prop) (apply : σ → α → σ) : σ → List α → Prop
  | _, [] => True
  | state, item :: items =>
      admissible state item ∧ Admits admissible apply (apply state item) items

variable {admissible : σ → α → Prop} {apply : σ → α → σ}

@[simp]
theorem admits_nil (state : σ) : Admits admissible apply state [] := trivial

@[simp]
theorem admits_cons (state : σ) (item : α) (items : List α) :
    Admits admissible apply state (item :: items) ↔
      admissible state item ∧
        Admits admissible apply (apply state item) items :=
  Iff.rfl

theorem admits_append (state : σ) (first second : List α) :
    Admits admissible apply state (first ++ second) ↔
      Admits admissible apply state first ∧
        Admits admissible apply (first.foldl apply state) second := by
  induction first generalizing state with
  | nil => simp
  | cons item items ih =>
      simp only [List.cons_append, admits_cons, List.foldl_cons, ih, and_assoc]

theorem admits_map {read : β → α} (state : σ) (items : List β) :
    Admits admissible apply state (items.map read) ↔
      Admits (fun state item => admissible state (read item))
        (fun state item => apply state (read item)) state items := by
  induction items generalizing state with
  | nil => exact Iff.rfl
  | cons item items ih => exact and_congr Iff.rfl (ih _)

instance decidableAdmits [∀ state item, Decidable (admissible state item)]
    (state : σ) : ∀ items, Decidable (Admits admissible apply state items)
  | [] => .isTrue trivial
  | item :: items =>
      have := decidableAdmits (apply state item) items
      inferInstanceAs (Decidable (_ ∧ _))

/-- Where the state is the list of the items so far, each item is admissible
after those before it. -/
theorem admits_history_iff {admissible : List α → α → Prop}
    (past items : List α) :
    Admits admissible (fun before item => before ++ [item]) past items ↔
      ∀ before item after, items = before ++ item :: after →
        admissible (past ++ before) item := by
  induction items generalizing past with
  | nil => simp
  | cons first items ih =>
      rw [admits_cons, ih]
      constructor
      · rintro ⟨here, later⟩ before item after split
        cases before with
        | nil =>
            obtain ⟨rfl, -⟩ := List.cons.inj split
            rwa [List.append_nil]
        | cons other before =>
            obtain ⟨rfl, rest⟩ := List.cons.inj split
            rw [List.append_cons]
            exact later before item after rest
      · intro each
        refine ⟨by simpa using each [] first items rfl,
          fun before item after split => ?_⟩
        rw [← List.append_cons]
        exact each (first :: before) item after (by rw [split]; rfl)

/-- A condition that ignores the state is admitted along a fold exactly when
it holds of every element. -/
theorem admits_const_iff {condition : α → Prop} (state : σ) (items : List α) :
    Admits (fun _ item => condition item) apply state items ↔
      ∀ item ∈ items, condition item := by
  induction items generalizing state with
  | nil => simp
  | cons item items ih => simp [ih]

/-- A fold of exact steps succeeds exactly when the pure fold admits every
step, and then returns the pure fold. -/
theorem foldlM_eq_ok_iff {step : σ → α → Except ε σ}
    (exact : ∀ state item result, step state item = .ok result ↔
      admissible state item ∧ apply state item = result)
    (items : List α) (state result : σ) :
    items.foldlM step state = .ok result ↔
      Admits admissible apply state items ∧
        items.foldl apply state = result := by
  induction items generalizing state with
  | nil =>
      simp only [List.foldlM_nil, pure, Except.pure, Except.ok.injEq,
        admits_nil, List.foldl_nil, true_and]
  | cons item items ih =>
      rw [List.foldlM_cons, bind_eq_ok_iff]
      simp only [exact, admits_cons, List.foldl_cons]
      constructor
      · rintro ⟨middle, ⟨admitted, rfl⟩, rest⟩
        obtain ⟨restAdmitted, resultEq⟩ := (ih _).mp rest
        exact ⟨⟨admitted, restAdmitted⟩, resultEq⟩
      · rintro ⟨⟨admitted, restAdmitted⟩, resultEq⟩
        exact ⟨_, ⟨admitted, rfl⟩, (ih _).mpr ⟨restAdmitted, resultEq⟩⟩

/-- A loop of checks without state succeeds exactly when every check does. -/
theorem forM_eq_ok_iff {check : α → Except ε PUnit.{w + 1}} (items : List α) :
    forM items check = .ok ⟨⟩ ↔ ∀ item ∈ items, check item = .ok ⟨⟩ := by
  induction items with
  | nil => simp [pure, Except.pure]
  | cons item items ih =>
      simp only [List.forM_cons, bind_eq_ok_iff, ih, List.mem_cons,
        forall_eq_or_imp]
      constructor
      · rintro ⟨⟨⟩, first, rest⟩
        exact ⟨first, rest⟩
      · rintro ⟨first, rest⟩
        exact ⟨_, first, rest⟩

/-- A loop stops early exactly if it runs some steps and stops in the next
one. -/
theorem foldlM_eq_error_iff {step : σ → α → Except ε σ} {items : List α}
    {state : σ} {stop : ε} :
    items.foldlM step state = .error stop ↔
      ∃ before item after middle, items = before ++ item :: after ∧
        before.foldlM step state = .ok middle ∧
          step middle item = .error stop := by
  constructor
  · intro stopped
    induction items generalizing state with
    | nil => cases stopped
    | cons item items ih =>
        rw [List.foldlM_cons, bind_eq_error_iff] at stopped
        rcases stopped with here | ⟨next, taken, later⟩
        · exact ⟨[], item, items, state, rfl, rfl, here⟩
        · obtain ⟨before, last, after, middle, rfl, passed, here⟩ := ih later
          refine ⟨item :: before, last, after, middle, rfl, ?_, here⟩
          rw [List.foldlM_cons, taken]
          exact passed
  · rintro ⟨before, item, after, middle, rfl, passed, here⟩
    rw [List.foldlM_append, bind_eq_error_iff]
    refine .inr ⟨middle, passed, ?_⟩
    rw [List.foldlM_cons, bind_eq_error_iff]
    exact .inl here

/-- A loop of checks stops exactly at a check that fails after ones that do
not. -/
theorem forM_eq_error_iff {check : α → Except ε PUnit.{w + 1}}
    {items : List α} {stop : ε} :
    forM items check = .error stop ↔
      ∃ before item after, items = before ++ item :: after ∧
        (∀ earlier ∈ before, check earlier = .ok ⟨⟩) ∧
          check item = .error stop := by
  induction items with
  | nil => simp [pure, Except.pure]
  | cons first items ih =>
      rw [List.forM_cons, bind_eq_error_iff, ih]
      constructor
      · rintro (here | ⟨⟨⟩, taken, before, item, after, rfl, passed, here⟩)
        · exact ⟨[], first, items, rfl, by simp, here⟩
        · exact ⟨first :: before, item, after, rfl,
            List.forall_mem_cons.mpr ⟨taken, passed⟩, here⟩
      · rintro ⟨before, item, after, split, passed, here⟩
        cases before with
        | nil =>
            obtain ⟨rfl, rfl⟩ := List.cons.inj split
            exact .inl here
        | cons head before =>
            obtain ⟨rfl, rfl⟩ := List.cons.inj split
            exact .inr ⟨⟨⟩, passed first (by simp), before, item, after, rfl,
              fun earlier member => passed earlier (by simp [member]), here⟩

theorem range'_eq_append_cons_iff {start length item : Nat}
    {before after : List Nat} :
    List.range' start length = before ++ item :: after ↔
      (start ≤ item ∧ item < start + length) ∧
        before = List.range' start (item - start) ∧
          after = List.range' (item + 1) (start + length - (item + 1)) := by
  rw [List.range'_eq_append_iff]
  constructor
  · rintro ⟨position, atMost, rfl, rest⟩
    obtain ⟨rfl, inside, rfl⟩ := List.range'_eq_cons_iff.mp rest.symm
    refine ⟨by omega, ?_, ?_⟩ <;> congr 1 <;> omega
  · rintro ⟨inside, rfl, rfl⟩
    refine ⟨item - start, by omega, rfl, (List.range'_eq_cons_iff.mpr
      ⟨by omega, by omega, ?_⟩).symm⟩
    congr 1
    omega

/-- The part of a range before one of its elements is a range. -/
theorem eq_range_of_range_eq {count item : Nat} {before after : List Nat}
    (split : List.range count = before ++ item :: after) :
    before = List.range item ∧ item < count := by
  rw [List.range_eq_range', range'_eq_append_cons_iff] at split
  obtain ⟨inside, rfl, -⟩ := split
  exact ⟨List.range_eq_range'.symm, by omega⟩

/-- Two computations agree if they start alike and continue alike from the
values they reach. -/
theorem bind_congr_of_ok {first : Except ε α} {next other : α → Except ε β}
    (agree : ∀ value, first = .ok value → next value = other value) :
    (first >>= next) = (first >>= other) := by
  cases first with
  | ok value => exact agree value rfl
  | error stop => rfl

/-- Two loops agree if their steps agree on every element. -/
theorem foldlM_congr {step other : σ → α → Except ε σ} {items : List α}
    (agree : ∀ state, ∀ item ∈ items, step state item = other state item)
    (state : σ) : items.foldlM step state = items.foldlM other state := by
  induction items generalizing state with
  | nil => rfl
  | cons item items ih =>
      rw [List.foldlM_cons, List.foldlM_cons, agree state item (by simp)]
      exact bind_congr_of_ok fun value _ =>
        ih (fun state other member => agree state other (by simp [member]))
          value

theorem forM_congr {check other : α → Except ε PUnit.{w + 1}}
    {items : List α} (agree : ∀ item ∈ items, check item = other item) :
    forM items check = forM items other := by
  induction items with
  | nil => rfl
  | cons item items ih =>
      rw [List.forM_cons, List.forM_cons, agree item (by simp),
        ih fun other member => agree other (by simp [member])]

section Skipping

variable {ι : Type*} {keep : α → Prop} [DecidablePred keep]

/-- A loop that skips the elements outside `keep` is the loop over the kept
elements. -/
theorem foldl_skip (read : ι → α) (state : σ) (indices : List ι) :
    indices.foldl (fun current index =>
        if keep (read index) then apply current (read index) else current)
        state =
      ((indices.map read).filter (fun item => decide (keep item))).foldl
        apply state := by
  induction indices generalizing state with
  | nil => rfl
  | cons index indices ih =>
      by_cases kept : keep (read index) <;> simp [kept, ih]

theorem flatMap_filter (items : List α) (expand : α → List β) :
    (items.filter (fun item => decide (keep item))).flatMap expand =
      items.flatMap fun item => if keep item then expand item else [] := by
  induction items with
  | nil => rfl
  | cons item items ih =>
      by_cases kept : keep item <;> simp [kept, ih]

theorem admits_skip {readable : ι → Prop} (read : ι → α) (state : σ)
    (indices : List ι) :
    Admits
        (fun current index => readable index ∧
          (keep (read index) → admissible current (read index)))
        (fun current index =>
          if keep (read index) then apply current (read index) else current)
        state indices ↔
      (∀ index ∈ indices, readable index) ∧
        Admits admissible apply state
          ((indices.map read).filter (fun item => decide (keep item))) := by
  induction indices generalizing state with
  | nil => simp
  | cons index indices ih =>
      by_cases kept : keep (read index)
      · simp [kept, ih]
        tauto
      · simp [kept, ih]
        tauto

end Skipping

section Claiming

variable {κ : Type*} [DecidableEq κ]

theorem claimed_foldl (claimed : σ → κ → Bool) (keys : α → List κ)
    (records : ∀ state item key, claimed (apply state item) key =
      (claimed state key || decide (key ∈ keys item)))
    (state : σ) (items : List α) (key : κ) :
    claimed (items.foldl apply state) key =
      (claimed state key || decide (key ∈ items.flatMap keys)) := by
  induction items generalizing state with
  | nil => simp
  | cons item items ih =>
      simp only [List.foldl_cons, ih, records, List.flatMap_cons,
        List.mem_append, Bool.decide_or, Bool.or_assoc]

/-- A loop whose steps claim keys that must be unclaimed and pairwise distinct
succeeds exactly when all keys of the loop are distinct and unclaimed at the
start. -/
theorem admits_claiming_iff (claimed : σ → κ → Bool) (keys : α → List κ)
    (condition : α → Prop)
    (records : ∀ state item key, claimed (apply state item) key =
      (claimed state key || decide (key ∈ keys item)))
    (state : σ) (items : List α) :
    Admits
        (fun current item => condition item ∧ (keys item).Nodup ∧
          ∀ key ∈ keys item, claimed current key = false)
        apply state items ↔
      (∀ item ∈ items, condition item) ∧ (items.flatMap keys).Nodup ∧
        ∀ key ∈ items.flatMap keys, claimed state key = false := by
  induction items generalizing state with
  | nil => simp
  | cons item items ih =>
      simp only [admits_cons, ih, records, List.flatMap_cons,
        List.nodup_append, List.mem_append, List.mem_cons,
        forall_eq_or_imp, Bool.or_eq_false_iff, decide_eq_false_iff_not]
      constructor
      · rintro ⟨⟨head, headNodup, headFree⟩, tail, tailNodup, tailFree⟩
        refine ⟨⟨head, tail⟩, ⟨headNodup, tailNodup, ?_⟩, ?_⟩
        · rintro first firstMem second secondMem rfl
          exact (tailFree first secondMem).2 firstMem
        · rintro key (keyMem | keyMem)
          · exact headFree key keyMem
          · exact (tailFree key keyMem).1
      · rintro ⟨⟨head, tail⟩, ⟨headNodup, tailNodup, disjoint⟩, free⟩
        refine ⟨⟨head, headNodup, fun key keyMem => free key (.inl keyMem)⟩,
          tail, tailNodup, fun key keyMem => ⟨free key (.inr keyMem), ?_⟩⟩
        intro keyHead
        exact disjoint key keyHead key keyMem rfl

end Claiming

section Writing

variable {κ ν : Type*} [DecidableEq κ]

/-- A table after a sequence of writes, the last write to a key winning. -/
def applyWrites (table : κ → ν) (writes : List (κ × ν)) : κ → ν :=
  writes.foldl (fun current write =>
    Function.update current write.1 write.2) table

@[simp]
theorem applyWrites_nil (table : κ → ν) : applyWrites table [] = table := rfl

theorem applyWrites_append (table : κ → ν) (first second : List (κ × ν)) :
    applyWrites table (first ++ second) =
      applyWrites (applyWrites table first) second := by
  simp [applyWrites]

theorem applyWrites_of_forall_ne {table : κ → ν} {writes : List (κ × ν)}
    {key : κ} (untouched : ∀ write ∈ writes, write.1 ≠ key) :
    applyWrites table writes key = table key := by
  induction writes generalizing table with
  | nil => rfl
  | cons write writes ih =>
      have headNe : key ≠ write.1 := (untouched write (by simp)).symm
      calc
        applyWrites table (write :: writes) key =
            Function.update table write.1 write.2 key :=
          ih fun other otherMem => untouched other (by simp [otherMem])
        _ = table key := Function.update_of_ne headNe _ _

/-- The entry of a written key is one of the values written to it. -/
theorem applyWrites_mem_of_mem (table : κ → ν) {writes : List (κ × ν)}
    {key : κ} {value : ν} (written : (key, value) ∈ writes) :
    (key, applyWrites table writes key) ∈ writes := by
  induction writes generalizing table value with
  | nil => simp at written
  | cons write writes ih =>
      by_cases later : ∃ other, (key, other) ∈ writes
      · obtain ⟨other, otherMem⟩ := later
        exact List.mem_cons_of_mem _ (ih _ otherMem)
      · have writeEq : write = (key, value) := by
          rcases List.mem_cons.mp written with head | tail
          · exact head.symm
          · exact absurd ⟨value, tail⟩ later
        subst writeEq
        have untouched : ∀ write ∈ writes, write.1 ≠ key := by
          rintro ⟨otherKey, other⟩ otherMem rfl
          exact later ⟨other, otherMem⟩
        have entry : applyWrites table ((key, value) :: writes) key = value := by
          calc
            applyWrites table ((key, value) :: writes) key =
                Function.update table key value key :=
              applyWrites_of_forall_ne untouched
            _ = value := Function.update_self _ _ _
        rw [entry]
        exact List.mem_cons_self

end Writing

section Counting

theorem countP_or_of_disjoint {first second : α → Bool} {items : List α}
    (disjoint : ∀ item ∈ items, first item = true → second item = false) :
    items.countP (fun item => first item || second item) =
      items.countP first + items.countP second := by
  induction items with
  | nil => rfl
  | cons item items ih =>
      have tail := ih fun other otherMem => disjoint other (by simp [otherMem])
      have head := disjoint item (by simp)
      simp only [List.countP_cons, tail]
      cases firstEq : first item
      · simp
        omega
      · simp [head firstEq]
        omega

theorem eq_of_countP_eq_one {property : α → Bool} {items : List α}
    {left right : α} (once : items.countP property = 1)
    (leftMem : left ∈ items) (leftHas : property left = true)
    (rightMem : right ∈ items) (rightHas : property right = true) :
    left = right := by
  rw [List.countP_eq_length_filter, List.length_eq_one_iff] at once
  obtain ⟨only, filtered⟩ := once
  have leftOnly : left ∈ items.filter property :=
    List.mem_filter.mpr ⟨leftMem, leftHas⟩
  have rightOnly : right ∈ items.filter property :=
    List.mem_filter.mpr ⟨rightMem, rightHas⟩
  rw [filtered, List.mem_singleton] at leftOnly rightOnly
  rw [leftOnly, rightOnly]

/-- The lists that are joined without repetition share no value. -/
theorem eq_of_nodup_flatMap {expand : α → List β} {items : List α}
    {left right : α} {value : β} (nodup : (items.flatMap expand).Nodup)
    (leftMem : left ∈ items) (rightMem : right ∈ items)
    (inLeft : value ∈ expand left) (inRight : value ∈ expand right) :
    left = right := by
  by_contra different
  have symmetric : Std.Symm (Function.onFun List.Disjoint expand) :=
    ⟨fun _ _ disjoint _ left right => disjoint right left⟩
  exact (List.nodup_flatMap.mp nodup).2.forall leftMem rightMem different
    inLeft inRight

theorem count_le_count_flatMap [DecidableEq β] (expand : α → List β)
    {items : List α} {item : α} (member : item ∈ items) (value : β) :
    (expand item).count value ≤ (items.flatMap expand).count value := by
  rw [List.flatMap_def]
  exact (List.sublist_flatten_of_mem (List.mem_map_of_mem member)).count_le
    value

/-- A value in the lists of two items occurs twice. -/
theorem two_le_count_flatMap [DecidableEq α] [DecidableEq β]
    (expand : α → List β) {items : List α} {first second : α} {value : β}
    (different : first ≠ second) (firstMem : first ∈ items)
    (secondMem : second ∈ items) (inFirst : value ∈ expand first)
    (inSecond : value ∈ expand second) :
    2 ≤ (items.flatMap expand).count value := by
  have later : second ∈ items.erase first :=
    (List.mem_erase_of_ne different.symm).mpr secondMem
  have perm : items.Perm (first :: second :: (items.erase first).erase second) :=
    (List.perm_cons_erase firstMem).trans
      ((List.perm_cons_erase later).cons first)
  rw [(perm.flatMap_right expand).count_eq]
  simp only [List.flatMap_cons, List.count_append]
  have one := List.count_pos_iff.mpr inFirst
  have two := List.count_pos_iff.mpr inSecond
  omega

/-- Elements of one family are counted in the family alone. -/
theorem countP_flatMap_eq {keys : List α} (family : α → List β)
    (property : α → β → Bool) {key : α} (nodup : keys.Nodup)
    (keyMem : key ∈ keys)
    (elsewhere : ∀ other ∈ keys, other ≠ key → ∀ item ∈ family other,
      property other item = false) :
    (keys.flatMap fun other => (family other).map (Prod.mk other)).countP
        (fun pair => property pair.1 pair.2) =
      (family key).countP (property key) := by
  induction keys with
  | nil => simp at keyMem
  | cons head keys ih =>
      obtain ⟨notMem, nodup⟩ := List.nodup_cons.mp nodup
      rw [List.flatMap_cons, List.countP_append, List.countP_map]
      by_cases same : head = key
      · subst same
        have rest : (keys.flatMap fun other =>
            (family other).map (Prod.mk other)).countP
              (fun pair => property pair.1 pair.2) = 0 := by
          rw [List.countP_eq_zero]
          intro pair pairMem
          obtain ⟨other, otherMem, located⟩ := List.mem_flatMap.mp pairMem
          obtain ⟨item, itemMem, rfl⟩ := List.mem_map.mp located
          have different : other ≠ head := fun equal =>
            notMem (equal ▸ otherMem)
          simp [elsewhere other (by simp [otherMem]) different item itemMem]
        rw [rest]
        rfl
      · have first : (family head).countP
            ((fun pair => property pair.1 pair.2) ∘ Prod.mk head) = 0 := by
          rw [List.countP_eq_zero]
          intro item itemMem
          simp [elsewhere head (by simp) same item itemMem]
        have inTail : key ∈ keys :=
          (List.mem_cons.mp keyMem).resolve_left (Ne.symm same)
        rw [first, ih nodup inTail fun other otherMem =>
          elsewhere other (by simp [otherMem]), Nat.zero_add]

theorem length_flatMap_le (expand : α → List β) (items : List α) (bound : Nat)
    (each : ∀ item ∈ items, (expand item).length ≤ bound) :
    (items.flatMap expand).length ≤ items.length * bound := by
  induction items with
  | nil => simp
  | cons item items ih =>
      have tail := ih fun other otherMem => each other (by simp [otherMem])
      have head := each item (by simp)
      rw [List.flatMap_cons, List.length_append, List.length_cons,
        Nat.succ_mul]
      omega

end Counting

section Growth

variable {ι β : Type*} [DecidableEq ι]

/-- Growing the list of one item grows the concatenation of all lists. -/
theorem perm_flatMap_update {items : List ι} (nodup : items.Nodup)
    (lists : ι → List β) {item : ι} (member : item ∈ items)
    {grown extra : List β} (growth : grown.Perm (lists item ++ extra)) :
    (items.flatMap (Function.update lists item grown)).Perm
      (items.flatMap lists ++ extra) := by
  induction items with
  | nil => simp at member
  | cons first items ih =>
      obtain ⟨fresh, nodup⟩ := List.nodup_cons.mp nodup
      rw [List.flatMap_cons, List.flatMap_cons]
      by_cases same : first = item
      · subst same
        have others : items.flatMap (Function.update lists first grown) =
            items.flatMap lists :=
          List.flatMap_congr fun other present =>
            Function.update_of_ne
              (fun equal : other = first => fresh (equal ▸ present)) _ _
        rw [Function.update_self, others]
        refine (growth.append_right _).trans ?_
        rw [List.append_assoc, List.append_assoc]
        exact List.perm_append_comm.append_left _
      · have later : item ∈ items :=
          (List.mem_cons.mp member).resolve_left (Ne.symm same)
        rw [Function.update_of_ne same, List.append_assoc]
        exact (ih nodup later).append_left _

/-- Changing the weight of one item changes the sum by the difference. -/
theorem sum_map_update {items : List ι} (nodup : items.Nodup)
    (weight : ι → Nat) {item : ι} (member : item ∈ items) (value : Nat) :
    (items.map (Function.update weight item value)).sum + weight item =
      (items.map weight).sum + value := by
  induction items with
  | nil => simp at member
  | cons first items ih =>
      obtain ⟨fresh, nodup⟩ := List.nodup_cons.mp nodup
      simp only [List.map_cons, List.sum_cons]
      by_cases same : first = item
      · subst same
        have others : items.map (Function.update weight first value) =
            items.map weight :=
          List.map_congr_left fun other present =>
            Function.update_of_ne
              (fun equal : other = first => fresh (equal ▸ present)) _ _
        rw [Function.update_self, others]
        omega
      · have later : item ∈ items :=
          (List.mem_cons.mp member).resolve_left (Ne.symm same)
        rw [Function.update_of_ne same]
        have rest := ih nodup later
        omega

end Growth

end LinuxKernelDev.LoopRules
