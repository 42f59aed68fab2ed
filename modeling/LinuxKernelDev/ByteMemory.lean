import Mathlib.Data.List.Basic
import Mathlib.Tactic.Ring
import Mathlib.Tactic.SplitIfs

/-!
# Little-endian words in a byte memory

A memory is a function from addresses to values.  `patch` overwrites a range of
a memory with a list of values, `littleEndian` lists the bytes of a number and
`word` reads a number back.  `writeBlock` replaces a whole block, which is how
a program that reads a block, changes a part of it and writes it back patches
the memory.
-/

namespace LinuxKernelDev.ByteMemory

variable {α : Type*}

/-- The memory with `values` written from `offset` on. -/
def patch (memory : Nat → α) (offset : Nat) (values : List α) : Nat → α :=
  fun address =>
    if offset ≤ address then
      values[address - offset]?.getD (memory address)
    else memory address

/-- The memory with the block `number` of `size` values replaced. -/
def writeBlock (memory : Nat → α) (size number : Nat) (block : Nat → α) :
    Nat → α := fun address =>
  if address / size = number then block (address % size) else memory address

/-- The lowest bytes of a number, the lowest first. -/
def littleEndian : Nat → Nat → List UInt8
  | 0, _ => []
  | width + 1, number =>
      UInt8.ofNat number :: littleEndian width (number / 256)

/-- The number stored in the bytes from an address on, the lowest first. -/
def word (memory : Nat → UInt8) : Nat → Nat → Nat
  | 0, _ => 0
  | width + 1, address =>
      (memory address).toNat + 256 * word memory width (address + 1)

section Patch

variable {memory : Nat → α} {offset address : Nat} {values : List α}

theorem patch_add (memory : Nat → α) (offset index : Nat)
    (values : List α) :
    patch memory offset values (offset + index) =
      values[index]?.getD (memory (offset + index)) := by
  simp [patch]

theorem patch_of_lt (before : address < offset) :
    patch memory offset values address = memory address :=
  if_neg (Nat.not_le.mpr before)

theorem patch_of_le (behind : offset + values.length ≤ address) :
    patch memory offset values address = memory address := by
  unfold patch
  rw [List.getElem?_eq_none (by omega), Option.getD_none, ite_self]

@[simp]
theorem patch_nil (memory : Nat → α) (offset : Nat) :
    patch memory offset [] = memory := by
  funext address
  simp [patch]

theorem patch_append (memory : Nat → α) (offset : Nat)
    (first second : List α) :
    patch memory offset (first ++ second) =
      patch (patch memory offset first) (offset + first.length) second := by
  funext address
  by_cases before : address < offset
  · rw [patch_of_lt before, patch_of_lt (by omega), patch_of_lt before]
  · by_cases early : address < offset + first.length
    · rw [patch_of_lt early]
      unfold patch
      rw [List.getElem?_append_left (by omega)]
    · have behind : first.length ≤ address - offset := by omega
      have distance : address - offset - first.length =
          address - (offset + first.length) := by omega
      simp only [patch, if_pos (show offset ≤ address by omega),
        if_pos (show offset + first.length ≤ address by omega),
        List.getElem?_append_right behind, List.getElem?_eq_none behind,
        Option.getD_none, distance]

/-- The values up to the end of a patch. -/
theorem map_range_patch (memory : Nat → α) (offset : Nat) (values : List α) :
    (List.range (offset + values.length)).map (patch memory offset values) =
      (List.range offset).map memory ++ values := by
  rw [List.range_add, List.map_append, List.map_map]
  congr 1
  · refine List.map_congr_left fun address mem => ?_
    exact patch_of_lt (List.mem_range.1 mem)
  · refine List.ext_getElem? fun index => ?_
    by_cases inside : index < values.length
    · simp [inside, patch_add]
    · simp [inside]

/-- Patching a copy of a block and writing it back patches the memory. -/
theorem writeBlock_patch (memory : Nat → α) {size position : Nat}
    (number : Nat) {values : List α}
    (inside : position + values.length ≤ size) (positive : 0 < size) :
    writeBlock memory size number
        (patch (fun index => memory (number * size + index)) position
          values) =
      patch memory (number * size + position) values := by
  funext address
  unfold writeBlock
  have decomposed := Nat.div_add_mod' address size
  have remainder := Nat.mod_lt address positive
  split_ifs with same
  · rw [same] at decomposed
    rw [← decomposed]
    have located : (number * size + address % size) % size =
        address % size := by
      rw [decomposed]
    simp only [located, patch, Nat.add_le_add_iff_left,
      Nat.add_sub_add_left]
  · by_cases before : address < number * size + position
    · rw [patch_of_lt before]
    · rw [patch_of_le]
      by_contra within
      refine same (Nat.div_eq_of_lt_le (by omega) ?_)
      rw [Nat.add_mul]
      omega

end Patch

@[simp]
theorem littleEndian_length (width number : Nat) :
    (littleEndian width number).length = width := by
  induction width generalizing number with
  | zero => rfl
  | succ width ih => simp [littleEndian, ih]

/-- Only the lowest bytes of a number are listed. -/
theorem littleEndian_mod (width number : Nat) :
    littleEndian width (number % 256 ^ width) = littleEndian width number := by
  induction width generalizing number with
  | zero => rfl
  | succ width ih =>
      have first : UInt8.ofNat (number % 256 ^ (width + 1)) =
          UInt8.ofNat number := by
        rw [← UInt8.toNat_inj, UInt8.toNat_ofNat', UInt8.toNat_ofNat',
          Nat.pow_succ, Nat.mod_mod_of_dvd _ (Nat.dvd_mul_left ..)]
      rw [littleEndian, littleEndian, first, Nat.pow_succ',
        Nat.mod_mul_right_div_self, ih]

section Word

variable {memory other : Nat → UInt8} {width address : Nat}

theorem word_lt (memory : Nat → UInt8) (width address : Nat) :
    word memory width address < 256 ^ width := by
  induction width generalizing address with
  | zero => simp [word]
  | succ width ih =>
      have low := (memory address).toNat_lt
      have high := ih (address + 1)
      rw [word, Nat.pow_succ]
      omega

theorem word_congr
    (agree : ∀ index < width, memory (address + index) =
      other (address + index)) :
    word memory width address = word other width address := by
  induction width generalizing address with
  | zero => rfl
  | succ width ih =>
      have first := agree 0 (Nat.zero_lt_succ width)
      have rest : ∀ index < width, memory (address + 1 + index) =
          other (address + 1 + index) := fun index below => by
        have shifted := agree (index + 1) (Nat.succ_lt_succ below)
        rwa [Nat.add_comm index 1, ← Nat.add_assoc] at shifted
      rw [word, word, ih rest]
      exact congrArg (fun byte => byte.toNat + _) first

theorem word_eq_zero
    (blank : ∀ index < width, memory (address + index) = 0) :
    word memory width address = 0 := by
  have zero : ∀ width address, word (fun _ => 0) width address = 0 := by
    intro width
    induction width with
    | zero => exact fun _ => rfl
    | succ width ih => exact fun address => by rw [word, ih]; rfl
  exact (@word_congr memory (fun _ => 0) width address blank).trans
    (zero width address)

/-- A word reads the same in a copy of a part of the memory. -/
theorem word_window (memory : Nat → UInt8) (base width address : Nat) :
    word (fun index => memory (base + index)) width address =
      word memory width (base + address) := by
  induction width generalizing address with
  | zero => rfl
  | succ width ih => rw [word, word, ih, Nat.add_assoc]

theorem word_patch (memory : Nat → UInt8) (offset width number : Nat) :
    word (patch memory offset (littleEndian width number)) width offset =
      number % 256 ^ width := by
  induction width generalizing memory offset number with
  | zero => simp [word, Nat.mod_one]
  | succ width ih =>
      have split := patch_append memory offset [UInt8.ofNat number]
        (littleEndian width (number / 256))
      have first : patch memory offset (littleEndian (width + 1) number)
          offset = UInt8.ofNat number := by
        simp [patch, littleEndian]
      rw [word, first]
      change _ + 256 * word (patch memory offset ([UInt8.ofNat number] ++
        littleEndian width (number / 256))) width (offset + 1) = _
      have radix : 256 ^ (width + 1) = 256 * 256 ^ width := Nat.pow_succ'
      rw [split, List.length_singleton, ih, radix, Nat.mod_mul,
        UInt8.toNat_ofNat']

theorem word_patch_of_disjoint {offset : Nat} {values : List UInt8}
    (disjoint : address + width ≤ offset ∨ offset + values.length ≤ address) :
    word (patch memory offset values) width address =
      word memory width address := by
  refine word_congr fun index below => ?_
  rcases disjoint with before | behind
  · exact patch_of_lt (by omega)
  · exact patch_of_le (by omega)

theorem length_flatMap_littleEndian (width : Nat) (numbers : List Nat) :
    (numbers.flatMap (littleEndian width)).length =
      width * numbers.length := by
  induction numbers with
  | nil => rfl
  | cons number numbers ih =>
      simp only [List.flatMap_cons, List.length_append, littleEndian_length,
        ih, List.length_cons]
      ring

/-- A table of words is read back word by word. -/
theorem word_patch_flatMap (memory : Nat → UInt8) (offset width : Nat)
    {numbers : List Nat} {index number : Nat}
    (found : numbers[index]? = some number) :
    word (patch memory offset (numbers.flatMap (littleEndian width))) width
        (offset + width * index) = number % 256 ^ width := by
  induction numbers generalizing memory offset index with
  | nil => simp at found
  | cons first numbers ih =>
      rw [List.flatMap_cons, patch_append, littleEndian_length]
      cases index with
      | zero =>
          obtain rfl : first = number := by simpa using found
          rw [Nat.mul_zero, Nat.add_zero, word_patch_of_disjoint
            (.inl (Nat.le_refl _)), word_patch]
      | succ index =>
          rw [Nat.mul_add, Nat.mul_one, Nat.add_comm (width * index),
            ← Nat.add_assoc]
          exact ih _ _ (by simpa using found)

end Word

/-- The entries of a list of records that all have the same width. -/
theorem getElem?_flatMap_uniform {β : Type*} {records : List α}
    {encode : α → List β} {width : Nat}
    (uniform : ∀ record ∈ records, (encode record).length = width)
    (index : Nat) {position : Nat} (inside : position < width) :
    (records.flatMap encode)[width * index + position]? =
      records[index]?.bind fun record => (encode record)[position]? := by
  induction records generalizing index with
  | nil => simp
  | cons record records ih =>
      have first := uniform record List.mem_cons_self
      rw [List.flatMap_cons]
      cases index with
      | zero =>
          rw [Nat.mul_zero, Nat.zero_add,
            List.getElem?_append_left (by omega)]
          rfl
      | succ index =>
          rw [List.getElem?_append_right (by rw [Nat.mul_succ]; omega), first,
            show width * (index + 1) + position - width =
              width * index + position by rw [Nat.mul_succ]; omega,
            ih fun other member => uniform other (List.mem_cons_of_mem _ member)]
          rfl

end LinuxKernelDev.ByteMemory
