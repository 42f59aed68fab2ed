import LinuxKernelDev.LoopRules
import LinuxKernelDev.MkfsSectors
import Mathlib.Data.List.Range

/-!
# Files stored in blocks

The data of a file is spread over its blocks, which are listed in the inode and
in an indirect block.  `Content` says that a memory stores the data of one
file, and `Blocks` that it stores all files in disjoint blocks that together
are the allocated ones.  `iappend` extends the data of one file and keeps this
relation.
-/

namespace LinuxKernelDev.Mkfs

open ByteMemory LoopRules Function

/-- The data blocks of a file, and its indirect block or zero. -/
structure Layout where
  blocks : List Nat
  index : Nat

namespace Layout

/-- The field `addrs` of the inode. -/
def addrs (layout : Layout) (slot : Fin 13) : Nat :=
  if slot.val < 12 then layout.blocks[slot.val]?.getD 0 else layout.index

/-- All blocks that belong to the file. -/
def owned (layout : Layout) : List Nat :=
  (if layout.index = 0 then [] else [layout.index]) ++ layout.blocks

/-- Number of blocks that a file with `n` data blocks owns. -/
def claim (n : Nat) : Nat := if 12 < n then n + 1 else n

/-- Number of blocks that a file of `length` bytes owns. -/
def cost (length : Nat) : Nat := claim ((length + 511) / 512)

theorem claim_le_claim {n m : Nat} (le : n ≤ m) : claim n ≤ claim m := by
  unfold claim
  split_ifs <;> omega

variable {layout : Layout}

theorem addrs_direct (blknum : Nat) {slot : Fin 13}
    (last : slot.val = layout.blocks.length) (direct : slot.val < 12) :
    update layout.addrs slot blknum =
      addrs ⟨layout.blocks ++ [blknum], layout.index⟩ := by
  funext other
  by_cases same : other = slot
  · subst same
    rw [update_self, addrs, if_pos direct, last]
    simp
  · have different : other.val ≠ layout.blocks.length :=
      fun equal => same (Fin.ext (equal.trans last.symm))
    rw [update_of_ne same, addrs, addrs]
    split_ifs with below
    · rcases Nat.lt_or_gt_of_ne different with before | behind
      · rw [List.getElem?_append_left before]
      · rw [List.getElem?_eq_none behind.le, List.getElem?_eq_none]
        rw [List.length_append, List.length_singleton]
        omega
    · rfl

theorem addrs_indirect (blknum : Nat) (full : 12 ≤ layout.blocks.length)
    (index : Nat) :
    addrs ⟨layout.blocks ++ [blknum], index⟩ =
      update layout.addrs 12 index := by
  funext slot
  by_cases last : slot = 12
  · subst last
    rw [update_self, addrs, if_neg (by decide)]
  · have direct : slot.val < 12 := by
      have different : slot.val ≠ 12 := fun equal => last (Fin.ext equal)
      omega
    rw [update_of_ne last, addrs, addrs, if_pos direct, if_pos direct,
      List.getElem?_append_left (by omega)]

theorem mem_owned_of_block {fbn blknum : Nat}
    (block : layout.blocks[fbn]? = some blknum) : blknum ∈ layout.owned :=
  List.mem_append_right _ (List.mem_of_getElem? block)

theorem index_mem_owned (indexed : layout.index ≠ 0) :
    layout.index ∈ layout.owned := by
  simp [owned, indexed]

end Layout

/-- The memory stores the data of a file in the given blocks. -/
structure Content (memory : Nat → UInt8) (layout : Layout)
    (data : List UInt8) : Prop where
  bound : data.length ≤ 512 * layout.blocks.length
  indexed : layout.index ≠ 0 ↔ 12 < layout.blocks.length
  index : layout.index ≠ 0 → ∀ position < 128,
    word memory 4 (layout.index * 512 + 4 * position) =
      layout.blocks[12 + position]?.getD 0
  bytes : ∀ fbn blknum, layout.blocks[fbn]? = some blknum →
    ∀ position < 512, memory (blknum * 512 + position) =
      data[512 * fbn + position]?.getD 0

/-- Two memories agree on a block. -/
def AgreeOn (memory other : Nat → UInt8) (blknum : Nat) : Prop :=
  ∀ position < 512, memory (blknum * 512 + position) =
    other (blknum * 512 + position)

theorem AgreeOn.word {memory other : Nat → UInt8} {blknum position : Nat}
    (agree : AgreeOn memory other blknum) (inside : position < 128) :
    word memory 4 (blknum * 512 + 4 * position) =
      word other 4 (blknum * 512 + 4 * position) :=
  word_congr fun index below => by
    rw [Nat.add_assoc]
    exact agree _ (by omega)

/-- A patch inside one block leaves the other blocks alone. -/
theorem agreeOn_patch (memory : Nat → UInt8) {blknum other position : Nat}
    {values : List UInt8} (inside : position + values.length ≤ 512)
    (different : other ≠ blknum) :
    AgreeOn (patch memory (blknum * 512 + position) values) memory other := by
  intro index below
  rcases Nat.lt_or_gt_of_ne different with before | behind
  · exact patch_of_lt (by omega)
  · exact patch_of_le (by omega)

namespace Content

variable {memory other : Nat → UInt8} {layout : Layout} {data : List UInt8}

theorem congr (content : Content memory layout data)
    (agree : ∀ blknum ∈ layout.owned, AgreeOn other memory blknum) :
    Content other layout data where
  bound := content.bound
  indexed := content.indexed
  index indexed position inside := by
    rw [(agree _ (Layout.index_mem_owned indexed)).word inside]
    exact content.index indexed position inside
  bytes fbn blknum block position inside := by
    rw [agree _ (Layout.mem_owned_of_block block) position inside]
    exact content.bytes fbn blknum block position inside

theorem nil (memory : Nat → UInt8) : Content memory ⟨[], 0⟩ [] where
  bound := Nat.zero_le _
  indexed := by simp
  index indexed := absurd rfl indexed
  bytes fbn blknum block := by simp at block

/-- A blank block may be added behind the blocks of a file. -/
theorem grow (content : Content memory layout data) {blknum index : Nat}
    (agree : ∀ block ∈ layout.blocks, AgreeOn other memory block)
    (blank : ∀ position < 512, other (blknum * 512 + position) = 0)
    (indexed : index ≠ 0 ↔ 12 < layout.blocks.length + 1)
    (words : index ≠ 0 → ∀ position < 128,
      word other 4 (index * 512 + 4 * position) =
        (layout.blocks ++ [blknum])[12 + position]?.getD 0) :
    Content other ⟨layout.blocks ++ [blknum], index⟩ data where
  bound := by
    have bound := content.bound
    simp only [List.length_append, List.length_singleton]
    omega
  indexed := by simpa using indexed
  index := words
  bytes fbn block found position inside := by
    rcases Nat.lt_or_ge fbn layout.blocks.length with below | above
    · rw [List.getElem?_append_left below] at found
      rw [agree _ (List.mem_of_getElem? found) position inside]
      exact content.bytes fbn block found position inside
    · rw [List.getElem?_append_right above, List.getElem?_singleton]
        at found
      have bound := content.bound
      split_ifs at found with last
      · obtain rfl := Option.some.inj found
        rw [blank position inside, List.getElem?_eq_none (by omega)]
        rfl

/-- A blank block may be entered behind the last entry of an indirect
block. -/
theorem enter (content : Content memory layout data) {index blknum : Nat}
    (full : 12 ≤ layout.blocks.length) (short : layout.blocks.length < 140)
    (indexed : index ≠ 0)
    (words : ∀ position < 128, word memory 4 (index * 512 + 4 * position) =
      layout.blocks[12 + position]?.getD 0)
    (apart : index ∉ layout.blocks) (different : blknum ≠ index)
    (small : blknum < 256 ^ 4)
    (blank : ∀ position < 512, memory (blknum * 512 + position) = 0) :
    Content
      (patch memory (index * 512 + 4 * (layout.blocks.length - 12))
        (littleEndian 4 blknum))
      ⟨layout.blocks ++ [blknum], index⟩ data := by
  have inside : 4 * (layout.blocks.length - 12) +
      (littleEndian 4 blknum).length ≤ 512 := by
    rw [littleEndian_length]
    omega
  refine content.grow
    (fun block member => agreeOn_patch memory inside
      fun equal => apart (equal ▸ member))
    (fun position below => ?_) (by omega) fun _ position below => ?_
  · rw [agreeOn_patch memory inside different position below]
    exact blank position below
  · by_cases last : position = layout.blocks.length - 12
    · subst last
      rw [word_patch, Nat.mod_eq_of_lt small,
        List.getElem?_append_right (by omega),
        show 12 + (layout.blocks.length - 12) - layout.blocks.length = 0 by
          omega]
      rfl
    · rw [word_patch_of_disjoint (by rw [littleEndian_length]; omega),
        words position below]
      rcases Nat.lt_or_ge (12 + position) layout.blocks.length with
        before | behind
      · rw [List.getElem?_append_left before]
      · rw [List.getElem?_eq_none behind, List.getElem?_eq_none]
        rw [List.length_append, List.length_singleton]
        omega

/-- Writing behind the data in its last block appends to the data. -/
theorem append (content : Content memory layout data)
    (nodup : layout.owned.Nodup) {fbn blknum position : Nat}
    (block : layout.blocks[fbn]? = some blknum)
    (length : data.length = 512 * fbn + position) {values : List UInt8}
    (inside : position + values.length ≤ 512) :
    Content (patch memory (blknum * 512 + position) values) layout
      (data ++ values) where
  bound := by
    have below := (List.getElem?_eq_some_iff.mp block).1
    rw [List.length_append]
    omega
  indexed := content.indexed
  index indexed slot slotInside := by
    have different : layout.index ≠ blknum := by
      rintro rfl
      have repeated : ¬layout.owned.Nodup := by
        simp only [Layout.owned, if_neg indexed]
        exact fun nodup => (List.nodup_cons.mp nodup).1
          (List.mem_of_getElem? block)
      exact repeated nodup
    rw [(agreeOn_patch memory inside different).word slotInside]
    exact content.index indexed slot slotInside
  bytes other otherBlock found index below := by
    have previous := content.bytes other otherBlock found index below
    by_cases same : other = fbn
    · subst same
      obtain rfl : otherBlock = blknum :=
        Option.some.inj (found.symm.trans block)
      rcases Nat.lt_or_ge index position with before | behind
      · rw [patch_of_lt (by omega), previous,
          List.getElem?_append_left (by omega)]
      · obtain ⟨offset, rfl⟩ := Nat.exists_eq_add_of_le behind
        rw [List.getElem?_eq_none (by omega), Option.getD_none] at previous
        rw [← Nat.add_assoc, patch_add, Nat.add_assoc, previous,
          List.getElem?_append_right (by omega),
          show 512 * other + (position + offset) - data.length = offset by
            omega]
    · have different : otherBlock ≠ blknum := by
        rintro rfl
        exact same ((List.getElem?_inj
          (List.getElem?_eq_some_iff.mp found).1
          (List.nodup_append.mp nodup).2.1).mp (found.trans block.symm))
      rw [agreeOn_patch memory inside different index below, previous]
      rcases Nat.lt_or_gt_of_ne same with before | behind
      · rw [List.getElem?_append_left (by omega)]
      · rw [List.getElem?_eq_none (by omega),
          List.getElem?_eq_none (by rw [List.length_append]; omega)]

end Content

/-- The memory stores the files with numbers below `freeinode`, and their
blocks are the allocated ones, each in one file. -/
structure Blocks (memory : Nat → UInt8) (freeinode freeblock : Nat)
    (data : Nat → List UInt8) (layout : Nat → Layout) : Prop where
  first : 29 ≤ freeblock
  last : freeblock ≤ 1024
  content : ∀ inum, 1 ≤ inum → inum < freeinode →
    Content memory (layout inum) (data inum)
  owned : ((List.range' 1 (freeinode - 1)).flatMap fun inum =>
    (layout inum).owned).Perm (List.range' 29 (freeblock - 29))
  blank : ∀ blknum, freeblock ≤ blknum → blknum < 1024 →
    ∀ position < 512, memory (blknum * 512 + position) = 0

namespace Blocks

variable {memory other : Nat → UInt8} {freeinode freeblock : Nat}
  {data : Nat → List UInt8} {layout : Nat → Layout} {inum : Nat}

theorem mem_inodes (positive : 1 ≤ inum) (below : inum < freeinode) :
    inum ∈ List.range' 1 (freeinode - 1) := by
  rw [List.mem_range'_1]
  omega

section Owned

variable (blocks : Blocks memory freeinode freeblock data layout)
  (positive : 1 ≤ inum) (below : inum < freeinode)

include blocks positive below

theorem owned_range {blknum : Nat} (member : blknum ∈ (layout inum).owned) :
    29 ≤ blknum ∧ blknum < freeblock := by
  have claimed := blocks.owned.subset
    (List.mem_flatMap.mpr ⟨inum, mem_inodes positive below, member⟩)
  rw [List.mem_range'_1] at claimed
  have first := blocks.first
  omega

theorem owned_nodup : (layout inum).owned.Nodup :=
  (List.nodup_flatMap.mp
    (blocks.owned.nodup_iff.mpr (List.nodup_range' ..))).1 inum
      (mem_inodes positive below)

theorem owned_disjoint {holder : Nat} (holderPositive : 1 ≤ holder)
    (holderBelow : holder < freeinode) (different : holder ≠ inum)
    {blknum : Nat} (member : blknum ∈ (layout holder).owned) :
    blknum ∉ (layout inum).owned := by
  intro other
  exact different (eq_of_nodup_flatMap
    (blocks.owned.nodup_iff.mpr (List.nodup_range' ..))
    (mem_inodes holderPositive holderBelow) (mem_inodes positive below) member
    other)

end Owned

/-- The blocks and the data of one file change, and new blocks go to this
file. -/
theorem change (blocks : Blocks memory freeinode freeblock data layout)
    (positive : 1 ≤ inum) (below : inum < freeinode) {next : Nat}
    (grows : freeblock ≤ next) (room : next ≤ 1024) {newLayout : Layout}
    {newData : List UInt8}
    (owned : newLayout.owned.Perm
      ((layout inum).owned ++ List.range' freeblock (next - freeblock)))
    (content : Content other newLayout newData)
    (outside : ∀ blknum, blknum ∉ newLayout.owned →
      AgreeOn other memory blknum) :
    Blocks other freeinode next (update data inum newData)
      (update layout inum newLayout) where
  first := blocks.first.trans grows
  last := room
  content holder holderPositive holderBelow := by
    by_cases same : holder = inum
    · subst same
      simpa using content
    · rw [update_of_ne same, update_of_ne same]
      refine (blocks.content holder holderPositive holderBelow).congr
        fun blknum member => outside blknum fun claimed => ?_
      rcases List.mem_append.mp (owned.subset claimed) with old | new
      · exact blocks.owned_disjoint positive below holderPositive holderBelow
          same member old
      · have range := blocks.owned_range holderPositive holderBelow member
        rw [List.mem_range'_1] at new
        omega
  owned := by
    have lists : (fun holder => (update layout inum newLayout holder).owned) =
        update (fun holder => (layout holder).owned) inum
          newLayout.owned := by
      funext holder
      exact apply_update (fun _ => Layout.owned) layout inum newLayout holder
    rw [lists]
    refine (perm_flatMap_update (List.nodup_range' ..) _
      (mem_inodes positive below) owned).trans ?_
    refine (blocks.owned.append_right _).trans ?_
    have first := blocks.first
    have joined := @List.range'_append_1 29 (freeblock - 29)
      (next - freeblock)
    rw [show 29 + (freeblock - 29) = freeblock by omega,
      show freeblock - 29 + (next - freeblock) = next - 29 by omega] at joined
    rw [joined]
  blank blknum above inside position within := by
    rw [outside blknum ?_ position within]
    · exact blocks.blank blknum (grows.trans above) inside position within
    · intro claimed
      rcases List.mem_append.mp (owned.subset claimed) with old | new
      · have range := blocks.owned_range positive below old
        omega
      · rw [List.mem_range'_1] at new
        omega

end Blocks

end LinuxKernelDev.Mkfs
