import LinuxKernelDev.BumpAllocation
import LinuxKernelDev.MkfsStorage

/-!
# Files with holes

An inode has 141 places for a block number: twelve direct addresses, the
indirect block and the words in it.  A file whose size has been set may have
holes, places that are zero before places that are not.  Whatever the sizes,
the non-zero places of all inodes hold the allocated blocks, each once, and a
hole reads as zeros, like the block that is going to fill it.
-/

namespace LinuxKernelDev.Mkfs

open ByteMemory Function BumpAllocation

/-- The places of an inode: its direct addresses, its indirect block at 12, and
then the words of the indirect block. -/
def slot (memory : Nat → UInt8) (addrs : Fin 13 → Nat) (key : Nat) : Nat :=
  if record : key < 13 then addrs ⟨key, record⟩
  else if addrs 12 = 0 then 0
  else word memory 4 (addrs 12 * 512 + 4 * (key - 13))

/-- The place of block `fbn` of a file. -/
def dataSlot (fbn : Nat) : Nat := if fbn < 12 then fbn else fbn + 1

/-- The byte at a position of a file; a hole is read from block 0. -/
def fileByte (memory : Nat → UInt8) (addrs : Fin 13 → Nat) (position : Nat) :
    UInt8 :=
  memory (slot memory addrs (dataSlot (position / 512)) * 512 + position % 512)

/-- The bytes of a file, as far as its places reach. -/
def Reads (memory : Nat → UInt8) (addrs : Fin 13 → Nat)
    (bytes : Nat → UInt8) : Prop :=
  ∀ position < 71680, fileByte memory addrs position = bytes position

/-- The places of the allocated inodes. -/
def slots (freeinode : Nat) : Set (Nat × Nat) :=
  {key | (1 ≤ key.1 ∧ key.1 < freeinode) ∧ key.2 < 141}

def slotValue (memory : Nat → UInt8) (table : Nat → Fin 13 → Nat)
    (key : Nat × Nat) : Nat :=
  slot memory (table key.1) key.2

/-- The places of the inodes below `freeinode` hold the blocks from the first
data block up to `freeblock`, each once.  Block 0 and the blocks that are still
free are blank. -/
structure Allocated (memory : Nat → UInt8) (freeinode freeblock : Nat)
    (table : Nat → Fin 13 → Nat) : Prop where
  first : 29 ≤ freeblock
  last : freeblock ≤ 1024
  null : ∀ position < 512, memory position = 0
  blank : ∀ blknum, freeblock ≤ blknum → blknum < 1024 →
    ∀ position < 512, memory (blknum * 512 + position) = 0
  packed : Packed (slots freeinode) (slotValue memory table) 29 freeblock

section Slots

variable {memory other : Nat → UInt8} {addrs : Fin 13 → Nat} {key fbn : Nat}

theorem slot_record (record : key < 13) :
    slot memory addrs key = addrs ⟨key, record⟩ :=
  dif_pos record

theorem slot_twelve : slot memory addrs 12 = addrs 12 :=
  slot_record (by decide)

theorem slot_word (indexed : addrs 12 ≠ 0) (index : Nat) :
    slot memory addrs (13 + index) =
      word memory 4 (addrs 12 * 512 + 4 * index) := by
  rw [slot, dif_neg (by omega), if_neg indexed, Nat.add_sub_cancel_left]

theorem slot_of_unindexed (unindexed : addrs 12 = 0) (behind : 12 ≤ key) :
    slot memory addrs key = 0 := by
  by_cases last : key = 12
  · rw [last, slot_twelve, unindexed]
  · rw [slot, dif_neg (by omega), if_pos unindexed]

theorem dataSlot_lt (small : fbn < 140) : dataSlot fbn < 141 := by
  unfold dataSlot
  split_ifs <;> omega

theorem dataSlot_ne (fbn : Nat) : dataSlot fbn ≠ 12 := by
  unfold dataSlot
  split_ifs <;> omega

theorem dataSlot_injective {fbn other : Nat}
    (same : dataSlot fbn = dataSlot other) : fbn = other := by
  unfold dataSlot at same
  split_ifs at same <;> omega

/-- The places of an inode depend on its indirect block only. -/
theorem slot_congr
    (agree : addrs 12 ≠ 0 → AgreeOn other memory (addrs 12))
    (small : key < 141) :
    slot other addrs key = slot memory addrs key := by
  by_cases record : key < 13
  · rw [slot_record record, slot_record record]
  · unfold slot
    rw [dif_neg record, dif_neg record]
    split_ifs with indexed
    · rfl
    · exact (agree indexed).word (by omega)

end Slots

namespace Allocated

variable {memory : Nat → UInt8} {freeinode freeblock : Nat}
  {table : Nat → Fin 13 → Nat}

section Places

variable (allocated : Allocated memory freeinode freeblock table)
  {inum holder key : Nat} (valid : 1 ≤ inum ∧ inum < freeinode)

include allocated valid

theorem slot_range (small : key < 141)
    (nonzero : slot memory (table inum) key ≠ 0) :
    29 ≤ slot memory (table inum) key ∧
      slot memory (table inum) key < freeblock :=
  @Packed.range _ _ _ _ _ allocated.packed (inum, key) ⟨valid, small⟩ nonzero

theorem eq_of_slot_eq (holderValid : 1 ≤ holder ∧ holder < freeinode)
    {place : Nat} (small : key < 141) (otherSmall : place < 141)
    (nonzero : slot memory (table inum) key ≠ 0)
    (same : slot memory (table inum) key = slot memory (table holder) place) :
    inum = holder ∧ key = place :=
  Prod.mk.inj (@Packed.eq_of_value_eq _ _ _ _ _ allocated.packed (inum, key)
    (holder, place) ⟨valid, small⟩ ⟨holderValid, otherSmall⟩ nonzero same)

/-- The block at a place of a file is blank or belongs to this place. -/
theorem slot_le (small : key < 141) :
    slot memory (table inum) key = 0 ∨
      29 ≤ slot memory (table inum) key ∧
        slot memory (table inum) key < freeblock := by
  by_cases zero : slot memory (table inum) key = 0
  · exact .inl zero
  · exact .inr (allocated.slot_range valid small zero)

/-- A data block is no indirect block. -/
theorem data_ne_index (holderValid : 1 ≤ holder ∧ holder < freeinode)
    {fbn : Nat} (small : fbn < 140) (indexed : table holder 12 ≠ 0) :
    slot memory (table inum) (dataSlot fbn) ≠ table holder 12 := by
  intro same
  have index : slot memory (table holder) 12 = table holder 12 := slot_twelve
  exact dataSlot_ne fbn (allocated.eq_of_slot_eq valid holderValid
    (dataSlot_lt small) (by decide) (same ▸ indexed)
    (same.trans index.symm)).2

end Places

/-- A hole is read as zeros. -/
theorem fileByte_hole (allocated : Allocated memory freeinode freeblock table)
    {inum position : Nat}
    (hole : slot memory (table inum) (dataSlot (position / 512)) = 0) :
    fileByte memory (table inum) position = 0 := by
  rw [fileByte, hole, Nat.zero_mul, Nat.zero_add]
  exact allocated.null _ (Nat.mod_lt _ (by decide))

section Claiming

variable {other : Nat → UInt8} {newTable : Nat → Fin 13 → Nat}

/-- A free place takes the next block.  Blocks other than indirect blocks do
not change, so that no file does. -/
theorem claim (allocated : Allocated memory freeinode freeblock table)
    (room : freeblock < 1024) (key : Nat × Nat) (mem : key ∈ slots freeinode)
    (free : slotValue memory table key = 0)
    (values : ∀ place ∈ slots freeinode, slotValue other newTable place =
      update (slotValue memory table) key freeblock place)
    (agree : ∀ blknum, (∀ holder, 1 ≤ holder ∧ holder < freeinode →
      table holder 12 ≠ 0 → blknum ≠ table holder 12) →
        AgreeOn other memory blknum) :
    Allocated other freeinode (freeblock + 1) newTable ∧
      ∀ inum, 1 ≤ inum ∧ inum < freeinode →
        Reads other (newTable inum) (fileByte memory (table inum)) := by
  have first := allocated.first
  have indexRange : ∀ holder, 1 ≤ holder ∧ holder < freeinode →
      table holder 12 ≠ 0 → 29 ≤ table holder 12 ∧
        table holder 12 < freeblock := fun holder valid indexed => by
    have index : slot memory (table holder) 12 = table holder 12 := slot_twelve
    rw [← index]
    exact allocated.slot_range valid (by decide) (index.symm ▸ indexed)
  have null : AgreeOn other memory 0 := agree 0 fun holder valid indexed => by
    have range := indexRange holder valid indexed
    omega
  have free' : ∀ blknum, freeblock ≤ blknum → AgreeOn other memory blknum :=
    fun blknum above => agree blknum fun holder valid indexed => by
      have range := indexRange holder valid indexed
      omega
  constructor
  · refine ⟨by omega, room, fun position below => ?_,
      fun blknum above inside position below => ?_, ?_⟩
    · have same := null position below
      rw [Nat.zero_mul, Nat.zero_add] at same
      rw [same, allocated.null position below]
    · rw [free' blknum (by omega) position below]
      exact allocated.blank blknum (by omega) inside position below
    · exact (allocated.packed.allocate first (by decide) mem free).congr values
  · intro inum valid position below
    have small : position / 512 < 140 := by omega
    have within := Nat.mod_lt position (show 0 < 512 by decide)
    have place : (inum, dataSlot (position / 512)) ∈ slots freeinode :=
      ⟨valid, dataSlot_lt small⟩
    have value := values _ place
    change slot other (newTable inum) _ = _ at value
    by_cases taken : (inum, dataSlot (position / 512)) = key
    · subst taken
      rw [update_self] at value
      rw [allocated.fileByte_hole free, fileByte, value,
        free' freeblock (Nat.le_refl _) _ within]
      exact allocated.blank _ (Nat.le_refl _) room _ within
    · rw [update_of_ne taken] at value
      rw [fileByte, value]
      exact agree _ (fun holder holderValid indexed =>
        allocated.data_ne_index valid holderValid small indexed) _ within

/-- An address of an inode that was zero takes the next block. -/
theorem claim_address (allocated : Allocated memory freeinode freeblock table)
    (room : freeblock < 1024) {inum : Nat}
    (valid : 1 ≤ inum ∧ inum < freeinode) {index : Fin 13}
    (free : table inum index = 0) :
    (∀ key < 141, key ≠ index.val →
      slot memory (update (table inum) index freeblock) key =
        slot memory (table inum) key) ∧
    Allocated memory freeinode (freeblock + 1)
        (update table inum (update (table inum) index freeblock)) ∧
      ∀ holder, 1 ≤ holder ∧ holder < freeinode →
        Reads memory
          (update table inum (update (table inum) index freeblock) holder)
          (fileByte memory (table holder)) := by
  have first := allocated.first
  have others : ∀ key < 141, key ≠ index.val →
      slot memory (update (table inum) index freeblock) key =
        slot memory (table inum) key := by
    intro key small different
    by_cases record : key < 13
    · rw [slot_record record, slot_record record, update_of_ne]
      exact fun same => different (congrArg Fin.val same)
    · by_cases last : index = 12
      · -- The new indirect block is blank, so its words are zero.
        subst last
        obtain ⟨word, rfl⟩ := Nat.exists_eq_add_of_le
          (Nat.le_of_not_lt record)
        have new : update (table inum) 12 freeblock 12 ≠ 0 := by
          rw [update_self]
          omega
        rw [slot_of_unindexed free (by omega), slot_word new, update_self]
        refine word_eq_zero fun byte within => ?_
        rw [Nat.add_assoc]
        exact allocated.blank _ (Nat.le_refl _) room _ (by omega)
      · unfold slot
        rw [dif_neg record, dif_neg record, update_of_ne (Ne.symm last)]
  refine ⟨others, allocated.claim room (inum, index.val) ?_ ?_ ?_
    fun _ _ _ _ => rfl⟩
  · exact ⟨valid, index.isLt.trans (by decide)⟩
  · exact (slot_record index.isLt).trans free
  · rintro ⟨holder, key⟩ ⟨holderValid, small⟩
    by_cases same : holder = inum
    · subst same
      change slot memory (update table holder _ holder) key = _
      rw [update_self]
      by_cases here : key = index.val
      · subst here
        rw [update_self, slot_record index.isLt, update_self]
      · rw [update_of_ne (fun equal => here (Prod.mk.inj equal).2),
          others key small here]
        rfl
    · rw [update_of_ne (fun equal => same (Prod.mk.inj equal).1)]
      change slot memory (update table inum _ holder) key = _
      rw [update_of_ne same]
      rfl

/-- A word of an indirect block that was zero takes the next block. -/
theorem claim_word (allocated : Allocated memory freeinode freeblock table)
    (room : freeblock < 1024) {inum : Nat}
    (valid : 1 ≤ inum ∧ inum < freeinode) (indexed : table inum 12 ≠ 0)
    {word : Nat} (inside : word < 128)
    (free : slot memory (table inum) (13 + word) = 0) :
    let patched := patch memory (table inum 12 * 512 + 4 * word)
      (littleEndian 4 freeblock)
    (∀ key < 141, slot patched (table inum) key =
      update (slot memory (table inum)) (13 + word) freeblock key) ∧
    Allocated patched freeinode (freeblock + 1) table ∧
      ∀ holder, 1 ≤ holder ∧ holder < freeinode →
        Reads patched (table holder) (fileByte memory (table holder)) := by
  intro patched
  have fits : 4 * word + (littleEndian 4 freeblock).length ≤ 512 := by
    rw [littleEndian_length]
    omega
  have own : ∀ key < 141, slot patched (table inum) key =
      update (slot memory (table inum)) (13 + word) freeblock key := by
    intro key small
    by_cases record : key < 13
    · rw [update_of_ne (by omega), slot_record record, slot_record record]
    · obtain ⟨place, rfl⟩ := Nat.exists_eq_add_of_le (Nat.le_of_not_lt record)
      rw [slot_word indexed]
      by_cases here : place = word
      · subst here
        rw [update_self, word_patch]
        exact Nat.mod_eq_of_lt (by omega)
      · rw [update_of_ne (by omega), slot_word indexed]
        exact word_patch_of_disjoint (by rw [littleEndian_length]; omega)
  refine ⟨own, allocated.claim room (inum, 13 + word) ⟨valid, ?_⟩ free ?_ ?_⟩
  · exact Nat.add_lt_add_left inside 13
  · rintro ⟨holder, key⟩ ⟨holderValid, small⟩
    by_cases same : holder = inum
    · subst same
      refine (own key small).trans ?_
      by_cases here : key = 13 + word
      · rw [here, update_self, update_self]
      · rw [update_of_ne here, update_of_ne fun equal =>
          here (Prod.mk.inj equal).2]
        rfl
    · rw [update_of_ne fun equal => same (Prod.mk.inj equal).1]
      refine slot_congr (fun holderIndexed => agreeOn_patch memory fits ?_) small
      intro equal
      have index : slot memory (table holder) 12 = table holder 12 := slot_twelve
      exact same (allocated.eq_of_slot_eq holderValid valid (by decide)
        (by decide) (index.symm ▸ holderIndexed)
        (index.trans (equal.trans (@slot_twelve memory _).symm))).1
  · exact fun blknum apart =>
      agreeOn_patch memory fits (apart inum valid indexed)

end Claiming

/-- Writing in a data block of a file writes to the file at this position, and
changes no other file. -/
theorem write (allocated : Allocated memory freeinode freeblock table)
    {inum : Nat} (valid : 1 ≤ inum ∧ inum < freeinode) {fbn : Nat}
    (small : fbn < 140) (present : slot memory (table inum) (dataSlot fbn) ≠ 0)
    {offset : Nat} {values : List UInt8}
    (inside : offset + values.length ≤ 512) :
    let patched := patch memory
      (slot memory (table inum) (dataSlot fbn) * 512 + offset) values
    (∀ holder, 1 ≤ holder ∧ holder < freeinode → ∀ key < 141,
      slot patched (table holder) key = slot memory (table holder) key) ∧
    Allocated patched freeinode freeblock table ∧
    Reads patched (table inum)
      (patch (fileByte memory (table inum)) (fbn * 512 + offset) values) ∧
    ∀ holder, 1 ≤ holder ∧ holder < freeinode → holder ≠ inum →
      Reads patched (table holder) (fileByte memory (table holder)) := by
  intro patched
  have first := allocated.first
  have range := allocated.slot_range valid (dataSlot_lt small) present
  have agree : ∀ blknum, blknum ≠ slot memory (table inum) (dataSlot fbn) →
      AgreeOn patched memory blknum := fun blknum different =>
    agreeOn_patch memory inside different
  have same : ∀ holder, 1 ≤ holder ∧ holder < freeinode → ∀ key < 141,
      slot patched (table holder) key = slot memory (table holder) key :=
    fun holder holderValid key keySmall =>
      slot_congr (fun indexed => agree _
        (allocated.data_ne_index valid holderValid small indexed).symm) keySmall
  -- A position in another block, or in a file other than `inum`.
  have kept : ∀ holder, 1 ≤ holder ∧ holder < freeinode →
      ∀ position < 71680, (holder, position / 512) ≠ (inum, fbn) →
        fileByte patched (table holder) position =
          fileByte memory (table holder) position := by
    intro holder holderValid position below different
    have otherSmall : position / 512 < 140 := by omega
    rw [fileByte, same holder holderValid _ (dataSlot_lt otherSmall)]
    refine agree _ (fun equal => different ?_) _ (Nat.mod_lt _ (by decide))
    obtain ⟨holderEq, placeEq⟩ := allocated.eq_of_slot_eq holderValid valid
      (dataSlot_lt otherSmall) (dataSlot_lt small) (equal ▸ present) equal
    rw [holderEq, dataSlot_injective placeEq]
  refine ⟨same, ⟨first, allocated.last, ?_, ?_, ?_⟩, ?_, ?_⟩
  · intro position below
    have null := agree 0 (by omega) position below
    rw [Nat.zero_mul, Nat.zero_add] at null
    rw [null, allocated.null position below]
  · intro blknum above within position below
    rw [agree blknum (by omega) position below]
    exact allocated.blank blknum above within position below
  · exact allocated.packed.congr fun key mem => same key.1 mem.1 key.2 mem.2
  · intro position below
    have split := Nat.div_add_mod position 512
    have within := Nat.mod_lt position (show 0 < 512 by decide)
    by_cases here : position / 512 = fbn
    · have target : patch (fileByte memory (table inum)) (fbn * 512 + offset)
          values position =
            patch memory (slot memory (table inum) (dataSlot fbn) * 512 +
              offset) values (slot memory (table inum) (dataSlot fbn) * 512 +
                position % 512) := by
        unfold patch
        rw [fileByte, here]
        by_cases before : position % 512 < offset
        · rw [if_neg (by omega), if_neg (by omega)]
        · rw [if_pos (by omega), if_pos (by omega)]
          congr 2
          omega
      rw [target, fileByte, here, same inum valid _ (dataSlot_lt small)]
    · rw [kept inum valid position below
        fun equal => here (Prod.mk.inj equal).2]
      rcases Nat.lt_or_gt_of_ne here with before | behind
      · rw [patch_of_lt (by omega)]
      · rw [patch_of_le (by omega)]
  · intro holder holderValid different position below
    exact kept holder holderValid position below
      fun equal => different (Prod.mk.inj equal).1

end Allocated

end LinuxKernelDev.Mkfs
