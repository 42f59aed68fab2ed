import LinuxKernelDev.FsckDirectoryTree

/-!
# Dangling entries in accepted images

The checker counts the entries that name an inode in the first pass and
compares the counts with the inode types in the last loop.  Its arrays have one
element more than there are inodes, and the last loop leaves that element out:
an entry that names the inode number right behind the inode table is counted,
but its count is never looked at.

In an image of more than `2 ^ 23` blocks, the 32-bit offsets of the higher
blocks wrap.  The checker then reads other bytes in their place, and the entries
of these blocks are not looked at either.
-/

namespace LinuxKernelDev

open LoopRules

/-- A data block of an inode that the checker does not read: its offset wraps,
or it is named in an indirect block whose offset wraps. -/
def Image.Misread (img : Image) (inum blknum : Nat) : Prop :=
  8388608 ≤ blknum ∨
    8388608 ≤ img.inodeAddr inum 12 ∧ blknum ∈ img.indirectAddrs inum

namespace Fsck

variable {img : Image} {g : Globals} {scan : Scan}

theorem mem_dataBlocks_of_not_misread {inum blknum : Nat}
    (member : blknum ∈ img.fileBlocks inum)
    (readable : ¬img.Misread inum blknum) : blknum ∈ dataBlocks img inum := by
  obtain ⟨-, wrapped⟩ := not_or.mp readable
  rcases List.mem_append.mp member with direct | indirect
  · exact List.mem_append_left _ direct
  · refine List.mem_append_right _ ?_
    rw [indirectBlocks_eq (by
      by_contra large
      exact wrapped ⟨by omega, indirect⟩)]
    exact indirect

/-- The entries of the blocks that the checker reads are among its records. -/
theorem mem_allRecords_of_not_misread {inum blknum : Nat} {entry : Dirent}
    (directory : img.IsDirectory inum) (member : blknum ∈ img.fileBlocks inum)
    (readable : ¬img.Misread inum blknum)
    (located : entry ∈ img.direntsIn blknum) :
    (inum % 65536, entry) ∈ allRecords img img.sbNinodes := by
  have scanned := (scanned_iff_inUse directory.1.2.1).mpr directory.1
  have small : blknum < 8388608 := by
    by_contra large
    exact readable (.inl (by omega))
  refine List.mem_flatMap.mpr ⟨inum, List.mem_range.mpr directory.1.2.1, ?_⟩
  rw [inodeRecords, if_pos scanned, inodeDirents, if_pos directory.2]
  refine List.mem_map_of_mem (List.mem_flatMap.mpr ⟨blknum,
    mem_dataBlocks_of_not_misread member readable, ?_⟩)
  rwa [blockDirents_eq small]

namespace Accepts

variable (accepts : Accepts img g scan)

include accepts

theorem inUse_of_mem_allRecords {record : Nat × Dirent}
    (member : record ∈ allRecords img img.sbNinodes)
    (child : record.2.isChild = true)
    (inTable : record.2.inum < img.sbNinodes) :
    img.InUse record.2.inum := by
  have nonzero : record.2.inum ≠ 0 := by
    simp only [Dirent.isChild, Bool.and_eq_true, bne_iff_ne] at child
    exact child.1.1
  have counted : 0 < (allRecords img img.sbNinodes).countP
      (refersTo record.2.inum) :=
    List.countP_pos_iff.mpr ⟨record, member, by simp [refersTo, child]⟩
  have bound := (List.countP_le_length (p := refersTo record.2.inum)).trans
    (allRecords_length_le fun inum => accepts.narrow)
  by_contra free
  have unused : scan.usedinode record.2.inum = false := by
    rw [← Bool.not_eq_true, accepts.used_iff]
    exact free
  have none := (accepts.references record.2.inum (by omega) inTable).notFree
    unused
  rw [accepts.described.references, accepts.ninodes,
    Int.bmod_eq_of_le_mul_two (by omega) (by omega)] at none
  omega

theorem inum_le_of_mem_allRecords {record : Nat × Dirent}
    (member : record ∈ allRecords img img.sbNinodes)
    (child : record.2.isChild = true) : record.2.inum ≤ img.sbNinodes := by
  obtain ⟨directory, located⟩ := accepts.mem_allRecords member
  have checked := (accepts.sound record.1 directory.1.2.1).direntOk
    ((scanned_iff_inUse directory.1.2.1).mpr directory.1) located
  simp only [Dirent.isChild, Bool.and_eq_true, bne_iff_ne,
    Bool.not_eq_true'] at child
  have inside := checked child.1.1
  rw [if_neg (by simp [child.1.2]), if_neg (by simp [child.2])] at inside
  have length : g.tableLen ≤ img.sbNinodes + 1 := by
    rw [Globals.tableLen, accepts.ninodes]
    exact Nat.mod_le _ _
  exact Nat.le_of_lt_succ (inside.1.trans_le length)

end Accepts

/-- In an accepted image every entry names an in-use inode exactly if none
names the inode number behind the table, and the entries in blocks that the
checker does not read name in-use inodes on their own account. -/
theorem entriesInUse_iff_of_accepted (img : Image) (stderr : String)
    (accepted : myfsck img = .exited 0 stderr) :
    (∀ entry ∈ img.entries, 1 ≤ entry.2.inum ∧
      entry.2.inum < img.sbNinodes ∧ img.inodeType entry.2.inum ≠ 0) ↔
    (∀ entry ∈ img.entries, entry.2.inum ≠ img.sbNinodes) ∧
      ∀ inum blknum, img.IsDirectory inum → blknum ∈ img.fileBlocks inum →
        img.Misread inum blknum → ∀ entry ∈ img.direntsIn blknum,
          entry.isChild = true → img.InUse entry.inum := by
  obtain ⟨g, scan, -, accepts⟩ := exists_accepts accepted
  constructor
  · intro inUse
    refine ⟨fun entry member equal => (inUse entry member).2.1.ne equal,
      fun inum blknum directory member _ entry located child => ?_⟩
    exact inUse (inum, entry) (List.mem_filter.mpr ⟨img.mem_slots.mpr
      ⟨directory, List.mem_flatMap.mpr ⟨blknum, member, located⟩⟩, child⟩)
  · rintro ⟨inTable, misread⟩ ⟨holder, entry⟩ member
    obtain ⟨slot, child⟩ := List.mem_filter.mp member
    obtain ⟨directory, present⟩ := img.mem_slots.mp slot
    obtain ⟨blknum, owned, located⟩ := List.mem_flatMap.mp present
    by_cases readable : img.Misread holder blknum
    · exact misread holder blknum directory owned readable entry located child
    · have record := mem_allRecords_of_not_misread directory owned readable
        located
      have bound := accepts.inum_le_of_mem_allRecords record child
      have used := accepts.inUse_of_mem_allRecords record child
        (lt_of_le_of_ne bound (inTable (holder, entry) member))
      exact used

theorem entriesInUse_sample :
    myfsck Image.sample = .exited 0 "" ∧
      ∀ entry ∈ Image.sample.entries, 1 ≤ entry.2.inum ∧
        entry.2.inum < Image.sample.sbNinodes ∧
          Image.sample.inodeType entry.2.inum ≠ 0 := by
  have accepted : myfsck Image.sample = .exited 0 "" := by decide +kernel
  refine ⟨accepted, (entriesInUse_iff_of_accepted Image.sample ""
    accepted).mpr ⟨by decide +kernel, fun inum blknum directory member
      misread => ?_⟩⟩
  have blocks : ∀ inum < Image.sample.sbNinodes,
      Image.sample.inodeAddr inum 12 < 8388608 ∧
        ∀ blknum ∈ Image.sample.fileBlocks inum, blknum < 8388608 := by
    decide +kernel
  obtain ⟨indirect, direct⟩ := blocks inum directory.1.2.1
  rcases misread with wrapped | ⟨wrapped, -⟩
  · exact absurd (direct blknum member) (Nat.not_lt.mpr wrapped)
  · exact absurd indirect (Nat.not_lt.mpr wrapped)

/-- The sample image with a third entry in its root directory, which names
inode 4 behind the table of four inodes. -/
def danglingSample : Image where
  stSize := 3584
  byte offset :=
    if offset = 2112 then 4 else if offset = 2114 then 99
    else Image.sample.byte offset

theorem dangling_accepted :
    myfsck danglingSample = .exited 0 "" ∧
      ∃ entry ∈ danglingSample.entries,
        entry.2.inum = danglingSample.sbNinodes ∧
          danglingSample.inodeType entry.2.inum = 0 := by
  decide +kernel

end Fsck

end LinuxKernelDev
