import LinuxKernelDev.FsckOwnership
import Mathlib.Data.List.Range

/-!
# The reference tables and the directories of the image

When all in-use inodes have 16-bit numbers and own blocks below `2 ^ 23`, the
entries read by the first pass are the directory slots of the image.  The
reference counters are then exact counts, without wrapping, and the two parent
tables hold the inodes named by `..` entries and the holders of entries.
-/

namespace LinuxKernelDev.Fsck

open LoopRules

/-- The conditions under which the checker's narrowed inode numbers and block
offsets are exact. -/
structure Exact (img : Image) : Prop where
  narrow : ∀ inum, img.InUse inum → inum < 65536
  small : ∀ inum, img.InUse inum → ∀ blknum ∈ img.ownedBlocks inum,
    blknum < 8388608

section SmallBlocks

variable {img : Image} {inum : Nat}
  (small : ∀ blknum ∈ img.ownedBlocks inum, blknum < 8388608)

include small

theorem inodeAddr_lt_of_ownedBlocks : img.inodeAddr inum 12 < 8388608 := by
  by_cases hole : img.inodeAddr inum 12 = 0
  · omega
  · exact small _ (by simp [Image.ownedBlocks, hole])

/-- The entries read for a directory are its slots if none of its blocks has a
number from `2 ^ 23` on. -/
theorem inodeDirents_eq_of_lt (directory : img.inodeType inum = 1) :
    inodeDirents img inum = img.directoryDirents inum := by
  unfold inodeDirents Image.directoryDirents
  rw [if_pos directory, dataBlocks_eq (inodeAddr_lt_of_ownedBlocks small)]
  apply List.flatMap_congr
  intro blknum member
  exact blockDirents_eq
    (small blknum (img.fileBlocks_subset_ownedBlocks inum member))

end SmallBlocks

theorem inodeDirents_length_le (img : Image) (inum : Nat) :
    (inodeDirents img inum).length ≤ 4480 := by
  have direct := List.length_filter_le (fun blknum => decide (blknum ≠ 0))
    ((List.range 12).map (img.inodeAddr inum))
  have indirect : (indirectBlocks img inum).length ≤ 128 := by
    unfold indirectBlocks
    split_ifs
    · exact Nat.zero_le _
    · refine (List.length_filter_le _ _).trans ?_
      rw [List.length_map, List.length_range]
  rw [List.length_map, List.length_range] at direct
  have blocks : (dataBlocks img inum).length ≤ 140 := by
    rw [dataBlocks, Image.directAddrs, List.length_append]
    omega
  unfold inodeDirents
  split_ifs
  · exact (length_flatMap_le (blockDirents img) _ 32
      (by simp [blockDirents])).trans (Nat.mul_le_mul_right 32 blocks)
  · exact Nat.zero_le _

/-- There are far fewer than `2 ^ 31` records, so no counter wraps. -/
theorem allRecords_length_le {img : Image}
    (narrow : ∀ inum, img.InUse inum → inum < 65536) :
    (allRecords img img.sbNinodes).length ≤ 293601280 := by
  have records : allRecords img img.sbNinodes =
      ((List.range img.sbNinodes).filter fun inum =>
        decide (Scanned img inum)).flatMap fun inum =>
          (inodeDirents img inum).map (Prod.mk (inum % 65536)) := by
    rw [flatMap_filter]
    rfl
  have subset : ((List.range img.sbNinodes).filter fun inum =>
      decide (Scanned img inum)) ⊆ List.range 65536 := by
    intro inum member
    rw [List.mem_filter, List.mem_range, decide_eq_true_eq] at member
    exact List.mem_range.mpr
      (narrow inum ((scanned_iff_inUse member.1).mp member.2))
  have few := (List.subperm_of_subset (List.nodup_range.filter _)
    subset).length_le
  rw [List.length_range] at few
  rw [records]
  refine (length_flatMap_le _ _ 4480 fun inum _ => ?_).trans
    (Nat.mul_le_mul_right 4480 few)
  rw [List.length_map]
  exact inodeDirents_length_le img inum

namespace Exact

variable {img : Image}

theorem indirect_lt (exact : Exact img) {inum : Nat}
    (inUse : img.InUse inum) : img.inodeAddr inum 12 < 8388608 :=
  inodeAddr_lt_of_ownedBlocks (exact.small inum inUse)

theorem fileBlocks_lt (exact : Exact img) {inum blknum : Nat}
    (inUse : img.InUse inum) (member : blknum ∈ img.fileBlocks inum) :
    blknum < 8388608 :=
  exact.small inum inUse blknum (img.fileBlocks_subset_ownedBlocks inum member)

theorem inodeDirents_eq (exact : Exact img) {inum : Nat}
    (directory : img.IsDirectory inum) :
    inodeDirents img inum = img.directoryDirents inum :=
  inodeDirents_eq_of_lt (exact.small inum directory.1) directory.2

/-- The entries read by the first pass are the directory slots. -/
theorem allRecords_eq (exact : Exact img) :
    allRecords img img.sbNinodes = img.slots := by
  unfold allRecords Image.slots Image.inUseInodes
  rw [List.filter_filter]
  simp only [← Bool.decide_and]
  rw [flatMap_filter]
  apply List.flatMap_congr
  intro inum member
  have below := List.mem_range.mp member
  unfold inodeRecords
  by_cases scanned : Scanned img inum
  · have inUse := (scanned_iff_inUse below).mp scanned
    rw [if_pos scanned, Nat.mod_eq_of_lt (exact.narrow inum inUse)]
    by_cases directory : img.inodeType inum = 1
    · rw [if_pos ⟨directory, inUse⟩,
        exact.inodeDirents_eq ⟨inUse, directory⟩]
    · rw [if_neg fun both => directory both.1, inodeDirents,
        if_neg directory, List.map_nil]
  · rw [if_neg scanned, if_neg fun both =>
      scanned ((scanned_iff_inUse below).mpr both.2)]

end Exact

section Tables

variable {img : Image} {g : Globals} {scan : Scan}

/-- The `.` entries of the root, which the checker counts as references. -/
def rootSelf (slot : Nat × Dirent) : Bool := slot.2.isSelf && slot.1 == 1

/-- They are the `.` entries of its directory. -/
theorem countP_rootSelf (root : img.IsDirectory 1) :
    img.slots.countP rootSelf =
      (img.directoryDirents 1).countP Dirent.isSelf := by
  have nodup : (img.inUseInodes.filter fun inum =>
      decide (img.inodeType inum = 1)).Nodup :=
    (List.nodup_range.filter _).filter _
  have member : 1 ∈ img.inUseInodes.filter fun inum =>
      decide (img.inodeType inum = 1) :=
    List.mem_filter.mpr ⟨img.mem_inUseInodes.mpr root.1, by simpa using root.2⟩
  have counted := countP_flatMap_eq img.directoryDirents
    (fun holder entry => entry.isSelf && holder == 1) nodup member
    (by intro other _ different; simp [different])
  simp only [beq_self_eq_true, Bool.and_true] at counted
  exact counted

theorem isDirectory_of_countP_rootSelf
    (counted : img.slots.countP rootSelf ≠ 0) : img.IsDirectory 1 := by
  obtain ⟨⟨holder, entry⟩, member, self⟩ :=
    List.countP_pos_iff.mp (Nat.pos_of_ne_zero counted)
  simp only [rootSelf, Bool.and_eq_true, beq_iff_eq] at self
  exact self.2 ▸ (img.mem_slots.mp member).1

theorem countP_refersTo (slots : List (Nat × Dirent)) (inum : Nat) :
    slots.countP (refersTo inum) =
      (slots.filter fun slot => slot.2.isChild).countP
          (fun slot => slot.2.inum == inum) +
        if inum = 1 then slots.countP rootSelf else 0 := by
  unfold refersTo
  rw [countP_or_of_disjoint, List.countP_filter]
  · congr 1
    · exact List.countP_congr fun slot _ => by rw [Bool.and_comm]
    · by_cases root : inum = 1
      · simp only [root, beq_self_eq_true, Bool.and_true, if_true]
        rfl
      · simp [root]
  · intro slot _ child
    simp only [Dirent.isChild, Bool.and_eq_true, bne_iff_ne, ne_eq,
      Bool.not_eq_eq_eq_not, Bool.not_true] at child
    simp [Dirent.isSelf, child.1.1.2]

/-- The reference counter of an inode is the number of entries naming it, plus
the `.` entries of the root in the case of the root. -/
theorem inodeindirent_eq (exact : Exact img)
    (ninodes : g.ninodes = img.sbNinodes) (described : Describes img g scan)
    (inum : Nat) :
    scan.inodeindirent inum =
      ((img.entriesNaming inum +
        if inum = 1 then img.slots.countP rootSelf else 0 : Nat) : Int) := by
  have bound := (List.countP_le_length (p := refersTo inum)).trans
    (allRecords_length_le exact.narrow)
  rw [described.references, ninodes,
    Int.bmod_eq_of_le_mul_two (by omega) (by omega), exact.allRecords_eq,
    countP_refersTo]
  rfl

/-- The recorded `..` of a directory with a `..` entry is named by one. -/
theorem dotdotNames_parentdotdot (exact : Exact img)
    (ninodes : g.ninodes = img.sbNinodes) (described : Describes img g scan)
    {inum parent : Nat} (directory : img.IsDirectory inum)
    (named : img.DotdotNames inum parent) :
    ∃ recorded, img.DotdotNames inum recorded ∧
      scan.parentdotdot inum = recorded := by
  obtain ⟨entry, located, isParent, -⟩ := named
  have written : (inum, (entry.inum : Int)) ∈
      img.slots.filterMap dotdotWrite := by
    refine List.mem_filterMap.mpr ⟨(inum, entry), ?_, by simp [dotdotWrite, isParent]⟩
    exact img.mem_slots.mpr ⟨directory, located⟩
  have recorded := applyWrites_mem_of_mem (fun _ => -1) written
  rw [← exact.allRecords_eq, ← ninodes, ← described.dotdot] at recorded
  obtain ⟨⟨holder, other⟩, slot, writes⟩ := List.mem_filterMap.mp recorded
  rw [ninodes, exact.allRecords_eq] at slot
  unfold dotdotWrite at writes
  split_ifs at writes with otherParent
  simp only [Option.some.injEq, Prod.mk.injEq] at writes
  obtain ⟨rfl, otherEq⟩ := writes
  exact ⟨other.inum, ⟨other, (img.mem_slots.mp slot).2, otherParent, rfl⟩,
    otherEq.symm⟩

/-- Only in-use directories have a recorded `..`. -/
theorem isDirectory_of_parentdotdot (exact : Exact img)
    (ninodes : g.ninodes = img.sbNinodes) (described : Describes img g scan)
    {inum : Nat} (recorded : scan.parentdotdot inum ≠ -1) :
    img.IsDirectory inum := by
  by_contra other
  apply recorded
  rw [described.dotdot, ninodes, exact.allRecords_eq]
  apply applyWrites_of_forall_ne
  rintro write written rfl
  obtain ⟨⟨holder, entry⟩, slot, writes⟩ := List.mem_filterMap.mp written
  unfold dotdotWrite at writes
  split_ifs at writes
  rw [Option.some.injEq] at writes
  subst writes
  exact other (img.mem_slots.mp slot).1

/-- The recorded holder of a directory named by an entry holds such an
entry. -/
theorem holds_parententry (exact : Exact img)
    (ninodes : g.ninodes = img.sbNinodes) (described : Describes img g scan)
    {holder inum : Nat} (directory : img.inodeType inum = 1)
    (held : img.Holds holder inum) :
    ∃ recorded, img.Holds recorded inum ∧
      scan.parententry inum = recorded := by
  obtain ⟨holderDirectory, entry, located, child, rfl⟩ :=
    img.holds_iff.mp held
  have written : (entry.inum, (holder : Int)) ∈
      img.slots.filterMap (entryWrite img) := by
    refine List.mem_filterMap.mpr ⟨(holder, entry), ?_,
      by simp [entryWrite, child, directory,
        bmod_of_lt (exact.narrow holder holderDirectory.1)]⟩
    exact img.mem_slots.mpr ⟨holderDirectory, located⟩
  have recorded := applyWrites_mem_of_mem (fun _ => -1) written
  rw [← exact.allRecords_eq, ← ninodes, ← described.entry] at recorded
  obtain ⟨⟨other, otherEntry⟩, slot, writes⟩ := List.mem_filterMap.mp recorded
  rw [ninodes, exact.allRecords_eq] at slot
  unfold entryWrite at writes
  split_ifs at writes with otherChild
  simp only [Option.some.injEq, Prod.mk.injEq] at writes
  obtain ⟨otherDirectory, otherLocated⟩ := img.mem_slots.mp slot
  rw [bmod_of_lt (exact.narrow other otherDirectory.1)] at writes
  exact ⟨other, img.holds_iff.mpr ⟨otherDirectory, otherEntry, otherLocated,
    otherChild.1, writes.1⟩, writes.2.symm⟩

theorem usedinode_iff (ninodes : g.ninodes = img.sbNinodes)
    (described : Describes img g scan) {inum : Nat} :
    scan.usedinode inum = true ↔ img.InUse inum := by
  rw [described.used, ninodes]
  constructor
  · rintro ⟨below, scanned⟩
    exact (scanned_iff_inUse below).mp scanned
  · intro inUse
    exact ⟨inUse.2.1, (scanned_iff_inUse inUse.2.1).mpr inUse⟩

end Tables

/-- What a completed first pass establishes. -/
structure Completed (img : Image) (g : Globals) (scan : Scan) : Prop where
  globals : Matches img g
  sound : ∀ inum < img.sbNinodes, InodeSound img g inum
  described : Describes img g scan
  exact : Exact img

namespace Completed

variable {img : Image} {g : Globals} {scan : Scan}
  (completed : Completed img g scan)

include completed

theorem formed {inum : Nat} (directory : img.IsDirectory inum) :
    (img.directoryDirents inum).countP Dirent.isSelf = 1 ∧
      (img.directoryDirents inum).countP Dirent.isParent = 1 := by
  have inUse := directory.1
  rw [← completed.exact.inodeDirents_eq directory]
  exact (completed.sound inum inUse.2.1).formed
    ((scanned_iff_inUse inUse.2.1).mpr inUse) directory.2

/-- Apart from the own `.` entry of a root directory, the references counted
are the entries naming an inode. -/
theorem references_eq (inum : Nat) :
    scan.inodeindirent inum = ((img.entriesNaming inum +
      if inum = 1 ∧ img.IsDirectory 1 then 1 else 0 : Nat) : Int) := by
  rw [inodeindirent_eq completed.exact completed.globals.ninodes
    completed.described]
  by_cases root : inum = 1
  · subst root
    by_cases directory : img.IsDirectory 1
    · rw [if_pos rfl, if_pos ⟨rfl, directory⟩, countP_rootSelf directory,
        (completed.formed directory).1]
    · have none : img.slots.countP rootSelf = 0 := by
        by_contra counted
        exact directory (isDirectory_of_countP_rootSelf counted)
      rw [if_pos rfl, if_neg fun both => directory both.2, none]
  · rw [if_neg root, if_neg fun both => root both.1]

/-- The `..` of a directory is the recorded one. -/
theorem parentdotdot_eq {inum parent : Nat} (directory : img.IsDirectory inum)
    (named : img.DotdotNames inum parent) :
    scan.parentdotdot inum = parent := by
  obtain ⟨recorded, names, recordedEq⟩ := dotdotNames_parentdotdot
    completed.exact completed.globals.ninodes completed.described directory
    named
  rw [recordedEq, names.unique (completed.formed directory).2 named]

/-- The holder of the one entry of a directory is the recorded one. -/
theorem parententry_eq {inum holder : Nat} (directory : img.IsDirectory inum)
    (once : img.entriesNaming inum = 1) (held : img.Holds holder inum) :
    scan.parententry inum = holder := by
  obtain ⟨recorded, holds, recordedEq⟩ := holds_parententry completed.exact
    completed.globals.ninodes completed.described directory.2 held
  rw [recordedEq, holds.unique once held]

end Completed

end LinuxKernelDev.Fsck
