import LinuxKernelDev.FsckDirectoryTree

/-!
# The root of an accepted image

No check of the checker asks for a root directory.  As long as some inode is in
use, the root is there all the same: the inode has to be named by an entry, and
the chain of parents from the directory of that entry has to end in inode 1.
An image without any inode in use is accepted without a root.

The entries of a root directory with a block from `2 ^ 23` on are not checked,
because the checker reads other bytes in place of that block.
-/

namespace LinuxKernelDev

open LoopRules

/-- A directory has `.` and `..` entries, and they name the root. -/
structure Image.RootEntries (img : Image) : Prop where
  self : ∃ entry ∈ img.directoryDirents 1, entry.isSelf = true
  parent : ∃ entry ∈ img.directoryDirents 1, entry.isParent = true
  selfNames : ∀ entry ∈ img.directoryDirents 1,
    entry.isSelf = true → entry.inum = 1
  parentNames : ∀ entry ∈ img.directoryDirents 1,
    entry.isParent = true → entry.inum = 1

/-- Inode 1 is in the inode table and an in-use directory, whose `.` and `..`
name inode 1. -/
structure Image.HasRoot (img : Image) : Prop where
  inTable : 1 < img.sbNinodes
  directory : img.IsDirectory 1
  entries : img.RootEntries

namespace Fsck

variable {img : Image} {g : Globals} {scan : Scan}

/-- The entries of a root directory that the checker reads in the right
place. -/
theorem Accepts.rootEntries (accepts : Accepts img g scan)
    (root : img.IsDirectory 1)
    (small : ∀ blknum ∈ img.ownedBlocks 1, blknum < 8388608) :
    img.RootEntries := by
  have read := inodeDirents_eq_of_lt small root.2
  obtain ⟨self, parent⟩ := accepts.read_formed root
  constructor
  · rw [← read]
    exact List.countP_pos_iff.mp (by omega)
  · rw [← read]
    exact List.countP_pos_iff.mp (by omega)
  · intro entry member
    rw [← read] at member
    exact accepts.read_self_inum root member
  · intro entry member
    rw [← read] at member
    exact accepts.root_parent_inum root member

/-- An accepted image has a root exactly if some inode is in use and, in case
the root directory has a block from `2 ^ 23` on, its entries are right. -/
theorem hasRoot_iff_of_accepted (img : Image) (stderr : String)
    (accepted : myfsck img = .exited 0 stderr) :
    img.HasRoot ↔ (∃ inum, img.InUse inum) ∧
      ((∀ blknum ∈ img.ownedBlocks 1, blknum < 8388608) ∨
        img.RootEntries) := by
  obtain ⟨g, scan, -, accepts⟩ := exists_accepts accepted
  constructor
  · intro hasRoot
    exact ⟨⟨1, hasRoot.directory.1⟩, Or.inr hasRoot.entries⟩
  · rintro ⟨⟨inum, inUse⟩, blocks⟩
    have root := accepts.root_isDirectory inUse
    refine ⟨root.1.2.1, root, ?_⟩
    rcases blocks with small | entries
    · exact accepts.rootEntries root small
    · exact entries

theorem hasRoot_sample :
    myfsck Image.sample = .exited 0 "" ∧ Image.sample.HasRoot := by
  have accepted : myfsck Image.sample = .exited 0 "" := by decide +kernel
  exact ⟨accepted, (hasRoot_iff_of_accepted Image.sample "" accepted).mpr
    ⟨⟨1, by decide +kernel⟩, Or.inl (by decide +kernel)⟩⟩

/-- A superblock for seven blocks and the given number of inodes, followed by
zeros. -/
def unusedTable (ninodes : UInt8) : Image where
  stSize := 3584
  byte offset :=
    (([(512, 7), (516, 3), (520, ninodes)] : List (Nat × UInt8)).lookup
      offset).getD 0

/-- The checker accepts an inode table without a slot for the root, and one in
which the root is free. -/
theorem rootless_accepted :
    (myfsck (unusedTable 1) = .exited 0 "" ∧ ¬(unusedTable 1).HasRoot) ∧
      myfsck (unusedTable 4) = .exited 0 "" ∧ ¬(unusedTable 4).HasRoot := by
  have short : ¬1 < (unusedTable 1).sbNinodes := by decide +kernel
  have free : ¬(unusedTable 4).IsDirectory 1 := by decide +kernel
  exact ⟨⟨by decide +kernel, fun hasRoot => short hasRoot.inTable⟩,
    by decide +kernel, fun hasRoot => free hasRoot.directory⟩

end Fsck

end LinuxKernelDev
