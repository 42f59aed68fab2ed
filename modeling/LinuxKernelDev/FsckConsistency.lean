import LinuxKernelDev.FsckCompleteness
import LinuxKernelDev.FsckDirectoryTree

/-!
# The checker decides consistency

On whole images of at most `2 ^ 23` blocks in which some inode is in use and no
entry names an inode number behind the inode table, the checker accepts exactly
the consistent images.  An entry naming the inode right behind the table, whose
number still indexes the arrays of the checker, is the one defect it overlooks.
-/

namespace LinuxKernelDev.Fsck

open LoopRules

namespace Accepts

variable {img : Image} {g : Globals} {scan : Scan}

theorem datblkstnum_eq (accepts : Accepts img g scan) :
    g.datblkstnum = img.dataStart :=
  (matches_of_eq accepts.globals).datblkstnum

/-- A used data block rules out that the layout equation only holds modulo
`2 ^ 32`. -/
theorem superblock_eq (accepts : Accepts img g scan)
    (layout : checkSize img.sbSize img.sbNblocks img.sbNinodes = .ok g)
    {blknum : Nat} (used : BlockOk img g blknum) :
    img.sbSize = img.sbNblocks + (img.sbNinodes / 8 + 1) +
      (img.sbSize / 4096 + 1) + 2 := by
  obtain ⟨equation, -⟩ := checkSize_eq_ok_iff.mp layout
  have start := accepts.datblkstnum_eq
  have narrow : img.sbNinodes < 4294967296 := img.word32_lt 520
  have wide : img.sbNblocks < 4294967296 := img.word32_lt 516
  have short : img.sbSize < 4294967296 := img.word32_lt 512
  obtain ⟨lower, upper, -⟩ := used
  rw [start] at lower
  rw [accepts.range] at upper
  unfold Image.dataStart at lower
  omega

theorem inUse_of_mem_entries (accepts : Accepts img g scan)
    (small : img.sbSize ≤ 8388608) {entry : Nat × Dirent}
    (member : entry ∈ img.entries) (inTable : entry.2.inum < img.sbNinodes) :
    img.InUse entry.2.inum := by
  have nonzero : entry.2.inum ≠ 0 := by
    have child := (List.mem_filter.mp member).2
    simp only [Dirent.isChild, Bool.and_eq_true, bne_iff_ne] at child
    exact child.1.1
  have named := img.entriesNaming_ne_zero_of_holds
    ⟨entry, member, rfl, rfl⟩
  by_contra free
  have unused : scan.usedinode entry.2.inum = false := by
    rw [← Bool.not_eq_true, accepts.used_iff]
    exact free
  have none := (accepts.references entry.2.inum (by omega) inTable).notFree
    unused
  rw [accepts.references_eq small] at none
  omega

/-- An accepted image is consistent if its entries stay in the inode table. -/
theorem consistent (accepts : Accepts img g scan)
    (layout : checkSize img.sbSize img.sbNblocks img.sbNinodes = .ok g)
    (small : img.sbSize ≤ 8388608) (inhabited : ∃ inum, img.InUse inum)
    (inTable : ∀ entry ∈ img.entries, entry.2.inum < img.sbNinodes) :
    img.Consistent := by
  obtain ⟨someInum, someInUse⟩ := inhabited
  have root := accepts.root_isDirectory someInUse
  obtain ⟨rootParent, rootNames⟩ :=
    img.exists_dotdotNames (accepts.formed small root).2
  have start := accepts.datblkstnum_eq
  have stop := accepts.range
  refine
    { superblock := ?_
      types := fun inum below => (accepts.sound inum below).typeOk
      claimsInside := fun blknum member => ?_
      claimsNodup := accepts.blockClaims_nodup small
      bitmap := fun blknum lower upper => accepts.bitmapBit_iff small
        (start.trans_le lower) (upper.trans_eq stop.symm)
      sizes := fun inum => accepts.sizeFits small
      selfOnce := fun inum directory => (accepts.formed small directory).1
      selfInum := fun inum directory entry =>
        accepts.self_inum small directory
      parentOnce := fun inum directory => (accepts.formed small directory).2
      entriesInUse := fun entry member =>
        accepts.inUse_of_mem_entries small member (inTable entry member)
      named := fun inum inUse notRoot => ?_
      nlinks := fun inum => accepts.nlink_eq small
      namedOnce := fun inum => accepts.entriesNaming_eq_one small
      parentHolds := fun inum directory notRoot parent names => ?_
      root := root
      rootParent := ?_
      rootUnnamed := accepts.entriesNaming_root small
      reachable := fun inum directory => accepts.reached small directory.1 }
  · obtain ⟨entry, located, -⟩ := rootNames
    obtain ⟨blknum, blknumMem, -⟩ := List.mem_flatMap.mp located
    exact accepts.superblock_eq layout (accepts.ownedBlocks_ok small root.1
      (img.fileBlocks_subset_ownedBlocks 1 blknumMem))
  · obtain ⟨lower, upper, -⟩ := accepts.blockClaims_ok small member
    exact ⟨start.symm.trans_le lower, upper.trans_eq stop⟩
  · rcases accepts.root_or_held small inUse with isRoot | ⟨holder, held⟩
    · exact absurd isRoot.1 notRoot
    · exact img.entriesNaming_ne_zero_of_holds held
  · obtain ⟨holder, held, -⟩ := accepts.exists_parent small directory notRoot
    rwa [accepts.holder_eq_dotdot small directory notRoot held names]
  · rwa [accepts.root_dotdotNames small root rootNames] at rootNames

end Accepts

/-- Acceptance is consistency. -/
theorem myfsck_eq_exited_zero_iff_consistent {img : Image}
    (small : img.sbSize ≤ 8388608) (whole : img.sbSize * 512 ≤ img.stSize)
    (inhabited : ∃ inum, img.InUse inum)
    (inTable : ∀ entry ∈ img.entries, entry.2.inum < img.sbNinodes) :
    myfsck img = .exited 0 "" ↔ img.Consistent := by
  constructor
  · intro accepted
    obtain ⟨g, scan, layout, accepts⟩ := exists_accepts accepted
    exact accepts.consistent layout small inhabited inTable
  · intro consistent
    exact myfsck_eq_exited_zero_iff.mpr
      ⟨main_of_consistent consistent small whole, rfl⟩

theorem sample_consistent : Image.sample.Consistent :=
  (myfsck_eq_exited_zero_iff_consistent (by decide +kernel) (by decide +kernel)
    ⟨1, by decide +kernel⟩ (by decide +kernel)).mp (by decide +kernel)

/-- A consistent image is never rejected: the checker exits with status 0 and
prints nothing.  The model has no limit on the stack, on which `helper` keeps its
arrays: one byte for each of `sbsize + 1` blocks and 14 bytes for each of
`ninodes + 1` inodes must fit there. -/
theorem accepted_of_consistent (img : Image) (small : img.sbSize ≤ 8388608)
    (whole : img.sbSize * 512 ≤ img.stSize) (consistent : img.Consistent) :
    myfsck img = .exited 0 "" :=
  myfsck_eq_exited_zero_iff.mpr
    ⟨main_of_consistent consistent small whole, rfl⟩

theorem accepted_sample :
    Image.sample.Consistent ∧ myfsck Image.sample = .exited 0 "" :=
  ⟨sample_consistent, accepted_of_consistent Image.sample (by decide +kernel)
    (by decide +kernel) sample_consistent⟩

end LinuxKernelDev.Fsck
