import LinuxKernelDev.FsckReferences
import Mathlib.Logic.Relation

/-!
# Consistent images are accepted

A consistent image of at most `2 ^ 23` blocks passes every test of the checker.
No load or array access of the run fails, and the walk along `..` entries
reaches the root from every directory.
-/

namespace LinuxKernelDev

/-- A consistent file system: its blocks, its link counts and its directory
tree. -/
structure Image.Consistent (img : Image) : Prop where
  superblock : img.sbSize = img.sbNblocks + (img.sbNinodes / 8 + 1) +
    (img.sbSize / 4096 + 1) + 2
  types : ∀ inum < img.sbNinodes, img.inodeType inum = 0 ∨
    img.inodeType inum = 1 ∨ img.inodeType inum = 2 ∨ img.inodeType inum = 3
  claimsInside : ∀ blknum ∈ img.blockClaims,
    img.dataStart ≤ blknum ∧ blknum < img.sbSize
  claimsNodup : img.blockClaims.Nodup
  bitmap : ∀ blknum, img.dataStart ≤ blknum → blknum < img.sbSize →
    (img.bitmapBit img.sbNinodes blknum = true ↔ blknum ∈ img.blockClaims)
  sizes : ∀ inum, img.InUse inum →
    Image.SizeFits (img.inodeSize inum) (img.fileBlocks inum).length
  selfOnce : ∀ inum, img.IsDirectory inum →
    (img.directoryDirents inum).countP Dirent.isSelf = 1
  selfInum : ∀ inum, img.IsDirectory inum →
    ∀ entry ∈ img.directoryDirents inum, entry.isSelf = true →
      entry.inum = inum
  parentOnce : ∀ inum, img.IsDirectory inum →
    (img.directoryDirents inum).countP Dirent.isParent = 1
  entriesInUse : ∀ entry ∈ img.entries, img.InUse entry.2.inum
  named : ∀ inum, img.InUse inum → inum ≠ 1 → img.entriesNaming inum ≠ 0
  nlinks : ∀ inum, img.InUse inum → img.inodeType inum = 2 →
    img.inodeNlink inum = img.entriesNaming inum
  namedOnce : ∀ inum, img.IsDirectory inum → inum ≠ 1 →
    img.entriesNaming inum = 1
  parentHolds : ∀ inum, img.IsDirectory inum → inum ≠ 1 →
    ∀ parent, img.DotdotNames inum parent → img.Holds parent inum
  root : img.IsDirectory 1
  rootParent : img.DotdotNames 1 1
  rootUnnamed : img.entriesNaming 1 = 0
  reachable : ∀ inum, img.IsDirectory inum →
    Relation.ReflTransGen img.Holds 1 inum

namespace Fsck

open LoopRules ParentChain

/-- The globals computed from a superblock with no wrapping. -/
def globals (img : Image) : Globals :=
  ⟨img.sbSize, img.sbNblocks, img.sbNinodes, img.dataStart, img.sbSize⟩

section Layout

variable {size nblocks ninodes : Nat}
  (superblock : size = nblocks + (ninodes / 8 + 1) + (size / 4096 + 1) + 2)

include superblock

theorem inode_end_le {inum offset length : Nat} (below : inum < ninodes)
    (inside : offset + length ≤ 64) :
    Image.inodeOffset inum + offset + length ≤ size * 512 := by
  unfold Image.inodeOffset
  omega

theorem bitmap_end_le {blknum : Nat} (below : blknum < size) :
    Image.bitmapOffset ninodes blknum + 1 ≤ size * 512 := by
  unfold Image.bitmapOffset
  omega

omit superblock in
theorem block_end_le {blknum offset length : Nat} (below : blknum < size)
    (inside : offset + length ≤ 512) :
    blknum * 512 + offset + length ≤ size * 512 := by
  omega

end Layout

section Complete

variable {img : Image} (consistent : img.Consistent)
  (small : img.sbSize ≤ 8388608) (whole : img.sbSize * 512 ≤ img.stSize)

include consistent small

theorem checkSize_globals :
    checkSize img.sbSize img.sbNblocks img.sbNinodes = .ok (globals img) := by
  have equation := consistent.superblock
  rw [checkSize_eq_ok_iff]
  unfold globals Image.dataStart
  have start : (img.sbNinodes / 8 + 1 + (img.sbSize / 4096 + 1) + 2) %
      4294967296 = img.sbNinodes / 8 + 1 + (img.sbSize / 4096 + 1) + 2 :=
    Nat.mod_eq_of_lt (by omega)
  rw [start, Nat.mod_eq_of_lt (by omega)]
  exact ⟨by omega, rfl⟩

theorem tableLen_globals : (globals img).tableLen = img.sbNinodes + 1 := by
  have equation := consistent.superblock
  simp only [Globals.tableLen, globals]
  exact Nat.mod_eq_of_lt (by omega)

omit consistent in
theorem visitedLen_globals : (globals img).visitedLen = img.sbSize + 1 := by
  simp only [Globals.visitedLen, globals]
  exact Nat.mod_eq_of_lt (by omega)

omit consistent small in
theorem mem_blockClaims {inum blknum : Nat} (inUse : img.InUse inum)
    (member : blknum ∈ img.ownedBlocks inum) : blknum ∈ img.blockClaims :=
  List.mem_flatMap.mpr ⟨inum, img.mem_inUseInodes.mpr inUse, member⟩

theorem exact_of_consistent : Exact img := by
  constructor
  · intro inum inUse
    by_cases root : inum = 1
    · omega
    · obtain ⟨holder, held⟩ := img.exists_holds_of_entriesNaming
        (consistent.named inum inUse root)
      obtain ⟨-, entry, located, -, rfl⟩ := img.holds_iff.mp held
      obtain ⟨blknum, -, read⟩ := List.mem_flatMap.mp located
      obtain ⟨index, -, rfl⟩ := List.mem_map.mp read
      exact img.word16_lt _
  · intro inum inUse blknum member
    have inside := consistent.claimsInside blknum
      (mem_blockClaims inUse member)
    omega

include whole

omit consistent small in
theorem maps_of_le {offset length : Nat}
    (inside : offset + length ≤ img.sbSize * 512) :
    img.Maps offset length := by
  replace inside := inside.trans whole
  clear whole
  unfold Image.Maps Image.mapped
  omega

omit small in
theorem maps_inode {inum length : Nat} (offset : Nat)
    (below : inum < img.sbNinodes) (inside : offset + length ≤ 64) :
    img.Maps (Image.inodeOffset inum + offset) length := by
  exact maps_of_le whole
    (inode_end_le consistent.superblock below inside)

theorem maps_block {blknum offset length : Nat}
    (claimed : blknum ∈ img.blockClaims) (inside : offset + length ≤ 512) :
    img.Maps (Image.blockOffset blknum + offset) length := by
  have range := consistent.claimsInside blknum claimed
  rw [blockOffset_of_lt (by omega)]
  exact maps_of_le whole (block_end_le range.2 inside)

omit small in
theorem maps_bitmap {blknum : Nat} (inside : blknum < img.sbSize) :
    img.Maps (Image.bitmapOffset img.sbNinodes blknum) 1 := by
  exact maps_of_le whole (bitmap_end_le consistent.superblock inside)

theorem blockOk_of_claimed {blknum : Nat}
    (claimed : blknum ∈ img.blockClaims) :
    BlockOk img (globals img) blknum := by
  obtain ⟨lower, upper⟩ := consistent.claimsInside blknum claimed
  refine ⟨lower, upper, ?_, maps_bitmap consistent whole upper,
    (consistent.bitmap blknum lower upper).mpr claimed⟩
  rw [visitedLen_globals small]
  omega

omit small whole in
theorem inUse_of_isChild {inum : Nat} {entry : Dirent}
    (directory : img.IsDirectory inum)
    (member : entry ∈ img.directoryDirents inum) (child : entry.isChild = true) :
    img.InUse entry.inum := by
  apply consistent.entriesInUse (inum, entry)
  exact List.mem_filter.mpr ⟨img.mem_slots.mpr ⟨directory, member⟩, child⟩

/-- Every entry of a directory passes the test of the checker. -/
theorem direntOk_of_consistent {inum : Nat} {entry : Dirent}
    (directory : img.IsDirectory inum)
    (member : entry ∈ img.directoryDirents inum) :
    DirentOk img (globals img) inum entry := by
  intro used
  rw [tableLen_globals consistent small]
  have below := directory.1.2.1
  split_ifs with dot dotdot
  · have self : entry.isSelf = true := by simp [Dirent.isSelf, used, dot]
    exact ⟨consistent.selfInum inum directory entry member self,
      fun root => by omega⟩
  · omega
  · have child : entry.isChild = true := by
      simp [Dirent.isChild, used, dot, dotdot]
    have inUse := inUse_of_isChild consistent directory member child
    exact ⟨by have := inUse.2.1; omega,
      maps_inode consistent whole 0 inUse.2.1 (by omega)⟩

theorem visitsOk_of_consistent {inum : Nat} (inUse : img.InUse inum) :
    ∀ visit ∈ visits img inum,
      VisitOk img (globals img) (img.inodeType inum) (inum % 65536) visit := by
  intro visit visited
  have tables := exact_of_consistent consistent small
  have claimed : visit.blknum ∈ img.ownedBlocks inum := by
    rw [← claims_eq (tables.indirect_lt inUse), ← visits_map_blknum]
    exact List.mem_map.mpr ⟨visit, visited, rfl⟩
  have owned := mem_blockClaims inUse claimed
  refine ⟨blockOk_of_claimed consistent small whole owned,
    fun data type index indexLt => ⟨?_, ?_⟩⟩
  · exact maps_block consistent small whole owned (by omega)
  · have directory : img.IsDirectory inum := ⟨inUse, type⟩
    rw [Nat.mod_eq_of_lt (tables.narrow inum inUse)]
    apply direntOk_of_consistent consistent small whole directory
    have block : visit.blknum ∈ dataBlocks img inum := by
      unfold visits indirectVisits at visited
      unfold dataBlocks
      rcases List.mem_append.mp visited with direct | indirect
      · obtain ⟨blknum, blknumMem, rfl⟩ := List.mem_map.mp direct
        exact List.mem_append_left _ blknumMem
      · split_ifs at indirect with hole
        · simp at indirect
        · rcases List.mem_cons.mp indirect with rfl | rest
          · simp at data
          · obtain ⟨blknum, blknumMem, rfl⟩ := List.mem_map.mp rest
            exact List.mem_append_right _ blknumMem
    rw [dataBlocks_eq (tables.indirect_lt inUse)] at block
    refine List.mem_flatMap.mpr ⟨visit.blknum, block, ?_⟩
    rw [← blockDirents_eq (tables.small inum inUse _ claimed)]
    exact List.mem_map.mpr ⟨index, List.mem_range.mpr indexLt, rfl⟩

theorem inodeSound_of_consistent {inum : Nat} (below : inum < img.sbNinodes) :
    InodeSound img (globals img) inum := by
  have tables := exact_of_consistent consistent small
  have inUseOf := (scanned_iff_inUse below).mp
  constructor
  · exact maps_inode consistent whole 0 below (by omega)
  · exact consistent.types inum below
  · intro scanned
    refine ⟨fun index indexLt => ?_, fun present index indexLt => ?_⟩
    · rw [Nat.add_assoc]
      exact maps_inode consistent whole _ below (by omega)
    · apply maps_block consistent small whole _ (by omega)
      exact mem_blockClaims (inUseOf scanned)
        (by simp [Image.ownedBlocks, present])
  · intro scanned
    exact visitsOk_of_consistent consistent small whole (inUseOf scanned)
  · intro scanned type
    have directory : img.IsDirectory inum := ⟨inUseOf scanned, type⟩
    rw [tables.inodeDirents_eq directory]
    exact ⟨consistent.selfOnce inum directory,
      consistent.parentOnce inum directory⟩
  · intro scanned
    exact maps_inode consistent whole _ below (by omega)
  · intro scanned
    have inUse := inUseOf scanned
    obtain ⟨none, some⟩ := consistent.sizes inum inUse
    rw [dataBlocks_eq (tables.indirect_lt inUse)]
    unfold SizeOk
    split_ifs with empty
    · exact none empty
    · exact some (by omega)
  · intro scanned
    rw [tableLen_globals consistent small]
    omega

omit whole

variable {scan : Scan} (described : Describes img (globals img) scan)

include described

theorem parentdotdot_of_names {inum parent : Nat}
    (directory : img.IsDirectory inum)
    (named : img.DotdotNames inum parent) :
    scan.parentdotdot inum = parent := by
  obtain ⟨recorded, names, recordedEq⟩ := dotdotNames_parentdotdot
    (exact_of_consistent consistent small) rfl described directory named
  rw [recordedEq, names.unique (consistent.parentOnce inum directory) named]

/-- A directory apart from the root is held by the directory it names. -/
theorem parent_tables {inum : Nat} (directory : img.IsDirectory inum)
    (notRoot : inum ≠ 1) :
    ∃ parent : Nat, img.Holds parent inum ∧
      scan.parentdotdot inum = parent ∧ scan.parententry inum = parent := by
  obtain ⟨parent, named⟩ :=
    img.exists_dotdotNames (consistent.parentOnce inum directory)
  have held := consistent.parentHolds inum directory notRoot parent named
  obtain ⟨recorded, holds, recordedEq⟩ := holds_parententry
    (exact_of_consistent consistent small) rfl described directory.2 held
  rw [holds.unique (consistent.namedOnce inum directory notRoot) held]
    at recordedEq
  exact ⟨parent, held, parentdotdot_of_names consistent small described
    directory named, recordedEq⟩

/-- The walk along `..` entries reaches the root from every directory. -/
theorem leadsTo_of_reachable {inum : Nat}
    (reached : Relation.ReflTransGen img.Holds 1 inum)
    (directory : img.IsDirectory inum) :
    ∃ steps, LeadsTo (dotdotParent (globals img).tableLen scan.parentdotdot)
      1 steps (inum : Int) := by
  induction reached with
  | refl => exact ⟨0, .root⟩
  | @tail holder inum _ held ih =>
      by_cases root : inum = 1
      · exact ⟨0, root ▸ .root⟩
      · obtain ⟨steps, leads⟩ := ih (img.holds_iff.mp held).1
        obtain ⟨parent, parentHolds, parentEq, -⟩ :=
          parent_tables consistent small described directory root
        obtain rfl := held.unique
          (consistent.namedOnce inum directory root) parentHolds
        refine ⟨steps + 1, .step (by omega) ?_ leads⟩
        have below := directory.1.2.1
        rw [dotdotParent_eq_some_iff, tableLen_globals consistent small,
          Int.toNat_natCast, parentEq]
        exact ⟨⟨by omega, by omega, by omega⟩, rfl⟩

theorem parentOk_of_consistent {inum : Nat}
    (directory : img.IsDirectory inum) :
    ParentOk (globals img) scan inum := by
  have narrow := (exact_of_consistent consistent small).narrow inum directory.1
  refine ⟨fun root => ?_, fun notRoot => ?_, ?_⟩
  · exact parentdotdot_of_names consistent small described consistent.root
      consistent.rootParent
  · obtain ⟨parent, -, dotdotEq, entryEq⟩ :=
      parent_tables consistent small described directory notRoot
    exact ⟨by omega, by omega⟩
  · rw [Int.bmod_eq_of_le_mul_two (by omega) (by omega)]
    exact leadsTo_of_reachable consistent small described
      (consistent.reachable inum directory) directory

theorem references_of_consistent (inum : Nat) :
    scan.inodeindirent inum =
      ((if inum = 1 then 1 else img.entriesNaming inum : Nat) : Int) := by
  rw [inodeindirent_eq (exact_of_consistent consistent small) rfl described,
    countP_rootSelf consistent.root, consistent.selfOnce 1 consistent.root]
  by_cases root : inum = 1
  · simp [root, consistent.rootUnnamed]
  · simp [root]

include whole

theorem referencesOk_of_consistent {inum : Nat} (positive : 1 ≤ inum)
    (below : inum < img.sbNinodes) :
    ReferencesOk img (globals img) scan inum := by
  have used : scan.usedinode inum = true ↔ img.InUse inum := by
    rw [described.used]
    exact (and_iff_right below).trans (scanned_iff_inUse below)
  have inUseOf : img.inodeType inum ≠ 0 → img.InUse inum :=
    fun nonzero => ⟨positive, below, nonzero⟩
  have references := references_of_consistent consistent small described inum
  constructor
  · rw [tableLen_globals consistent small]
    omega
  · intro isUsed
    rw [references]
    split_ifs with root
    · omega
    · have named := consistent.named inum (used.mp isUsed) root
      omega
  · intro unused
    have free : ¬img.InUse inum := by
      rw [← used, unused]
      exact Bool.false_ne_true
    have notRoot : inum ≠ 1 := fun root => free (root ▸ consistent.root.1)
    rw [references, if_neg notRoot]
    by_contra named
    obtain ⟨holder, entry, member, -, rfl⟩ :=
      @Image.exists_holds_of_entriesNaming img inum (by omega)
    exact free (consistent.entriesInUse entry member)
  · exact maps_inode consistent whole 0 below (by omega)
  · intro file
    have inUse := inUseOf (by omega)
    refine ⟨maps_inode consistent whole _ below (by omega), ?_⟩
    rw [references, consistent.nlinks inum inUse file, if_neg]
    intro root
    have directory := consistent.root.2
    rw [root, directory] at file
    omega
  · intro type
    have directory : img.IsDirectory inum := ⟨inUseOf (by omega), type⟩
    rw [references]
    split_ifs with root
    · rfl
    · rw [consistent.namedOnce inum directory root]
      rfl
  · intro type
    exact parentOk_of_consistent consistent small described
      ⟨inUseOf (by omega), type⟩

end Complete

/-- All passes succeed on a consistent image. -/
theorem main_of_consistent {img : Image} (consistent : img.Consistent)
    (small : img.sbSize ≤ 8388608)
    (whole : img.sbSize * 512 ≤ img.stSize) : main img = .ok () := by
  have equation := consistent.superblock
  have claimsEq := allClaims_eq fun inum =>
    (exact_of_consistent consistent small).indirect_lt
  obtain ⟨scan, passed⟩ :=
    (@firstPass_succeeds_iff img (globals img)).mpr
      ⟨fun inum => inodeSound_of_consistent consistent small whole,
        claimsEq ▸ consistent.claimsNodup⟩
  have described := describes_of_firstPass passed
  refine main_eq_ok_iff.mpr ⟨by omega, globals img,
    checkSize_globals consistent small,
    helper_eq_ok_iff.mpr ⟨scan, passed, ?_, ?_⟩⟩
  · rw [bitmapPass_eq_ok_iff]
    intro blknum lower upper
    refine ⟨maps_bitmap consistent whole upper, fun marked => ⟨?_, ?_⟩⟩
    · rw [visitedLen_globals small]
      exact Nat.lt_succ_of_lt upper
    · have claimed := (consistent.bitmap blknum lower upper).mp marked
      exact (described.visited blknum).mpr (claimsEq ▸ claimed)
  · rw [referencePass_eq_ok_iff]
    intro inum positive below
    exact referencesOk_of_consistent consistent small whole described positive
      below

end Fsck

end LinuxKernelDev
