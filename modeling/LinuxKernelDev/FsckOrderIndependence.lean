import LinuxKernelDev.FsckDirectoryTree
import LinuxKernelDev.ImageReordering

/-!
# The verdict does not depend on the order of records

The scan of the checker keeps the last value written to its parent tables and
stops at the first fault, so the order of the records decides which state a run
passes through.  Exit status 0 does not depend on it: in an accepted image no
two writes of the scan compete, and the conditions of acceptance only speak
about the records that there are.
-/

namespace LinuxKernelDev.Fsck

open LoopRules

/-- Two images with the same tables in which the in-use inodes have the same
blocks, and their directories the same entries, in any order. -/
structure Rearranged (img other : Image) : Prop
    extends tables : Image.SameTables img other where
  direct : ∀ inum, img.InUse inum →
    (other.directAddrs inum).Perm (img.directAddrs inum)
  words : ∀ inum, img.InUse inum →
    (other.indirectAddrs inum).Perm (img.indirectAddrs inum)
  dirents : ∀ inum, img.IsDirectory inum → ∀ blknum ∈ img.fileBlocks inum,
    (other.direntsIn blknum).Perm (img.direntsIn blknum)

namespace Rearranged

variable {img other : Image} (rearranged : Rearranged img other)

include rearranged

theorem fileBlocks_perm {inum : Nat} (inUse : img.InUse inum) :
    (other.fileBlocks inum).Perm (img.fileBlocks inum) :=
  (rearranged.direct inum inUse).append (rearranged.words inum inUse)

theorem ownedBlocks_perm {inum : Nat} (inUse : img.InUse inum) :
    (other.ownedBlocks inum).Perm (img.ownedBlocks inum) := by
  unfold Image.ownedBlocks
  rw [rearranged.indirect inum inUse.2.1]
  refine (rearranged.direct inum inUse).append ?_
  split_ifs
  · exact .refl _
  · exact (rearranged.words inum inUse).cons _

theorem directoryDirents_perm {inum : Nat} (directory : img.IsDirectory inum) :
    (other.directoryDirents inum).Perm (img.directoryDirents inum) := by
  have blocks := rearranged.fileBlocks_perm directory.1
  exact blocks.flatMap fun blknum member =>
    rearranged.dirents inum directory blknum (blocks.mem_iff.mp member)

theorem inUseInodes_eq : other.inUseInodes = img.inUseInodes := by
  unfold Image.inUseInodes
  rw [rearranged.sbNinodes]
  simp only [rearranged.inUse_iff]

theorem blockClaims_perm : other.blockClaims.Perm img.blockClaims := by
  unfold Image.blockClaims
  rw [rearranged.inUseInodes_eq]
  exact .flatMap_left _ fun inum member =>
    rearranged.ownedBlocks_perm (img.mem_inUseInodes.mp member)

theorem slots_perm : other.slots.Perm img.slots := by
  unfold Image.slots
  rw [rearranged.inUseInodes_eq]
  have directories : (img.inUseInodes.filter fun inum =>
      decide (other.inodeType inum = 1)) =
        img.inUseInodes.filter fun inum => decide (img.inodeType inum = 1) :=
    List.filter_congr fun inum member => by
      have below := (img.mem_inUseInodes.mp member).2.1
      rw [rearranged.types inum below.le]
  rw [directories]
  refine .flatMap_left _ fun inum member => ?_
  obtain ⟨listed, directory⟩ := List.mem_filter.mp member
  exact (rearranged.directoryDirents_perm
    ⟨img.mem_inUseInodes.mp listed, by simpa using directory⟩).map _

theorem entriesNaming_eq (inum : Nat) :
    other.entriesNaming inum = img.entriesNaming inum :=
  (rearranged.slots_perm.filter _).countP_eq _

theorem holds_iff {holder inum : Nat} :
    other.Holds holder inum ↔ img.Holds holder inum := by
  unfold Image.Holds Image.entries
  simp only [(rearranged.slots_perm.filter _).mem_iff]

theorem dotdotNames_iff {inum parent : Nat}
    (directory : img.IsDirectory inum) :
    other.DotdotNames inum parent ↔ img.DotdotNames inum parent := by
  unfold Image.DotdotNames
  simp only [(rearranged.directoryDirents_perm directory).mem_iff]

theorem maps_iff {offset length : Nat} :
    other.Maps offset length ↔ img.Maps offset length := by
  unfold Image.Maps Image.mapped
  rw [rearranged.stSize]

theorem scanned_iff {inum : Nat} (below : inum < img.sbNinodes) :
    Scanned other inum ↔ Scanned img inum := by
  unfold Scanned
  rw [rearranged.types inum below.le]

theorem globals_matches {g : Globals} (globals : Matches img g) :
    Matches other g where
  sbsize := globals.sbsize.trans rearranged.sbSize.symm
  ninodes := globals.ninodes.trans rearranged.sbNinodes.symm
  datblkstnum := globals.datblkstnum.trans rearranged.dataStart.symm
  datblkednum := globals.datblkednum.trans rearranged.sbSize.symm

theorem visits_perm {inum : Nat} (inUse : img.InUse inum)
    (indirect : img.inodeAddr inum 12 < 8388608) :
    (visits other inum).Perm (visits img inum) := by
  have sameAddr := rearranged.indirect inum inUse.2.1
  unfold visits indirectVisits
  rw [indirectBlocks_eq indirect, indirectBlocks_eq (sameAddr ▸ indirect),
    sameAddr]
  refine ((rearranged.direct inum inUse).map _).append ?_
  split_ifs
  · exact .refl _
  · exact ((rearranged.words inum inUse).map _).cons _

theorem exact (tables : Exact img) : Exact other where
  narrow inum inUse := tables.narrow inum (rearranged.inUse_iff.mp inUse)
  small inum inUse blknum member := by
    have inUse := rearranged.inUse_iff.mp inUse
    exact tables.small inum inUse blknum
      ((rearranged.ownedBlocks_perm inUse).mem_iff.mp member)

theorem direntOk_iff {g : Globals} {currinodenum : Nat} {entry : Dirent} :
    DirentOk other g currinodenum entry ↔
      DirentOk img g currinodenum entry := by
  unfold DirentOk
  simp only [rearranged.maps_iff]

theorem blockOk {g : Globals} (globals : Matches img g) {blknum : Nat}
    (ok : BlockOk img g blknum) : BlockOk other g blknum := by
  obtain ⟨lower, upper, visitable, mapped, marked⟩ := ok
  refine ⟨lower, upper, visitable, rearranged.maps_iff.mpr mapped, ?_⟩
  rw [globals.ninodes] at marked ⊢
  rwa [rearranged.bitmap blknum (globals.inDataRange_iff.mpr ⟨lower, upper⟩)]

/-- The entries of a block of a directory pass the test of the checker in any
order. -/
theorem direntsOk {g : Globals} (tables : Exact img)
    {inum currinodenum blknum : Nat} (directory : img.IsDirectory inum)
    (owned : blknum ∈ img.fileBlocks inum)
    (ok : DirentsOk img g currinodenum blknum) :
    DirentsOk other g currinodenum blknum := by
  intro index below
  refine ⟨rearranged.maps_iff.mpr (ok index below).1,
    rearranged.direntOk_iff.mpr ?_⟩
  have small := tables.fileBlocks_lt directory.1 owned
  have read : other.blockDirent blknum index ∈ blockDirents other blknum :=
    List.mem_map.mpr ⟨index, List.mem_range.mpr below, rfl⟩
  rw [blockDirents_eq small,
    (rearranged.dirents inum directory blknum owned).mem_iff,
    ← blockDirents_eq small] at read
  obtain ⟨place, placeMem, sameEntry⟩ := List.mem_map.mp read
  rw [← sameEntry]
  exact (ok place (List.mem_range.mp placeMem)).2

theorem inodeSound {g : Globals} (globals : Matches img g)
    (tables : Exact img) {inum : Nat} (below : inum < img.sbNinodes)
    (sound : InodeSound img g inum) : InodeSound other g inum := by
  have type := rearranged.types inum below.le
  have scannedOf := (rearranged.scanned_iff below).mp
  have inUseOf : Scanned other inum → img.InUse inum := fun scanned =>
    (scanned_iff_inUse below).mp (scannedOf scanned)
  have sameAddr := rearranged.indirect inum below
  constructor
  · exact rearranged.maps_iff.mpr sound.typeMapped
  · rw [type]
    exact sound.typeOk
  · intro scanned
    obtain ⟨direct, indirect⟩ := sound.addrsMapped (scannedOf scanned)
    rw [AddrsMapped, sameAddr]
    exact ⟨fun index bound => rearranged.maps_iff.mpr (direct index bound),
      fun present index bound =>
        rearranged.maps_iff.mpr (indirect present index bound)⟩
  · intro scanned visit member
    have inUse := inUseOf scanned
    have indirect := tables.indirect_lt inUse
    have visited := (rearranged.visits_perm inUse indirect).mem_iff.mp member
    obtain ⟨claimed, traversed⟩ :=
      sound.visitsOk (scannedOf scanned) visit visited
    rw [type]
    refine ⟨rearranged.blockOk globals claimed, fun data directory => ?_⟩
    refine rearranged.direntsOk tables ⟨inUse, directory⟩ ?_
      (traversed data directory)
    rw [← dataBlocks_eq indirect]
    exact mem_dataBlocks_of_mem_visits visited data
  · intro scanned directory
    have isDirectory : img.IsDirectory inum :=
      ⟨inUseOf scanned, type ▸ directory⟩
    rw [(rearranged.exact tables).inodeDirents_eq
      (rearranged.isDirectory_iff.mpr isDirectory),
      (rearranged.directoryDirents_perm isDirectory).countP_eq,
      (rearranged.directoryDirents_perm isDirectory).countP_eq,
      ← tables.inodeDirents_eq isDirectory]
    exact sound.formed (scannedOf scanned) isDirectory.2
  · exact fun scanned =>
      rearranged.maps_iff.mpr (sound.sizeMapped (scannedOf scanned))
  · intro scanned
    have inUse := inUseOf scanned
    have indirect := tables.indirect_lt inUse
    rw [rearranged.sizes inum below, dataBlocks_eq (sameAddr ▸ indirect),
      (rearranged.fileBlocks_perm inUse).length_eq, ← dataBlocks_eq indirect]
    exact sound.sizeOk (scannedOf scanned)
  · exact fun scanned => sound.bound (scannedOf scanned)

end Rearranged

section Tables

/-- The tables of the first pass do not depend on the order of the records. -/
structure SameScans (img : Image) (scan other : Scan) : Prop where
  visited : other.blkvisited = scan.blkvisited
  used : other.usedinode = scan.usedinode
  references : other.inodeindirent = scan.inodeindirent
  dotdot : other.parentdotdot = scan.parentdotdot
  entry : ∀ inum, img.IsDirectory inum → inum ≠ 1 →
    other.parententry inum = scan.parententry inum

variable {img other : Image} {g : Globals} {scan otherScan : Scan}

theorem Accepts.sameScans (accepts : Accepts img g scan)
    (small : img.sbSize ≤ 8388608) (rearranged : Rearranged img other)
    (tables : Completed other g otherScan) :
    SameScans img scan otherScan := by
  have completed := accepts.completed small
  have ninodes := completed.globals.ninodes
  refine ⟨?_, ?_, ?_, ?_, ?_⟩
  · funext blknum
    rw [Bool.eq_iff_iff, tables.described.visited, accepts.described.visited,
      tables.globals.ninodes, allClaims_eq fun inum => tables.exact.indirect_lt,
      rearranged.sbNinodes, accepts.allClaims_eq_blockClaims small]
    exact rearranged.blockClaims_perm.mem_iff
  · funext inum
    rw [Bool.eq_iff_iff, accepts.used_iff,
      usedinode_iff tables.globals.ninodes tables.described]
    exact rearranged.inUse_iff
  · funext inum
    rw [tables.references_eq, accepts.references_eq small,
      rearranged.entriesNaming_eq]
    simp only [rearranged.isDirectory_iff]
  · funext inum
    by_cases directory : img.IsDirectory inum
    · obtain ⟨parent, named⟩ :=
        img.exists_dotdotNames (completed.formed directory).2
      rw [completed.parentdotdot_eq directory named]
      exact tables.parentdotdot_eq (rearranged.isDirectory_iff.mpr directory)
        ((rearranged.dotdotNames_iff directory).mpr named)
    · have unset : scan.parentdotdot inum = -1 := by
        by_contra recorded
        exact directory (isDirectory_of_parentdotdot completed.exact ninodes
          completed.described recorded)
      rw [unset]
      by_contra recorded
      exact directory (rearranged.isDirectory_iff.mp
        (isDirectory_of_parentdotdot tables.exact tables.globals.ninodes
          tables.described recorded))
  · intro inum directory notRoot
    have once := accepts.entriesNaming_eq_one small directory notRoot
    obtain ⟨parent, held, -⟩ := accepts.exists_parent small directory notRoot
    rw [completed.parententry_eq directory once held]
    exact tables.parententry_eq (rearranged.isDirectory_iff.mpr directory)
      ((rearranged.entriesNaming_eq inum).trans once)
      (rearranged.holds_iff.mpr held)

theorem Accepts.rearranged (accepts : Accepts img g scan)
    (small : img.sbSize ≤ 8388608) (rearranged : Rearranged img other) :
    helper other g = .ok () := by
  have completed := accepts.completed small
  have globals := rearranged.globals_matches completed.globals
  have sound : ∀ inum < other.sbNinodes, InodeSound other g inum := by
    intro inum below
    rw [rearranged.sbNinodes] at below
    exact rearranged.inodeSound completed.globals completed.exact below
      (accepts.sound inum below)
  have nodup : (allClaims other other.sbNinodes).Nodup := by
    rw [allClaims_eq fun inum => (rearranged.exact completed.exact).indirect_lt]
    exact rearranged.blockClaims_perm.nodup_iff.mpr
      (accepts.blockClaims_nodup small)
  obtain ⟨otherScan, passed⟩ := firstPass_succeeds_iff.mpr
    ⟨globals.ninodes ▸ sound, globals.ninodes ▸ nodup⟩
  have tables : Completed other g otherScan :=
    ⟨globals, sound, describes_of_firstPass passed,
      rearranged.exact completed.exact⟩
  have same := accepts.sameScans small rearranged tables
  refine helper_eq_ok_iff.mpr ⟨otherScan, passed, ?_, ?_⟩
  · rw [bitmapPass_eq_ok_iff]
    intro blknum lower upper
    have checked := bitmapPass_eq_ok_iff.mp accepts.bitmap blknum lower upper
    rw [completed.globals.ninodes] at checked ⊢
    rw [rearranged.bitmap blknum
      (completed.globals.inDataRange_iff.mpr ⟨lower, upper⟩), same.visited]
    exact ⟨rearranged.maps_iff.mpr checked.1, checked.2⟩
  · rw [referencePass_eq_ok_iff]
    intro inum positive below
    rw [completed.globals.ninodes] at below
    have checked := accepts.references inum positive below
    have type := rearranged.types inum below.le
    constructor
    · exact checked.bound
    · rw [same.used, same.references]
      exact checked.found
    · rw [same.used, same.references]
      exact checked.notFree
    · exact rearranged.maps_iff.mpr checked.typeMapped
    · rw [type, rearranged.nlinks inum below, same.references]
      exact fun regular => ⟨rearranged.maps_iff.mpr (checked.nlink regular).1,
        (checked.nlink regular).2⟩
    · rw [type, same.references]
      exact checked.once
    · rw [type]
      intro directory
      obtain ⟨root, others, leads⟩ := checked.parent directory
      have isDirectory : img.IsDirectory inum :=
        ⟨⟨positive, below, by omega⟩, directory⟩
      rw [ParentOk, same.dotdot]
      refine ⟨root, fun notRoot => ?_, leads⟩
      rw [same.entry inum isDirectory notRoot]
      exact others notRoot

end Tables

section Reordering

variable {img other : Image} {g : Globals} {scan : Scan}

/-- No indirect block is also a data block. -/
theorem Accepts.indirect_ne (accepts : Accepts img g scan)
    (small : img.sbSize ≤ 8388608) {inum holder blknum : Nat}
    (inUse : img.InUse inum) (holderInUse : img.InUse holder)
    (nonzero : img.inodeAddr inum 12 ≠ 0)
    (owned : blknum ∈ img.fileBlocks holder) :
    img.inodeAddr inum 12 ≠ blknum := by
  rintro rfl
  have nodup := accepts.blockClaims_nodup small
  have claimed : img.inodeAddr inum 12 ∈ img.ownedBlocks inum := by
    simp [Image.ownedBlocks, nonzero]
  obtain rfl : inum = holder := eq_of_nodup_flatMap nodup
    (img.mem_inUseInodes.mpr inUse) (img.mem_inUseInodes.mpr holderInUse)
    claimed (img.fileBlocks_subset_ownedBlocks holder owned)
  have once := (List.nodup_flatMap.mp nodup).1 inum
    (img.mem_inUseInodes.mpr inUse)
  rw [Image.ownedBlocks, if_neg nonzero, List.nodup_append,
    List.nodup_cons] at once
  obtain ⟨-, ⟨notWord, -⟩, disjoint⟩ := once
  rcases List.mem_append.mp owned with direct | word
  · exact disjoint _ direct _ List.mem_cons_self rfl
  · exact notWord word

/-- A change in one data block. -/
theorem rearranged_of_block {blknum width count : Nat}
    {order : Equiv.Perm (Fin count)}
    (permutes : img.Permutes other (blknum * 512) width count order)
    (whole : width * count = 512) (inside : img.InDataRange blknum)
    (words : ∀ inum, img.InUse inum → img.inodeAddr inum 12 = blknum →
      (other.indirectAddrs inum).Perm (img.indirectAddrs inum))
    (dirents : ∀ inum, img.IsDirectory inum → blknum ∈ img.fileBlocks inum →
      (other.direntsIn blknum).Perm (img.direntsIn blknum)) :
    Rearranged img other where
  tables := permutes.sameTables_of_block inside
  direct inum inUse :=
    .of_eq (permutes.directAddrs_of_block inside inUse.2.1)
  words inum inUse := by
    by_cases changed : img.inodeAddr inum 12 = blknum
    · exact words inum inUse changed
    · exact .of_eq ((permutes.sameBytes_block whole changed).indirectAddrs_eq
        ((permutes.sameTables_of_block inside).indirect inum inUse.2.1))
  dirents inum directory read owned := by
    by_cases changed : read = blknum
    · subst changed
      exact dirents inum directory owned
    · exact .of_eq (permutes.sameBytes_block whole changed).direntsIn_eq

/-- The blocks of the inodes lie behind the inode table. -/
theorem Accepts.sameBytes_owned (accepts : Accepts img g scan)
    (small : img.sbSize ≤ 8388608) {inum : Nat} (inUse : img.InUse inum)
    {order : Equiv.Perm (Fin 12)}
    (permutes : img.Permutes other (Image.inodeOffset inum + 12) 4 12 order)
    {holder blknum : Nat} (holderInUse : img.InUse holder)
    (owned : blknum ∈ img.ownedBlocks holder) :
    Image.SameBytes other img (blknum * 512) (blknum * 512) 512 := by
  have globals := matches_of_eq accepts.globals
  obtain ⟨lower, -⟩ := accepts.ownedBlocks_ok small holderInUse owned
  rw [globals.datblkstnum] at lower
  have start := Nat.mul_le_mul_right 512 lower
  have tables := img.tables_le_dataStart
  have below := img.inodeOffset_add_le inUse.2.1.le
  exact permutes.sameBytes_outside (.inr (by omega))

theorem Accepts.rearranged_of_addrs (accepts : Accepts img g scan)
    (small : img.sbSize ≤ 8388608) {inum : Nat} (inUse : img.InUse inum)
    {order : Equiv.Perm (Fin 12)}
    (permutes : img.Permutes other (Image.inodeOffset inum + 12) 4 12 order) :
    Rearranged img other where
  tables := permutes.sameTables_of_addrs inUse.2.1
  direct holder _ := permutes.directAddrs_of_addrs
  words holder holderInUse := by
    have indirect := (permutes.sameTables_of_addrs inUse.2.1).indirect holder
      holderInUse.2.1
    by_cases hole : img.inodeAddr holder 12 = 0
    · rw [Image.indirectAddrs, Image.indirectAddrs, if_pos hole,
        if_pos (indirect.trans hole)]
    · have claimed : img.inodeAddr holder 12 ∈ img.ownedBlocks holder := by
        simp [Image.ownedBlocks, hole]
      exact .of_eq ((accepts.sameBytes_owned small inUse permutes holderInUse
        claimed).indirectAddrs_eq indirect)
  dirents holder directory blknum owned :=
    .of_eq (accepts.sameBytes_owned small inUse permutes directory.1
      (img.fileBlocks_subset_ownedBlocks holder owned)).direntsIn_eq

theorem Accepts.rearranged_of_reorders (accepts : Accepts img g scan)
    (small : img.sbSize ≤ 8388608) (reorders : img.Reorders other) :
    Rearranged img other := by
  cases reorders with
  | dirents holder blknum order directory owned inside permutes =>
      refine rearranged_of_block permutes rfl inside
        (fun inum inUse changed => ?_) fun _ _ _ => permutes.dirents_perm
      have nonzero : img.inodeAddr inum 12 ≠ 0 := by
        have lower := inside.1
        unfold Image.dataStart at lower
        omega
      exact absurd changed
        (accepts.indirect_ne small inUse directory.1 nonzero owned)
  | addrs inum order inUse permutes =>
      exact accepts.rearranged_of_addrs small inUse permutes
  | words inum order inUse inside permutes =>
      refine rearranged_of_block permutes rfl inside
        (fun holder holderInUse changed => ?_) fun holder directory owned => ?_
      · have indirect := (permutes.sameTables_of_block inside).indirect holder
          holderInUse.2.1
        unfold Image.indirectAddrs
        rw [indirect, changed]
        split_ifs
        · exact .refl _
        · exact permutes.words_perm.filter _
      · have nonzero : img.inodeAddr inum 12 ≠ 0 := by
          have lower := inside.1
          unfold Image.dataStart at lower
          omega
        exact absurd rfl
          (accepts.indirect_ne small inUse directory.1 nonzero owned)

theorem accepted_of_reorders (small : img.sbSize ≤ 8388608)
    (reorders : img.Reorders other) (accepted : myfsck img = .exited 0 "") :
    myfsck other = .exited 0 "" := by
  have same := reorders.sameTables
  obtain ⟨returned, -⟩ := myfsck_eq_exited_zero_iff.mp accepted
  obtain ⟨nonempty, g, layout, helped⟩ := main_eq_ok_iff.mp returned
  obtain ⟨scan, accepts⟩ := exists_accepts_of_helper layout helped
  refine myfsck_eq_exited_zero_iff.mpr ⟨main_eq_ok_iff.mpr
    ⟨same.stSize ▸ nonempty, g, ?_, ?_⟩, rfl⟩
  · rw [same.sbSize, same.sbNblocks, same.sbNinodes]
    exact layout
  · exact accepts.rearranged small
      (accepts.rearranged_of_reorders small reorders)

/-- Putting the entries of a directory block, the direct addresses of an inode
or the words of an indirect block into another order does not change whether
the checker accepts an image. -/
theorem accepted_iff_of_reorders (img other : Image)
    (small : img.sbSize ≤ 8388608) (reorders : img.Reorders other) :
    myfsck img = .exited 0 "" ↔ myfsck other = .exited 0 "" :=
  ⟨accepted_of_reorders small reorders,
    accepted_of_reorders (reorders.sameTables.sbSize.trans_le small)
      reorders.symm⟩

/-- The sample image with the last two entries of its root directory in the
other order. -/
def swappedEntries : Image where
  stSize := 3584
  byte offset :=
    if offset = 2080 then 3 else if offset = 2082 then 98
    else if offset = 2096 then 2 else if offset = 2098 then 97
    else Image.sample.byte offset

theorem accepted_swappedEntries :
    Image.sample.direntsIn 4 ≠ swappedEntries.direntsIn 4 ∧
      myfsck swappedEntries = .exited 0 "" := by
  have permutes : Image.sample.Permutes swappedEntries (4 * 512) 16 32
      (Equiv.swap 2 3) := by
    refine .of_swap rfl (fun offset first second => ?_) (by decide +kernel)
      (by decide +kernel)
    have bytes : swappedEntries.byte offset = Image.sample.byte offset := by
      have kept : offset ≠ 2080 ∧ offset ≠ 2082 := by omega
      have others : offset ≠ 2096 ∧ offset ≠ 2098 := by omega
      simp only [swappedEntries, kept, others, if_false]
    rw [Image.mem, Image.mem, bytes]
    rfl
  have reorders : Image.sample.Reorders swappedEntries :=
    .dirents 1 4 (Equiv.swap 2 3) (by decide +kernel) (by decide +kernel)
      ⟨by decide +kernel, by decide +kernel⟩ permutes
  exact ⟨by decide +kernel, (accepted_iff_of_reorders Image.sample
    swappedEntries (by decide +kernel) reorders).mp (by decide +kernel)⟩

/-- The sample image in which the indirect block of inode 2 is the block of the
inode table. -/
def misplacedIndirect : Image where
  stSize := 3584
  byte offset := if offset = 1212 then 2 else Image.sample.byte offset

/-- The same image with two words of the inode table exchanged: the address is
now a part of an unused inode. -/
def exchangedWords : Image where
  stSize := 3584
  byte offset := if offset = 1532 then 2 else Image.sample.byte offset

/-- Outside the data range the order of words matters: exchanging two words of
an indirect block can change the inode table. -/
theorem not_accepted_iff_exchangedWords :
    misplacedIndirect.sbSize ≤ 8388608 ∧ exchangedWords.sbSize ≤ 8388608 ∧
      misplacedIndirect.InUse 2 ∧ exchangedWords.InUse 2 ∧
      misplacedIndirect.Permutes exchangedWords
        (misplacedIndirect.inodeAddr 2 12 * 512) 4 128 (Equiv.swap 47 127) ∧
      myfsck misplacedIndirect =
        .exited 1 Message.badIndirectAddressError.text ∧
      myfsck exchangedWords = .exited 0 "" := by
  have block : misplacedIndirect.inodeAddr 2 12 = 2 := by decide +kernel
  refine ⟨by decide +kernel, by decide +kernel, by decide +kernel,
    by decide +kernel, ?_, by decide +kernel, by decide +kernel⟩
  rw [block]
  refine .of_swap rfl (fun offset first second => ?_) (by decide +kernel)
    (by decide +kernel)
  have kept : offset ≠ 1212 ∧ offset ≠ 1532 := by omega
  simp only [Image.mem, misplacedIndirect, exchangedWords, kept, if_false]

end Reordering

end LinuxKernelDev.Fsck
