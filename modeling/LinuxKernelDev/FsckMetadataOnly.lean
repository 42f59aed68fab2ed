import LinuxKernelDev.FsckOwnership

/-!
# The checker reads metadata only

Two images with the same length that agree on their metadata are given the
same verdict.  Which blocks hold metadata is decided by the images themselves,
so the two runs are compared step by step: each step either loads a value on
which the images agree, or has been guarded by a check that both runs pass.
-/

namespace LinuxKernelDev.Fsck

open LoopRules

/-- Two images hold the same bytes in a block. -/
def SameBlock (left right : Image) (blknum : Nat) : Prop :=
  ∀ position < 512,
    left.mem (blknum * 512 + position) = right.mem (blknum * 512 + position)

/-- Two images of the same length agree on their metadata. -/
structure SameMetadata (left right : Image) : Prop where
  stSize : left.stSize = right.stSize
  sbSize : left.sbSize = right.sbSize
  sbNblocks : left.sbNblocks = right.sbNblocks
  sbNinodes : left.sbNinodes = right.sbNinodes
  types : ∀ inum ≤ left.sbNinodes, left.inodeType inum = right.inodeType inum
  nlinks : ∀ inum, left.InUse inum →
    left.inodeNlink inum = right.inodeNlink inum
  sizes : ∀ inum, left.InUse inum →
    left.inodeSize inum = right.inodeSize inum
  addrs : ∀ inum, left.InUse inum → ∀ index < 13,
    left.inodeAddr inum index = right.inodeAddr inum index
  bitmap : ∀ blknum, left.InDataRange blknum →
    left.bitmapBit left.sbNinodes blknum =
      right.bitmapBit left.sbNinodes blknum
  indirectBlocks : ∀ inum, left.InUse inum →
    left.InDataRange (left.inodeAddr inum 12) →
      SameBlock left right (left.inodeAddr inum 12)
  directoryBlocks : ∀ inum, left.IsDirectory inum →
    ∀ blknum ∈ left.fileBlocks inum, left.InDataRange blknum →
      SameBlock left right blknum

theorem SameBlock.sameBytes {left right : Image} {blknum : Nat}
    (same : SameBlock left right blknum) :
    Image.SameBytes left right (blknum * 512) (blknum * 512) 512 :=
  same

section Runs

variable {left right : Image} {g : Globals}

variable (same : SameMetadata left right)

include same

namespace SameMetadata

theorem load_congr {α : Type} {offset length : Nat} {first second : α}
    (values : first = second) :
    load left offset length first = load right offset length second := by
  have maps : left.Maps offset length ↔ right.Maps offset length := by
    unfold Image.Maps Image.mapped
    rw [same.stSize]
  rw [load_eq, load_eq, values]
  exact if_congr maps rfl rfl

theorem loadType_eq {inum : Nat} (inside : inum ≤ left.sbNinodes) :
    loadType left inum = loadType right inum :=
  same.load_congr (same.types inum inside)

variable (globals : Matches left g)

include globals

theorem visitDirent_eq (currinodenum : Nat) (scan : Scan) (entry : Dirent) :
    visitDirent left g currinodenum scan entry =
      visitDirent right g currinodenum scan entry := by
  unfold visitDirent
  split_ifs
  · rfl
  · rfl
  · rfl
  · rfl
  · rfl
  · refine bind_congr_of_ok fun _ inside => ?_
    -- The entry is in the table, so its inode slot is one both images share.
    have below : entry.inum ≤ left.sbNinodes := by
      have bound := (access_eq_ok_iff.mp inside).1
      have ninodes := globals.ninodes
      unfold Globals.tableLen at bound
      omega
    rw [same.loadType_eq below]

theorem bitIsUsed_eq {blknum : Nat} (inside : left.InDataRange blknum) :
    bitIsUsed left g blknum = bitIsUsed right g blknum := by
  refine same.load_congr ?_
  rw [globals.ninodes]
  exact same.bitmap blknum inside

theorem claimBlock_eq (badAddress usedOnce : Message) (blknum : Nat)
    (scan : Scan) :
    claimBlock left g badAddress usedOnce blknum scan =
      claimBlock right g badAddress usedOnce blknum scan := by
  unfold claimBlock
  split_ifs with outside
  · rfl
  · have inside : left.InDataRange blknum := by
      have lower := globals.datblkstnum
      have upper := globals.datblkednum
      constructor <;> omega
    rw [same.bitIsUsed_eq globals inside]

theorem checkReferences_eq (scan : Scan) {inum : Nat} (positive : 1 ≤ inum)
    (below : inum < g.ninodes) :
    checkReferences left g scan inum = checkReferences right g scan inum := by
  have slot : inum < left.sbNinodes := globals.ninodes ▸ below
  unfold checkReferences
  rw [← same.loadType_eq slot.le]
  refine bind_congr_of_ok fun used _ =>
    bind_congr_of_ok fun references counted => bind_congr_of_ok fun _ _ =>
      bind_congr_of_ok fun _ _ => bind_congr_of_ok fun type loaded => ?_
  obtain ⟨-, rfl⟩ := access_eq_ok_iff.mp counted
  obtain ⟨-, rfl⟩ := load_eq_ok_iff.mp loaded
  have nlinks : checkNlink left inum (left.inodeType inum)
      (scan.inodeindirent inum) = checkNlink right inum (left.inodeType inum)
        (scan.inodeindirent inum) := by
    unfold checkNlink loadNlink
    split_ifs with regular
    · have inUse : left.InUse inum := ⟨positive, slot, by rw [regular]; decide⟩
      rw [same.load_congr (same.nlinks inum inUse)]
    · rfl
  rw [nlinks]

variable (small : left.sbSize ≤ 8388608)

include small

theorem traverseDirent_eq {blknum : Nat} (inside : left.InDataRange blknum)
    (block : SameBlock left right blknum) (currinodenum : Nat) (scan : Scan) :
    traverseDirent left g blknum currinodenum scan =
      traverseDirent right g blknum currinodenum scan := by
  refine foldlM_congr (fun scan index member => ?_) scan
  have below := List.mem_range.mp member
  have entries : left.blockDirent blknum index =
      right.blockDirent blknum index := by
    unfold Image.blockDirent
    rw [blockOffset_of_lt (inside.2.trans_le small)]
    exact block.sameBytes.direntAt_eq (16 * index) (by omega)
  rw [loadDirent_eq, loadDirent_eq, same.load_congr entries]
  exact bind_congr_of_ok fun entry _ =>
    same.visitDirent_eq globals currinodenum scan entry

theorem scanDataBlock_eq (badAddress usedOnce : Message) (type : Int)
    (currinodenum blknum : Nat) (scan : Scan)
    (block : type = 1 → blknum ≠ 0 → left.InDataRange blknum →
      SameBlock left right blknum) :
    scanDataBlock left g badAddress usedOnce type currinodenum blknum scan =
      scanDataBlock right g badAddress usedOnce type currinodenum blknum
        scan := by
  unfold scanDataBlock
  split_ifs with hole directory
  · rfl
  · rw [← same.claimBlock_eq globals]
    refine bind_congr_of_ok fun marked claimed => ?_
    obtain ⟨⟨⟨lower, upper, -⟩, -⟩, -⟩ := claimBlock_eq_ok_iff.mp claimed
    have inside := globals.inDataRange_iff.mpr ⟨lower, upper⟩
    exact same.traverseDirent_eq globals small inside
      (block directory hole inside) _ _
  · rw [same.claimBlock_eq globals]

theorem checkDirectAddress_eq {inum : Nat} (inUse : left.InUse inum)
    (currinodenum : Nat) (scan : Scan) :
    checkDirectAddress left g inum (left.inodeType inum) currinodenum scan =
      checkDirectAddress right g inum (left.inodeType inum) currinodenum
        scan := by
  refine foldlM_congr (fun scan index member => ?_) scan
  have below := List.mem_range.mp member
  rw [loadAddr, loadAddr,
    ← same.load_congr (same.addrs inum inUse index (by omega))]
  refine bind_congr_of_ok fun blknum loaded => ?_
  obtain ⟨-, rfl⟩ := load_eq_ok_iff.mp loaded
  refine same.scanDataBlock_eq globals small _ _ _ _ _ _
    fun directory nonzero inside => ?_
  refine same.directoryBlocks inum ⟨inUse, directory⟩ _ ?_ inside
  refine List.mem_append_left _ (List.mem_filter.mpr ⟨?_, ?_⟩)
  · exact List.mem_map.mpr ⟨index, List.mem_range.mpr below, rfl⟩
  · simpa using nonzero

theorem checkIndirectAddress_eq {inum : Nat} (inUse : left.InUse inum)
    (currinodenum : Nat) (scan : Scan) :
    checkIndirectAddress left g inum (left.inodeType inum) currinodenum scan =
      checkIndirectAddress right g inum (left.inodeType inum) currinodenum
        scan := by
  unfold checkIndirectAddress
  rw [loadAddr, loadAddr,
    ← same.load_congr (same.addrs inum inUse 12 (by omega))]
  refine bind_congr_of_ok fun ndirblknum loaded => ?_
  obtain ⟨-, rfl⟩ := load_eq_ok_iff.mp loaded
  split_ifs with hole
  · rfl
  rw [← same.claimBlock_eq globals]
  refine bind_congr_of_ok fun marked claimed => ?_
  obtain ⟨⟨⟨lower, upper, -⟩, -⟩, -⟩ := claimBlock_eq_ok_iff.mp claimed
  have inside := globals.inDataRange_iff.mpr ⟨lower, upper⟩
  have offset := blockOffset_of_lt (inside.2.trans_le small)
  refine foldlM_congr (fun scan index member => ?_) marked
  have below := List.mem_range.mp member
  have words : left.indirectWord (left.inodeAddr inum 12) index =
      right.indirectWord (left.inodeAddr inum 12) index := by
    unfold Image.indirectWord
    rw [offset]
    exact (same.indirectBlocks inum inUse inside).sameBytes.word32_eq
      (4 * index) (by omega)
  rw [loadIndirectWord, loadIndirectWord, ← same.load_congr words]
  refine bind_congr_of_ok fun blknum loaded => ?_
  obtain ⟨-, rfl⟩ := load_eq_ok_iff.mp loaded
  refine same.scanDataBlock_eq globals small _ _ _ _ _ _
    fun directory nonzero blockInside => ?_
  refine same.directoryBlocks inum ⟨inUse, directory⟩ _ ?_ blockInside
  refine List.mem_append_right _ ?_
  rw [Image.indirectAddrs, if_neg hole]
  refine List.mem_filter.mpr ⟨List.mem_map.mpr ⟨index, member, ?_⟩, ?_⟩
  · rw [Image.indirectWord, offset]
  · simpa using nonzero

theorem scanInode_eq {inum : Nat} (below : inum < g.ninodes) (scan : Scan) :
    scanInode left g scan inum = scanInode right g scan inum := by
  have slot : inum < left.sbNinodes := globals.ninodes ▸ below
  have typed := same.loadType_eq slot.le
  unfold scanInode scanInodeWith checkNodeType
  rw [← typed]
  refine bind_congr_of_ok fun _ _ => bind_congr_of_ok fun type loaded => ?_
  obtain ⟨-, rfl⟩ := load_eq_ok_iff.mp loaded
  split_ifs with scanned
  · have inUse : left.InUse inum :=
      ⟨Nat.pos_of_ne_zero scanned.1, slot, scanned.2⟩
    simp only [same.checkDirectAddress_eq globals small inUse]
    refine bind_congr_of_ok fun direct _ => ?_
    rw [same.checkIndirectAddress_eq globals small inUse]
    refine bind_congr_of_ok fun both _ => ?_
    unfold checkFileSize loadSize
    rw [same.load_congr (same.sizes inum inUse)]
  · rfl

theorem helper_eq : helper left g = helper right g := by
  have first : firstPassWith 65536 left g = firstPassWith 65536 right g :=
    foldlM_congr (fun scan inum member =>
      same.scanInode_eq globals small (List.mem_range.mp member) scan) _
  unfold helper helperWith
  rw [first]
  refine bind_congr_of_ok fun scan _ => ?_
  have bitmap : bitmapPass left g scan = bitmapPass right g scan := by
    refine forM_congr fun blknum member => ?_
    have inside : left.InDataRange blknum := by
      have bounds := List.mem_range'_1.mp member
      exact globals.inDataRange_iff.mpr (by omega)
    unfold checkBitmapBlock
    rw [same.bitIsUsed_eq globals inside]
  have references : referencePass left g scan = referencePass right g scan := by
    refine forM_congr fun inum member => ?_
    have bounds := List.mem_range'_1.mp member
    exact same.checkReferences_eq globals scan bounds.1 (by omega)
  rw [bitmap, references]

end SameMetadata

end Runs

/-- Images that agree on their metadata get the same exit status and the same
message. -/
theorem myfsck_eq_of_sameMetadata (left right : Image)
    (small : left.sbSize ≤ 8388608) (same : SameMetadata left right) :
    myfsck left = myfsck right := by
  have mains : main left = main right := by
    unfold main mainWith
    rw [← same.stSize, ← same.load_congr same.sbSize,
      ← same.load_congr same.sbNblocks, ← same.load_congr same.sbNinodes]
    split_ifs
    · rfl
    · refine bind_congr_of_ok fun sbsize loadedSize => bind_congr_of_ok
        fun nblocks loadedBlocks => bind_congr_of_ok fun ninodes loadedInodes =>
          bind_congr_of_ok fun g sized => ?_
      obtain ⟨-, rfl⟩ := load_eq_ok_iff.mp loadedSize
      obtain ⟨-, rfl⟩ := load_eq_ok_iff.mp loadedBlocks
      obtain ⟨-, rfl⟩ := load_eq_ok_iff.mp loadedInodes
      exact same.helper_eq (matches_of_checkSize sized) small
  unfold myfsck
  rw [mains]

/-- The sample image with other contents in block 0 and in the block of its
regular file. -/
def rewritten : Image where
  stSize := 3584
  byte offset :=
    if offset < 512 ∨ offset / 512 = 5 then 255 else Image.sample.byte offset

theorem sameMetadata_rewritten : SameMetadata Image.sample rewritten := by
  have ninodes : Image.sample.sbNinodes = 4 := by decide +kernel
  have size : Image.sample.sbSize = 7 := by decide +kernel
  have slot : ∀ {inum}, Image.sample.InUse inum → inum < 4 := fun inUse =>
    ninodes ▸ inUse.2.1
  have range : ∀ {blknum}, Image.sample.InDataRange blknum → blknum < 7 :=
    fun inside => size ▸ inside.2
  have nlinks : ∀ inum < 4, Image.sample.inodeNlink inum =
      rewritten.inodeNlink inum := by decide +kernel
  have sizes : ∀ inum < 4, Image.sample.inodeSize inum =
      rewritten.inodeSize inum := by decide +kernel
  have addrs : ∀ inum < 4, ∀ index < 13, Image.sample.inodeAddr inum index =
      rewritten.inodeAddr inum index := by decide +kernel
  have bits : ∀ blknum < 7, Image.sample.bitmapBit 4 blknum =
      rewritten.bitmapBit 4 blknum := by decide +kernel
  have holes : ∀ inum < 4, Image.sample.inodeAddr inum 12 = 0 := by
    decide +kernel
  have directories : ∀ inum < 4, Image.sample.inodeType inum = 1 →
      ∀ blknum ∈ Image.sample.fileBlocks inum, blknum = 4 ∨ blknum = 6 := by
    decide +kernel
  have blocks : ∀ blknum, blknum = 4 ∨ blknum = 6 →
      SameBlock Image.sample rewritten blknum := by
    intro blknum directory position inside
    have kept : ¬(blknum * 512 + position < 512 ∨
        (blknum * 512 + position) / 512 = 5) := by omega
    have bytes : rewritten.byte (blknum * 512 + position) =
        Image.sample.byte (blknum * 512 + position) := if_neg kept
    rw [Image.mem, Image.mem, bytes]
    rfl
  exact
    { stSize := rfl
      sbSize := by decide +kernel
      sbNblocks := by decide +kernel
      sbNinodes := by decide +kernel
      types := by rw [ninodes]; decide +kernel
      nlinks := fun inum inUse => nlinks inum (slot inUse)
      sizes := fun inum inUse => sizes inum (slot inUse)
      addrs := fun inum inUse => addrs inum (slot inUse)
      bitmap := fun blknum inside => by
        rw [ninodes]
        exact bits blknum (range inside)
      indirectBlocks := fun inum inUse inside => by
        have lower := inside.1
        rw [holes inum (slot inUse), Image.dataStart] at lower
        omega
      directoryBlocks := fun inum directory blknum member _ =>
        blocks blknum (directories inum (slot directory.1) directory.2 blknum
          member) }

theorem myfsck_rewritten :
    Image.sample.mem 2560 ≠ rewritten.mem 2560 ∧
      myfsck rewritten = .exited 0 "" := by
  refine ⟨by decide +kernel, ?_⟩
  rw [← myfsck_eq_of_sameMetadata Image.sample rewritten (by decide +kernel)
    sameMetadata_rewritten]
  decide +kernel

end LinuxKernelDev.Fsck
