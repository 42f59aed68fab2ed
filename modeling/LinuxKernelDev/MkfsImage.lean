import LinuxKernelDev.DiskMetadata
import LinuxKernelDev.MkfsRun
import Mathlib.Data.List.Sort

/-!
# Reading the image back

The image that `mkfs` writes, read as on-disk metadata: the block lists of an
inode are the blocks in which its data was stored, the bitmap marks the
allocated blocks, and the slots of a directory are its entries followed by
unused slots.
-/

namespace LinuxKernelDev

open ByteMemory

theorem Image.word16_eq_word (img : Image) (offset : Nat) :
    img.word16 offset = word img.mem 2 offset := by
  simp [Image.word16, word]

theorem Image.word32_eq_word (img : Image) (offset : Nat) :
    img.word32 offset = word img.mem 4 offset := by
  simp only [Image.word32, Image.word16, word, Nat.add_assoc, Nat.reduceAdd]
  omega

theorem int16_eq_of_lt {number : Nat} (small : number < 32768) :
    int16 number = number :=
  Int.bmod_eq_of_le_mul_two (by omega) (by omega)

/-- An unused slot of a directory. -/
def Dirent.unused : Dirent := ⟨0, List.replicate 14 0⟩

/-- An entry is read back as it was written. -/
theorem Image.direntAt_eq {img : Image} {offset : Nat} {entry : Dirent}
    (narrow : entry.inum < 65536) (name : entry.name.length = 14)
    (stored : ∀ position < 16, img.mem (offset + position) =
      entry.bytes[position]?.getD 0) :
    img.direntAt offset = entry := by
  have number : word img.mem 2 offset = entry.inum := by
    have agree : word img.mem 2 offset =
        word (patch img.mem offset (littleEndian 2 entry.inum)) 2 offset :=
      word_congr fun index below => by
        rw [patch_add, stored index (by omega), Dirent.bytes,
          List.getElem?_append_left (by rw [littleEndian_length]; omega),
          List.getElem?_eq_getElem (by rw [littleEndian_length]; omega)]
        rfl
    rw [agree, word_patch]
    exact Nat.mod_eq_of_lt narrow
  have field : (List.range 14).map (fun position =>
      img.mem (offset + 2 + position)) = entry.name := by
    refine List.ext_getElem (by simp [name]) fun index below within => ?_
    simp only [List.getElem_map, List.getElem_range]
    rw [Nat.add_assoc, stored (2 + index) (by omega), Dirent.bytes,
      List.getElem?_append_right (by rw [littleEndian_length]; omega),
      littleEndian_length, Nat.add_sub_cancel_left,
      List.getElem?_eq_getElem within, Option.getD_some]
  rw [Image.direntAt, field, word16_eq_word, number]

namespace Mkfs

/-- The bits of the bitmap block. -/
theorem testBit_bitmap (used blknum : Nat) :
    (bitmap used (blknum / 8)).toNat.testBit (blknum % 8) =
      decide (blknum < used) := by
  have bits : ∀ low < 8, ∀ high < 8,
      ((1 : UInt8) <<< UInt8.ofNat low).toNat.testBit high =
        decide (high = low) := by decide
  induction used with
  | zero => simp [bitmap]
  | succ used ih =>
      have step : bitmap (used + 1) = Function.update (bitmap used) (used / 8)
          (bitmap used (used / 8) ||| (1 <<< UInt8.ofNat (used % 8))) := by
        simp only [bitmap, List.range_succ, List.foldl_append, List.foldl_cons,
          List.foldl_nil]
      rw [step]
      by_cases sameByte : blknum / 8 = used / 8
      · rw [← sameByte, Function.update_self, UInt8.toNat_or, Nat.testBit_or,
          ih, bits _ (by omega) _ (by omega), ← Bool.decide_or]
        exact decide_eq_decide.mpr (by omega)
      · rw [Function.update_of_ne sameByte, ih]
        exact decide_eq_decide.mpr (by omega)

/-- A finished image: it stores the file system with the given blocks, and its
bitmap marks them. -/
structure Carries (img : Image) (fs : FileSystem) (layout : Nat → Layout) :
    Prop where
  whole : img.stSize = 524288
  sbSize : img.sbSize = 1024
  sbNblocks : img.sbNblocks = 995
  sbNinodes : img.sbNinodes = 200
  blocks : Blocks img.mem fs.freeinode (29 + fs.blocks)
    (fun inum => (fs.inodes inum).body.bytes) layout
  record : ∀ inum, 1 ≤ inum → inum < fs.freeinode →
    Dinode.read img.mem (Image.inodeOffset inum) =
      (fs.inodes inum).dinode (layout inum)
  full : ∀ inum, 1 ≤ inum → inum < fs.freeinode →
    (layout inum).blocks.length =
      ((fs.inodes inum).body.bytes.length + 511) / 512
  fits : fs.Fits
  free : ∀ inum < 208, inum = 0 ∨ fs.freeinode ≤ inum →
    img.inodeType inum = 0
  bitmap : ∀ blknum < 1024,
    img.bitmapBit 200 blknum = decide (blknum < 29 + fs.blocks)

/-- The image after `balloc`. -/
theorem Stored.carries {s : State} {fs : FileSystem} {layout : Nat → Layout}
    (stored : Stored s fs layout) :
    Carries (wsect 28 (Mkfs.bitmap s.freeblock) s).disk fs layout := by
  have whole := stored.laid.whole
  have size : (wsect 28 (Mkfs.bitmap s.freeblock) s).disk.stSize = 524288 := by
    simp only [wsect, whole]
    rfl
  have table := stored.table
  have outside : ∀ address, address / 512 ≠ 28 →
      (wsect 28 (Mkfs.bitmap s.freeblock) s).disk.mem address =
        s.disk.mem address := fun address other =>
    wsect_of_ne whole (by decide) _ other
  have early : ∀ width address, address + width ≤ 14336 →
      word (wsect 28 (Mkfs.bitmap s.freeblock) s).disk.mem width address =
        word s.disk.mem width address := fun width address below =>
    word_congr fun index within => outside _ (by omega)
  refine
    { whole := size
      sbSize := ?_
      sbNblocks := ?_
      sbNinodes := ?_
      blocks := ?_
      record := fun inum positive below => ?_
      full := stored.full
      fits := stored.fits
      free := fun inum small unused => ?_
      bitmap := fun blknum below => ?_ }
  · rw [Image.sbSize, Image.word32_eq_word, early _ _ (by decide), stored.size]
  · rw [Image.sbNblocks, Image.word32_eq_word, early _ _ (by decide),
      stored.nblocks]
  · rw [Image.sbNinodes, Image.word32_eq_word, early _ _ (by decide),
      stored.ninodes]
  · rw [← stored.freeinode, ← stored.freeblock_eq]
    exact stored.laid.blocks.congr fun blknum first position within =>
      outside _ (by omega)
  · rw [← stored.record inum positive below]
    exact Dinode.read_congr fun index within => outside _ (by
      unfold Image.inodeOffset
      omega)
  · rw [Image.inodeType, Image.word16_eq_word, early _ _ (by
      unfold Image.inodeOffset
      omega), stored.free inum small unused]
    rfl
  · have position : Image.bitmapOffset 200 blknum = 14336 + blknum / 8 := by
      unfold Image.bitmapOffset
      omega
    rw [Image.bitmapBit, position, show 14336 + blknum / 8 =
      28 * 512 + blknum / 8 from rfl, wsect_self _ _ _ (by omega),
      testBit_bitmap, stored.freeblock_eq]

/-- The image that a successful run of `mkfs` writes. -/
theorem exists_carries (descriptors : Nat) (fileTreeRoot : HostDir)
    (table : (FileSystem.build descriptors fileTreeRoot).freeinode ≤ 208)
    (fits : (FileSystem.build descriptors fileTreeRoot).Fits) :
    ∃ img layout, main descriptors fileTreeRoot = some img ∧
      Carries img (FileSystem.build descriptors fileTreeRoot) layout := by
  obtain ⟨s, ⟨layout, stored⟩, written⟩ :=
    exists_main descriptors fileTreeRoot table fits
  exact ⟨_, layout, written, stored.carries⟩

/-- The non-zero words of a table that lists non-zero numbers. -/
theorem filter_map_getElem? {numbers : List Nat}
    (nonzero : ∀ number ∈ numbers, number ≠ 0) (count : Nat) :
    ((List.range count).map fun index => numbers[index]?.getD 0).filter
        (fun number => decide (number ≠ 0)) = numbers.take count := by
  induction numbers generalizing count with
  | nil => simp
  | cons number numbers ih =>
      cases count with
      | zero => rfl
      | succ count =>
          have tail := ih (fun other member =>
            nonzero other (List.mem_cons_of_mem _ member)) count
          have first := nonzero number List.mem_cons_self
          rw [List.range_succ_eq_map, List.map_cons, List.map_map,
            List.filter_cons_of_pos (by simpa using first)]
          exact congrArg (number :: ·) tail

namespace Carries

variable {img : Image} {fs : FileSystem} {layout : Nat → Layout} {inum : Nat}

section Records

variable (carries : Carries img fs layout) (positive : 1 ≤ inum)
  (below : inum < fs.freeinode)

include carries positive below

theorem content :
    Content img.mem (layout inum) (fs.inodes inum).body.bytes :=
  carries.blocks.content inum positive below

theorem inodeType_eq : img.inodeType inum = (fs.inodes inum).body.type := by
  have type := congrArg Dinode.type (carries.record inum positive below)
  rw [Image.inodeType, Image.word16_eq_word]
  refine (congrArg int16 type).trans (int16_eq_of_lt ?_)
  cases body : (fs.inodes inum).body <;> simp [Inode.dinode, body, Body.type]

theorem inodeNlink_eq (small : (fs.inodes inum).nlink < 32768) :
    img.inodeNlink inum = (fs.inodes inum).nlink := by
  have nlink := congrArg Dinode.nlink (carries.record inum positive below)
  rw [Image.inodeNlink, Image.word16_eq_word]
  exact (congrArg int16 nlink).trans (int16_eq_of_lt small)

theorem inodeSize_eq : img.inodeSize inum = (fs.inodes inum).size := by
  rw [Image.inodeSize, Image.word32_eq_word]
  exact congrArg Dinode.size (carries.record inum positive below)

theorem inodeAddr_eq (slot : Fin 13) :
    img.inodeAddr inum slot = (layout inum).addrs slot := by
  rw [Image.inodeAddr, Image.word32_eq_word]
  exact congrFun (congrArg Dinode.addrs (carries.record inum positive below))
    slot

theorem block_ne_zero :
    ∀ blknum ∈ (layout inum).blocks, blknum ≠ 0 := fun blknum member => by
  have range := carries.blocks.owned_range positive below
    (List.mem_append_right _ member)
  omega

theorem blocks_length_le : (layout inum).blocks.length ≤ 140 := by
  have short := carries.fits.lengths inum positive below
  have full := carries.full inum positive below
  omega

theorem directAddrs_eq :
    img.directAddrs inum = (layout inum).blocks.take 12 := by
  rw [← filter_map_getElem? (carries.block_ne_zero positive below),
    Image.directAddrs]
  congr 1
  refine List.map_congr_left fun index member => ?_
  have direct := List.mem_range.mp member
  have addr := carries.inodeAddr_eq positive below ⟨index, by omega⟩
  rwa [Layout.addrs, if_pos direct] at addr

theorem index_eq : img.inodeAddr inum 12 = (layout inum).index :=
  carries.inodeAddr_eq positive below 12

theorem indirectAddrs_eq :
    img.indirectAddrs inum = (layout inum).blocks.drop 12 := by
  have content := carries.content positive below
  rw [Image.indirectAddrs, carries.index_eq positive below]
  split_ifs with unindexed
  · have few : ¬12 < (layout inum).blocks.length :=
      fun long => content.indexed.mpr long unindexed
    rw [List.drop_eq_nil_of_le (by omega)]
  · have short := carries.blocks_length_le positive below
    have nonzero : ∀ blknum ∈ (layout inum).blocks.drop 12, blknum ≠ 0 :=
      fun blknum member =>
        carries.block_ne_zero positive below blknum (List.mem_of_mem_drop member)
    have all := filter_map_getElem? nonzero 128
    rw [List.take_of_length_le (by rw [List.length_drop]; omega)] at all
    rw [← all]
    congr 1
    refine List.map_congr_left fun position member => ?_
    rw [Image.word32_eq_word,
      content.index unindexed position (List.mem_range.mp member),
      List.getElem?_drop]

/-- The data blocks of an inode are those in which its data was stored. -/
theorem fileBlocks_eq : img.fileBlocks inum = (layout inum).blocks := by
  rw [Image.fileBlocks, carries.directAddrs_eq positive below,
    carries.indirectAddrs_eq positive below, List.take_append_drop]

theorem ownedBlocks_perm :
    (img.ownedBlocks inum).Perm (layout inum).owned := by
  have indexed := (carries.content positive below).indexed
  rw [Image.ownedBlocks, carries.directAddrs_eq positive below,
    carries.indirectAddrs_eq positive below,
    carries.index_eq positive below, Layout.owned]
  split_ifs with unindexed
  · have few : ¬12 < (layout inum).blocks.length :=
      fun long => indexed.mpr long unindexed
    rw [List.append_nil, List.nil_append, List.take_of_length_le (by omega)]
  · refine List.perm_middle.trans ?_
    rw [List.take_append_drop, List.singleton_append]

end Records

/-- An inode is in use if it has been allocated. -/
theorem inUse_iff (carries : Carries img fs layout)
    (table : fs.freeinode ≤ 200) :
    img.InUse inum ↔ 1 ≤ inum ∧ inum < fs.freeinode := by
  unfold Image.InUse
  rw [carries.sbNinodes]
  constructor
  · rintro ⟨positive, inside, used⟩
    refine ⟨positive, ?_⟩
    by_contra above
    exact used (carries.free inum (by omega) (.inr (by omega)))
  · rintro ⟨positive, below⟩
    refine ⟨positive, by omega, ?_⟩
    rw [carries.inodeType_eq positive below]
    cases (fs.inodes inum).body <;> simp [Body.type]

theorem isDirectory_iff (carries : Carries img fs layout)
    (table : fs.freeinode ≤ 200) :
    img.IsDirectory inum ↔ fs.IsDirectory inum := by
  unfold Image.IsDirectory FileSystem.IsDirectory
  rw [carries.inUse_iff table, and_assoc]
  refine and_congr_right fun positive => and_congr_right fun below => ?_
  rw [carries.inodeType_eq positive below]
  exact Int.natCast_inj

theorem inUseInodes_eq (carries : Carries img fs layout)
    (table : fs.freeinode ≤ 200) :
    img.inUseInodes = List.range' 1 (fs.freeinode - 1) := by
  refine List.Pairwise.eq_of_mem_iff
    (List.pairwise_lt_range.filter _) List.pairwise_lt_range' fun inum => ?_
  rw [img.mem_inUseInodes, carries.inUse_iff table, List.mem_range'_1]
  omega

/-- The blocks that are claimed are the allocated ones, each claimed once. -/
theorem blockClaims_perm (carries : Carries img fs layout)
    (table : fs.freeinode ≤ 200) :
    img.blockClaims.Perm (List.range' 29 fs.blocks) := by
  have owned := carries.blocks.owned
  rw [Nat.add_sub_cancel_left] at owned
  rw [Image.blockClaims, carries.inUseInodes_eq table]
  refine List.Perm.trans ?_ owned
  refine List.Perm.flatMap_left _ fun inum member => ?_
  rw [List.mem_range'_1] at member
  exact carries.ownedBlocks_perm member.1 (by omega)

section Directories

variable {stack : List Nat} (carries : Carries img fs layout)
  (directory : fs.IsDirectory inum) (ok : fs.DirectoryOk stack inum)

include carries directory ok

theorem dirent_eq {fbn blknum index : Nat} {entry : Dirent}
    (block : (layout inum).blocks[fbn]? = some blknum) (inside : index < 32)
    (found : (fs.dirents inum)[32 * fbn + index]? = some entry)
    (narrow : entry.inum < 65536) :
    img.direntAt (blknum * 512 + 16 * index) = entry := by
  have content := carries.content directory.1 directory.2.1
  have member := List.mem_of_getElem? found
  refine Image.direntAt_eq narrow (ok.name_length member)
    fun position within => ?_
  rw [Nat.add_assoc, content.bytes fbn blknum block _ (by omega),
    directory.bytes_eq, show 512 * fbn + (16 * index + position) =
      16 * (32 * fbn + index) + position by omega,
    getElem?_flatMap_uniform (fun entry => ok.dirent_length) _ within, found]
  rfl

theorem dirent_unused {fbn blknum index : Nat}
    (block : (layout inum).blocks[fbn]? = some blknum) (inside : index < 32)
    (missing : (fs.dirents inum)[32 * fbn + index]? = none) :
    img.direntAt (blknum * 512 + 16 * index) = Dirent.unused := by
  have content := carries.content directory.1 directory.2.1
  refine Image.direntAt_eq (by decide) rfl fun position within => ?_
  have zero : ∀ position < 16, Dirent.unused.bytes[position]?.getD 0 = 0 := by
    decide
  rw [Nat.add_assoc, content.bytes fbn blknum block _ (by omega),
    directory.bytes_eq, show 512 * fbn + (16 * index + position) =
      16 * (32 * fbn + index) + position by omega,
    getElem?_flatMap_uniform (fun entry => ok.dirent_length) _ within,
    missing, zero position within]
  rfl

/-- The slots of a directory are its entries and unused slots. -/
theorem directoryDirents_eq
    (narrow : ∀ entry ∈ fs.dirents inum, entry.inum < 65536) :
    img.directoryDirents inum = fs.dirents inum ++
      List.replicate (32 * (layout inum).blocks.length -
        (fs.dirents inum).length) Dirent.unused := by
  have bound := (carries.content directory.1 directory.2.1).bound
  rw [ok.bytes_length directory] at bound
  have uniform : ∀ blknum ∈ (layout inum).blocks,
      (img.direntsIn blknum).length = 32 := fun blknum _ => by
    simp [Image.direntsIn]
  rw [Image.directoryDirents,
    carries.fileBlocks_eq directory.1 directory.2.1]
  refine List.ext_getElem? fun slot => ?_
  have located := getElem?_flatMap_uniform uniform (slot / 32)
    (Nat.mod_lt slot (by decide : 0 < 32))
  rw [Nat.div_add_mod] at located
  rw [located]
  cases block : (layout inum).blocks[slot / 32]? with
  | none =>
      have behind := List.getElem?_eq_none_iff.mp block
      rw [List.getElem?_eq_none (by
        rw [List.length_append, List.length_replicate]
        omega)]
      rfl
  | some blknum =>
      have before := (List.getElem?_eq_some_iff.mp block).1
      have read : (img.direntsIn blknum)[slot % 32]? =
          some (img.direntAt (blknum * 512 + 16 * (slot % 32))) := by
        simp [Image.direntsIn, Nat.mod_lt]
      rw [Option.bind_some, read]
      have inside := Nat.mod_lt slot (by decide : 0 < 32)
      cases found : (fs.dirents inum)[slot]? with
      | some entry =>
          have here := (List.getElem?_eq_some_iff.mp found).1
          rw [List.getElem?_append_left here, found, carries.dirent_eq
            directory ok block inside (by rwa [Nat.div_add_mod])
            (narrow entry (List.mem_of_getElem? found))]
      | none =>
          have behind := List.getElem?_eq_none_iff.mp found
          rw [List.getElem?_append_right behind, List.getElem?_replicate,
            if_pos (by omega), carries.dirent_unused directory ok block inside
              (by rwa [Nat.div_add_mod])]

end Directories

end Carries

end Mkfs

end LinuxKernelDev
