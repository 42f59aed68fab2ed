import LinuxKernelDev.DiskMetadata
import Mathlib.Data.List.FinRange
import Mathlib.Data.List.Perm.Basic

/-!
# Images in another order

An image can be changed by putting the entries of a directory block, the direct
addresses of an inode or the words of an indirect block into another order.
None of these changes touches the superblock, the bitmap or the other fields of
an inode, and each can be undone by one of the same kind.
-/

namespace LinuxKernelDev.Image

/-- `other` is `img` with `count` records of `width` bytes, which start at
`base`, in another order. -/
structure Permutes (img other : Image) (base width count : Nat)
    (order : Equiv.Perm (Fin count)) : Prop where
  stSize : other.stSize = img.stSize
  outside : ∀ offset, offset < base ∨ base + width * count ≤ offset →
    other.mem offset = img.mem offset
  inside : ∀ index : Fin count, ∀ position < width,
    other.mem (base + width * index + position) =
      img.mem (base + width * order index + position)

theorem map_range_perm {α : Type} {count : Nat} {first second : Nat → α}
    (order : Equiv.Perm (Fin count))
    (same : ∀ index : Fin count, first index = second (order index)) :
    ((List.range count).map first).Perm ((List.range count).map second) := by
  have listed : ∀ read : Nat → α, (List.range count).map read =
      List.ofFn fun index : Fin count => read index := by
    intro read
    rw [List.ofFn_eq_map, ← List.map_coe_finRange_eq_range, List.map_map]
    rfl
  rw [listed, listed, funext same]
  exact order.ofFn_comp_perm fun index => second index

namespace Permutes

variable {img other : Image} {base width count : Nat}
  {order : Equiv.Perm (Fin count)}

theorem symm (permutes : img.Permutes other base width count order) :
    other.Permutes img base width count order.symm where
  stSize := permutes.stSize.symm
  outside offset away := (permutes.outside offset away).symm
  inside index position below := by
    rw [permutes.inside _ position below, Equiv.apply_symm_apply]

theorem sameBytes_record (permutes : img.Permutes other base width count order)
    (index : Fin count) :
    SameBytes other img (base + width * index) (base + width * order index)
      width :=
  permutes.inside index

theorem sameBytes_outside
    (permutes : img.Permutes other base width count order)
    {start length : Nat}
    (away : start + length ≤ base ∨ base + width * count ≤ start) :
    SameBytes other img start start length := by
  intro position below
  exact permutes.outside _ (by omega)

/-- Two records exchanged. -/
theorem of_swap {first second : Fin count} (stSize : other.stSize = img.stSize)
    (outside : ∀ offset,
      offset < base + width * first ∨ base + width * (first + 1) ≤ offset →
      offset < base + width * second ∨ base + width * (second + 1) ≤ offset →
        other.mem offset = img.mem offset)
    (toFirst : SameBytes other img (base + width * first)
      (base + width * second) width)
    (toSecond : SameBytes other img (base + width * second)
      (base + width * first) width) :
    img.Permutes other base width count (Equiv.swap first second) := by
  have within : ∀ index : Fin count, width * (index + 1) ≤ width * count :=
    fun index => Nat.mul_le_mul_left width index.isLt
  have apart : ∀ {index record : Fin count}, index ≠ record →
      ∀ position < width,
        base + width * index + position < base + width * record ∨
          base + width * (record + 1) ≤ base + width * index + position := by
    intro index record different position below
    rcases Nat.lt_or_gt_of_ne (Fin.val_ne_of_ne different) with before | after
    · have room : width * (index + 1) ≤ width * record :=
        Nat.mul_le_mul_left width before
      rw [Nat.mul_add_one] at room
      omega
    · have room : width * (record + 1) ≤ width * index :=
        Nat.mul_le_mul_left width after
      omega
  refine ⟨stSize, fun offset away => ?_, fun index position below => ?_⟩
  · have firstWithin := within first
    have secondWithin := within second
    exact outside offset (by omega) (by omega)
  · by_cases isFirst : index = first
    · rw [isFirst, Equiv.swap_apply_left]
      exact toFirst position below
    by_cases isSecond : index = second
    · rw [isSecond, Equiv.swap_apply_right]
      exact toSecond position below
    · rw [Equiv.swap_apply_of_ne_of_ne isFirst isSecond]
      exact outside _ (apart isFirst position below)
        (apart isSecond position below)

theorem word16_outside (permutes : img.Permutes other base width count order)
    {offset : Nat} (away : offset + 2 ≤ base ∨ base + width * count ≤ offset) :
    other.word16 offset = img.word16 offset :=
  (permutes.sameBytes_outside away).word16_eq 0 (by omega)

theorem word32_outside (permutes : img.Permutes other base width count order)
    {offset : Nat} (away : offset + 4 ≤ base ∨ base + width * count ≤ offset) :
    other.word32 offset = img.word32 offset :=
  (permutes.sameBytes_outside away).word32_eq 0 (by omega)

/-- The words of the records are in another order. -/
theorem words_perm {order : Equiv.Perm (Fin count)}
    (permutes : img.Permutes other base 4 count order) :
    ((List.range count).map fun index => other.word32 (base + 4 * index)).Perm
      ((List.range count).map fun index => img.word32 (base + 4 * index)) :=
  map_range_perm order fun index =>
    (permutes.sameBytes_record index).word32_eq 0 (by omega)

theorem dirents_perm {order : Equiv.Perm (Fin count)}
    (permutes : img.Permutes other base 16 count order) :
    ((List.range count).map fun index =>
        other.direntAt (base + 16 * index)).Perm
      ((List.range count).map fun index =>
        img.direntAt (base + 16 * index)) :=
  map_range_perm order fun index =>
    (permutes.sameBytes_record index).direntAt_eq 0 (by omega)

end Permutes

/-- The changes that put parts of an image into another order.  The block that
is changed lies in the data range. -/
inductive Reorders (img other : Image) : Prop where
  | dirents (inum blknum : Nat) (order : Equiv.Perm (Fin 32))
      (directory : img.IsDirectory inum)
      (owned : blknum ∈ img.fileBlocks inum)
      (inside : img.InDataRange blknum)
      (permutes : img.Permutes other (blknum * 512) 16 32 order)
  | addrs (inum : Nat) (order : Equiv.Perm (Fin 12))
      (inUse : img.InUse inum)
      (permutes : img.Permutes other (inodeOffset inum + 12) 4 12 order)
  | words (inum : Nat) (order : Equiv.Perm (Fin 128))
      (inUse : img.InUse inum)
      (inside : img.InDataRange (img.inodeAddr inum 12))
      (permutes : img.Permutes other (img.inodeAddr inum 12 * 512) 4 128
        order)

/-- The parts of two images that no reordering changes. -/
structure SameTables (img other : Image) : Prop where
  stSize : other.stSize = img.stSize
  sbSize : other.sbSize = img.sbSize
  sbNblocks : other.sbNblocks = img.sbNblocks
  sbNinodes : other.sbNinodes = img.sbNinodes
  types : ∀ inum ≤ img.sbNinodes, other.inodeType inum = img.inodeType inum
  nlinks : ∀ inum < img.sbNinodes, other.inodeNlink inum = img.inodeNlink inum
  sizes : ∀ inum < img.sbNinodes, other.inodeSize inum = img.inodeSize inum
  indirect : ∀ inum < img.sbNinodes,
    other.inodeAddr inum 12 = img.inodeAddr inum 12
  bitmap : ∀ blknum, img.InDataRange blknum →
    other.bitmapBit img.sbNinodes blknum = img.bitmapBit img.sbNinodes blknum

namespace SameTables

variable {img other : Image}

theorem dataStart (same : SameTables img other) :
    other.dataStart = img.dataStart := by
  rw [Image.dataStart, Image.dataStart, same.sbSize, same.sbNinodes]

theorem inDataRange_iff (same : SameTables img other) {blknum : Nat} :
    other.InDataRange blknum ↔ img.InDataRange blknum := by
  rw [InDataRange, InDataRange, same.dataStart, same.sbSize]

theorem inUse_iff (same : SameTables img other) {inum : Nat} :
    other.InUse inum ↔ img.InUse inum := by
  unfold InUse
  rw [same.sbNinodes]
  constructor
  · rintro ⟨positive, below, used⟩
    exact ⟨positive, below, same.types inum below.le ▸ used⟩
  · rintro ⟨positive, below, used⟩
    exact ⟨positive, below, (same.types inum below.le).symm ▸ used⟩

theorem isDirectory_iff (same : SameTables img other) {inum : Nat} :
    other.IsDirectory inum ↔ img.IsDirectory inum := by
  unfold IsDirectory
  rw [same.inUse_iff]
  exact and_congr_right fun inUse => by rw [same.types inum inUse.2.1.le]

end SameTables

section Layout

variable {img other : Image} {base width count : Nat}
  {order : Equiv.Perm (Fin count)}

/-- Records apart from the superblock, the bitmap and the other fields of an
inode. -/
theorem Permutes.sameTables
    (permutes : img.Permutes other base width count order)
    (superblock : 524 ≤ base)
    (heads : ∀ inum ≤ img.sbNinodes, inodeOffset inum + 12 ≤ base ∨
      base + width * count ≤ inodeOffset inum)
    (tails : ∀ inum < img.sbNinodes, inodeOffset inum + 64 ≤ base ∨
      base + width * count ≤ inodeOffset inum + 60)
    (bits : ∀ blknum, img.InDataRange blknum →
      bitmapOffset img.sbNinodes blknum + 1 ≤ base ∨
        base + width * count ≤ bitmapOffset img.sbNinodes blknum) :
    SameTables img other where
  stSize := permutes.stSize
  sbSize := permutes.word32_outside (.inl (by omega))
  sbNblocks := permutes.word32_outside (.inl (by omega))
  sbNinodes := permutes.word32_outside (.inl (by omega))
  types inum inTable := by
    have away := heads inum inTable
    exact congrArg int16 (permutes.word16_outside (by omega))
  nlinks inum inTable := by
    have away := heads inum inTable.le
    exact congrArg int16 (permutes.word16_outside (by omega))
  sizes inum inTable := by
    have away := heads inum inTable.le
    exact permutes.word32_outside (by omega)
  indirect inum inTable := by
    have away := tails inum inTable
    exact permutes.word32_outside (by omega)
  bitmap blknum inside := by
    unfold bitmapBit
    rw [permutes.outside _ (by have away := bits blknum inside; omega)]

theorem inodeOffset_add_le (img : Image) {inum : Nat}
    (inTable : inum ≤ img.sbNinodes) :
    inodeOffset inum + 64 ≤ (img.sbNinodes / 8 + 3) * 512 := by
  unfold inodeOffset
  omega

theorem bitmapOffset_lt (img : Image) {blknum : Nat}
    (inside : img.InDataRange blknum) :
    (img.sbNinodes / 8 + 3) * 512 ≤ bitmapOffset img.sbNinodes blknum ∧
      bitmapOffset img.sbNinodes blknum < img.dataStart * 512 := by
  have below := inside.2
  unfold bitmapOffset dataStart
  omega

theorem tables_le_dataStart (img : Image) :
    (img.sbNinodes / 8 + 3) * 512 ≤ img.dataStart * 512 := by
  unfold dataStart
  omega

theorem Permutes.sameTables_of_block {blknum : Nat}
    (permutes : img.Permutes other (blknum * 512) width count order)
    (inside : img.InDataRange blknum) : SameTables img other := by
  have start := Nat.mul_le_mul_right 512 inside.1
  have tables := img.tables_le_dataStart
  refine permutes.sameTables (by omega) (fun inum inTable => .inl ?_)
    (fun inum inTable => .inl ?_) (fun marked within => .inl ?_)
  · have below := img.inodeOffset_add_le inTable
    omega
  · exact (img.inodeOffset_add_le inTable.le).trans (tables.trans start)
  · exact (img.bitmapOffset_lt within).2.trans_le start

theorem Permutes.directAddrs_of_block {blknum inum : Nat}
    (permutes : img.Permutes other (blknum * 512) width count order)
    (inside : img.InDataRange blknum) (inTable : inum < img.sbNinodes) :
    other.directAddrs inum = img.directAddrs inum := by
  have start := Nat.mul_le_mul_right 512 inside.1
  have tables := img.tables_le_dataStart
  have below := img.inodeOffset_add_le inTable.le
  unfold directAddrs
  rw [List.map_congr_left fun index member => ?_]
  have bound := List.mem_range.mp member
  exact permutes.word32_outside (.inl (by omega))

theorem Permutes.sameTables_of_addrs {inum : Nat}
    {order : Equiv.Perm (Fin 12)}
    (permutes : img.Permutes other (inodeOffset inum + 12) 4 12 order)
    (inTable : inum < img.sbNinodes) : SameTables img other := by
  have own := img.inodeOffset_add_le inTable.le
  refine permutes.sameTables ?_ (fun other _ => ?_) (fun other _ => ?_)
    (fun blknum within => .inr ?_)
  · unfold inodeOffset
    omega
  · unfold inodeOffset
    omega
  · unfold inodeOffset
    omega
  · have above := (img.bitmapOffset_lt within).1
    omega

theorem Permutes.directAddrs_of_addrs {inum holder : Nat}
    {order : Equiv.Perm (Fin 12)}
    (permutes : img.Permutes other (inodeOffset inum + 12) 4 12 order) :
    (other.directAddrs holder).Perm (img.directAddrs holder) := by
  by_cases own : holder = inum
  · rw [own]
    exact permutes.words_perm.filter _
  · unfold directAddrs
    rw [List.map_congr_left fun index member => ?_]
    have bound := List.mem_range.mp member
    refine permutes.word32_outside ?_
    unfold inodeOffset
    omega

end Layout

section Blocks

variable {img other : Image} {blknum : Nat}

/-- The other blocks stay as they are. -/
theorem Permutes.sameBytes_block {width count changed : Nat}
    {order : Equiv.Perm (Fin count)}
    (permutes : img.Permutes other (changed * 512) width count order)
    (whole : width * count = 512) (different : blknum ≠ changed) :
    SameBytes other img (blknum * 512) (blknum * 512) 512 := by
  refine permutes.sameBytes_outside ?_
  omega

theorem SameBytes.direntsIn_eq
    (same : SameBytes other img (blknum * 512) (blknum * 512) 512) :
    other.direntsIn blknum = img.direntsIn blknum :=
  List.map_congr_left fun index member =>
    same.direntAt_eq (16 * index) (by have := List.mem_range.mp member; omega)

theorem SameBytes.indirectAddrs_eq {inum : Nat}
    (same : SameBytes other img (img.inodeAddr inum 12 * 512)
      (img.inodeAddr inum 12 * 512) 512)
    (indirect : other.inodeAddr inum 12 = img.inodeAddr inum 12) :
    other.indirectAddrs inum = img.indirectAddrs inum := by
  unfold indirectAddrs
  rw [indirect]
  split_ifs
  · rfl
  rw [List.map_congr_left fun index member => ?_]
  have below := List.mem_range.mp member
  exact same.word32_eq (4 * index) (by omega)

end Blocks

/-- A block that is changed record by record still holds its addresses. -/
theorem Permutes.mem_indirectAddrs {img other : Image} {inum blknum : Nat}
    {order : Equiv.Perm (Fin 32)}
    (permutes : img.Permutes other (blknum * 512) 16 32 order)
    (indirect : other.inodeAddr inum 12 = img.inodeAddr inum 12) {address : Nat}
    (member : address ∈ img.indirectAddrs inum) :
    address ∈ other.indirectAddrs inum := by
  unfold indirectAddrs at member ⊢
  rw [indirect]
  split_ifs at member ⊢ with hole
  · exact member
  obtain ⟨listed, nonzero⟩ := List.mem_filter.mp member
  refine List.mem_filter.mpr ⟨?_, nonzero⟩
  obtain ⟨index, below, rfl⟩ := List.mem_map.mp listed
  have bound := List.mem_range.mp below
  by_cases own : img.inodeAddr inum 12 = blknum
  · -- The word is moved together with its record.
    have place : index / 4 < 32 := by omega
    have moved := (permutes.sameBytes_record
      (order.symm ⟨index / 4, place⟩)).word32_eq (4 * (index % 4)) (by omega)
    rw [Equiv.apply_symm_apply] at moved
    refine List.mem_map.mpr ⟨4 * (order.symm ⟨index / 4, place⟩) + index % 4,
      List.mem_range.mpr (by omega), ?_⟩
    rw [own]
    convert moved using 2
    · omega
    · simp only
      omega
  · refine List.mem_map.mpr ⟨index, below, permutes.word32_outside ?_⟩
    omega

/-- Reordering can be undone. -/
theorem Reorders.sameTables {img other : Image}
    (reorders : Reorders img other) : SameTables img other := by
  cases reorders with
  | dirents inum blknum order directory owned inside permutes =>
      exact permutes.sameTables_of_block inside
  | addrs inum order inUse permutes =>
      exact permutes.sameTables_of_addrs inUse.2.1
  | words inum order inUse inside permutes =>
      exact permutes.sameTables_of_block inside

theorem Reorders.symm {img other : Image} (reorders : Reorders img other) :
    Reorders other img := by
  have same := reorders.sameTables
  cases reorders with
  | dirents inum blknum order directory owned inside permutes =>
      have inTable := directory.1.2.1
      refine .dirents inum blknum order.symm (same.isDirectory_iff.mpr directory)
        ?_ (same.inDataRange_iff.mpr inside) permutes.symm
      unfold fileBlocks at owned ⊢
      rw [permutes.directAddrs_of_block inside inTable]
      refine (List.mem_append.mp owned).elim (List.mem_append_left _)
        fun member => List.mem_append_right _ ?_
      exact permutes.mem_indirectAddrs (same.indirect inum inTable) member
  | addrs inum order inUse permutes =>
      exact .addrs inum order.symm (same.inUse_iff.mpr inUse) permutes.symm
  | words inum order inUse inside permutes =>
      have indirect := same.indirect inum inUse.2.1
      refine .words inum order.symm (same.inUse_iff.mpr inUse) ?_ ?_
      · rw [indirect]
        exact same.inDataRange_iff.mpr inside
      · rw [indirect]
        exact permutes.symm

end LinuxKernelDev.Image
