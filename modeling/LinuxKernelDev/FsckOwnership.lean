import LinuxKernelDev.DiskMetadata
import LinuxKernelDev.FsckVerdict

/-!
# Block ownership in accepted images

On an image of at most `2 ^ 23` blocks the checker's 32-bit block offsets are
exact, so its view of the image is the on-disk metadata.  If it accepts the
image, every data block marked in the bitmap is claimed exactly once, and no
other block is claimed.
-/

namespace LinuxKernelDev.Fsck

open LoopRules

section View

variable {img : Image} {g : Globals}

theorem blockOffset_of_lt {blknum : Nat} (small : blknum < 8388608) :
    Image.blockOffset blknum = blknum * 512 := by
  unfold Image.blockOffset
  exact Nat.mod_eq_of_lt (by omega)

theorem indirectBlocks_eq {inum : Nat}
    (small : img.inodeAddr inum 12 < 8388608) :
    indirectBlocks img inum = img.indirectAddrs inum := by
  unfold indirectBlocks Image.indirectAddrs Image.indirectWord
  rw [blockOffset_of_lt small]

theorem claims_eq {inum : Nat} (small : img.inodeAddr inum 12 < 8388608) :
    claims img inum = img.ownedBlocks inum := by
  unfold claims Image.ownedBlocks
  rw [indirectBlocks_eq small]

theorem dataBlocks_eq {inum : Nat}
    (small : img.inodeAddr inum 12 < 8388608) :
    dataBlocks img inum = img.fileBlocks inum := by
  unfold dataBlocks Image.fileBlocks
  rw [indirectBlocks_eq small]

theorem blockDirents_eq {blknum : Nat} (small : blknum < 8388608) :
    blockDirents img blknum = img.direntsIn blknum := by
  unfold blockDirents Image.direntsIn Image.blockDirent
  rw [blockOffset_of_lt small]

theorem scanned_iff_inUse {inum : Nat} (below : inum < img.sbNinodes) :
    Scanned img inum ↔ img.InUse inum := by
  unfold Scanned Image.InUse
  constructor
  · rintro ⟨nonzero, used⟩
    exact ⟨by omega, below, used⟩
  · rintro ⟨positive, -, used⟩
    exact ⟨by omega, used⟩

/-- The claims seen by the first pass are the block claims of the image. -/
theorem allClaims_eq
    (small : ∀ inum, img.InUse inum → img.inodeAddr inum 12 < 8388608) :
    allClaims img img.sbNinodes = img.blockClaims := by
  unfold allClaims Image.blockClaims Image.inUseInodes
  rw [flatMap_filter]
  apply List.flatMap_congr
  intro inum member
  have below := List.mem_range.mp member
  unfold inodeClaims
  by_cases scanned : Scanned img inum
  · have inUse := (scanned_iff_inUse below).mp scanned
    rw [if_pos scanned, if_pos inUse, claims_eq (small inum inUse)]
  · rw [if_neg scanned,
      if_neg (fun inUse => scanned ((scanned_iff_inUse below).mpr inUse))]

end View

/-- The globals of a run on an image. -/
structure Matches (img : Image) (g : Globals) : Prop where
  sbsize : g.sbsize = img.sbSize
  ninodes : g.ninodes = img.sbNinodes
  datblkstnum : g.datblkstnum = img.dataStart
  datblkednum : g.datblkednum = img.sbSize

theorem matches_of_eq {img : Image} {g : Globals}
    (globals : g = ⟨img.sbSize, img.sbNblocks, img.sbNinodes,
      (img.sbNinodes / 8 + 1 + (img.sbSize / 4096 + 1) + 2) % 4294967296,
      img.sbSize⟩) : Matches img g := by
  subst globals
  have ninodes : img.sbNinodes < 4294967296 := img.word32_lt 520
  have size : img.sbSize < 4294967296 := img.word32_lt 512
  refine ⟨rfl, rfl, Nat.mod_eq_of_lt ?_, rfl⟩
  omega

theorem matches_of_checkSize {img : Image} {g : Globals}
    (sized : checkSize img.sbSize img.sbNblocks img.sbNinodes = .ok g) :
    Matches img g :=
  matches_of_eq (checkSize_eq_ok_iff.mp sized).2

theorem Matches.inDataRange_iff {img : Image} {g : Globals}
    (globals : Matches img g) {blknum : Nat} :
    img.InDataRange blknum ↔
      g.datblkstnum ≤ blknum ∧ blknum < g.datblkednum := by
  rw [globals.datblkstnum, globals.datblkednum]
  rfl

/-- The indirect block of a sound inode lies in the data range. -/
theorem InodeSound.indirect_lt {img : Image} {g : Globals} {inum : Nat}
    (sound : InodeSound img g inum) (globals : Matches img g)
    (small : img.sbSize ≤ 8388608) (scanned : Scanned img inum) :
    img.inodeAddr inum 12 < 8388608 := by
  by_cases hole : img.inodeAddr inum 12 = 0
  · omega
  · have visited : (⟨false, img.inodeAddr inum 12⟩ : Visit) ∈
        visits img inum := by
      simp [visits, indirectVisits, hole]
    have upper : img.inodeAddr inum 12 < g.datblkednum :=
      (sound.visitsOk scanned _ visited).1.2.1
    rw [globals.datblkednum] at upper
    omega

/-- What the passes of an accepting run establish. -/
structure Accepts (img : Image) (g : Globals) (scan : Scan) : Prop where
  globals : g = ⟨img.sbSize, img.sbNblocks, img.sbNinodes,
    (img.sbNinodes / 8 + 1 + (img.sbSize / 4096 + 1) + 2) % 4294967296,
    img.sbSize⟩
  sound : ∀ inum < img.sbNinodes, InodeSound img g inum
  nodup : (allClaims img img.sbNinodes).Nodup
  described : Describes img g scan
  bitmap : bitmapPass img g scan = .ok ()
  references : ∀ inum, 1 ≤ inum → inum < img.sbNinodes →
    ReferencesOk img g scan inum

theorem exists_accepts_of_helper {img : Image} {g : Globals}
    (layout : checkSize img.sbSize img.sbNblocks img.sbNinodes = .ok g)
    (accepted : helper img g = .ok ()) : ∃ scan, Accepts img g scan := by
  obtain ⟨-, globals⟩ := checkSize_eq_ok_iff.mp layout
  have ninodes : g.ninodes = img.sbNinodes := by rw [globals]
  obtain ⟨scan, passed, bitmap, references⟩ := helper_eq_ok_iff.mp accepted
  obtain ⟨sound, nodup⟩ := firstPass_succeeds_iff.mp ⟨scan, passed⟩
  exact ⟨scan, globals, ninodes ▸ sound, ninodes ▸ nodup,
    describes_of_firstPass passed, bitmap,
    ninodes ▸ referencePass_eq_ok_iff.mp references⟩

theorem exists_accepts {img : Image} {stderr : String}
    (accepted : myfsck img = .exited 0 stderr) :
    ∃ g scan, checkSize img.sbSize img.sbNblocks img.sbNinodes = .ok g ∧
      Accepts img g scan := by
  obtain ⟨returned, -⟩ := myfsck_eq_exited_zero_iff.mp accepted
  obtain ⟨-, g, layout, helped⟩ := main_eq_ok_iff.mp returned
  obtain ⟨scan, accepts⟩ := exists_accepts_of_helper layout helped
  exact ⟨g, scan, layout, accepts⟩

namespace Accepts

variable {img : Image} {g : Globals} {scan : Scan}

theorem ninodes (accepts : Accepts img g scan) :
    g.ninodes = img.sbNinodes := by
  rw [accepts.globals]

theorem range (accepts : Accepts img g scan) :
    g.datblkednum = img.sbSize := by
  rw [accepts.globals]

section Ownership

variable (accepts : Accepts img g scan) (small : img.sbSize ≤ 8388608)

include accepts small

theorem indirect_lt {inum : Nat} (inUse : img.InUse inum) :
    img.inodeAddr inum 12 < 8388608 :=
  (accepts.sound inum inUse.2.1).indirect_lt
    (matches_of_eq accepts.globals) small
    ((scanned_iff_inUse inUse.2.1).mpr inUse)

theorem allClaims_eq_blockClaims :
    allClaims img img.sbNinodes = img.blockClaims :=
  allClaims_eq fun _ => accepts.indirect_lt small

theorem ownedBlocks_ok {inum blknum : Nat} (inUse : img.InUse inum)
    (member : blknum ∈ img.ownedBlocks inum) : BlockOk img g blknum := by
  have scanned := (scanned_iff_inUse inUse.2.1).mpr inUse
  rw [← claims_eq (accepts.indirect_lt small inUse), ← visits_map_blknum,
    List.mem_map] at member
  obtain ⟨visit, visited, rfl⟩ := member
  exact ((accepts.sound inum inUse.2.1).visitsOk scanned visit visited).1

theorem blockClaims_ok {blknum : Nat} (member : blknum ∈ img.blockClaims) :
    BlockOk img g blknum := by
  obtain ⟨inum, inumMem, owned⟩ := List.mem_flatMap.mp member
  exact accepts.ownedBlocks_ok small (img.mem_inUseInodes.mp inumMem) owned

theorem blockClaims_nodup : img.blockClaims.Nodup :=
  accepts.allClaims_eq_blockClaims small ▸ accepts.nodup

theorem bitmapBit_iff {blknum : Nat} (lower : g.datblkstnum ≤ blknum)
    (upper : blknum < g.datblkednum) :
    img.bitmapBit img.sbNinodes blknum = true ↔ blknum ∈ img.blockClaims := by
  rw [← accepts.ninodes]
  constructor
  · intro marked
    have visited :=
      ((bitmapPass_eq_ok_iff.mp accepts.bitmap blknum lower upper).2 marked).2
    have member := (accepts.described.visited blknum).mp visited
    rwa [accepts.ninodes, accepts.allClaims_eq_blockClaims small] at member
  · intro member
    exact (accepts.blockClaims_ok small member).2.2.2.2

theorem sizeFits {inum : Nat} (inUse : img.InUse inum) :
    Image.SizeFits (img.inodeSize inum) (img.fileBlocks inum).length := by
  have sizeOk := (accepts.sound inum inUse.2.1).sizeOk
    ((scanned_iff_inUse inUse.2.1).mpr inUse)
  rw [dataBlocks_eq (accepts.indirect_lt small inUse)] at sizeOk
  unfold SizeOk at sizeOk
  constructor
  · intro none
    simpa [none] using sizeOk
  · intro some
    rwa [if_neg (by omega)] at sizeOk

end Ownership

end Accepts

/-- In an accepted image of at most `2 ^ 23` blocks every block claim lies in
the data range, no block is claimed twice, the bitmap marks exactly the claimed
blocks of the data range, and every size fits the number of data blocks. -/
theorem blockOwnership_of_accepted (img : Image) (g : Globals)
    (small : img.sbSize ≤ 8388608)
    (layout : checkSize img.sbSize img.sbNblocks img.sbNinodes = .ok g)
    (accepted : helper img g = .ok ()) :
    (∀ blknum ∈ img.blockClaims,
      g.datblkstnum ≤ blknum ∧ blknum < g.datblkednum) ∧
    img.blockClaims.Nodup ∧
    (∀ blknum, g.datblkstnum ≤ blknum → blknum < g.datblkednum →
      (img.bitmapBit img.sbNinodes blknum = true ↔
        blknum ∈ img.blockClaims)) ∧
    ∀ inum, img.InUse inum →
      Image.SizeFits (img.inodeSize inum) (img.fileBlocks inum).length := by
  obtain ⟨scan, accepts⟩ := exists_accepts_of_helper layout accepted
  refine ⟨fun blknum member => ?_, accepts.blockClaims_nodup small,
    fun blknum => accepts.bitmapBit_iff small,
    fun inum => accepts.sizeFits small⟩
  obtain ⟨lower, upper, -⟩ := accepts.blockClaims_ok small member
  exact ⟨lower, upper⟩

theorem blockOwnership_sample :
    Image.sample.blockClaims = [4, 5, 6] ∧ Image.sample.blockClaims.Nodup ∧
      ∀ blknum, 4 ≤ blknum → blknum < 7 →
        (Image.sample.bitmapBit Image.sample.sbNinodes blknum = true ↔
          blknum ∈ Image.sample.blockClaims) := by
  have owned := blockOwnership_of_accepted Image.sample ⟨7, 3, 4, 4, 7⟩
    (by decide +kernel) (by decide +kernel) (by decide +kernel)
  exact ⟨by decide +kernel, owned.2.1, owned.2.2.1⟩

end LinuxKernelDev.Fsck
