import LinuxKernelDev.FsckVerdict
import LinuxKernelDev.Lsfs

/-!
# The layout behind an accepted superblock

`check_size` compares the size of the file system with the sum of its regions,
in 32-bit arithmetic.  The later address computations rely on the equation
between natural numbers, and those of the checker also on offsets below
`2 ^ 32`.  This file says for which superblocks the accepted equation has that
meaning.
-/

namespace LinuxKernelDev

/-- The regions of an image. -/
inductive Region where
  | boot
  | super
  | inodes
  | bitmap
  | data
  deriving DecidableEq

namespace Region

/-- Number of blocks of a region. -/
def length (size nblocks ninodes : Nat) : Region → Nat
  | boot => 1
  | super => 1
  | inodes => ninodes / 8 + 1
  | bitmap => size / 4096 + 1
  | data => nblocks

/-- First block of a region. -/
def start (size ninodes : Nat) : Region → Nat
  | boot => 0
  | super => 1
  | inodes => 2
  | bitmap => 2 + (ninodes / 8 + 1)
  | data => 2 + (ninodes / 8 + 1) + (size / 4096 + 1)

/-- The block lies in the region. -/
def Contains (size nblocks ninodes : Nat) (region : Region) (blknum : Nat) :
    Prop :=
  region.start size ninodes ≤ blknum ∧
    blknum < region.start size ninodes + region.length size nblocks ninodes

end Region

/-- A superblock describes an image: its regions make up the blocks of the
image, and all addresses that are computed from it are those of the regions. -/
structure RealLayout (size nblocks ninodes : Nat) (g : Fsck.Globals) :
    Prop where
  equation : size = 2 + (ninodes / 8 + 1) + (size / 4096 + 1) + nblocks
  covered : ∀ blknum < size, ∃! region,
    Region.Contains size nblocks ninodes region blknum
  inside : ∀ region blknum,
    Region.Contains size nblocks ninodes region blknum → blknum < size
  range : g.datblkstnum = Region.data.start size ninodes ∧
    g.datblkednum = size
  inode : ∀ inum < ninodes,
    Region.inodes.start size ninodes * 512 ≤ Image.inodeOffset inum ∧
      Image.inodeOffset inum + 64 ≤ (Region.inodes.start size ninodes +
        Region.inodes.length size nblocks ninodes) * 512
  bitmap : ∀ blknum, Region.Contains size nblocks ninodes .data blknum →
    Region.bitmap.start size ninodes * 512 ≤
        Image.bitmapOffset ninodes blknum ∧
      Image.bitmapOffset ninodes blknum < (Region.bitmap.start size ninodes +
        Region.bitmap.length size nblocks ninodes) * 512
  offset : ∀ blknum, Region.Contains size nblocks ninodes .data blknum →
    Image.blockOffset blknum = blknum * 512 ∧
      Lsfs.blkptr blknum = blknum * 512

namespace Fsck

/-- Without wrapping, and with no data block from `2 ^ 23` on, the layout is
real. -/
theorem realLayout_of_sum_lt {size nblocks ninodes : Nat} {g : Globals}
    (accepted : checkSize size nblocks ninodes = .ok g)
    (sum : nblocks + ninodes / 8 + size / 4096 + 4 < 4294967296)
    (small : nblocks = 0 ∨ size ≤ 8388608) :
    RealLayout size nblocks ninodes g := by
  obtain ⟨equation, rfl⟩ := checkSize_eq_ok_iff.mp accepted
  have start : (ninodes / 8 + 1 + (size / 4096 + 1) + 2) % 4294967296 =
      2 + (ninodes / 8 + 1) + (size / 4096 + 1) := by omega
  have exact : size = 2 + (ninodes / 8 + 1) + (size / 4096 + 1) + nblocks := by
    rw [start] at equation
    omega
  have contains : ∀ region blknum,
      Region.Contains size nblocks ninodes region blknum →
        blknum < size := by
    rintro (_ | _ | _ | _ | _) blknum ⟨lower, upper⟩ <;>
      simp only [Region.start, Region.length] at lower upper <;> omega
  refine
    { equation := exact
      covered := fun blknum below => ?_
      inside := contains
      range := ⟨start, rfl⟩
      inode := fun inum below => ?_
      bitmap := fun blknum inside => ?_
      offset := fun blknum inside => ?_ }
  · have unique : ∀ left right,
        Region.Contains size nblocks ninodes left blknum →
        Region.Contains size nblocks ninodes right blknum → left = right := by
      rintro (_ | _ | _ | _ | _) (_ | _ | _ | _ | _) ⟨leftLower, leftUpper⟩
        ⟨rightLower, rightUpper⟩ <;>
        simp only [Region.start, Region.length] at * <;> omega
    have some : ∃ region,
        Region.Contains size nblocks ninodes region blknum := by
      by_cases boot : blknum < 1
      · exact ⟨.boot, Nat.zero_le _, boot⟩
      by_cases super : blknum < 2
      · exact ⟨.super, Nat.le_of_not_lt boot, super⟩
      by_cases inodes : blknum < 2 + (ninodes / 8 + 1)
      · exact ⟨.inodes, Nat.le_of_not_lt super, inodes⟩
      by_cases bitmap : blknum < 2 + (ninodes / 8 + 1) + (size / 4096 + 1)
      · exact ⟨.bitmap, Nat.le_of_not_lt inodes, bitmap⟩
      · exact ⟨.data, Nat.le_of_not_lt bitmap, below.trans_eq exact⟩
    obtain ⟨region, holds⟩ := some
    exact ⟨region, holds, fun other otherHolds => unique _ _ otherHolds holds⟩
  · simp only [Region.start, Region.length, Image.inodeOffset]
    omega
  · have below := contains .data blknum inside
    simp only [Region.Contains, Region.start, Region.length,
      Image.bitmapOffset] at inside ⊢
    omega
  · have below := contains .data blknum inside
    simp only [Region.Contains, Region.length] at inside
    unfold Image.blockOffset Lsfs.blkptr
    omega

/-- An accepted superblock describes a real layout exactly if the sum of its
regions does not wrap, and there is no data block or the image has at most
`2 ^ 23` blocks. -/
theorem realLayout_iff (size nblocks ninodes : UInt32) (g : Globals)
    (accepted : checkSize size.toNat nblocks.toNat ninodes.toNat = .ok g) :
    RealLayout size.toNat nblocks.toNat ninodes.toNat g ↔
      nblocks.toNat + ninodes.toNat / 8 + size.toNat / 4096 + 4 <
          4294967296 ∧
        (nblocks.toNat = 0 ∨ size.toNat ≤ 8388608) := by
  constructor
  · intro layout
    have equation := layout.equation
    have bound := size.toNat_lt
    refine ⟨by omega, ?_⟩
    by_cases empty : nblocks.toNat = 0
    · exact .inl empty
    · have last : Region.Contains size.toNat nblocks.toNat ninodes.toNat .data
          (size.toNat - 1) := by
        simp only [Region.Contains, Region.start, Region.length]
        omega
      have offset := (layout.offset _ last).1
      unfold Image.blockOffset at offset
      omega
  · rintro ⟨sum, small⟩
    exact realLayout_of_sum_lt accepted sum small

theorem realLayout_mkfs :
    checkSize 1024 995 200 = .ok ⟨1024, 995, 200, 29, 1024⟩ ∧
      RealLayout 1024 995 200 ⟨1024, 995, 200, 29, 1024⟩ :=
  ⟨by decide, (realLayout_iff 1024 995 200 ⟨1024, 995, 200, 29, 1024⟩
    (by decide)).mpr (by decide)⟩

/-- A sum that wraps to zero, and a data block whose offset wraps. -/
theorem not_realLayout :
    (checkSize 0 4294967292 0 = .ok ⟨0, 4294967292, 0, 4, 0⟩ ∧
      ¬RealLayout 0 4294967292 0 ⟨0, 4294967292, 0, 4, 0⟩) ∧
    (checkSize 8388610 8386558 0 =
        .ok ⟨8388610, 8386558, 0, 2052, 8388610⟩ ∧
      ¬RealLayout 8388610 8386558 0 ⟨8388610, 8386558, 0, 2052, 8388610⟩) := by
  refine ⟨⟨by decide, fun layout => ?_⟩, ⟨by decide, fun layout => ?_⟩⟩
  · exact absurd layout.equation (by decide)
  · have wrapped := (layout.offset 8388609
      (by simp only [Region.Contains, Region.start, Region.length]; omega)).1
    exact absurd wrapped (by decide)

end Fsck

end LinuxKernelDev
