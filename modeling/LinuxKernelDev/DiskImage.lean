import Mathlib.Data.List.Basic
import Mathlib.Logic.Function.Basic

/-!
# On-disk format of the checked file system

This file models `fs.h`: a file system image is a sequence of 512-byte blocks.
Block 0 is unused, block 1 is the superblock, inodes start at block 2 and are
followed by the free bitmap and the data blocks.  An inode is a 64-byte record
and a directory entry a 16-byte record; integers are little endian.

The tools read an image through `mmap`, so a load behind the end of the file
but inside its last page gives zero.  Behind that page nothing of the file is
mapped: a load there ends in `SIGSEGV` or reads another mapping.
-/

namespace LinuxKernelDev

/-- The contents of an image file, with its length `st_size`. -/
structure Image where
  stSize : Nat
  byte : Nat → UInt8

/-- A `struct dirent`: an inode number and a 14-byte name field. -/
structure Dirent where
  inum : Nat
  name : List UInt8
  deriving DecidableEq

/-- The two's complement reading of a 16-bit word, as for a C `short`. -/
def int16 (word : Nat) : Int := Int.bmod word 65536

/-- Whether `strncmp` of two zero-terminated strings over at most `limit`
bytes is zero. -/
def strncmpIsZero : Nat → List UInt8 → List UInt8 → Bool
  | 0, _, _ => true
  | limit + 1, first :: firsts, second :: seconds =>
      first == second &&
        (first == 0 || strncmpIsZero limit firsts seconds)
  | _ + 1, _, _ => false

/-- `strncmp(".", name, DIRSIZ) == 0`. -/
def isDot (name : List UInt8) : Bool := strncmpIsZero 14 [46, 0] name

/-- `strncmp("..", name, DIRSIZ) == 0`. -/
def isDotdot (name : List UInt8) : Bool := strncmpIsZero 14 [46, 46, 0] name

namespace Dirent

/-- A used entry named `.`. -/
def isSelf (entry : Dirent) : Bool := entry.inum != 0 && isDot entry.name

/-- A used entry named `..`. -/
def isParent (entry : Dirent) : Bool :=
  entry.inum != 0 && isDotdot entry.name

/-- A used entry with any other name. -/
def isChild (entry : Dirent) : Bool :=
  entry.inum != 0 && !isDot entry.name && !isDotdot entry.name

end Dirent

theorem isDotdot_eq_false_of_isDot {name : List UInt8} (dot : isDot name = true) :
    isDotdot name = false := by
  match name with
  | [] => rfl
  | [_] => simp [isDotdot, strncmpIsZero]
  | first :: second :: rest =>
      simp only [isDot, isDotdot, strncmpIsZero] at dot ⊢
      by_cases terminated : second = 0
      · simp [terminated]
      · simp [Ne.symm terminated] at dot

namespace Image

variable (img : Image)

/-- Number of bytes of the mapping that can be loaded: whole pages. -/
def mapped : Nat := (img.stSize + 4095) / 4096 * 4096

/-- A loadable range of the mapping. -/
def Maps (offset length : Nat) : Prop := offset + length ≤ img.mapped

instance (offset length : Nat) : Decidable (img.Maps offset length) :=
  inferInstanceAs (Decidable (_ ≤ _))

/-- The mapped byte at an offset; the tail of the last page is zero. -/
def mem (offset : Nat) : UInt8 :=
  if offset < img.stSize then img.byte offset else 0

def word16 (offset : Nat) : Nat :=
  (img.mem offset).toNat + 256 * (img.mem (offset + 1)).toNat

def word32 (offset : Nat) : Nat :=
  img.word16 offset + 65536 * img.word16 (offset + 2)

/-- The `struct dirent` stored at an offset. -/
def direntAt (offset : Nat) : Dirent where
  inum := img.word16 offset
  name := (List.range 14).map fun position => img.mem (offset + 2 + position)

/-- Superblock field `size`, in blocks. -/
def sbSize : Nat := img.word32 512

/-- Superblock field `nblocks`. -/
def sbNblocks : Nat := img.word32 516

/-- Superblock field `ninodes`. -/
def sbNinodes : Nat := img.word32 520

/-- Offset of inode `inum`: the inode table starts at block 2. -/
def inodeOffset (inum : Nat) : Nat := 1024 + 64 * inum

def inodeType (inum : Nat) : Int := int16 (img.word16 (inodeOffset inum))

def inodeNlink (inum : Nat) : Int := int16 (img.word16 (inodeOffset inum + 6))

def inodeSize (inum : Nat) : Nat := img.word32 (inodeOffset inum + 8)

/-- Entry `index` of `addrs`: twelve direct addresses, then the indirect
block. -/
def inodeAddr (inum index : Nat) : Nat :=
  img.word32 (inodeOffset inum + 12 + 4 * index)

/-- The non-zero direct addresses of an inode, in order. -/
def directAddrs (inum : Nat) : List Nat :=
  ((List.range 12).map (img.inodeAddr inum)).filter (fun blknum =>
    decide (blknum ≠ 0))

/-- The 32-bit offset `blknum * BSIZE` computed by the checker. -/
def blockOffset (blknum : Nat) : Nat := blknum * 512 % 4294967296

/-- Word `index` of an indirect block. -/
def indirectWord (blknum index : Nat) : Nat :=
  img.word32 (blockOffset blknum + 4 * index)

/-- Directory entry `index` of a directory block. -/
def blockDirent (blknum index : Nat) : Dirent :=
  img.direntAt (blockOffset blknum + 16 * index)

/-- Offset of the bitmap byte of a block: `BBLOCK(b, ninodes) * BSIZE` and the
byte position in that block. -/
def bitmapOffset (ninodes blknum : Nat) : Nat :=
  (blknum / 4096 + ninodes / 8 + 3) * 512 + blknum % 4096 / 8

/-- The bitmap bit of a block. -/
def bitmapBit (ninodes blknum : Nat) : Bool :=
  (img.mem (bitmapOffset ninodes blknum)).toNat.testBit (blknum % 8)

theorem word16_lt (offset : Nat) : img.word16 offset < 65536 := by
  have low := (img.mem offset).toNat_lt
  have high := (img.mem (offset + 1)).toNat_lt
  simp only [word16]
  omega

theorem word32_lt (offset : Nat) : img.word32 offset < 4294967296 := by
  have low := img.word16_lt offset
  have high := img.word16_lt (offset + 2)
  simp only [word32]
  omega

end Image

end LinuxKernelDev
