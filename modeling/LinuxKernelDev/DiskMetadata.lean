import LinuxKernelDev.DiskImage
import LinuxKernelDev.LoopRules

/-!
# What an image says

The metadata of an image, read from the on-disk format alone: which inodes are
in use, which blocks they own, and which entries their directories hold.  All
statements about the checker and about `mkfs` are made in these terms.
-/

namespace LinuxKernelDev.Image

variable (img : Image)

/-- Number of the first data block, over the natural numbers. -/
def dataStart : Nat := img.sbNinodes / 8 + 1 + (img.sbSize / 4096 + 1) + 2

/-- The blocks behind the bitmap, up to the size in the superblock. -/
def InDataRange (blknum : Nat) : Prop :=
  img.dataStart ≤ blknum ∧ blknum < img.sbSize

/-- Inode 0 is reserved; the others are in use unless their type is zero. -/
def InUse (inum : Nat) : Prop :=
  1 ≤ inum ∧ inum < img.sbNinodes ∧ img.inodeType inum ≠ 0

instance (inum : Nat) : Decidable (img.InUse inum) :=
  inferInstanceAs (Decidable (_ ∧ _))

def IsDirectory (inum : Nat) : Prop :=
  img.InUse inum ∧ img.inodeType inum = 1

instance (inum : Nat) : Decidable (img.IsDirectory inum) :=
  inferInstanceAs (Decidable (_ ∧ _))

/-- The non-zero addresses in the indirect block of an inode, in order. -/
def indirectAddrs (inum : Nat) : List Nat :=
  if img.inodeAddr inum 12 = 0 then
    []
  else
    ((List.range 128).map fun index =>
      img.word32 (img.inodeAddr inum 12 * 512 + 4 * index)).filter
        (fun blknum => decide (blknum ≠ 0))

/-- The data blocks of an inode, without its indirect block. -/
def fileBlocks (inum : Nat) : List Nat :=
  img.directAddrs inum ++ img.indirectAddrs inum

/-- The blocks claimed by an inode: its data blocks and its indirect block. -/
def ownedBlocks (inum : Nat) : List Nat :=
  img.directAddrs inum ++
    if img.inodeAddr inum 12 = 0 then []
    else img.inodeAddr inum 12 :: img.indirectAddrs inum

def inUseInodes : List Nat :=
  (List.range img.sbNinodes).filter fun inum => decide (img.InUse inum)

/-- The block claims of all in-use inodes, with repetitions. -/
def blockClaims : List Nat := img.inUseInodes.flatMap img.ownedBlocks

/-- The 32 directory entries in a block. -/
def direntsIn (blknum : Nat) : List Dirent :=
  (List.range 32).map fun index => img.direntAt (blknum * 512 + 16 * index)

/-- The slots of the data blocks of a directory. -/
def directoryDirents (inum : Nat) : List Dirent :=
  (img.fileBlocks inum).flatMap img.direntsIn

/-- The slots of all in-use directories, each with its directory. -/
def slots : List (Nat × Dirent) :=
  (img.inUseInodes.filter fun inum =>
    decide (img.inodeType inum = 1)).flatMap fun inum =>
      (img.directoryDirents inum).map (Prod.mk inum)

/-- The used entries of all in-use directories apart from `.` and `..`, each
with the directory that holds it. -/
def entries : List (Nat × Dirent) :=
  img.slots.filter fun slot => slot.2.isChild

/-- Number of entries that name an inode. -/
def entriesNaming (inum : Nat) : Nat :=
  img.entries.countP fun entry => entry.2.inum == inum

/-- A directory holds an entry that names an inode. -/
def Holds (holder inum : Nat) : Prop :=
  ∃ entry ∈ img.entries, entry.1 = holder ∧ entry.2.inum = inum

/-- A `..` entry of a directory names an inode. -/
def DotdotNames (inum parent : Nat) : Prop :=
  ∃ entry ∈ img.directoryDirents inum,
    entry.isParent = true ∧ entry.inum = parent

/-- The number of block `fbn` of a file, through `addrs` and the indirect
block. -/
def fileBlock (img : Image) (inum fbn : Nat) : Nat :=
  if fbn < 12 then img.inodeAddr inum fbn
  else img.word32 (img.inodeAddr inum 12 * 512 + 4 * (fbn - 12))

/-- The bytes of a file. -/
def contents (img : Image) (inum : Nat) : List UInt8 :=
  (List.range (img.inodeSize inum)).map fun position =>
    img.mem (img.fileBlock inum (position / 512) * 512 + position % 512)

/-- The sizes that fit a number of data blocks: the last block is needed and
large enough. -/
def SizeFits (size blocks : Nat) : Prop :=
  (blocks = 0 → size = 0) ∧
    (0 < blocks → (blocks - 1) * 512 < size ∧ size ≤ blocks * 512)

@[simp]
theorem mem_inUseInodes {inum : Nat} :
    inum ∈ img.inUseInodes ↔ img.InUse inum := by
  simp only [inUseInodes, List.mem_filter, List.mem_range, decide_eq_true_eq,
    and_iff_right_iff_imp]
  exact fun inUse => inUse.2.1

theorem fileBlocks_subset_ownedBlocks (inum : Nat) :
    img.fileBlocks inum ⊆ img.ownedBlocks inum := by
  intro blknum member
  unfold fileBlocks at member
  unfold ownedBlocks
  rcases List.mem_append.mp member with direct | indirect
  · exact List.mem_append_left _ direct
  · apply List.mem_append_right
    unfold indirectAddrs at indirect ⊢
    split_ifs at indirect ⊢ with hole
    · exact indirect
    · exact List.mem_cons_of_mem _ indirect

theorem mem_slots {holder : Nat} {entry : Dirent} :
    (holder, entry) ∈ img.slots ↔
      img.IsDirectory holder ∧ entry ∈ img.directoryDirents holder := by
  simp only [slots, List.mem_flatMap, List.mem_filter, mem_inUseInodes,
    decide_eq_true_eq, List.mem_map, Prod.mk.injEq, IsDirectory]
  constructor
  · rintro ⟨_, directory, _, member, rfl, rfl⟩
    exact ⟨directory, member⟩
  · rintro ⟨directory, member⟩
    exact ⟨holder, directory, entry, member, rfl, rfl⟩

theorem holds_iff {holder inum : Nat} :
    img.Holds holder inum ↔
      img.IsDirectory holder ∧ ∃ entry ∈ img.directoryDirents holder,
        entry.isChild = true ∧ entry.inum = inum := by
  constructor
  · rintro ⟨⟨_, entry⟩, member, rfl, rfl⟩
    obtain ⟨slot, child⟩ := List.mem_filter.mp member
    obtain ⟨directory, located⟩ := (img.mem_slots).mp slot
    exact ⟨directory, entry, located, child, rfl⟩
  · rintro ⟨directory, entry, located, child, rfl⟩
    exact ⟨(holder, entry), List.mem_filter.mpr
      ⟨(img.mem_slots).mpr ⟨directory, located⟩, child⟩, rfl, rfl⟩

theorem exists_holds_of_entriesNaming {inum : Nat}
    (named : img.entriesNaming inum ≠ 0) : ∃ holder, img.Holds holder inum := by
  obtain ⟨⟨holder, entry⟩, member, naming⟩ :=
    List.countP_pos_iff.mp (Nat.pos_of_ne_zero named)
  exact ⟨holder, _, member, rfl, by simpa using naming⟩

theorem entriesNaming_ne_zero_of_holds {holder inum : Nat}
    (held : img.Holds holder inum) : img.entriesNaming inum ≠ 0 := by
  obtain ⟨entry, member, -, naming⟩ := held
  have positive : 0 < img.entriesNaming inum :=
    List.countP_pos_iff.mpr ⟨entry, member, by simpa using naming⟩
  omega

theorem Holds.unique {img : Image} {left right inum : Nat}
    (once : img.entriesNaming inum = 1) (leftHolds : img.Holds left inum)
    (rightHolds : img.Holds right inum) : left = right := by
  obtain ⟨leftEntry, leftMem, rfl, leftNames⟩ := leftHolds
  obtain ⟨rightEntry, rightMem, rfl, rightNames⟩ := rightHolds
  rw [LoopRules.eq_of_countP_eq_one once leftMem (by simpa using leftNames)
    rightMem (by simpa using rightNames)]

theorem exists_dotdotNames {inum : Nat}
    (once : (img.directoryDirents inum).countP Dirent.isParent = 1) :
    ∃ parent, img.DotdotNames inum parent := by
  obtain ⟨entry, member, isParent⟩ :=
    List.countP_pos_iff.mp (once ▸ Nat.one_pos)
  exact ⟨entry.inum, entry, member, isParent, rfl⟩

theorem DotdotNames.unique {img : Image} {inum left right : Nat}
    (once : (img.directoryDirents inum).countP Dirent.isParent = 1)
    (leftNames : img.DotdotNames inum left)
    (rightNames : img.DotdotNames inum right) : left = right := by
  obtain ⟨leftEntry, leftMem, leftParent, rfl⟩ := leftNames
  obtain ⟨rightEntry, rightMem, rightParent, rfl⟩ := rightNames
  rw [LoopRules.eq_of_countP_eq_one once leftMem leftParent rightMem
    rightParent]

section Bytes

/-- Two images hold the same bytes, each from a position of its own. -/
def SameBytes (left right : Image) (leftStart rightStart length : Nat) : Prop :=
  ∀ position < length,
    left.mem (leftStart + position) = right.mem (rightStart + position)

instance (left right : Image) (leftStart rightStart length : Nat) :
    Decidable (SameBytes left right leftStart rightStart length) :=
  inferInstanceAs (Decidable (∀ position < length, _))

namespace SameBytes

variable {left right : Image} {leftStart rightStart length : Nat}

theorem word16_eq (same : SameBytes left right leftStart rightStart length)
    (position : Nat) (inside : position + 2 ≤ length) :
    left.word16 (leftStart + position) =
      right.word16 (rightStart + position) := by
  rw [word16, word16, same position (by omega), Nat.add_assoc, Nat.add_assoc,
    same (position + 1) (by omega)]

theorem word32_eq (same : SameBytes left right leftStart rightStart length)
    (position : Nat) (inside : position + 4 ≤ length) :
    left.word32 (leftStart + position) =
      right.word32 (rightStart + position) := by
  rw [word32, word32, same.word16_eq position (by omega), Nat.add_assoc,
    Nat.add_assoc, same.word16_eq (position + 2) (by omega)]

theorem direntAt_eq (same : SameBytes left right leftStart rightStart length)
    (position : Nat) (inside : position + 16 ≤ length) :
    left.direntAt (leftStart + position) =
      right.direntAt (rightStart + position) := by
  rw [direntAt, direntAt, same.word16_eq position (by omega)]
  refine congrArg (Dirent.mk _) (List.map_congr_left fun byte member => ?_)
  have below := List.mem_range.mp member
  rw [Nat.add_assoc, Nat.add_assoc, Nat.add_assoc, Nat.add_assoc]
  exact same (position + (2 + byte)) (by omega)

end SameBytes

end Bytes

/-- A seven-block image: the root directory in block 4 holds a one-byte file
in block 5 and an empty directory in block 6. -/
def sample : Image where
  stSize := 3584
  byte offset := (([(512, 7), (516, 3), (520, 4),
    (1088, 1), (1094, 3), (1097, 2), (1100, 4),
    (1152, 2), (1158, 1), (1160, 1), (1164, 5),
    (1216, 1), (1222, 2), (1225, 2), (1228, 6),
    (1536, 112),
    (2048, 1), (2050, 46), (2064, 1), (2066, 46), (2067, 46),
    (2080, 2), (2082, 97), (2096, 3), (2098, 98),
    (2560, 65),
    (3072, 3), (3074, 46), (3088, 1), (3090, 46), (3091, 46)] :
      List (Nat × UInt8)).lookup offset).getD 0

end LinuxKernelDev.Image
