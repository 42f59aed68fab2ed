import LinuxKernelDev.Lsfs
import LinuxKernelDev.DiskMetadata
import LinuxKernelDev.FsckScanSemantics

/-!
# What a listing reads

A successful call of `ls_dir` on a directory has loaded all blocks of the
directory, and lists the slots of the directory in order.  More depth does not
change a listing.
-/

namespace LinuxKernelDev.Lsfs

open Fsck LoopRules

namespace Listing

@[simp]
theorem append_nil (listing : Listing) : listing.append .nil = listing := by
  induction listing with
  | nil => rfl
  | directory entry children rest _ ih => rw [append, ih]
  | file entry rest ih => rw [append, ih]
  | device entry rest ih => rw [append, ih]

theorem append_assoc (first second third : Listing) :
    (first.append second).append third =
      first.append (second.append third) := by
  induction first with
  | nil => rfl
  | directory entry children rest _ ih => simp only [append, ih]
  | file entry rest ih => simp only [append, ih]
  | device entry rest ih => simp only [append, ih]

end Listing

section Loops

variable {α β : Type} {turn : α → Except Stop Listing} {listing : Listing}

@[simp]
theorem listAll_nil : listAll turn [] = .ok .nil := rfl

theorem listAll_cons_eq_ok_iff {item : α} {items : List α} :
    listAll turn (item :: items) = .ok listing ↔
      ∃ first rest, turn item = .ok first ∧ listAll turn items = .ok rest ∧
        first.append rest = listing := by
  simp only [listAll, bind_eq_ok_iff, Except.ok.injEq]
  constructor
  · rintro ⟨first, taken, rest, listed, rfl⟩
    exact ⟨first, rest, taken, listed, rfl⟩
  · rintro ⟨first, rest, taken, listed, rfl⟩
    exact ⟨first, taken, rest, listed, rfl⟩

theorem listAll_append_eq_ok_iff {first second : List α} :
    listAll turn (first ++ second) = .ok listing ↔
      ∃ left right, listAll turn first = .ok left ∧
        listAll turn second = .ok right ∧ left.append right = listing := by
  induction first generalizing listing with
  | nil => simp [Listing.append]
  | cons item items ih =>
      rw [List.cons_append, listAll_cons_eq_ok_iff]
      simp only [ih, listAll_cons_eq_ok_iff]
      constructor
      · rintro ⟨head, _, taken, ⟨left, right, leftEq, rightEq, rfl⟩, rfl⟩
        exact ⟨_, right, ⟨head, left, taken, leftEq, rfl⟩, rightEq,
          Listing.append_assoc _ _ _⟩
      · rintro ⟨_, right, ⟨head, left, taken, leftEq, rfl⟩, rightEq, rfl⟩
        exact ⟨head, _, taken, ⟨left, right, leftEq, rightEq, rfl⟩,
          (Listing.append_assoc _ _ _).symm⟩

/-- A loop whose turns load a value first. -/
theorem listAll_load_eq_ok_iff {img : Image} {length : Nat}
    {offset : β → Nat} {value : β → α} {items : List β} :
    listAll (fun item => do
        let loaded ← load img (offset item) length (value item)
        turn loaded) items = .ok listing ↔
      (∀ item ∈ items, img.Maps (offset item) length) ∧
        listAll turn (items.map value) = .ok listing := by
  induction items generalizing listing with
  | nil => simp
  | cons item items ih =>
      simp only [listAll_cons_eq_ok_iff, load_bind_eq_ok_iff, ih,
        List.map_cons, List.forall_mem_cons]
      constructor
      · rintro ⟨first, rest, ⟨mapped, taken⟩, ⟨later, listed⟩, rfl⟩
        exact ⟨⟨mapped, later⟩, first, rest, taken, listed, rfl⟩
      · rintro ⟨⟨mapped, later⟩, first, rest, taken, listed, rfl⟩
        exact ⟨first, rest, ⟨mapped, taken⟩, ⟨later, listed⟩, rfl⟩

/-- A loop that skips zeros. -/
theorem listAll_skip {turn : Nat → Except Stop Listing} (items : List Nat) :
    listAll (fun item => if item = 0 then .ok .nil else turn item) items =
      listAll turn (items.filter fun item => decide (item ≠ 0)) := by
  induction items with
  | nil => rfl
  | cons item items ih =>
      by_cases zero : item = 0
      · simp only [listAll, ih, zero, if_true, ne_eq, not_true_eq_false,
          decide_false, Bool.false_eq_true, not_false_eq_true,
          List.filter_cons_of_neg]
        cases listAll turn (items.filter fun item => decide (item ≠ 0)) <;> rfl
      · simp [listAll, ih, zero]

/-- A loop whose turns are loops. -/
theorem listAll_flatMap_eq_ok_iff {condition : β → Prop}
    {expand : β → List α} {nested : β → Except Stop Listing}
    {items : List β}
    (inner : ∀ item ∈ items, ∀ listing, nested item = .ok listing ↔
      condition item ∧ listAll turn (expand item) = .ok listing) :
    listAll nested items = .ok listing ↔
      (∀ item ∈ items, condition item) ∧
        listAll turn (items.flatMap expand) = .ok listing := by
  induction items generalizing listing with
  | nil => simp
  | cons item items ih =>
      have later : ∀ listing, listAll nested items = .ok listing ↔
          (∀ item ∈ items, condition item) ∧
            listAll turn (items.flatMap expand) = .ok listing :=
        fun _ => ih fun other member => inner other (by simp [member])
      simp only [listAll_cons_eq_ok_iff, inner item (by simp), later,
        List.flatMap_cons, listAll_append_eq_ok_iff, List.forall_mem_cons]
      constructor
      · rintro ⟨first, rest, ⟨here, listed⟩, ⟨later, restListed⟩, rfl⟩
        exact ⟨⟨here, later⟩, first, rest, listed, restListed, rfl⟩
      · rintro ⟨⟨here, later⟩, first, rest, listed, restListed, rfl⟩
        exact ⟨first, rest, ⟨here, listed⟩, ⟨later, restListed⟩, rfl⟩

theorem exists_listAll {α : Type} {turn : α → Except Stop Listing}
    {items : List α}
    (each : ∀ item ∈ items, ∃ listing, turn item = .ok listing) :
    ∃ listing, listAll turn items = .ok listing := by
  induction items with
  | nil => exact ⟨.nil, rfl⟩
  | cons item items ih =>
      obtain ⟨first, taken⟩ := each item (by simp)
      obtain ⟨rest, listed⟩ := ih fun other member => each other (by simp [member])
      exact ⟨_, listAll_cons_eq_ok_iff.mpr
        ⟨first, rest, taken, listed, rfl⟩⟩

theorem listAll_mono {other : α → Except Stop Listing} {items : List α}
    (agree : ∀ item ∈ items, ∀ listing, turn item = .ok listing →
      other item = .ok listing)
    (listed : listAll turn items = .ok listing) :
    listAll other items = .ok listing := by
  induction items generalizing listing with
  | nil => exact listed
  | cons item items ih =>
      obtain ⟨first, rest, taken, restListed, rfl⟩ :=
        listAll_cons_eq_ok_iff.mp listed
      exact listAll_cons_eq_ok_iff.mpr ⟨first, rest,
        agree item (by simp) first taken,
        ih (fun other member => agree other (by simp [member])) restListed,
        rfl⟩

end Loops

section Directories

variable {img : Image} {ls : Nat → Except Stop Listing} {listing : Listing}

theorem blkptr_of_lt {bn : Nat} (small : bn < 4294967296) :
    blkptr bn = bn * 512 :=
  Nat.mod_eq_of_lt (by omega)

/-- The records of a block are loaded exactly if the block can be. -/
theorem maps_records_iff {offset length count : Nat} (positive : 0 < count) :
    (∀ index ∈ List.range count, img.Maps (offset + length * index) length) ↔
      img.Maps offset (length * count) := by
  unfold Image.Maps
  simp only [List.mem_range]
  constructor
  · intro all
    have last := all (count - 1) (by omega)
    obtain ⟨before, rfl⟩ : ∃ before, count = before + 1 :=
      ⟨count - 1, by omega⟩
    rw [Nat.add_sub_cancel] at last
    rw [Nat.mul_succ]
    omega
  · intro block index below
    have fits : length * (index + 1) ≤ length * count :=
      Nat.mul_le_mul_left length below
    rw [Nat.mul_succ] at fits
    omega

theorem walkDirblock_eq_ok_iff {blkno : Nat} (small : blkno < 4294967296) :
    walkDirblock img ls blkno = .ok listing ↔
      img.Maps (blkno * 512) 512 ∧
        listAll (walkDirent img ls) (img.direntsIn blkno) = .ok listing := by
  unfold walkDirblock
  rw [blkptr_of_lt small, listAll_load_eq_ok_iff,
    maps_records_iff (by omega)]
  rfl

theorem walkAddresses_eq_ok_iff {address offset : Nat → Nat} {count : Nat}
    (small : ∀ index, address index < 4294967296) :
    walkAddresses img ls (fun index =>
        load img (offset index) 4 (address index)) count = .ok listing ↔
      (∀ index ∈ List.range count, img.Maps (offset index) 4) ∧
      (∀ blkno ∈ ((List.range count).map address).filter (fun blknum =>
        decide (blknum ≠ 0)), img.Maps (blkno * 512) 512) ∧
      listAll (walkDirent img ls) ((((List.range count).map address).filter
        (fun blknum => decide (blknum ≠ 0))).flatMap img.direntsIn) =
          .ok listing := by
  unfold walkAddresses
  rw [listAll_load_eq_ok_iff, listAll_skip]
  refine and_congr_right fun _ => listAll_flatMap_eq_ok_iff
    fun blkno member listing => walkDirblock_eq_ok_iff ?_
  obtain ⟨index, -, rfl⟩ := List.mem_map.mp (List.mem_filter.mp member).1
  exact small index

/-- What a call of `ls_dir` on a directory has to load for itself. -/
def Readable (img : Image) (inum : Nat) : Prop :=
  img.Maps (Image.inodeOffset inum) 64 ∧
    ∀ blknum ∈ img.ownedBlocks inum, img.Maps (blknum * 512) 512

/-- The fields of an inode that are loaded for a directory cover the inode. -/
theorem maps_inode_iff {inum : Nat} :
    img.Maps (Image.inodeOffset inum) 64 ↔
      img.Maps (Image.inodeOffset inum) 2 ∧
        img.Maps (Image.inodeOffset inum + 6) 2 ∧
        (∀ index ∈ List.range 12,
          img.Maps (Image.inodeOffset inum + 12 + 4 * index) 4) ∧
        img.Maps (Image.inodeOffset inum + 12 + 4 * 12) 4 := by
  unfold Image.Maps
  simp only [List.mem_range]
  constructor
  · intro all
    exact ⟨by omega, by omega, fun index below => by omega, by omega⟩
  · rintro ⟨-, -, -, last⟩
    omega

theorem walkDirect_eq_ok_iff {inum : Nat} :
    walkAddresses img ls (loadAddr img inum) 12 = .ok listing ↔
      (∀ index ∈ List.range 12,
        img.Maps (Image.inodeOffset inum + 12 + 4 * index) 4) ∧
      (∀ blkno ∈ img.directAddrs inum, img.Maps (blkno * 512) 512) ∧
      listAll (walkDirent img ls)
        ((img.directAddrs inum).flatMap img.direntsIn) = .ok listing :=
  walkAddresses_eq_ok_iff fun _ => img.word32_lt _

theorem walkIndirect_eq_ok_iff {inum : Nat}
    (indirect : img.inodeAddr inum 12 ≠ 0) :
    walkAddresses img ls (fun index =>
        load img (blkptr (img.inodeAddr inum 12) + 4 * index) 4
          (img.word32 (blkptr (img.inodeAddr inum 12) + 4 * index))) 128 =
        .ok listing ↔
      img.Maps (img.inodeAddr inum 12 * 512) 512 ∧
      (∀ blkno ∈ img.indirectAddrs inum, img.Maps (blkno * 512) 512) ∧
      listAll (walkDirent img ls)
        ((img.indirectAddrs inum).flatMap img.direntsIn) = .ok listing := by
  have small : img.inodeAddr inum 12 < 4294967296 := img.word32_lt _
  rw [walkAddresses_eq_ok_iff fun _ => img.word32_lt _, blkptr_of_lt small,
    maps_records_iff (by omega), Image.indirectAddrs, if_neg indirect]

/-- A call on a directory lists the slots of the directory. -/
theorem lsDir_eq_ok_iff {fuel inum : Nat}
    (directory : img.inodeType inum = 1) :
    lsDir img (fuel + 1) inum = .ok listing ↔
      Readable img inum ∧ listAll (walkDirent img (lsDir img fuel))
        (img.directoryDirents inum) = .ok listing := by
  unfold Readable
  simp only [lsDir, loadType, loadNlink, load_bind_eq_ok_iff,
    directory, ne_eq, not_true_eq_false, if_false]
  rw [bind_eq_ok_iff]
  simp only [walkDirect_eq_ok_iff, loadAddr, load_bind_eq_ok_iff,
    maps_inode_iff,
    Image.ownedBlocks, Image.directoryDirents, Image.fileBlocks,
    List.flatMap_append, listAll_append_eq_ok_iff, List.forall_mem_append]
  by_cases hole : img.inodeAddr inum 12 = 0
  · simp only [hole, if_true, Image.indirectAddrs, Except.ok.injEq,
      List.flatMap_nil, listAll_nil]
    constructor
    · rintro ⟨mapped, nlink, _, ⟨addrs, blocks, listed⟩, last, rfl⟩
      exact ⟨⟨⟨mapped, nlink, addrs, last⟩, blocks,
        List.forall_mem_nil _⟩, _, _, listed, rfl, Listing.append_nil _⟩
    · rintro ⟨⟨⟨mapped, nlink, addrs, last⟩, blocks, -⟩, _, _, listed,
        rfl, rfl⟩
      exact ⟨mapped, nlink, _, ⟨addrs, blocks, listed⟩, last,
        (Listing.append_nil _).symm⟩
  · simp only [hole, if_false, bind_eq_ok_iff, walkIndirect_eq_ok_iff hole,
      Except.ok.injEq, List.forall_mem_cons]
    constructor
    · rintro ⟨mapped, nlink, first, ⟨addrs, blocks, listed⟩, last, second,
        ⟨block, later, restListed⟩, rfl⟩
      exact ⟨⟨⟨mapped, nlink, addrs, last⟩, blocks, block, later⟩, first,
        second, listed, restListed, rfl⟩
    · rintro ⟨⟨⟨mapped, nlink, addrs, last⟩, blocks, block, later⟩, first,
        second, listed, restListed, rfl⟩
      exact ⟨mapped, nlink, first, ⟨addrs, blocks, listed⟩, last, second,
        ⟨block, later, restListed⟩, rfl⟩

/-- A call on anything else lists nothing. -/
theorem lsDir_of_inodeType_ne {fuel inum : Nat}
    (mapped : img.Maps (Image.inodeOffset inum) 2)
    (other : img.inodeType inum ≠ 1) :
    lsDir img (fuel + 1) inum = .ok .nil := by
  rw [lsDir, loadType, load_bind_eq_ok_iff]
  exact ⟨mapped, if_pos other⟩

theorem inodeMapped_of_lsDir {fuel inum : Nat}
    (listed : lsDir img (fuel + 1) inum = .ok listing) :
    img.Maps (Image.inodeOffset inum) 2 := by
  rw [lsDir, loadType, load_bind_eq_ok_iff] at listed
  exact listed.1

/-- Unused slots, `.` and `..` are passed over. -/
theorem walkDirent_skips {entry : Dirent} (other : entry.isChild = false) :
    walkDirent img ls entry = .ok .nil := by
  unfold walkDirent
  unfold Dirent.isChild at other
  split_ifs with unused dots
  · rfl
  · rfl
  · simp_all

theorem walkDirent_of_isChild {entry : Dirent} (child : entry.isChild = true) :
    walkDirent img ls entry = (do
      let type ← loadType img entry.inum
      if type = 1 then do
        let children ← ls entry.inum
        .ok (.directory entry children .nil)
      else if type = 2 then do
        let _ ← loadSize img entry.inum
        let _ ← loadNlink img entry.inum
        .ok (.file entry .nil)
      else if type = 3 then do
        let _ ← load img (Image.inodeOffset entry.inum + 2) 2 ()
        let _ ← load img (Image.inodeOffset entry.inum + 4) 2 ()
        .ok (.device entry .nil)
      else
        .ok .nil) := by
  simp only [Dirent.isChild, Bool.and_eq_true, bne_iff_ne,
    Bool.not_eq_true'] at child
  rw [walkDirent, if_neg child.1.1, if_neg (by simp [child.1.2, child.2])]

/-- Only the entries of a directory are listed. -/
theorem listAll_walkDirent_filter (slots : List Dirent) :
    listAll (walkDirent img ls) (slots.filter Dirent.isChild) =
      listAll (walkDirent img ls) slots := by
  induction slots with
  | nil => rfl
  | cons entry slots ih =>
      by_cases child : entry.isChild = true
      · rw [List.filter_cons_of_pos child, listAll, listAll, ih]
      · rw [List.filter_cons_of_neg child, ih, listAll,
          walkDirent_skips (Bool.not_eq_true _ ▸ child)]
        cases listAll (walkDirent img ls) slots <;> rfl

/-- An entry is listed the same if its subdirectory is. -/
theorem walkDirent_mono {other : Nat → Except Stop Listing} {entry : Dirent}
    (agree : ∀ listing, ls entry.inum = .ok listing →
      other entry.inum = .ok listing)
    (listed : walkDirent img ls entry = .ok listing) :
    walkDirent img other entry = .ok listing := by
  unfold walkDirent at listed ⊢
  split_ifs at listed ⊢ with unused dots
  · exact listed
  · exact listed
  · rw [bind_eq_ok_iff] at listed ⊢
    obtain ⟨type, loaded, listed⟩ := listed
    refine ⟨type, loaded, ?_⟩
    split_ifs at listed ⊢ with directory
    · obtain ⟨children, below, here⟩ := bind_eq_ok_iff.mp listed
      exact bind_eq_ok_iff.mpr ⟨children, agree children below, here⟩
    · exact listed
    · exact listed
    · exact listed

/-- A deeper walk lists the same. -/
theorem lsDir_succ {fuel inum : Nat}
    (listed : lsDir img fuel inum = .ok listing) :
    lsDir img (fuel + 1) inum = .ok listing := by
  induction fuel generalizing inum listing with
  | zero => cases listed
  | succ fuel ih =>
      by_cases directory : img.inodeType inum = 1
      · rw [lsDir_eq_ok_iff directory] at listed ⊢
        exact ⟨listed.1, listAll_mono
          (fun entry _ _ => walkDirent_mono fun _ => ih) listed.2⟩
      · have mapped := inodeMapped_of_lsDir listed
        rw [lsDir_of_inodeType_ne mapped directory] at listed ⊢
        exact listed

theorem lsDir_of_le {fuel more inum : Nat} (enough : fuel ≤ more)
    (listed : lsDir img fuel inum = .ok listing) :
    lsDir img more inum = .ok listing := by
  induction enough with
  | refl => exact listed
  | step _ ih => exact lsDir_succ ih

end Directories

end LinuxKernelDev.Lsfs
