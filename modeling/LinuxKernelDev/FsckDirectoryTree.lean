import LinuxKernelDev.FsckReferences
import Mathlib.Logic.Relation

/-!
# The directory tree of an accepted image

If the checker accepts an image of at most `2 ^ 23` blocks, its directories
form a tree with root inode 1: every directory is well formed, every other
directory has one entry, held by the directory that its `..` names, and every
in-use inode is reached from the root by a chain of entries.
-/

namespace LinuxKernelDev.Fsck

open LoopRules ParentChain

theorem mem_visits_of_mem_dataBlocks {img : Image} {inum blknum : Nat}
    (member : blknum ∈ dataBlocks img inum) :
    (⟨true, blknum⟩ : Visit) ∈ visits img inum := by
  rcases List.mem_append.mp member with direct | indirect
  · exact List.mem_append_left _ (List.mem_map.mpr ⟨blknum, direct, rfl⟩)
  · apply List.mem_append_right
    unfold indirectVisits
    split_ifs with hole
    · simp [indirectBlocks, hole] at indirect
    · exact List.mem_cons_of_mem _ (List.mem_map.mpr ⟨blknum, indirect, rfl⟩)

theorem mem_dataBlocks_of_mem_visits {img : Image} {inum : Nat} {visit : Visit}
    (member : visit ∈ visits img inum) (data : visit.data = true) :
    visit.blknum ∈ dataBlocks img inum := by
  unfold visits indirectVisits at member
  rcases List.mem_append.mp member with direct | indirect
  · obtain ⟨blknum, listed, rfl⟩ := List.mem_map.mp direct
    exact List.mem_append_left _ listed
  · split_ifs at indirect
    · simp at indirect
    · rcases List.mem_cons.mp indirect with rfl | inBlock
      · simp at data
      · obtain ⟨blknum, listed, rfl⟩ := List.mem_map.mp inBlock
        exact List.mem_append_right _ listed

/-- Every entry read for a sound directory passes the test of the checker. -/
theorem InodeSound.direntOk {img : Image} {g : Globals} {inum : Nat}
    {entry : Dirent} (sound : InodeSound img g inum)
    (scanned : Scanned img inum) (member : entry ∈ inodeDirents img inum) :
    DirentOk img g (inum % 65536) entry := by
  unfold inodeDirents at member
  split_ifs at member with directory
  · obtain ⟨blknum, blknumMem, located⟩ := List.mem_flatMap.mp member
    obtain ⟨index, indexMem, rfl⟩ := List.mem_map.mp located
    have visited := mem_visits_of_mem_dataBlocks blknumMem
    have dirents := (sound.visitsOk scanned _ visited).2 rfl directory
    exact (dirents index (List.mem_range.mp indexMem)).2
  · simp at member

theorem refersTo_lt {img : Image} {record : Nat × Dirent} {inum ninodes : Nat}
    (member : record ∈ allRecords img ninodes)
    (refers : refersTo inum record = true) : inum < 65536 := by
  obtain ⟨holder, -, read⟩ := List.mem_flatMap.mp member
  unfold inodeRecords inodeDirents blockDirents at read
  split_ifs at read
  · simp only [List.mem_map, List.mem_flatMap] at read
    obtain ⟨_, ⟨blknum, -, index, -, rfl⟩, rfl⟩ := read
    have narrow : (img.blockDirent blknum index).inum < 65536 :=
      img.word16_lt _
    simp only [refersTo, Bool.or_eq_true, Bool.and_eq_true,
      beq_iff_eq] at refers
    omega
  all_goals simp at read

/-- Inodes with larger numbers cannot be named. -/
theorem Describes.lt_of_inodeindirent {img : Image} {g : Globals}
    {scan : Scan} (described : Describes img g scan) {inum : Nat}
    (found : scan.inodeindirent inum ≠ 0) : inum < 65536 := by
  rw [described.references] at found
  have counted : (allRecords img g.ninodes).countP (refersTo inum) ≠ 0 := by
    intro none
    simp [none] at found
  obtain ⟨record, member, refers⟩ :=
    List.countP_pos_iff.mp (Nat.pos_of_ne_zero counted)
  exact refersTo_lt member refers

namespace Accepts

variable {img : Image} {g : Globals} {scan : Scan}

theorem used_iff (accepts : Accepts img g scan) {inum : Nat} :
    scan.usedinode inum = true ↔ img.InUse inum :=
  usedinode_iff accepts.ninodes accepts.described

theorem narrow (accepts : Accepts img g scan) {inum : Nat}
    (inUse : img.InUse inum) : inum < 65536 :=
  accepts.described.lt_of_inodeindirent
    ((accepts.references inum inUse.1 inUse.2.1).found
      (accepts.used_iff.mpr inUse))

theorem exact (accepts : Accepts img g scan)
    (small : img.sbSize ≤ 8388608) : Exact img := by
  refine ⟨fun inum => accepts.narrow, fun inum inUse blknum member => ?_⟩
  have inside := (accepts.ownedBlocks_ok small inUse member).2.1
  rw [accepts.range] at inside
  omega

theorem completed (accepts : Accepts img g scan)
    (small : img.sbSize ≤ 8388608) : Completed img g scan :=
  ⟨matches_of_eq accepts.globals, accepts.sound, accepts.described,
    accepts.exact small⟩

section Root

/-- The entries that the first pass reads belong to directories. -/
theorem mem_allRecords (accepts : Accepts img g scan) {holder : Nat}
    {entry : Dirent} (member : (holder, entry) ∈ allRecords img img.sbNinodes) :
    img.IsDirectory holder ∧ entry ∈ inodeDirents img holder := by
  obtain ⟨inum, below, read⟩ := List.mem_flatMap.mp member
  unfold inodeRecords at read
  split_ifs at read with scanned
  · obtain ⟨_, located, same⟩ := List.mem_map.mp read
    rw [Prod.mk.injEq] at same
    obtain ⟨rfl, rfl⟩ := same
    have inUse := (scanned_iff_inUse (List.mem_range.mp below)).mp scanned
    rw [Nat.mod_eq_of_lt (accepts.narrow inUse)]
    refine ⟨⟨inUse, ?_⟩, located⟩
    by_contra other
    rw [inodeDirents, if_neg other] at located
    simp at located
  · simp at read

/-- A directory is formed as far as the first pass reads it. -/
theorem read_formed (accepts : Accepts img g scan) {inum : Nat}
    (directory : img.IsDirectory inum) :
    (inodeDirents img inum).countP Dirent.isSelf = 1 ∧
      (inodeDirents img inum).countP Dirent.isParent = 1 :=
  (accepts.sound inum directory.1.2.1).formed
    ((scanned_iff_inUse directory.1.2.1).mpr directory.1) directory.2

/-- The `.` entry that is read for a directory names it. -/
theorem read_self_inum (accepts : Accepts img g scan) {inum : Nat}
    (directory : img.IsDirectory inum) {entry : Dirent}
    (member : entry ∈ inodeDirents img inum) (self : entry.isSelf = true) :
    entry.inum = inum := by
  have inUse := directory.1
  have checked := (accepts.sound inum inUse.2.1).direntOk
    ((scanned_iff_inUse inUse.2.1).mpr inUse) member
  simp only [Dirent.isSelf, Bool.and_eq_true, bne_iff_ne] at self
  have ok := checked self.1
  rw [if_pos self.2, Nat.mod_eq_of_lt (accepts.narrow inUse)] at ok
  exact ok.1

/-- The `..` entry that is read for the root is the one in the table of
parents, which has been compared with the root. -/
theorem root_parent_inum (accepts : Accepts img g scan)
    (root : img.IsDirectory 1) {entry : Dirent}
    (member : entry ∈ inodeDirents img 1) (isParent : entry.isParent = true) :
    entry.inum = 1 := by
  have scanned := (scanned_iff_inUse root.1.2.1).mpr root.1
  have read : (1, entry) ∈ allRecords img img.sbNinodes := by
    refine List.mem_flatMap.mpr ⟨1, List.mem_range.mpr root.1.2.1, ?_⟩
    rw [inodeRecords, if_pos scanned]
    exact List.mem_map_of_mem member
  have written : (1, (entry.inum : Int)) ∈
      (allRecords img img.sbNinodes).filterMap dotdotWrite :=
    List.mem_filterMap.mpr ⟨(1, entry), read, by simp [dotdotWrite, isParent]⟩
  have recorded := applyWrites_mem_of_mem (fun _ => -1) written
  rw [← accepts.ninodes, ← accepts.described.dotdot,
    ((accepts.references 1 root.1.1 root.1.2.1).parent root.2).1 rfl]
    at recorded
  obtain ⟨⟨holder, other⟩, otherRead, writes⟩ :=
    List.mem_filterMap.mp recorded
  unfold dotdotWrite at writes
  split_ifs at writes with otherParent
  simp only [Option.some.injEq, Prod.mk.injEq] at writes
  obtain ⟨rfl, otherEq⟩ := writes
  rw [accepts.ninodes] at otherRead
  have otherMember := (accepts.mem_allRecords otherRead).2
  rw [eq_of_countP_eq_one (accepts.read_formed root).2 member isParent
    otherMember otherParent]
  omega

/-- A recorded holder is a directory. -/
theorem isDirectory_of_parententry (accepts : Accepts img g scan) {inum : Nat}
    (recorded : scan.parententry inum ≠ -1) :
    ∃ holder, scan.parententry inum = (holder : Nat) ∧
      img.IsDirectory holder := by
  rw [accepts.described.entry, accepts.ninodes] at recorded ⊢
  obtain ⟨value, written⟩ : ∃ value, (inum, value) ∈
      (allRecords img img.sbNinodes).filterMap (entryWrite img) := by
    by_contra untouched
    apply recorded
    apply applyWrites_of_forall_ne
    rintro ⟨key, value⟩ written rfl
    exact untouched ⟨value, written⟩
  obtain ⟨⟨holder, entry⟩, member, writes⟩ := List.mem_filterMap.mp
    (applyWrites_mem_of_mem (fun _ => -1) written)
  unfold entryWrite at writes
  split_ifs at writes
  simp only [Option.some.injEq, Prod.mk.injEq] at writes
  rw [bmod_of_lt (fst_lt_of_mem_allRecords member)] at writes
  exact ⟨holder, writes.2.symm, (accepts.mem_allRecords member).1⟩

/-- A chain of recorded parents that starts at a directory ends in one. -/
theorem root_of_leadsTo (accepts : Accepts img g scan) {steps : Nat}
    {cur : Int}
    (leads : LeadsTo (dotdotParent g.tableLen scan.parentdotdot) 1 steps cur)
    {inum : Nat} (curEq : cur = inum) (directory : img.IsDirectory inum) :
    img.IsDirectory 1 := by
  induction leads generalizing inum with
  | root =>
      obtain rfl : inum = 1 := by omega
      exact directory
  | @step steps child next notRoot parentEq rest ih =>
      subst curEq
      obtain ⟨-, other, -⟩ := (accepts.references inum directory.1.1
        directory.1.2.1).parent directory.2
      obtain ⟨recorded, agree⟩ := other (by omega)
      obtain ⟨holder, holderEq, holderDirectory⟩ :=
        accepts.isDirectory_of_parententry recorded
      have nextEq := (dotdotParent_eq_some_iff.mp parentEq).2
      rw [Int.toNat_natCast, agree, holderEq] at nextEq
      exact ih nextEq.symm holderDirectory

theorem leadsTo_root (accepts : Accepts img g scan) {inum : Nat}
    (directory : img.IsDirectory inum) :
    ∃ steps, LeadsTo (dotdotParent g.tableLen scan.parentdotdot) 1 steps
      (inum : Int) := by
  obtain ⟨-, -, leads⟩ :=
    (accepts.references inum directory.1.1 directory.1.2.1).parent directory.2
  have narrow := accepts.narrow directory.1
  rwa [Int.bmod_eq_of_le_mul_two (by omega) (by omega)] at leads

/-- An in-use inode is named by an entry, and the chain from the directory of
the entry ends in the root. -/
theorem root_isDirectory (accepts : Accepts img g scan) {inum : Nat}
    (inUse : img.InUse inum) : img.IsDirectory 1 := by
  have found := (accepts.references inum inUse.1 inUse.2.1).found
    (accepts.used_iff.mpr inUse)
  rw [accepts.described.references, accepts.ninodes] at found
  have counted : (allRecords img img.sbNinodes).countP (refersTo inum) ≠ 0 := by
    intro none
    simp [none] at found
  obtain ⟨⟨holder, entry⟩, member, -⟩ :=
    List.countP_pos_iff.mp (Nat.pos_of_ne_zero counted)
  have directory := (accepts.mem_allRecords member).1
  obtain ⟨steps, leads⟩ := accepts.leadsTo_root directory
  exact accepts.root_of_leadsTo leads rfl directory

end Root

section Tree

variable (accepts : Accepts img g scan) (small : img.sbSize ≤ 8388608)

include accepts small

theorem formed {inum : Nat} (directory : img.IsDirectory inum) :
    (img.directoryDirents inum).countP Dirent.isSelf = 1 ∧
      (img.directoryDirents inum).countP Dirent.isParent = 1 :=
  (accepts.completed small).formed directory

theorem self_inum {inum : Nat} (directory : img.IsDirectory inum)
    {entry : Dirent} (member : entry ∈ img.directoryDirents inum)
    (self : entry.isSelf = true) : entry.inum = inum := by
  rw [← (accepts.exact small).inodeDirents_eq directory] at member
  exact accepts.read_self_inum directory member self

theorem references_eq (inum : Nat) :
    scan.inodeindirent inum = ((img.entriesNaming inum +
      if inum = 1 ∧ img.IsDirectory 1 then 1 else 0 : Nat) : Int) :=
  (accepts.completed small).references_eq inum

/-- Every directory apart from the root has exactly one entry. -/
theorem entriesNaming_eq_one {inum : Nat} (directory : img.IsDirectory inum)
    (notRoot : inum ≠ 1) : img.entriesNaming inum = 1 := by
  have once := (accepts.references inum directory.1.1 directory.1.2.1).once
    directory.2
  rw [accepts.references_eq small, if_neg fun both => notRoot both.1] at once
  omega

/-- The recorded parent of a directory apart from the root holds its entry and
is named by its `..`. -/
theorem exists_parent {inum : Nat} (directory : img.IsDirectory inum)
    (notRoot : inum ≠ 1) :
    ∃ parent, img.Holds parent inum ∧ img.DotdotNames inum parent ∧
      scan.parentdotdot inum = parent := by
  have once := accepts.entriesNaming_eq_one small directory notRoot
  have tables := accepts.completed small
  obtain ⟨-, other, -⟩ :=
    (accepts.references inum directory.1.1 directory.1.2.1).parent directory.2
  have agree := (other notRoot).2
  obtain ⟨holder, held⟩ :=
    img.exists_holds_of_entriesNaming (by rw [once]; omega)
  obtain ⟨parent, named⟩ :=
    img.exists_dotdotNames (accepts.formed small directory).2
  have recorded := tables.parentdotdot_eq directory named
  rw [tables.parententry_eq directory once held, recorded] at agree
  obtain rfl : parent = holder := by omega
  exact ⟨parent, held, named, recorded⟩

/-- A chain of recorded parents is a chain of entries. -/
theorem reached_of_leadsTo {steps : Nat} {cur : Int}
    (leads : LeadsTo (dotdotParent g.tableLen scan.parentdotdot) 1 steps cur)
    {inum : Nat} (curEq : cur = inum) (directory : img.IsDirectory inum) :
    Relation.ReflTransGen img.Holds 1 inum := by
  induction leads generalizing inum with
  | root =>
      obtain rfl : inum = 1 := by omega
      exact .refl
  | @step steps child next notRoot parentEq rest ih =>
      subst curEq
      obtain ⟨parent, holds, -, recorded⟩ :=
        accepts.exists_parent small directory (by omega)
      have nextEq := (dotdotParent_eq_some_iff.mp parentEq).2
      rw [Int.toNat_natCast, recorded] at nextEq
      exact (ih nextEq.symm (img.holds_iff.mp holds).1).tail holds

theorem directory_reached {inum : Nat} (directory : img.IsDirectory inum) :
    Relation.ReflTransGen img.Holds 1 inum := by
  obtain ⟨steps, leads⟩ := accepts.leadsTo_root directory
  exact accepts.reached_of_leadsTo small leads rfl directory

/-- Every in-use inode is the root directory or is held by a directory. -/
theorem root_or_held {inum : Nat} (inUse : img.InUse inum) :
    (inum = 1 ∧ img.IsDirectory 1) ∨ ∃ holder, img.Holds holder inum := by
  have found := (accepts.references inum inUse.1 inUse.2.1).found
    (accepts.used_iff.mpr inUse)
  rw [accepts.references_eq small] at found
  by_cases named : img.entriesNaming inum = 0
  · left
    split_ifs at found with root
    · exact root
    · omega
  · exact .inr (img.exists_holds_of_entriesNaming named)

theorem reached {inum : Nat} (inUse : img.InUse inum) :
    Relation.ReflTransGen img.Holds 1 inum := by
  rcases accepts.root_or_held small inUse with root | ⟨holder, held⟩
  · rw [root.1]
  · exact (accepts.directory_reached small
      (img.holds_iff.mp held).1).tail held

/-- The only reference to the root is its own `.` entry. -/
theorem entriesNaming_root : img.entriesNaming 1 = 0 := by
  by_contra named
  obtain ⟨holder, held⟩ := img.exists_holds_of_entriesNaming named
  have holderDirectory := (img.holds_iff.mp held).1
  have root := accepts.root_isDirectory holderDirectory.1
  have once := (accepts.references 1 root.1.1 root.1.2.1).once root.2
  rw [accepts.references_eq small, if_pos ⟨rfl, root⟩] at once
  omega

theorem root_dotdotNames {parent : Nat} (directory : img.IsDirectory 1)
    (named : img.DotdotNames 1 parent) : parent = 1 := by
  obtain ⟨entry, member, isParent, rfl⟩ := named
  rw [← (accepts.exact small).inodeDirents_eq directory] at member
  exact accepts.root_parent_inum directory member isParent

theorem holder_eq_dotdot {inum holder parent : Nat}
    (directory : img.IsDirectory inum) (notRoot : inum ≠ 1)
    (held : img.Holds holder inum) (named : img.DotdotNames inum parent) :
    parent = holder := by
  obtain ⟨recorded, holds, names, -⟩ :=
    accepts.exists_parent small directory notRoot
  rw [held.unique (accepts.entriesNaming_eq_one small directory notRoot) holds,
    named.unique (accepts.formed small directory).2 names]

theorem nlink_eq {inum : Nat} (inUse : img.InUse inum)
    (file : img.inodeType inum = 2) :
    img.inodeNlink inum = img.entriesNaming inum := by
  have nlink := ((accepts.references inum inUse.1 inUse.2.1).nlink file).2
  rw [nlink, accepts.references_eq small, if_neg, Nat.add_zero]
  rintro ⟨rfl, directory⟩
  rw [directory.2] at file
  cases file

end Tree

end Accepts

/-- An accepted image of at most `2 ^ 23` blocks holds a directory tree. -/
theorem directoryTree_of_accepted (img : Image) (stderr : String)
    (small : img.sbSize ≤ 8388608)
    (accepted : myfsck img = .exited 0 stderr) :
    (∀ inum, img.IsDirectory inum →
      (img.directoryDirents inum).countP Dirent.isSelf = 1 ∧
      (∀ entry ∈ img.directoryDirents inum, entry.isSelf = true →
        entry.inum = inum) ∧
      (img.directoryDirents inum).countP Dirent.isParent = 1) ∧
    (∀ inum, img.IsDirectory inum → inum ≠ 1 →
      img.entriesNaming inum = 1 ∧
      ∀ holder parent, img.Holds holder inum →
        img.DotdotNames inum parent → parent = holder) ∧
    (img.entriesNaming 1 = 0 ∧
      ∀ parent, img.IsDirectory 1 → img.DotdotNames 1 parent → parent = 1) ∧
    (∀ inum, img.InUse inum → img.inodeType inum = 2 →
      img.inodeNlink inum = img.entriesNaming inum) ∧
    (∀ inum, img.InUse inum → Relation.ReflTransGen img.Holds 1 inum) ∧
    ((∃ inum, img.InUse inum) → img.IsDirectory 1) := by
  obtain ⟨g, scan, -, accepts⟩ := exists_accepts accepted
  refine ⟨?_, ?_, ⟨accepts.entriesNaming_root small,
      fun parent => accepts.root_dotdotNames small⟩,
    fun inum => accepts.nlink_eq small, fun inum => accepts.reached small,
    fun ⟨inum, inUse⟩ => accepts.root_isDirectory inUse⟩
  · intro inum directory
    obtain ⟨self, parent⟩ := accepts.formed small directory
    exact ⟨self, fun entry => accepts.self_inum small directory, parent⟩
  · intro inum directory notRoot
    exact ⟨accepts.entriesNaming_eq_one small directory notRoot,
      fun holder parent => accepts.holder_eq_dotdot small directory notRoot⟩

theorem directoryTree_sample :
    Image.sample.IsDirectory 3 ∧ Image.sample.entriesNaming 3 = 1 ∧
      Relation.ReflTransGen Image.sample.Holds 1 3 := by
  have directory : Image.sample.IsDirectory 3 := by decide +kernel
  have tree := directoryTree_of_accepted Image.sample ""
    (by decide +kernel) (by decide +kernel)
  exact ⟨directory, (tree.2.1 3 directory (by decide)).1,
    tree.2.2.2.2.1 3 directory.1⟩

end LinuxKernelDev.Fsck
