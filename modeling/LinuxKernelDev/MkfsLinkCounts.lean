import LinuxKernelDev.DirectoryWalk
import LinuxKernelDev.MkfsConsistency

/-!
# Link counts

A new directory has the link count 2, for its entry and its entry `.`, and each
subdirectory adds one for its entry `..` before it is entered itself.  A new
file has the link count 1, and each further link that is found in the hard link
map adds one together with its entry.  So the link counts of a finished image
count what they should, whatever the hard link map finds.
-/

namespace LinuxKernelDev.Mkfs

open LinkedChunks LoopRules

namespace FileSystem

/-- The directories whose entry `..` names a directory, apart from the root,
which names itself. -/
def subdirs (fs : FileSystem) (inum : Nat) : List Nat :=
  (List.range' 2 (fs.freeinode - 2)).filter fun child =>
    decide ((fs.inodes child).body.type = 1 ∧ fs.parent child = inum)

/-- The link counts of all directories, whether filled or not. -/
def LinkCounts (fs : FileSystem) : Prop :=
  ∀ inum, fs.IsDirectory inum →
    (fs.inodes inum).nlink = 2 + (fs.subdirs inum).length

section Steps

variable {fs next : FileSystem} {stack : List Nat} {curInode inum : Nat}

theorem mem_subdirs {child : Nat} :
    child ∈ fs.subdirs inum ↔
      child ≠ 1 ∧ fs.IsDirectory child ∧ fs.parent child = inum := by
  unfold subdirs IsDirectory
  rw [List.mem_filter, List.mem_range'_1, decide_eq_true_eq]
  constructor
  · rintro ⟨⟨lower, upper⟩, type, parent⟩
    exact ⟨by omega, ⟨by omega, by omega, type⟩, parent⟩
  · rintro ⟨notRoot, ⟨positive, below, type⟩, parent⟩
    exact ⟨⟨by omega, by omega⟩, type, parent⟩

theorem nodup_subdirs (inum : Nat) : (fs.subdirs inum).Nodup :=
  (List.nodup_range' ..).filter _

/-- Two sets of subdirectories have the same size if they have the same
members. -/
theorem length_subdirs_congr
    (same : ∀ child, child ∈ next.subdirs inum ↔ child ∈ fs.subdirs inum) :
    (next.subdirs inum).length = (fs.subdirs inum).length :=
  ((List.perm_ext_iff_of_nodup (nodup_subdirs _) (nodup_subdirs _)).mpr
    same).length_eq

/-- Directories stay what they are, in the same directory. -/
theorem Shape.isDirectory_parent_extend (shape : fs.Shape stack)
    (grown : fs.Extends next) (below : inum < fs.freeinode) {parent : Nat} :
    (next.IsDirectory inum ∧ next.parent inum = parent) ↔
      fs.IsDirectory inum ∧ fs.parent inum = parent := by
  constructor
  · rintro ⟨directory, rfl⟩
    have old : fs.IsDirectory inum :=
      ⟨directory.1, below, (grown.inodes inum below).type ▸ directory.2.2⟩
    exact ⟨old, ((shape.directories inum old).parent_extend grown below).symm⟩
  · rintro ⟨directory, rfl⟩
    exact ⟨directory.extend grown,
      (shape.directories inum directory).parent_extend grown below⟩

/-- The counts are kept by a step that makes no directory and leaves their
link counts alone. -/
theorem LinkCounts.extend (counts : fs.LinkCounts) (shape : fs.Shape stack)
    (grown : fs.Extends next)
    (noNew : ∀ inum, next.IsDirectory inum → inum < fs.freeinode)
    (nlinks : ∀ inum, fs.IsDirectory inum →
      (next.inodes inum).nlink = (fs.inodes inum).nlink) :
    next.LinkCounts := by
  intro inum directory
  have old : fs.IsDirectory inum :=
    ⟨directory.1, noNew inum directory,
      (grown.inodes inum (noNew inum directory)).type ▸ directory.2.2⟩
  rw [nlinks inum old, counts inum old]
  refine congrArg (2 + ·) (length_subdirs_congr fun child => ?_).symm
  rw [mem_subdirs, mem_subdirs]
  refine and_congr_right fun _ => ⟨fun here => ?_, fun here => ?_⟩
  · exact (shape.isDirectory_parent_extend grown (noNew child here.1)).mp here
  · exact (shape.isDirectory_parent_extend grown here.1.2.1).mpr here

theorem nlink_modify {change : Inode → Inode}
    (keeps : ∀ inode, (change inode).nlink = inode.nlink) (inum other : Nat) :
    ((fs.modify inum change).inodes other).nlink = (fs.inodes other).nlink := by
  by_cases same : other = inum
  · rw [same, modify_self, keeps]
  · rw [modify_of_ne same]

theorem nlink_enter (entry : Dirent) :
    ((fs.enter curInode entry).inodes inum).nlink = (fs.inodes inum).nlink :=
  @nlink_modify fs (Inode.enter entry) (fun _ => rfl) curInode inum

theorem LinkCounts.openFile (counts : fs.LinkCounts)
    (shape : fs.Shape stack) : fs.openFile.LinkCounts := by
  refine counts.extend shape (Extends.refl fs).openFile
    (fun inum directory => ?_) fun inum _ => by rw [openFile_inodes]
  rw [← @openFile_freeinode fs]
  exact directory.2.1

/-- A file gets a link or is new, which changes no directory. -/
theorem LinkCounts.addFile (counts : fs.LinkCounts)
    (shape : fs.Shape (curInode :: stack)) (name : HostName)
    (stIno stNlink : UInt64) (contents : List UInt8) (chunk : Option Chunk) :
    (fs.addFile curInode name stIno stNlink contents chunk).LinkCounts := by
  have grown := (Extends.refl fs).addFile curInode name stIno stNlink contents
    chunk
  have current := shape.opened curInode List.mem_cons_self
  by_cases known : 0 < stNlink ∧ ∃ last curr,
      findNode stIno.toUInt32 fs.process.links = some (.found last curr)
  · obtain ⟨linked, last, curr, found⟩ := known
    have file := shape.links curr (Chunks.mem_used_of_search found).1
    have added := @addFile_found fs curInode name stIno stNlink contents chunk
      last curr linked found file.2.1
    rw [added] at grown ⊢
    refine counts.extend shape grown (fun inum directory => ?_)
      fun inum directory => ?_
    · rw [← @openFile_freeinode fs]
      exact directory.2.1
    · have different : inum ≠ (fs.process.links.cell curr).value.fsINode :=
        fun equal => file.not_isDirectory (equal ▸ directory)
      rw [nlink_enter, modify_of_ne different]
      exact congrArg Inode.nlink (congrFun openFile_inodes inum)
  · obtain ⟨base, inodes, freeinode, -, added⟩ := @addFile_absent fs curInode
      name stIno stNlink contents chunk fun linked last curr found =>
        known ⟨linked, last, curr, found⟩
    rw [added] at grown ⊢
    refine counts.extend shape grown (fun inum directory => ?_)
      fun inum directory => ?_
    · have below : inum < base.freeinode := directory.2.1
      rw [freeinode] at below
      refine lt_of_le_of_ne (Nat.lt_succ_iff.mp below) fun equal => ?_
      subst equal
      have isFile := directory.2.2
      rw [enter_of_ne current.2.1.ne'] at isFile
      simp [closeFile, setDescriptors, modify, inodes, create, Inode.fresh,
        Inode.append, Body.append, Body.type] at isFile
    · have different : inum ≠ fs.freeinode := directory.2.1.ne
      rw [nlink_enter]
      simp [closeFile, setDescriptors, modify, inodes, create, different]

/-- A new directory is a subdirectory of its parent. -/
theorem mem_subdirs_open (shape : fs.Shape (curInode :: stack)) {child : Nat} :
    child ∈ ((fs.create (.directory [])).addDirHead fs.freeinode
        curInode).subdirs inum ↔
      child ∈ fs.subdirs inum ∨ child = fs.freeinode ∧ curInode = inum := by
  have current := shape.opened curInode List.mem_cons_self
  have opened := shape.openDirectory.opened fs.freeinode List.mem_cons_self
  have grown : fs.Extends
      ((fs.create (.directory [])).addDirHead fs.freeinode curInode) :=
    ((Extends.refl fs).create _).addDirHead _ _
  have parent : ((fs.create (.directory [])).addDirHead fs.freeinode
      curInode).parent fs.freeinode = curInode := by
    simp [FileSystem.parent, dirents, inodes_open current.2.1, Body.dirents]
  have freeinode := freeinode_open fs curInode
  rw [mem_subdirs, mem_subdirs]
  by_cases isNew : child = fs.freeinode
  · subst isNew
    have notRoot : fs.freeinode ≠ 1 := shape.root.2.1.ne'
    have notOld : ¬ fs.IsDirectory fs.freeinode := fun old => old.2.1.false
    simp [notRoot, opened, parent, notOld]
  · rw [or_iff_left fun new => isNew new.1]
    refine and_congr_right fun _ => ⟨fun here => ?_, fun here => ?_⟩
    · have below : child < fs.freeinode + 1 := freeinode ▸ here.1.2.1
      exact (shape.isDirectory_parent_extend grown (by omega)).mp here
    · exact (shape.isDirectory_parent_extend grown here.1.2.1).mpr here

/-- A new directory has no subdirectories, and counts as a link of its
parent. -/
theorem LinkCounts.openDirectory (counts : fs.LinkCounts)
    (shape : fs.Shape (curInode :: stack)) :
    ((fs.create (.directory [])).addDirHead fs.freeinode
      curInode).LinkCounts := by
  have current := shape.opened curInode List.mem_cons_self
  intro inum directory
  rw [inodes_open current.2.1]
  by_cases isNew : inum = fs.freeinode
  · have none : ((fs.create (.directory [])).addDirHead fs.freeinode
        curInode).subdirs inum = [] := by
      refine List.eq_nil_iff_forall_not_mem.mpr fun child member => ?_
      rcases (mem_subdirs_open shape).mp member with old | ⟨-, rfl⟩
      · obtain ⟨-, isDirectory, rfl⟩ := mem_subdirs.mp old
        exact (shape.directories child isDirectory).parent.2.1.ne isNew
      · exact current.2.1.ne isNew
    rw [if_pos isNew, none]
    rfl
  · have below : inum < fs.freeinode + 1 :=
      freeinode_open fs curInode ▸ directory.2.1
    have grown : fs.Extends
        ((fs.create (.directory [])).addDirHead fs.freeinode curInode) :=
      ((Extends.refl fs).create _).addDirHead _ _
    have old := directory.of_extends grown (by omega)
    have counted := counts inum old
    rw [if_neg isNew]
    by_cases isCurrent : inum = curInode
    · subst isCurrent
      have notOld : fs.freeinode ∉ fs.subdirs inum := fun member =>
        (mem_subdirs.mp member).2.1.2.1.false
      have perm : (((fs.create (.directory [])).addDirHead fs.freeinode
          inum).subdirs inum).Perm (fs.freeinode :: fs.subdirs inum) := by
        refine (List.perm_ext_iff_of_nodup (nodup_subdirs _)
          (List.nodup_cons.mpr ⟨notOld, nodup_subdirs _⟩)).mpr fun child => ?_
        rw [mem_subdirs_open shape, List.mem_cons]
        simp [or_comm]
      rw [if_pos rfl, perm.length_eq, List.length_cons]
      simp only [Inode.link]
      omega
    · rw [if_neg isCurrent, counted]
      refine congrArg (2 + ·) (length_subdirs_congr fun child => ?_).symm
      rw [mem_subdirs_open shape, or_iff_left fun new => isCurrent new.2.symm]

theorem LinkCounts.addEntries (counts : fs.LinkCounts)
    (shape : fs.Shape (curInode :: stack)) (curDir : HostDir) :
    (fs.addEntries curInode curDir).LinkCounts := by
  induction curDir generalizing fs curInode stack with
  | nil => exact counts
  | file name stIno stNlink contents chunk rest ih =>
      exact ih (counts.addFile shape name stIno stNlink contents chunk)
        (shape.addFile name stIno stNlink contents chunk)
  | dir name children rest childrenIh restIh =>
      have counts := counts.openFile shape
      have shape := shape.openFile
      have filled := shape.openDirectory.addEntries children
      have filledCounts := childrenIh (counts.openDirectory shape)
        shape.openDirectory
      refine restIh (filledCounts.extend filled
        (((Extends.refl _).modify _ Inode.Grows.fixSize).closeFile.enter _ _)
        (fun inum directory => directory.2.1) fun inum _ => ?_)
        (shape.closeFilled filled name).closeFile
      rw [nlink_enter]
      exact @nlink_modify _ Inode.fixSize (fun _ => rfl) _ _

end Steps

theorem linkCounts_build (descriptors : Nat) (fileTreeRoot : HostDir) :
    (build descriptors fileTreeRoot).LinkCounts := by
  have shape := shape_root descriptors
  have root : (((initial descriptors).create (.directory [])).addDirHead 1
      1).LinkCounts := by
    intro inum directory
    have only : inum < 2 := directory.2.1
    obtain rfl : inum = 1 := by
      have := directory.1
      omega
    rfl
  refine (root.addEntries shape fileTreeRoot).extend
    (shape.addEntries fileTreeRoot)
    ((Extends.refl _).modify _ Inode.Grows.fixSize)
    (fun inum directory => directory.2.1) fun inum _ => ?_
  exact @nlink_modify _ Inode.fixSize (fun _ => rfl) _ _

section Entries

variable {fs : FileSystem} {inum : Nat}

theorem IsDirectory.mem_range' (directory : fs.IsDirectory inum) :
    inum ∈ List.range' 1 (fs.freeinode - 1) := by
  obtain ⟨positive, below, -⟩ := directory
  rw [List.mem_range'_1]
  omega

/-- In a finished file system, an entry names a directory exactly if the
directory has it as parent. -/
theorem Shape.mem_names_iff (shape : fs.Shape [])
    (directory : fs.IsDirectory inum) {child : Nat}
    (isDirectory : fs.IsDirectory child) :
    child ∈ fs.names inum ↔ child ≠ 1 ∧ fs.parent child = inum := by
  have ok := shape.directories child isDirectory
  constructor
  · intro named
    obtain ⟨entry, member, rfl⟩ := List.mem_map.mp named
    have notRoot : entry.inum ≠ 1 := by
      have := ((shape.directories inum directory).children entry member).notRoot
      omega
    refine ⟨notRoot, by_contra fun different => ?_⟩
    have twice := two_le_count_flatMap fs.names different ok.parent.mem_range'
      directory.mem_range' (ok.held notRoot List.not_mem_nil) named
    have once := ok.count
    rw [if_neg (by simp [notRoot]), FileSystem.named] at once
    omega
  · rintro ⟨notRoot, rfl⟩
    exact ok.held notRoot List.not_mem_nil

/-- The entries of a directory that name directories are one for each
subdirectory. -/
theorem Shape.names_perm_subdirs (shape : fs.Shape [])
    (directory : fs.IsDirectory inum) :
    ((fs.names inum).filter fun child =>
      decide ((fs.inodes child).body.type = 1)).Perm (fs.subdirs inum) := by
  have members : ∀ child, child ∈ (fs.names inum).filter (fun child =>
      decide ((fs.inodes child).body.type = 1)) ↔
        child ≠ 1 ∧ fs.IsDirectory child ∧ fs.parent child = inum := by
    intro child
    rw [List.mem_filter, decide_eq_true_eq]
    constructor
    · rintro ⟨named, type⟩
      obtain ⟨entry, member, rfl⟩ := List.mem_map.mp named
      have ok := (shape.directories inum directory).children entry member
      have notRoot := ok.notRoot
      have here : fs.IsDirectory entry.inum := ⟨by omega, ok.below, type⟩
      obtain ⟨notOne, parent⟩ := (shape.mem_names_iff directory here).mp named
      exact ⟨notOne, here, parent⟩
    · rintro ⟨notRoot, here, parent⟩
      exact ⟨(shape.mem_names_iff directory here).mpr ⟨notRoot, parent⟩,
        here.2.2⟩
  refine (List.perm_ext_iff_of_nodup ?_ (nodup_subdirs _)).mpr fun child => by
    rw [members, mem_subdirs]
  refine List.nodup_iff_count_le_one.mpr fun child => ?_
  by_cases member : child ∈ (fs.names inum).filter fun child =>
      decide ((fs.inodes child).body.type = 1)
  · obtain ⟨notRoot, here, -⟩ := (members child).mp member
    have once := (shape.directories child here).count
    rw [if_neg (by simp [notRoot]), FileSystem.named] at once
    calc
      _ ≤ (fs.names inum).count child := List.filter_sublist.count_le child
      _ ≤ _ := count_le_count_flatMap fs.names directory.mem_range' child
      _ = 1 := once
  · rw [List.count_eq_zero_of_not_mem member]
    exact Nat.zero_le 1

end Entries

end FileSystem

/-- The image has the same subdirectories. -/
theorem Carries.length_subdirectories {img : Image} {fs : FileSystem}
    {layout : Nat → Layout} {inum : Nat} (carries : Carries img fs layout)
    (shape : fs.Shape []) (table : fs.freeinode ≤ 200)
    (directory : fs.IsDirectory inum) :
    (img.subdirectories inum).length = (fs.subdirs inum).length := by
  rw [Image.subdirectories,
    if_pos ((carries.isDirectory_iff table).mpr directory), Image.namesOf,
    Image.names, carries.filter_isChild shape (table.trans (by decide)) directory,
    ← (shape.names_perm_subdirs directory).length_eq, FileSystem.names]
  refine congrArg List.length (List.filter_congr fun child member => ?_)
  obtain ⟨entry, listed, rfl⟩ := List.mem_map.mp member
  have ok := (shape.directories inum directory).children entry listed
  have positive : 1 ≤ entry.inum := by
    have := ok.notRoot
    omega
  rw [carries.inodeType_eq positive ok.below]
  exact decide_eq_decide.mpr Int.natCast_inj

/-- Whatever the hard link map does, in an image with at most 199 inodes the
link count of a file is the number of entries that name it, and that of a
directory is 2 plus the number of its subdirectories. -/
theorem main_nlinks {descriptors : Nat} {fileTreeRoot : HostDir}
    {final : State} (done : written descriptors fileTreeRoot = some final)
    (table : final.freeinode ≤ 200) :
    (∀ inum, final.disk.InUse inum → final.disk.inodeType inum = 2 →
      final.disk.inodeNlink inum = final.disk.entriesNaming inum) ∧
    ∀ inum, final.disk.IsDirectory inum →
      final.disk.inodeNlink inum =
        2 + (final.disk.subdirectories inum).length := by
  have shape := FileSystem.shape_build descriptors fileTreeRoot
  obtain ⟨layout, carries⟩ :=
    exists_carries_of_written done (table.trans (by decide))
  rw [(agrees_written done).freeinode] at table
  constructor
  · intro inum used type
    obtain ⟨positive, below⟩ := (carries.inUse_iff table).mp used
    rw [carries.inodeType_eq positive below] at type
    exact carries.inodeNlink_eq_entriesNaming shape table
      ⟨positive, below, by omega⟩
  · intro inum directory
    have isDirectory := (carries.isDirectory_iff table).mp directory
    have counts := FileSystem.linkCounts_build descriptors fileTreeRoot inum
      isDirectory
    have small := (shape.directories inum isDirectory).nlink
    rw [carries.inodeNlink_eq isDirectory.1 isDirectory.2.1 (by omega), counts,
      carries.length_subdirectories shape table isDirectory]
    rfl

/-- A file with two links, and a root directory with one subdirectory. -/
theorem main_nlinks_linkedPair :
    ∃ final, written 2 linkedPair = some final ∧ final.freeinode = 4 ∧
      (∀ inum, final.disk.InUse inum → final.disk.inodeType inum = 2 →
        final.disk.inodeNlink inum = final.disk.entriesNaming inum) ∧
      ∀ inum, final.disk.IsDirectory inum →
        final.disk.inodeNlink inum =
          2 + (final.disk.subdirectories inum).length := by
  have four : (written 2 linkedPair).map State.freeinode = some 4 := by
    decide +kernel
  obtain ⟨final, done, freeinode⟩ := Option.map_eq_some_iff.mp four
  exact ⟨final, done, freeinode,
    main_nlinks done (by rw [freeinode]; decide)⟩

end LinuxKernelDev.Mkfs
