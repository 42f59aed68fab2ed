import LinuxKernelDev.FsckConsistency
import LinuxKernelDev.RootedTree

/-!
# The walk through the directories of an image

The subdirectories that the entries of a directory name make the directories of
a consistent image a rooted tree.  A walk from the root that is deep enough
meets every directory once, and with them every entry of the image.
-/

namespace LinuxKernelDev.Image

open LoopRules LinuxKernelDev.RootedTree

section Names

variable (img : Image)

/-- The inode numbers named in a directory, `.` and `..` apart. -/
def names (inum : Nat) : List Nat :=
  ((img.directoryDirents inum).filter Dirent.isChild).map Dirent.inum

/-- The named inodes of a type. -/
def namesOf (type : Int) (inum : Nat) : List Nat :=
  (img.names inum).filter fun named => decide (img.inodeType named = type)

def subdirectories (inum : Nat) : List Nat :=
  if img.IsDirectory inum then img.namesOf 1 inum else []

def directories : List Nat :=
  img.inUseInodes.filter fun inum => decide (img.inodeType inum = 1)

@[simp]
theorem mem_directories {inum : Nat} :
    inum ∈ img.directories ↔ img.IsDirectory inum := by
  simp [directories, IsDirectory]

theorem nodup_directories : img.directories.Nodup :=
  (List.nodup_range.filter _).filter _

theorem holds_iff_mem_names {holder inum : Nat} :
    img.Holds holder inum ↔
      img.IsDirectory holder ∧ inum ∈ img.names holder := by
  rw [holds_iff, names]
  simp only [List.mem_map, List.mem_filter]
  constructor
  · rintro ⟨directory, entry, member, child, rfl⟩
    exact ⟨directory, entry, ⟨member, child⟩, rfl⟩
  · rintro ⟨directory, entry, ⟨member, child⟩, rfl⟩
    exact ⟨directory, entry, member, child, rfl⟩

theorem mem_subdirectories {holder inum : Nat} :
    inum ∈ img.subdirectories holder ↔
      img.Holds holder inum ∧ img.inodeType inum = 1 := by
  rw [holds_iff_mem_names]
  unfold subdirectories namesOf
  split_ifs with directory <;> simp [directory]

/-- The entries that name an inode are counted directory by directory. -/
theorem entriesNaming_eq_count (inum : Nat) :
    img.entriesNaming inum = (img.directories.flatMap img.names).count inum := by
  have held : img.entries.map (fun entry => entry.2.inum) =
      img.directories.flatMap img.names := by
    unfold entries slots names directories
    rw [List.filter_flatMap, List.map_flatMap]
    apply List.flatMap_congr
    intro holder _
    rw [List.filter_map, List.map_map]
    rfl
  rw [← held, List.count, List.countP_map]
  rfl

end Names

namespace Consistent

variable {img : Image} (consistent : img.Consistent)

include consistent

theorem inUse_of_holds {holder inum : Nat} (held : img.Holds holder inum) :
    img.InUse inum := by
  obtain ⟨entry, member, -, rfl⟩ := held
  exact consistent.entriesInUse entry member

theorem ne_root_of_holds {holder inum : Nat} (held : img.Holds holder inum) :
    inum ≠ 1 := by
  rintro rfl
  exact img.entriesNaming_ne_zero_of_holds held consistent.rootUnnamed

theorem isDirectory_of_mem {holder inum : Nat}
    (member : inum ∈ img.subdirectories holder) : img.IsDirectory inum := by
  obtain ⟨held, directory⟩ := img.mem_subdirectories.mp member
  exact ⟨consistent.inUse_of_holds held, directory⟩

/-- The subdirectories make up a tree. -/
theorem isTree : IsTree img.subdirectories 1 := by
  refine ⟨fun holder member => ?_, fun holder inum member other => ?_⟩
  · exact consistent.ne_root_of_holds
      (img.mem_subdirectories.mp member).1 rfl
  · obtain ⟨held, -⟩ := img.mem_subdirectories.mp member
    have once := consistent.namedOnce inum
      (consistent.isDirectory_of_mem member) (consistent.ne_root_of_holds held)
    split_ifs with same
    · subst same
      have directory := (img.holds_iff.mp held).1
      have most := count_le_count_flatMap img.names
        (img.mem_directories.mpr directory) inum
      rw [← img.entriesNaming_eq_count, once] at most
      have least := List.count_pos_iff.mpr member
      have fewer : (img.subdirectories other).count inum ≤
          (img.names other).count inum := by
        rw [subdirectories, if_pos directory]
        exact List.filter_sublist.count_le inum
      omega
    · rw [List.count_eq_zero]
      intro again
      exact same ((img.mem_subdirectories.mp again).1.unique once held)

theorem exists_atDepth {inum : Nat} (directory : img.IsDirectory inum) :
    ∃ depth, AtDepth img.subdirectories 1 depth inum := by
  have reachable := consistent.reachable inum directory
  induction reachable with
  | refl => exact ⟨0, .root⟩
  | tail _ held ih =>
      obtain ⟨depth, located⟩ := ih (img.holds_iff.mp held).1
      exact ⟨depth + 1, located.child
        (img.mem_subdirectories.mpr ⟨held, directory.2⟩)⟩

/-- The depth of the tree. -/
theorem exists_height : ∃ height, ∀ inum, img.IsDirectory inum →
    ∃ depth < height, AtDepth img.subdirectories 1 depth inum := by
  obtain ⟨height, located⟩ := exists_bound img.directories
    fun inum member =>
      consistent.exists_atDepth (img.mem_directories.mp member)
  exact ⟨height, fun inum directory =>
    located inum (img.mem_directories.mpr directory)⟩

/-- A walk that is deep enough meets every directory once. -/
theorem preorder_perm_directories {height : Nat}
    (high : ∀ inum, img.IsDirectory inum →
      ∃ depth < height, AtDepth img.subdirectories 1 depth inum) :
    (preorder img.subdirectories height 1).Perm img.directories := by
  refine consistent.isTree.preorder_perm img.nodup_directories
    (fun inum member => high inum (img.mem_directories.mp member)) ?_
  have closed : ∀ holder, img.IsDirectory holder →
      ∀ inum ∈ img.subdirectories holder, img.IsDirectory inum :=
    fun holder _ inum => consistent.isDirectory_of_mem
  intro inum member
  exact img.mem_directories.mpr
    (forall_mem_preorder closed consistent.root inum member)

/-- It meets an inode of a type as often as it is named. -/
theorem count_namesOf {height inum : Nat} {type : Int}
    (high : ∀ inum, img.IsDirectory inum →
      ∃ depth < height, AtDepth img.subdirectories 1 depth inum)
    (typeEq : img.inodeType inum = type) :
    ((preorder img.subdirectories height 1).flatMap (img.namesOf type)).count
      inum = img.entriesNaming inum := by
  have perm := (consistent.preorder_perm_directories high).flatMap_right
    (img.namesOf type)
  have filtered : img.directories.flatMap (img.namesOf type) =
      (img.directories.flatMap img.names).filter
        fun named => decide (img.inodeType named = type) := by
    rw [List.filter_flatMap]
    rfl
  rw [perm.count_eq, filtered, List.count_filter (by simpa using typeEq),
    img.entriesNaming_eq_count]

end Consistent

end LinuxKernelDev.Image
