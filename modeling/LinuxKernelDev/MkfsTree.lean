import LinuxKernelDev.LoopRules
import LinuxKernelDev.MkfsFileSystem

/-!
# The built file system is a tree

While `add_dir` runs, the directories on its call stack have no entry yet that
names them.  `Shape` is the invariant of its loop: every other directory is
named by exactly one entry, which its `..` entry leads to, and every file by as
many entries as its link count says.
-/

namespace LinuxKernelDev.Mkfs

open Function LoopRules

namespace FileSystem

variable (fs : FileSystem)

def IsDirectory (inum : Nat) : Prop :=
  1 ≤ inum ∧ inum < fs.freeinode ∧ (fs.inodes inum).body.type = 1

def IsFile (inum : Nat) : Prop :=
  1 ≤ inum ∧ inum < fs.freeinode ∧ (fs.inodes inum).body.type = 2

def dirents (inum : Nat) : List Dirent := (fs.inodes inum).body.dirents

/-- The entries of a directory behind `.` and `..`. -/
def children (inum : Nat) : List Dirent := (fs.dirents inum).drop 2

/-- The inode that the second entry of a directory names. -/
def parent (inum : Nat) : Nat := ((fs.dirents inum)[1]?.map Dirent.inum).getD 0

/-- The inodes that the entries of a directory name. -/
def names (inum : Nat) : List Nat := (fs.children inum).map Dirent.inum

/-- The inodes that any entry names, with repetitions. -/
def named : List Nat :=
  (List.range' 1 (fs.freeinode - 1)).flatMap fs.names

/-- An entry that names a file or directory under a host name. -/
structure ChildOk (entry : Dirent) : Prop where
  notRoot : 2 ≤ entry.inum
  below : entry.inum < fs.freeinode
  name : ∃ name : HostName, entry.name = name.field

/-- A directory while the directories on the stack are being filled. -/
structure DirectoryOk (stack : List Nat) (inum : Nat) : Prop where
  head : fs.dirents inum = ⟨inum, dotName⟩ ::
    ⟨fs.parent inum, dotdotName⟩ :: fs.children inum
  parent : fs.IsDirectory (fs.parent inum)
  rootParent : inum = 1 → fs.parent inum = 1
  parentBelow : inum ≠ 1 → fs.parent inum < inum
  children : ∀ entry ∈ fs.children inum, fs.ChildOk entry
  nlink : (fs.inodes inum).nlink ≤ fs.freeinode
  size : (fs.inodes inum).size =
    if inum ∈ stack then (fs.inodes inum).body.bytes.length
    else ((fs.inodes inum).body.bytes.length / 512 + 1) * 512
  count : fs.named.count inum = if inum = 1 ∨ inum ∈ stack then 0 else 1
  held : inum ≠ 1 → inum ∉ stack → inum ∈ fs.names (fs.parent inum)

/-- A file with its size and its link count. -/
structure FileOk (inum : Nat) : Prop where
  size : (fs.inodes inum).size = (fs.inodes inum).body.bytes.length
  nlink : (fs.inodes inum).nlink = fs.named.count inum
  linked : fs.named.count inum ≠ 0

/-- The invariant of the loop of `add_dir`. -/
structure Shape (stack : List Nat) : Prop where
  root : fs.IsDirectory 1
  opened : ∀ inum ∈ stack, fs.IsDirectory inum
  links : ∀ curr ∈ fs.process.links.used,
    fs.IsFile (fs.process.links.cell curr).value.fsINode
  directories : ∀ inum, fs.IsDirectory inum → fs.DirectoryOk stack inum
  files : ∀ inum, fs.IsFile inum → fs.FileOk inum

end FileSystem

namespace FileSystem

section Extension

variable {fs next : FileSystem} {inum : Nat}

theorem IsDirectory.extend (directory : fs.IsDirectory inum)
    (grown : fs.Extends next) : next.IsDirectory inum :=
  ⟨directory.1, directory.2.1.trans_le grown.freeinode,
    (grown.inodes inum directory.2.1).type.trans directory.2.2⟩

theorem IsFile.extend (file : fs.IsFile inum) (grown : fs.Extends next) :
    next.IsFile inum :=
  ⟨file.1, file.2.1.trans_le grown.freeinode,
    (grown.inodes inum file.2.1).type.trans file.2.2⟩

theorem IsDirectory.of_extends (directory : next.IsDirectory inum)
    (grown : fs.Extends next) (below : inum < fs.freeinode) :
    fs.IsDirectory inum :=
  ⟨directory.1, below, (grown.inodes inum below).type ▸ directory.2.2⟩

theorem IsFile.of_extends (file : next.IsFile inum) (grown : fs.Extends next)
    (below : inum < fs.freeinode) : fs.IsFile inum :=
  ⟨file.1, below, (grown.inodes inum below).type ▸ file.2.2⟩

theorem ChildOk.extend {entry : Dirent} (ok : fs.ChildOk entry)
    (grown : fs.Extends next) : next.ChildOk entry :=
  ⟨ok.notRoot, ok.below.trans_le grown.freeinode, ok.name⟩

theorem names_subset (grown : fs.Extends next) (below : inum < fs.freeinode) :
    fs.names inum ⊆ next.names inum := by
  obtain ⟨added, dirents⟩ := (grown.inodes inum below).dirents
  intro name member
  obtain ⟨entry, present, rfl⟩ := List.mem_map.mp member
  refine List.mem_map.mpr ⟨entry, ?_, rfl⟩
  have extended : next.dirents inum = fs.dirents inum ++ added :=
    dirents.symm
  rw [children, extended, List.drop_append]
  exact List.mem_append_left _ present

theorem FileOk.congr (ok : fs.FileOk inum)
    (inode : next.inodes inum = fs.inodes inum)
    (count : next.named.count inum = fs.named.count inum) :
    next.FileOk inum := by
  refine ⟨?_, ?_, count ▸ ok.linked⟩
  · rw [inode]
    exact ok.size
  · rw [inode, count]
    exact ok.nlink

/-- A directory keeps its shape if its new entries have host names. -/
theorem DirectoryOk.extend {stack newStack : List Nat}
    (ok : fs.DirectoryOk stack inum) (grown : fs.Extends next)
    (added : List Dirent)
    (dirents : next.dirents inum = fs.dirents inum ++ added)
    (children : ∀ entry ∈ added, next.ChildOk entry)
    (nlink : (next.inodes inum).nlink ≤ next.freeinode)
    (size : (next.inodes inum).size =
      if inum ∈ newStack then (next.inodes inum).body.bytes.length
      else ((next.inodes inum).body.bytes.length / 512 + 1) * 512)
    (count : next.named.count inum =
      if inum = 1 ∨ inum ∈ newStack then 0 else 1)
    (held : inum ≠ 1 → inum ∉ newStack →
      inum ∈ next.names (fs.parent inum)) :
    next.DirectoryOk newStack inum := by
  have parentEq : next.parent inum = fs.parent inum := by
    rw [FileSystem.parent, FileSystem.parent, dirents, ok.head]
    rfl
  have childrenEq : next.children inum = fs.children inum ++ added := by
    rw [FileSystem.children, dirents, ok.head]
    rfl
  refine ⟨?_, ?_, ?_, ?_, ?_, nlink, size, count, ?_⟩
  · rw [dirents, parentEq, childrenEq, ok.head]
    rfl
  · rw [parentEq]
    exact ok.parent.extend grown
  · rw [parentEq]
    exact ok.rootParent
  · rw [parentEq]
    exact ok.parentBelow
  · rw [childrenEq]
    intro entry member
    rcases List.mem_append.mp member with old | new
    · exact (ok.children entry old).extend grown
    · exact children entry new
  · rw [parentEq]
    exact held

/-- A directory that is not touched keeps its shape. -/
theorem DirectoryOk.congr {stack newStack : List Nat}
    (ok : fs.DirectoryOk stack inum) (grown : fs.Extends next)
    (inode : next.inodes inum = fs.inodes inum)
    (sameStack : inum ∈ newStack ↔ inum ∈ stack)
    (count : next.named.count inum = fs.named.count inum) :
    next.DirectoryOk newStack inum := by
  refine ok.extend grown [] ?_ (List.forall_mem_nil _) ?_ ?_ ?_
    fun notRoot closed =>
    names_subset grown ok.parent.2.1 (ok.held notRoot (mt sameStack.mpr closed))
  · rw [List.append_nil, dirents, dirents, inode]
  · rw [inode]
    exact ok.nlink.trans grown.freeinode
  · rw [inode, ok.size]
    simp only [sameStack]
  · rw [count, ok.count]
    simp only [sameStack]

/-- A directory with its entries `.` and `..` that is being filled. -/
theorem DirectoryOk.fresh {stack : List Nat} {parent : Nat}
    (inode : fs.inodes inum =
      ⟨2, 32, .directory [⟨inum, dotName⟩, ⟨parent, dotdotName⟩]⟩)
    (holder : fs.IsDirectory parent) (rootParent : inum = 1 → parent = 1)
    (parentBelow : inum ≠ 1 → parent < inum) (room : 2 ≤ fs.freeinode)
    (count : fs.named.count inum = 0) (opened : inum ∈ stack) :
    fs.DirectoryOk stack inum := by
  have parentEq : fs.parent inum = parent := by
    simp [FileSystem.parent, dirents, inode, Body.dirents]
  have children : fs.children inum = [] := by
    simp [FileSystem.children, dirents, inode, Body.dirents]
  refine ⟨?_, ?_, ?_, ?_, ?_, ?_, ?_, ?_, fun _ closed => absurd opened closed⟩
  · rw [parentEq, children, dirents, inode]
    rfl
  · rwa [parentEq]
  · rwa [parentEq]
  · rwa [parentEq]
  · rw [children]
    exact nofun
  · rwa [inode]
  · rw [inode, if_pos opened]
    simp [Body.bytes, Dirent.bytes, dotName, dotdotName]
  · rw [count, if_pos (.inr opened)]

end Extension

section Counting

variable {fs : FileSystem} {curInode : Nat}

theorem mem_named {inum : Nat} :
    inum ∈ fs.named ↔ ∃ holder, 1 ≤ holder ∧ holder < fs.freeinode ∧
      inum ∈ fs.names holder := by
  simp only [named, List.mem_flatMap, List.mem_range'_1]
  constructor
  · rintro ⟨holder, range, member⟩
    exact ⟨holder, range.1, by omega, member⟩
  · rintro ⟨holder, positive, below, member⟩
    exact ⟨holder, ⟨positive, by omega⟩, member⟩

/-- Only directories have entries. -/
theorem isDirectory_of_mem_children {holder : Nat} {entry : Dirent}
    (positive : 1 ≤ holder) (below : holder < fs.freeinode)
    (present : entry ∈ fs.children holder) : fs.IsDirectory holder := by
  refine ⟨positive, below, ?_⟩
  cases body : (fs.inodes holder).body with
  | directory => rfl
  | file => simp [children, dirents, body, Body.dirents] at present

/-- Inodes that do not exist are not named. -/
theorem Shape.count_of_le {stack : List Nat} (shape : fs.Shape stack)
    {inum : Nat} (above : fs.freeinode ≤ inum) :
    fs.named.count inum = 0 := by
  refine List.count_eq_zero.mpr fun member => ?_
  obtain ⟨holder, positive, below, named⟩ := mem_named.mp member
  obtain ⟨entry, present, rfl⟩ := List.mem_map.mp named
  have directory := isDirectory_of_mem_children positive below present
  have ok := (shape.directories holder directory).children entry present
  exact absurd ok.below (by omega)

/-- Changes that leave the entries of all directories alone. -/
theorem named_congr {next : FileSystem}
    (freeinode : next.freeinode = fs.freeinode)
    (names : ∀ inum < fs.freeinode, next.names inum = fs.names inum) :
    next.named = fs.named := by
  unfold named
  rw [freeinode]
  refine List.flatMap_congr fun inum member => names inum ?_
  rw [List.mem_range'_1] at member
  omega

section Modify

variable (change : Inode → Inode)
  (keeps : ∀ inode, (change inode).body = inode.body)

include keeps

theorem body_modify (inum other : Nat) :
    ((fs.modify inum change).inodes other).body =
      (fs.inodes other).body := by
  by_cases same : other = inum
  · subst same
    simp only [modify, update_self, keeps]
  · simp only [modify, update_of_ne same]

theorem dirents_modify (inum : Nat) :
    (fs.modify inum change).dirents = fs.dirents :=
  funext fun other => congrArg Body.dirents
    (body_modify change keeps inum other)

theorem named_modify (inum : Nat) :
    (fs.modify inum change).named = fs.named := by
  refine named_congr rfl fun other _ => ?_
  rw [names, children, dirents_modify change keeps]
  rfl

end Modify

/-- A new inode that names nothing. -/
theorem named_new {next : FileSystem}
    (freeinode : next.freeinode = fs.freeinode + 1)
    (positive : 1 ≤ fs.freeinode) (last : next.names fs.freeinode = [])
    (others : ∀ inum < fs.freeinode, next.names inum = fs.names inum) :
    next.named = fs.named := by
  have range : List.range' 1 (next.freeinode - 1) =
      List.range' 1 (fs.freeinode - 1) ++ [fs.freeinode] := by
    obtain ⟨count, equal⟩ := Nat.exists_eq_add_of_le positive
    rw [freeinode, equal, show 1 + count + 1 - 1 = count + 1 by omega,
      List.range'_1_concat, Nat.add_sub_cancel_left]
  unfold named
  rw [range, List.flatMap_append, List.flatMap_singleton, last,
    List.append_nil]
  refine List.flatMap_congr fun inum member => others inum ?_
  rw [List.mem_range'_1] at member
  omega

theorem dirents_enter (directory : fs.IsDirectory curInode)
    (entry : Dirent) :
    (fs.enter curInode entry).dirents =
      update fs.dirents curInode (fs.dirents curInode ++ [entry]) := by
  funext inum
  by_cases same : inum = curInode
  · subst same
    cases body : (fs.inodes inum).body with
    | directory =>
        simp [dirents, enter, modify, Inode.enter, Body.enter, body,
          Body.dirents]
    | file => simp [IsDirectory, body, Body.type] at directory
  · simp [dirents, enter, modify, same]

/-- An entry behind `.` and `..` of a directory. -/
theorem named_enter (directory : fs.IsDirectory curInode)
    (head : 2 ≤ (fs.dirents curInode).length) (entry : Dirent) :
    (fs.enter curInode entry).named.Perm (fs.named ++ [entry.inum]) := by
  have names : (fs.enter curInode entry).names =
      update fs.names curInode (fs.names curInode ++ [entry.inum]) := by
    funext inum
    by_cases same : inum = curInode
    · subst same
      simp [FileSystem.names, children, dirents_enter directory,
        List.drop_append_of_le_length head]
    · simp [FileSystem.names, children, dirents_enter directory, same]
  have member : curInode ∈ List.range' 1 (fs.freeinode - 1) := by
    rw [List.mem_range'_1]
    have range := directory
    unfold IsDirectory at range
    omega
  unfold named
  rw [names]
  exact perm_flatMap_update (List.nodup_range' ..) fs.names member
    (List.Perm.refl _)

theorem count_enter (directory : fs.IsDirectory curInode)
    (head : 2 ≤ (fs.dirents curInode).length) (entry : Dirent) (inum : Nat) :
    (fs.enter curInode entry).named.count inum =
      fs.named.count inum + if entry.inum = inum then 1 else 0 := by
  rw [(named_enter directory head entry).count_eq, List.count_append,
    List.count_singleton]
  simp only [beq_iff_eq]

end Counting

end FileSystem

end LinuxKernelDev.Mkfs
