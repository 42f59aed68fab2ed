import LinuxKernelDev.MkfsTreeSteps

/-!
# The built file system mirrors the host tree

In the order in which `readdir` returns them, the entries of every built
directory are the entries of its host directory.  A file that the hard link map
finds again shares the inode of an earlier file with the same host inode
number, so its data is right as long as such files have the same contents.
-/

namespace LinuxKernelDev.Mkfs

open Function LinkedChunks

namespace HostDir

/-- Number of entries of a host directory. -/
def length : HostDir → Nat
  | .nil => 0
  | .file _ _ _ _ _ rest => rest.length + 1
  | .dir _ _ rest => rest.length + 1

/-- The directories below a host directory. -/
def subdirs : HostDir → List HostDir
  | .nil => []
  | .file _ _ _ _ _ rest => rest.subdirs
  | .dir _ children rest => children :: children.subdirs ++ rest.subdirs

/-- The files that go through the hard link map: the host inode number as it is
kept there, and the contents. -/
def linked : HostDir → List (UInt32 × List UInt8)
  | .nil => []
  | .file _ stIno stNlink contents _ rest =>
      (if 0 < stNlink then [(stIno.toUInt32, contents)] else []) ++ rest.linked
  | .dir _ children rest => children.linked ++ rest.linked

theorem subdirs_trans {outer middle inner : HostDir}
    (first : middle ∈ outer.subdirs) (second : inner ∈ middle.subdirs) :
    inner ∈ outer.subdirs := by
  induction outer with
  | nil => simp [subdirs] at first
  | file name stIno stNlink contents chunk rest ih => exact ih first
  | dir name children rest childrenIh restIh =>
      rw [subdirs, List.mem_append, List.mem_cons] at first ⊢
      rcases first with (rfl | inside) | behind
      · exact .inl (.inr second)
      · exact .inl (.inr (childrenIh inside))
      · exact .inr (restIh behind)

end HostDir

namespace FileSystem

/-- The entries name, one by one, what a host directory contains.  The data of
a file is related to its host contents by `same`. -/
def Mirrors (fs : FileSystem) (same : List UInt8 → List UInt8 → Prop) :
    List Dirent → HostDir → Prop
  | entries, .nil => entries = []
  | entries, .file name _ _ contents _ rest =>
      ∃ entry others, entries = entry :: others ∧ entry.name = name.field ∧
        fs.IsFile entry.inum ∧
        same (fs.inodes entry.inum).body.bytes contents ∧
        fs.Mirrors same others rest
  | entries, .dir name children rest =>
      ∃ entry others, entries = entry :: others ∧ entry.name = name.field ∧
        fs.IsDirectory entry.inum ∧
        fs.Mirrors same (fs.children entry.inum) children ∧
        fs.Mirrors same others rest

/-- The files in the hard link map are copies of host files. -/
def Known (fs : FileSystem) (files : List (UInt32 × List UInt8)) : Prop :=
  ∀ curr ∈ fs.process.links.used, ∃ file ∈ files,
    file.1 = (fs.process.links.cell curr).value.hostINode ∧
      (fs.inodes (fs.process.links.cell curr).value.fsINode).body.bytes =
        file.2

/-- Only the data of one inode has changed. -/
structure Keeps (fs next : FileSystem) (curInode : Nat) : Prop where
  freeinode : fs.freeinode ≤ next.freeinode
  body : ∀ inum < fs.freeinode, inum ≠ curInode →
    (next.inodes inum).body = (fs.inodes inum).body

section Frame

variable {fs next : FileSystem} {same : List UInt8 → List UInt8 → Prop}
  {stack : List Nat} {curInode inum : Nat}

theorem Keeps.trans {middle : FileSystem} (first : fs.Keeps middle curInode)
    (second : middle.Keeps next curInode) : fs.Keeps next curInode where
  freeinode := first.freeinode.trans second.freeinode
  body inum below different :=
    (second.body inum (below.trans_le first.freeinode) different).trans
      (first.body inum below different)

theorem Keeps.children (keeps : fs.Keeps next curInode)
    (below : inum < fs.freeinode) (different : inum ≠ curInode) :
    next.children inum = fs.children inum :=
  congrArg (fun body => (Body.dirents body).drop 2)
    (keeps.body inum below different)

theorem Keeps.isFile (keeps : fs.Keeps next curInode)
    (different : inum ≠ curInode) (file : fs.IsFile inum) :
    next.IsFile inum :=
  ⟨file.1, file.2.1.trans_le keeps.freeinode, by
    rw [keeps.body inum file.2.1 different]
    exact file.2.2⟩

theorem Keeps.isDirectory (keeps : fs.Keeps next curInode)
    (different : inum ≠ curInode) (directory : fs.IsDirectory inum) :
    next.IsDirectory inum :=
  ⟨directory.1, directory.2.1.trans_le keeps.freeinode, by
    rw [keeps.body inum directory.2.1 different]
    exact directory.2.2⟩

theorem Keeps.enter (keeps : fs.Keeps next curInode) (entry : Dirent) :
    fs.Keeps (next.enter curInode entry) curInode where
  freeinode := keeps.freeinode
  body inum below different := by
    rw [enter_of_ne different]
    exact keeps.body inum below different

/-- A directory on the stack is not named by any entry. -/
theorem Shape.not_named (shape : fs.Shape stack) (opened : inum ∈ stack) :
    inum ∉ fs.named := by
  have count := (shape.directories inum (shape.opened inum opened)).count
  rw [if_pos (.inr opened)] at count
  exact List.count_eq_zero.mp count

/-- Filling a directory on the stack leaves finished directories alone. -/
theorem Mirrors.frame (shape : fs.Shape stack) (opened : curInode ∈ stack)
    (keeps : fs.Keeps next curInode) {entries : List Dirent}
    {curDir : HostDir} (named : ∀ entry ∈ entries, entry.inum ∈ fs.named)
    (mirrors : fs.Mirrors same entries curDir) :
    next.Mirrors same entries curDir := by
  have current := shape.opened curInode opened
  induction curDir generalizing entries with
  | nil => exact mirrors
  | file name stIno stNlink contents chunk rest ih =>
      obtain ⟨entry, others, rfl, nameEq, file, data, tail⟩ := mirrors
      have different : entry.inum ≠ curInode := fun equal =>
        file.not_isDirectory (equal ▸ current)
      refine ⟨entry, others, rfl, nameEq, keeps.isFile different file, ?_,
        ih (fun other member => named other (List.mem_cons_of_mem _ member))
          tail⟩
      rwa [keeps.body _ file.2.1 different]
  | dir name children rest childrenIh restIh =>
      obtain ⟨entry, others, rfl, nameEq, directory, below, tail⟩ := mirrors
      have different : entry.inum ≠ curInode := fun equal =>
        shape.not_named opened (equal ▸ named entry List.mem_cons_self)
      refine ⟨entry, others, rfl, nameEq,
        keeps.isDirectory different directory, ?_,
        restIh (fun other member =>
          named other (List.mem_cons_of_mem _ member)) tail⟩
      rw [keeps.children directory.2.1 different]
      exact childrenIh (fun child member => mem_named.mpr
        ⟨entry.inum, directory.1, directory.2.1,
          List.mem_map_of_mem member⟩) below

theorem Known.frame {files : List (UInt32 × List UInt8)}
    (known : fs.Known files) (shape : fs.Shape stack)
    (notFile : ¬fs.IsFile curInode) (keeps : fs.Keeps next curInode)
    (links : next.process.links = fs.process.links) : next.Known files := by
  intro curr member
  rw [links] at member ⊢
  obtain ⟨file, present, hostINode, data⟩ := known curr member
  have isFile := shape.links curr member
  have different : (fs.process.links.cell curr).value.fsINode ≠ curInode :=
    fun equal => notFile (equal ▸ isFile)
  exact ⟨file, present, hostINode,
    (congrArg Body.bytes (keeps.body _ isFile.2.1 different)).trans data⟩

theorem Known.openFile {files : List (UInt32 × List UInt8)}
    (known : fs.Known files) : fs.openFile.Known files := by
  unfold FileSystem.openFile
  split <;> exact known

end Frame

/-- What the loop of `add_dir` does to a directory: its new entries are those
of the host directory. -/
structure Filled (fs next : FileSystem) (curInode : Nat)
    (same : List UInt8 → List UInt8 → Prop)
    (files : List (UInt32 × List UInt8)) (curDir : HostDir) : Prop where
  keeps : fs.Keeps next curInode
  added : ∃ added, next.dirents curInode = fs.dirents curInode ++ added ∧
    next.Mirrors same added curDir
  known : next.Known files

/-- Opening a file changes nothing that is stored. -/
theorem Filled.of_openFile {fs next : FileSystem} {curInode : Nat}
    {same : List UInt8 → List UInt8 → Prop}
    {files : List (UInt32 × List UInt8)} {curDir : HostDir}
    (filled : Filled fs.openFile next curInode same files curDir) :
    Filled fs next curInode same files curDir := by
  obtain ⟨⟨freeinode, body⟩, ⟨added, dirents, mirrors⟩, known⟩ := filled
  rw [openFile_freeinode] at freeinode body
  rw [openFile_inodes] at body
  rw [FileSystem.dirents, FileSystem.dirents, openFile_inodes] at dirents
  exact ⟨⟨freeinode, body⟩, ⟨added, dirents, mirrors⟩, known⟩

section Steps

variable {fs : FileSystem} {curInode : Nat} {stack : List Nat}
  {same : List UInt8 → List UInt8 → Prop}
  {files : List (UInt32 × List UInt8)}

/-- A file that the map has gets another entry. -/
theorem filled_addLink (shape : fs.Shape (curInode :: stack))
    (known : fs.Known files) {last : Option Nat} {curr : Nat}
    {node : HardLinkMapNode}
    (node_eq : (fs.process.links.cell curr).value = node)
    (present : curr ∈ fs.process.links.used) {contents : List UInt8}
    (agree : ∀ file ∈ files, file.1 = node.hostINode → same file.2 contents)
    (name : HostName) (stIno stNlink : UInt64) (chunk : Option Chunk) :
    Filled fs (((fs.setLinks (useLink fs.process.links last curr)).modify
      node.fsINode Inode.link).enter curInode ⟨node.fsINode, name.field⟩)
        curInode same files (.file name stIno stNlink contents chunk .nil) := by
  have current := shape.opened curInode List.mem_cons_self
  have file : fs.IsFile node.fsINode := node_eq ▸ shape.links curr present
  have grown : fs.Extends ((fs.setLinks
      (useLink fs.process.links last curr)).modify node.fsINode Inode.link) :=
    ((Extends.refl fs).process _).modify node.fsINode Inode.Grows.link
  have bodies : ∀ inum, (((fs.setLinks
      (useLink fs.process.links last curr)).modify node.fsINode
        Inode.link).inodes inum).body = (fs.inodes inum).body :=
    body_modify Inode.link (fun _ => rfl) node.fsINode
  have keeps : fs.Keeps (((fs.setLinks
      (useLink fs.process.links last curr)).modify node.fsINode
        Inode.link).enter curInode ⟨node.fsINode, name.field⟩) curInode :=
    (⟨le_refl fs.freeinode, fun inum _ _ => bodies inum⟩ : fs.Keeps
      ((fs.setLinks (useLink fs.process.links last curr)).modify node.fsINode
        Inode.link) curInode).enter _
  have notCurrent : ∀ inum, fs.IsFile inum → inum ≠ curInode :=
    fun inum isFile equal => isFile.not_isDirectory (equal ▸ current)
  refine ⟨keeps, ⟨[⟨node.fsINode, name.field⟩], ?_, ?_⟩, ?_⟩
  · rw [dirents_enter (current.extend grown), update_self]
    exact congrArg (fun body => Body.dirents body ++ _) (bodies curInode)
  · obtain ⟨source, member, number, data⟩ := known curr present
    rw [node_eq] at number data
    refine ⟨_, [], rfl, rfl, keeps.isFile (notCurrent _ file) file, ?_, rfl⟩
    rw [keeps.body _ file.2.1 (notCurrent _ file), data]
    exact agree source member number
  · intro other member
    obtain ⟨oldMember, sameInode, sameHost⟩ := used_useLink member
    obtain ⟨source, sourceMember, number, data⟩ := known other oldMember
    have oldFile := shape.links other oldMember
    refine ⟨source, sourceMember, number.trans sameHost.symm, ?_⟩
    refine Eq.trans (congrArg (fun inum => Body.bytes (Inode.body
      (FileSystem.inodes _ inum))) sameInode) ?_
    rw [keeps.body _ oldFile.2.1 (notCurrent _ oldFile), data]

/-- A new file that has its data gets its first entry. -/
theorem filled_enterNew (shape : fs.Shape (curInode :: stack))
    (known : fs.Known files) {next : FileSystem} {contents : List UInt8}
    (freeinode : next.freeinode = fs.freeinode + 1)
    (older : ∀ inum < fs.freeinode, next.inodes inum = fs.inodes inum)
    (newFile : next.inodes fs.freeinode =
      ⟨1, contents.length, .file contents⟩)
    (added : ∀ curr ∈ next.process.links.used,
      (next.process.links.cell curr).value.fsINode = fs.freeinode ∧
        ((next.process.links.cell curr).value.hostINode, contents) ∈ files ∨
      curr ∈ fs.process.links.used ∧ (next.process.links.cell curr).value =
        (fs.process.links.cell curr).value)
    (self : same contents contents) (name : HostName)
    (stIno stNlink : UInt64) (chunk : Option Chunk) :
    Filled fs (next.enter curInode ⟨fs.freeinode, name.field⟩) curInode same
      files (.file name stIno stNlink contents chunk .nil) := by
  have current := shape.opened curInode List.mem_cons_self
  have keeps : fs.Keeps (next.enter curInode ⟨fs.freeinode, name.field⟩)
      curInode :=
    Keeps.enter ⟨freeinode ▸ Nat.le_succ _, fun inum below _ =>
      congrArg Inode.body (older inum below)⟩ _
  have entered : (next.enter curInode ⟨fs.freeinode, name.field⟩).inodes
      fs.freeinode = ⟨1, contents.length, .file contents⟩ := by
    rw [enter_of_ne current.2.1.ne', newFile]
  have directory : next.IsDirectory curInode :=
    ⟨current.1, freeinode ▸ Nat.lt_succ_of_lt current.2.1, by
      rw [older curInode current.2.1]
      exact current.2.2⟩
  refine ⟨keeps, ⟨[⟨fs.freeinode, name.field⟩], ?_, ?_⟩, fun curr member => ?_⟩
  · rw [dirents_enter directory, update_self]
    exact congrArg (fun inode => Body.dirents (Inode.body inode) ++ _)
      (older curInode current.2.1)
  · refine ⟨_, [], rfl, rfl, ⟨shape.root.2.1.le,
      freeinode ▸ Nat.lt_succ_self _, ?_⟩, ?_, rfl⟩
    · rw [entered]
      rfl
    · rw [entered]
      exact self
  · have process : (next.enter curInode ⟨fs.freeinode, name.field⟩).process =
        next.process := rfl
    rw [process] at member ⊢
    rcases added curr member with ⟨new, present⟩ | ⟨old, same⟩
    · exact ⟨_, present, rfl, by rw [new, entered]; rfl⟩
    · obtain ⟨source, sourceMember, number, data⟩ := known curr old
      have file := shape.links curr old
      refine ⟨source, sourceMember, same ▸ number, ?_⟩
      rw [same, keeps.body _ file.2.1 fun equal =>
        file.not_isDirectory (equal ▸ current), data]

/-- A new file gets its data and its first entry. -/
theorem filled_addNewFile (shape : fs.Shape (curInode :: stack))
    (process : Process) (stopped : Bool) {contents : List UInt8}
    (known : fs.Known files)
    (added : ∀ curr ∈ process.links.used,
      (process.links.cell curr).value.fsINode = fs.freeinode ∧
        ((process.links.cell curr).value.hostINode, contents) ∈ files ∨
      curr ∈ fs.process.links.used ∧ (process.links.cell curr).value =
        (fs.process.links.cell curr).value)
    (self : same contents contents) (name : HostName)
    (stIno stNlink : UInt64) (chunk : Option Chunk) :
    Filled fs (({ fs.create (.file []) with
        process := process, stopped := stopped }.modify
      fs.freeinode (Inode.append contents)).enter curInode
        ⟨fs.freeinode, name.field⟩) curInode same files
          (.file name stIno stNlink contents chunk .nil) := by
  refine filled_enterNew shape known rfl (fun inum below => ?_) ?_ added self
    name stIno stNlink chunk
  · rw [modify_of_ne below.ne]
    exact update_of_ne below.ne _ _
  · simp [modify, create, Inode.append, Inode.fresh, Body.append]

theorem filled_addFile (shape : fs.Shape (curInode :: stack))
    (known : fs.Known files) (refl : ∀ contents, same contents contents)
    (agree : ∀ first ∈ files, ∀ second ∈ files, first.1 = second.1 →
      same first.2 second.2)
    (name : HostName) (stIno stNlink : UInt64) (contents : List UInt8)
    (chunk : Option Chunk)
    (listed : 0 < stNlink → (stIno.toUInt32, contents) ∈ files) :
    Filled fs (fs.addFile curInode name stIno stNlink contents chunk) curInode
      same files (.file name stIno stNlink contents chunk .nil) := by
  have shape := shape.openFile
  have known := known.openFile
  refine Filled.of_openFile ?_
  unfold FileSystem.addFile
  generalize fs.openFile = fs at *
  dsimp only
  have old : ∀ curr ∈ fs.process.links.used,
      (fs.process.links.cell curr).value.fsINode = fs.freeinode ∧
        ((fs.process.links.cell curr).value.hostINode, contents) ∈ files ∨
      curr ∈ fs.process.links.used ∧ (fs.process.links.cell curr).value =
        (fs.process.links.cell curr).value :=
    fun curr member => .inr ⟨member, rfl⟩
  split_ifs with linked again
  · cases found : findNode stIno.toUInt32 fs.process.links with
    | none => simp [fetch, found] at again
    | some result =>
      cases result with
      | missing last => cases chunk <;> simp [fetch, found] at again
      | found last curr =>
          obtain ⟨present, number⟩ := Chunks.mem_used_of_search found
          rw [fetch_found found]
          exact filled_addLink shape known rfl present (fun file member equal =>
            agree file member _ (listed linked)
              (equal.trans (of_decide_eq_true number))) name _ _ _
  · cases found : findNode stIno.toUInt32 fs.process.links with
    | none =>
        simp only [fetch, found]
        exact filled_addNewFile shape ⟨_, fs.process.descriptors + 1⟩ true
          known old (refl contents) name _ _ _
    | some result =>
      cases result with
      | missing last =>
        cases chunk with
        | none =>
            simp only [fetch, found]
            exact filled_addNewFile shape ⟨_, fs.process.descriptors + 1⟩
              true known old (refl contents) name _ _ _
        | some chunk =>
            rw [fetch_new found]
            refine filled_addNewFile shape ⟨addNode _ _ _ _,
              fs.process.descriptors + 1⟩ fs.stopped known
                (fun curr member => ?_) (refl contents) name _ _ _
            rcases used_addNode member with new | kept
            · refine .inl ⟨congrArg HardLinkMapNode.fsINode new, ?_⟩
              rw [congrArg HardLinkMapNode.hostINode new]
              exact listed linked
            · exact .inr kept
      | found last curr =>
          have file := shape.links curr (Chunks.mem_used_of_search found).1
          rw [fetch_found found] at again
          exact absurd file.2.1.ne again
  · exact filled_addNewFile shape ⟨_, fs.process.descriptors + 1⟩ fs.stopped
      known old (refl contents) name _ _ _

theorem links_addDirHead (fs : FileSystem) (curInode parentInode : Nat) :
    (fs.addDirHead curInode parentInode).process.links = fs.process.links := by
  simp only [addDirHead]
  split_ifs <;> rfl

/-- Opening a directory leaves the data of the others alone. -/
theorem keeps_open (current : curInode < fs.freeinode) :
    fs.Keeps ((fs.create (.directory [])).addDirHead fs.freeinode curInode)
      fs.freeinode := by
  refine ⟨((Extends.refl fs).create _).addDirHead _ _ |>.freeinode,
    fun inum _ different => ?_⟩
  rw [inodes_open current, if_neg different]
  split_ifs with self
  · rw [self]
    rfl
  · rfl

/-- Closing a directory changes only the data of its parent. -/
theorem keeps_close (fs : FileSystem) (child : Nat) (entry : Dirent) :
    fs.Keeps ((fs.modify child Inode.fixSize).closeFile.enter curInode entry)
      curInode :=
  (⟨le_refl fs.freeinode, fun inum _ _ => body_modify Inode.fixSize
    (fun _ => rfl) child inum⟩ :
      fs.Keeps (fs.modify child Inode.fixSize).closeFile curInode).enter entry

/-- A directory that has been filled and closed stands for its host
directory. -/
theorem filled_dir {full next : FileSystem} {children rest : HostDir}
    {name : HostName} (shape : fs.Shape (curInode :: stack))
    (filled : Filled ((fs.create (.directory [])).addDirHead fs.freeinode
      curInode) full fs.freeinode same files children)
    (fullShape : full.Shape (fs.freeinode :: curInode :: stack))
    (later : Filled ((full.modify fs.freeinode Inode.fixSize).closeFile.enter
      curInode ⟨fs.freeinode, name.field⟩) next curInode same files rest) :
    Filled fs next curInode same files (.dir name children rest) := by
  have current := shape.opened curInode List.mem_cons_self
  have child := fullShape.opened fs.freeinode List.mem_cons_self
  have fullCurrent := fullShape.opened curInode
    (List.mem_cons_of_mem _ List.mem_cons_self)
  have opening := keeps_open current.2.1
  have closing : full.Keeps next curInode :=
    (keeps_close full _ _).trans later.keeps
  have early : ∀ inum < fs.freeinode,
      (full.inodes inum).body = (fs.inodes inum).body := fun inum below =>
    (filled.keeps.body inum (below.trans_le opening.freeinode) below.ne).trans
      (opening.body inum below below.ne)
  have different : fs.freeinode ≠ curInode := current.2.1.ne'
  obtain ⟨inner, innerDirents, innerMirrors⟩ := filled.added
  obtain ⟨added, addedDirents, addedMirrors⟩ := later.added
  have innerChildren : full.children fs.freeinode = inner := by
    rw [FileSystem.children, innerDirents, dirents, inodes_open current.2.1,
      if_pos rfl]
    rfl
  refine ⟨⟨(opening.freeinode.trans filled.keeps.freeinode).trans
      closing.freeinode, fun inum below notCurrent => ?_⟩,
    ⟨⟨fs.freeinode, name.field⟩ :: added, ?_, _, added, rfl, rfl,
      closing.isDirectory different child, ?_, addedMirrors⟩, later.known⟩
  · have inside := below.trans_le
      (opening.freeinode.trans filled.keeps.freeinode)
    exact (closing.body inum inside notCurrent).trans (early inum below)
  · have directory : (full.modify fs.freeinode
        Inode.fixSize).closeFile.IsDirectory curInode := fullCurrent.extend
      ((Extends.refl full).modify _ Inode.Grows.fixSize).closeFile
    have fixed : (full.modify fs.freeinode Inode.fixSize).closeFile.dirents =
        full.dirents := dirents_modify Inode.fixSize (fun _ => rfl) _
    have kept : full.dirents curInode = fs.dirents curInode :=
      congrArg Body.dirents (early curInode current.2.1)
    rw [addedDirents, dirents_enter directory, update_self, fixed, kept,
      List.append_assoc, List.singleton_append]
  · rw [closing.children child.2.1 different, innerChildren]
    refine innerMirrors.frame fullShape
      (List.mem_cons_of_mem _ List.mem_cons_self) closing
      fun entry member => ?_
    exact mem_named.mpr ⟨fs.freeinode, child.1, child.2.1,
      List.mem_map_of_mem (innerChildren.symm ▸ member)⟩

/-- The loop of `add_dir` mirrors the host directory. -/
theorem filled_addEntries (refl : ∀ contents, same contents contents)
    (agree : ∀ first ∈ files, ∀ second ∈ files, first.1 = second.1 →
      same first.2 second.2) (shape : fs.Shape (curInode :: stack))
    (known : fs.Known files) {curDir : HostDir}
    (listed : curDir.linked ⊆ files) :
    Filled fs (fs.addEntries curInode curDir) curInode same files curDir := by
  induction curDir generalizing fs curInode stack with
  | nil => exact ⟨⟨le_rfl, fun _ _ _ => rfl⟩, ⟨[], by simp [addEntries], rfl⟩,
      known⟩
  | file name stIno stNlink contents chunk rest ih =>
      have step := filled_addFile shape known refl agree name stIno stNlink
        contents chunk fun linked => listed (by simp [HostDir.linked, linked])
      have nextShape := shape.addFile name stIno stNlink contents chunk
      have current := nextShape.opened curInode List.mem_cons_self
      have later := ih nextShape step.known fun file member =>
        listed (List.mem_append_right _ member)
      obtain ⟨first, entered, entry, others, rfl, nameEq, file, data, rfl⟩ :=
        step.added
      obtain ⟨added, extended, mirrors⟩ := later.added
      have different : entry.inum ≠ curInode := fun equal =>
        file.not_isDirectory (equal ▸ current)
      refine ⟨step.keeps.trans later.keeps, ⟨entry :: added, ?_, entry, added,
        rfl, nameEq, later.keeps.isFile different file, ?_, mirrors⟩,
        later.known⟩
      · rw [addEntries, extended, entered, List.append_assoc,
          List.singleton_append]
      · rwa [addEntries, later.keeps.body _ file.2.1 different]
  | dir name children rest childrenIh restIh =>
      have shape := shape.openFile
      have known := known.openFile
      refine Filled.of_openFile ?_
      rw [addEntries]
      generalize fs.openFile = fs at *
      have current := shape.opened curInode List.mem_cons_self
      have openedShape := shape.openDirectory
      have openedKnown := known.frame shape (fun file => file.2.1.false)
        (keeps_open current.2.1) (links_addDirHead _ _ _)
      have filled := childrenIh openedShape openedKnown fun file member =>
        listed (List.mem_append_left _ member)
      have fullShape := openedShape.addEntries children
      have closedKnown := filled.known.frame fullShape
        (fun file => file.not_isDirectory (fullShape.opened curInode
          (List.mem_cons_of_mem _ List.mem_cons_self)))
        (keeps_close _ fs.freeinode ⟨fs.freeinode, name.field⟩) rfl
      exact filled_dir shape filled fullShape
        (restIh (shape.closeFilled fullShape name).closeFile closedKnown
          fun file member => listed (List.mem_append_right _ member))

end Steps

/-- Two host files with the same number in the hard link map have related
contents. -/
def Coherent (same : List UInt8 → List UInt8 → Prop) (curDir : HostDir) :
    Prop :=
  ∀ first ∈ curDir.linked, ∀ second ∈ curDir.linked, first.1 = second.1 →
    same first.2 second.2

/-- The root directory mirrors the host tree. -/
theorem mirrors_build {same : List UInt8 → List UInt8 → Prop}
    (refl : ∀ contents, same contents contents) (descriptors : Nat)
    {fileTreeRoot : HostDir} (coherent : Coherent same fileTreeRoot) :
    (build descriptors fileTreeRoot).Mirrors same
      ((build descriptors fileTreeRoot).children 1) fileTreeRoot := by
  have known : (((initial descriptors).create (.directory [])).addDirHead 1 1).Known
      fileTreeRoot.linked := nofun
  have filled := filled_addEntries refl coherent (shape_root descriptors) known
    (List.Subset.refl _)
  have shape := (shape_root descriptors).addEntries fileTreeRoot
  have head : (((initial descriptors).create (.directory [])).addDirHead 1 1).dirents 1 =
      [⟨1, dotName⟩, ⟨1, dotdotName⟩] := rfl
  unfold build addDir
  generalize (((initial descriptors).create (.directory [])).addDirHead 1 1).addEntries 1
    fileTreeRoot = fs at *
  obtain ⟨added, dirents, mirrors⟩ := filled.added
  have children : fs.children 1 = added := by
    rw [FileSystem.children, dirents, head]
    rfl
  have keeps : fs.Keeps (fs.modify 1 Inode.fixSize) 1 :=
    ⟨le_rfl, fun inum _ _ => body_modify Inode.fixSize (fun _ => rfl) 1 inum⟩
  have fixed : (fs.modify 1 Inode.fixSize).children 1 = fs.children 1 :=
    congrArg (List.drop 2) (congrFun (dirents_modify Inode.fixSize
      (fun _ => rfl) 1) 1)
  rw [fixed]
  refine Mirrors.frame shape List.mem_cons_self keeps (fun entry member => ?_)
    (children.symm ▸ mirrors)
  exact mem_named.mpr ⟨1, le_rfl, shape.root.2.1, List.mem_map_of_mem member⟩

section Directories

variable {fs : FileSystem} {same : List UInt8 → List UInt8 → Prop}
  {entries : List Dirent} {curDir : HostDir}

theorem Mirrors.length_eq (mirrors : fs.Mirrors same entries curDir) :
    entries.length = curDir.length := by
  induction curDir generalizing entries with
  | nil =>
      rw [show entries = [] from mirrors]
      rfl
  | file name stIno stNlink contents chunk rest ih =>
      obtain ⟨entry, others, rfl, -, -, -, tail⟩ := mirrors
      rw [List.length_cons, ih tail, HostDir.length]
  | dir name children rest childrenIh restIh =>
      obtain ⟨entry, others, rfl, -, -, -, tail⟩ := mirrors
      rw [List.length_cons, restIh tail, HostDir.length]

/-- Every host directory below has a directory. -/
theorem Mirrors.exists_directory (mirrors : fs.Mirrors same entries curDir)
    {subdir : HostDir} (member : subdir ∈ curDir.subdirs) :
    ∃ inum, fs.IsDirectory inum ∧
      fs.Mirrors same (fs.children inum) subdir := by
  induction curDir generalizing entries with
  | nil => simp [HostDir.subdirs] at member
  | file name stIno stNlink contents chunk rest ih =>
      obtain ⟨entry, others, rfl, -, -, -, tail⟩ := mirrors
      exact ih tail member
  | dir name children rest childrenIh restIh =>
      obtain ⟨entry, others, rfl, -, directory, below, tail⟩ := mirrors
      rw [HostDir.subdirs, List.mem_append, List.mem_cons] at member
      rcases member with (rfl | inside) | behind
      · exact ⟨entry.inum, directory, below⟩
      · exact childrenIh below inside
      · exact restIh tail behind

/-- A directory named by one of the entries mirrors a host directory. -/
theorem Mirrors.exists_subdir (mirrors : fs.Mirrors same entries curDir)
    {entry : Dirent} (member : entry ∈ entries)
    (directory : fs.IsDirectory entry.inum) :
    ∃ subdir ∈ curDir.subdirs,
      fs.Mirrors same (fs.children entry.inum) subdir := by
  induction curDir generalizing entries with
  | nil =>
      rw [show entries = [] from mirrors] at member
      simp at member
  | file name stIno stNlink contents chunk rest ih =>
      obtain ⟨first, others, rfl, -, file, -, tail⟩ := mirrors
      rcases List.mem_cons.mp member with rfl | later
      · exact absurd directory file.not_isDirectory
      · exact ih tail later
  | dir name children rest childrenIh restIh =>
      obtain ⟨first, others, rfl, -, -, below, tail⟩ := mirrors
      rcases List.mem_cons.mp member with rfl | later
      · exact ⟨children, List.mem_append_left _ List.mem_cons_self, below⟩
      · obtain ⟨subdir, inside, found⟩ := restIh tail later
        exact ⟨subdir, List.mem_append_right _ inside, found⟩

/-- Every directory mirrors the host tree or a host directory in it.  The
induction is on its number, which is larger than that of its parent. -/
theorem Shape.exists_subdir (shape : fs.Shape [])
    (mirrors : fs.Mirrors same (fs.children 1) curDir) {inum : Nat}
    (directory : fs.IsDirectory inum) :
    ∃ subdir ∈ curDir :: curDir.subdirs,
      fs.Mirrors same (fs.children inum) subdir := by
  induction inum using Nat.strong_induction_on with
  | h inum ih =>
      by_cases root : inum = 1
      · exact ⟨curDir, List.mem_cons_self, root ▸ mirrors⟩
      · have ok := shape.directories inum directory
        obtain ⟨outer, outerMember, outerMirrors⟩ :=
          ih _ (ok.parentBelow root) ok.parent
        obtain ⟨entry, member, rfl⟩ :=
          List.mem_map.mp (ok.held root List.not_mem_nil)
        obtain ⟨subdir, inside, found⟩ :=
          outerMirrors.exists_subdir member directory
        refine ⟨subdir, List.mem_cons_of_mem _ ?_, found⟩
        rcases List.mem_cons.mp outerMember with rfl | below
        · exact inside
        · exact HostDir.subdirs_trans below inside

end Directories

end FileSystem

end LinuxKernelDev.Mkfs
