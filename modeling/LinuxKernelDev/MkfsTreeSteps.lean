import LinuxKernelDev.MkfsTree

/-!
# The steps of `add_dir` keep the tree

Every change that `add_dir` makes to the file system keeps `Shape`: a new entry
for a file, the opening of a directory and its completion.  The file system that
is built in the end is therefore a tree.
-/

namespace LinuxKernelDev.Mkfs

open Function LoopRules LinkedChunks

namespace FileSystem

section Steps

variable {fs next : FileSystem} {curInode : Nat} {stack : List Nat}

theorem IsFile.not_isDirectory {inum : Nat} (file : fs.IsFile inum) :
    ¬fs.IsDirectory inum := fun directory => by
  have both := file.2.2.symm.trans directory.2.2
  omega

theorem bytes_enter (directory : fs.IsDirectory curInode) (entry : Dirent) :
    ((fs.enter curInode entry).inodes curInode).body.bytes.length =
      (fs.inodes curInode).body.bytes.length + entry.bytes.length := by
  cases body : (fs.inodes curInode).body with
  | directory =>
      simp [enter, modify, Inode.enter, Body.enter, body, Body.bytes]
  | file => simp [IsDirectory, body, Body.type] at directory

theorem isDirectory_enter {inum : Nat} {entry : Dirent} :
    (fs.enter curInode entry).IsDirectory inum ↔ fs.IsDirectory inum := by
  have entered := (Extends.refl fs).enter curInode entry
  exact ⟨fun directory => directory.of_extends entered directory.2.1,
    fun directory => directory.extend entered⟩

theorem isFile_enter {inum : Nat} {entry : Dirent} :
    (fs.enter curInode entry).IsFile inum ↔ fs.IsFile inum := by
  have entered := (Extends.refl fs).enter curInode entry
  exact ⟨fun file => file.of_extends entered file.2.1,
    fun file => file.extend entered⟩

theorem enter_self (entry : Dirent) :
    (fs.enter curInode entry).inodes curInode =
      (fs.inodes curInode).enter entry :=
  update_self _ _ _

theorem enter_of_ne {inum : Nat} (different : inum ≠ curInode)
    (entry : Dirent) :
    (fs.enter curInode entry).inodes inum = fs.inodes inum :=
  update_of_ne different _ _

/-- The directory that is being filled gets an entry. -/
theorem DirectoryOk.enter {newStack : List Nat} {entry : Dirent}
    (ok : fs.DirectoryOk stack curInode) (opened : curInode ∈ stack)
    (stillOpened : curInode ∈ newStack) (grown : fs.Extends next)
    (inode : next.inodes curInode = fs.inodes curInode)
    (directory : fs.IsDirectory curInode) (child : next.ChildOk entry)
    (count : (next.enter curInode entry).named.count curInode =
      fs.named.count curInode) :
    (next.enter curInode entry).DirectoryOk newStack curInode := by
  have entered : next.Extends (next.enter curInode entry) :=
    (Extends.refl next).enter curInode entry
  have here := directory.extend grown
  refine ok.extend (grown.trans entered) [entry] ?_ ?_ ?_ ?_ ?_
    fun _ closed => absurd stillOpened closed
  · rw [dirents_enter here, update_self]
    exact congrArg (· ++ [entry])
      (congrArg (fun inode => inode.body.dirents) inode)
  · intro other member
    obtain rfl := List.mem_singleton.mp member
    exact child.extend entered
  · rw [enter_self, inode]
    exact ok.nlink.trans (grown.trans entered).freeinode
  · have previous := ok.size.trans (if_pos opened)
    rw [if_pos stillOpened, bytes_enter here, enter_self, inode]
    exact congrArg (· + entry.bytes.length) previous
  · rw [count, ok.count, if_pos (.inr opened), if_pos (.inr stillOpened)]

/-- A directory on the stack gets an entry for a file whose link count has
been raised, or for a new file. -/
theorem Shape.enterFile (shape : fs.Shape (curInode :: stack))
    (grown : fs.Extends next) (named : next.named = fs.named)
    {entry : Dirent} (name : ∃ name : HostName, entry.name = name.field)
    (unchanged : ∀ inum < fs.freeinode, inum ≠ entry.inum →
      next.inodes inum = fs.inodes inum)
    (new : ∀ inum < next.freeinode, fs.freeinode ≤ inum → inum = entry.inum)
    (file : next.IsFile entry.inum)
    (size : (next.inodes entry.inum).size =
      (next.inodes entry.inum).body.bytes.length)
    (nlink : (next.inodes entry.inum).nlink =
      fs.named.count entry.inum + 1)
    (links : ∀ curr ∈ next.process.links.used,
      next.IsFile (next.process.links.cell curr).value.fsINode) :
    (next.enter curInode entry).Shape (curInode :: stack) := by
  have current : fs.IsDirectory curInode :=
    shape.opened curInode List.mem_cons_self
  have currentOk := shape.directories curInode current
  have entered : next.Extends (next.enter curInode entry) :=
    (Extends.refl next).enter curInode entry
  have oldDirectory : ∀ inum, next.IsDirectory inum → fs.IsDirectory inum ∧
      next.inodes inum = fs.inodes inum := fun inum directory => by
    have different : inum ≠ entry.inum := fun equal =>
      file.not_isDirectory (equal ▸ directory)
    have below : inum < fs.freeinode := Nat.lt_of_not_le fun above =>
      different (new inum directory.2.1 above)
    have same := unchanged inum below different
    exact ⟨⟨directory.1, below, same ▸ directory.2.2⟩, same⟩
  have head : 2 ≤ (next.dirents curInode).length := by
    rw [dirents, (oldDirectory curInode (current.extend grown)).2]
    change 2 ≤ (fs.dirents curInode).length
    rw [currentOk.head]
    simp
  have count : ∀ inum, (next.enter curInode entry).named.count inum =
      fs.named.count inum + if entry.inum = inum then 1 else 0 :=
    fun inum => by
      rw [count_enter (current.extend grown) head, named]
  refine ⟨shape.root.extend (grown.trans entered),
    fun inum member => (shape.opened inum member).extend
      (grown.trans entered),
    fun curr member => (links curr member).extend entered,
    fun inum directory => ?_, fun inum isFile => ?_⟩
  · have directoryNext := isDirectory_enter.mp directory
    obtain ⟨directoryOld, same⟩ := oldDirectory inum directoryNext
    have ok := shape.directories inum directoryOld
    have notNamed : entry.inum ≠ inum := fun equal =>
      file.not_isDirectory (equal ▸ directoryNext)
    have countSame : (next.enter curInode entry).named.count inum =
        fs.named.count inum := by
      rw [count, if_neg notNamed, Nat.add_zero]
    by_cases atCurrent : inum = curInode
    · subst atCurrent
      refine ok.enter List.mem_cons_self List.mem_cons_self grown same
        directoryOld ⟨?_, file.2.1, name⟩ countSame
      have positive := file.1
      have notRoot : entry.inum ≠ 1 := fun equal =>
        file.not_isDirectory (equal ▸ shape.root.extend grown)
      omega
    · exact ok.congr (grown.trans entered)
        ((enter_of_ne atCurrent entry).trans same) Iff.rfl countSame
  · have fileNext := isFile_enter.mp isFile
    have different : inum ≠ curInode := fun equal =>
      fileNext.not_isDirectory (equal ▸ current.extend grown)
    have here : (next.enter curInode entry).inodes inum =
        next.inodes inum := enter_of_ne different entry
    by_cases isNamed : inum = entry.inum
    · subst isNamed
      refine ⟨by rw [here]; exact size, ?_, ?_⟩
      · rw [here, count, if_pos rfl, nlink]
      · rw [count, if_pos rfl]
        omega
    · have below : inum < fs.freeinode := Nat.lt_of_not_le fun above =>
        isNamed (new inum fileNext.2.1 above)
      have same := unchanged inum below isNamed
      exact (shape.files inum
        ⟨fileNext.1, below, same ▸ fileNext.2.2⟩).congr (here.trans same)
          (by rw [count, if_neg (Ne.symm isNamed), Nat.add_zero])

/-- What the process holds may change, as long as the map leads to files. -/
theorem Shape.withProcess (shape : fs.Shape stack) (process : Process)
    (links : ∀ curr ∈ process.links.used,
      fs.IsFile (process.links.cell curr).value.fsINode) :
    { fs with process := process }.Shape stack :=
  ⟨shape.root, shape.opened, links, fun inum directory =>
    (shape.directories inum directory).congr ((Extends.refl fs).process _) rfl
      Iff.rfl rfl,
    fun inum file => (shape.files inum file).congr rfl rfl⟩

theorem Shape.stop (shape : fs.Shape stack) : fs.stop.Shape stack :=
  ⟨shape.root, shape.opened, shape.links, fun inum directory =>
    (shape.directories inum directory).congr (Extends.refl fs).stop rfl
      Iff.rfl rfl,
    fun inum file => (shape.files inum file).congr rfl rfl⟩

theorem Shape.openFile (shape : fs.Shape stack) : fs.openFile.Shape stack := by
  unfold FileSystem.openFile
  split
  · exact shape.withProcess _ shape.links
  · exact shape.stop

theorem Shape.closeFile (shape : fs.Shape stack) : fs.closeFile.Shape stack :=
  shape.withProcess _ shape.links

theorem closeFile_enter (entry : Dirent) :
    fs.closeFile.enter curInode entry =
      (fs.enter curInode entry).closeFile :=
  rfl

/-- A chunk of the map that is left after a link was used was there before, with
the same inodes. -/
theorem used_useLink {links : Chunks HardLinkMapNode} {last : Option Nat}
    {curr other : Nat} (member : other ∈ (useLink links last curr).used) :
    other ∈ links.used ∧
      ((useLink links last curr).cell other).value.fsINode =
        (links.cell other).value.fsINode ∧
      ((useLink links last curr).cell other).value.hostINode =
        (links.cell other).value.hostINode := by
  unfold useLink at member ⊢
  dsimp only at member ⊢
  split_ifs at member ⊢ with exhausted
  · cases last with
    | none =>
        exact ⟨List.mem_of_mem_erase member, rfl, rfl⟩
    | some last =>
        refine ⟨List.mem_of_mem_erase member, ?_⟩
        simp [Chunks.free]
  · refine ⟨member, ?_⟩
    by_cases same : other = curr
    · subst same
      simp [Chunks.setValue]
    · simp [Chunks.setValue, same]

/-- A chunk of the map is the new one, or was there before. -/
theorem used_addNode {links : Chunks HardLinkMapNode} {last : Option Nat}
    {chunk : Chunk} {node : HardLinkMapNode} {other : Nat}
    (member : other ∈ (addNode links last chunk node).used) :
    ((addNode links last chunk node).cell other).value = node ∨
      other ∈ links.used ∧ ((addNode links last chunk node).cell other).value =
        (links.cell other).value := by
  simp only [addNode, Chunks.relink_used, Chunks.relink_value] at member ⊢
  rcases List.mem_cons.mp member with rfl | old
  · exact .inl (by simp [Chunks.alloc])
  · have different : other ≠ chunk.address links.used := fun same =>
      chunk.fresh _ (same ▸ old)
    exact .inr ⟨old, by simp [Chunks.alloc, different]⟩

section AddFile

variable {name : HostName} {stIno stNlink : UInt64} {contents : List UInt8}
  {chunk : Option Chunk}

/-- A file that the map finds gets another entry. -/
theorem addFile_found {last : Option Nat} {curr : Nat} (linked : 0 < stNlink)
    (found : findNode stIno.toUInt32 fs.process.links =
      some (.found last curr))
    (old : (fs.process.links.cell curr).value.fsINode < fs.freeinode) :
    fs.addFile curInode name stIno stNlink contents chunk =
      ((fs.openFile.setLinks (useLink fs.process.links last curr)).modify
        (fs.process.links.cell curr).value.fsINode Inode.link).enter curInode
          ⟨(fs.process.links.cell curr).value.fsINode, name.field⟩ := by
  rw [← openFile_links] at found old ⊢
  rw [← @openFile_freeinode fs] at old
  simp only [FileSystem.addFile, if_pos linked, fetch_found found, ne_eq,
    if_pos old.ne]

/-- An inode that the map does not find is a new one. -/
theorem fetch_absent {hostINode nlinks : UInt32}
    (absent : ∀ last curr, findNode hostINode fs.process.links ≠
      some (.found last curr)) :
    ∃ base, fs.fetch hostINode nlinks chunk = (fs.freeinode, base) ∧
      base.inodes = (fs.create (.file [])).inodes ∧
      base.freeinode = fs.freeinode + 1 ∧
      ∀ curr ∈ base.process.links.used,
        (base.process.links.cell curr).value.hostINode = hostINode ∨
        curr ∈ fs.process.links.used ∧ (base.process.links.cell curr).value =
          (fs.process.links.cell curr).value := by
  cases found : findNode hostINode fs.process.links with
  | none =>
      exact ⟨(fs.create (.file [])).stop, by simp only [fetch, found], rfl, rfl,
        fun curr member => .inr ⟨member, rfl⟩⟩
  | some result =>
      cases result with
      | found last curr => exact absurd found (absent last curr)
      | missing last =>
          cases chunk with
          | none =>
              exact ⟨(fs.create (.file [])).stop, by simp only [fetch, found],
                rfl, rfl, fun curr member => .inr ⟨member, rfl⟩⟩
          | some chunk =>
              exact ⟨_, fetch_new found, rfl, rfl, fun curr member =>
                (used_addNode member).imp_left
                  (congrArg HardLinkMapNode.hostINode)⟩

/-- A file that the map does not find is a new one. -/
theorem addFile_absent
    (absent : 0 < stNlink → ∀ last curr,
      findNode stIno.toUInt32 fs.process.links ≠ some (.found last curr)) :
    ∃ base : FileSystem, base.inodes = (fs.create (.file [])).inodes ∧
      base.freeinode = fs.freeinode + 1 ∧
      (∀ curr ∈ base.process.links.used, 0 < stNlink ∧
        (base.process.links.cell curr).value.hostINode = stIno.toUInt32 ∨
        curr ∈ fs.process.links.used ∧ (base.process.links.cell curr).value =
          (fs.process.links.cell curr).value) ∧
      fs.addFile curInode name stIno stNlink contents chunk =
        (base.modify fs.freeinode (Inode.append contents)).closeFile.enter
          curInode ⟨fs.freeinode, name.field⟩ := by
  have create : (fs.create (.file [])).inodes =
      (fs.openFile.create (.file [])).inodes := by
    simp [FileSystem.create]
  rw [create, ← @openFile_freeinode fs]
  simp only [← @openFile_links fs] at absent ⊢
  simp only [FileSystem.addFile]
  generalize fs.openFile = fs at *
  split_ifs with linked again
  · obtain ⟨base, fetched, -⟩ := @fetch_absent fs chunk _ stNlink.toUInt32
      (absent linked)
    rw [fetched] at again
    exact absurd rfl again
  · obtain ⟨base, fetched, inodes, freeinode, links⟩ :=
      @fetch_absent fs chunk _ stNlink.toUInt32 (absent linked)
    rw [fetched]
    exact ⟨base, inodes, freeinode, fun curr member =>
      (links curr member).imp_left fun host => ⟨linked, host⟩, rfl⟩
  · exact ⟨fs.create (.file []), rfl, rfl, fun curr member =>
      .inr ⟨member, rfl⟩, rfl⟩

end AddFile

/-- A file that the map has gets another entry. -/
theorem Shape.addLink (shape : fs.Shape (curInode :: stack)) {child : Nat}
    (file : fs.IsFile child) (last : Option Nat) (curr : Nat)
    (name : HostName) :
    (((fs.setLinks (useLink fs.process.links last curr)).modify child
      Inode.link).enter curInode ⟨child, name.field⟩).Shape
        (curInode :: stack) := by
  have grown : fs.Extends ((fs.setLinks
      (useLink fs.process.links last curr)).modify child Inode.link) :=
    ((Extends.refl fs).process _).modify child Inode.Grows.link
  have ok := shape.files child file
  refine shape.enterFile grown (named_modify Inode.link (fun _ => rfl) child)
    ⟨name, rfl⟩ (fun inum _ different => update_of_ne different _ _)
    (fun inum below above => absurd below (Nat.not_lt.mpr above))
    (file.extend grown) ?_ ?_ fun other member => ?_
  · simpa [modify, setLinks, Inode.link] using ok.size
  · simpa [modify, setLinks, Inode.link] using ok.nlink
  · obtain ⟨present, same, -⟩ := used_useLink member
    exact (same ▸ shape.links other present).extend grown

/-- A new file gets its data and its first entry. -/
theorem Shape.addNewFile (shape : fs.Shape (curInode :: stack))
    (process : Process)
    (known : ∀ curr ∈ process.links.used,
      (process.links.cell curr).value.fsINode = fs.freeinode ∨
        fs.IsFile (process.links.cell curr).value.fsINode)
    (contents : List UInt8) (name : HostName) :
    (({ fs.create (.file []) with process := process }.modify fs.freeinode
      (Inode.append contents)).enter curInode
        ⟨fs.freeinode, name.field⟩).Shape (curInode :: stack) := by
  have positive : 1 ≤ fs.freeinode := shape.root.2.1.le
  have grown : fs.Extends ((fs.create (.file [])).modify fs.freeinode
      (Inode.append contents)) :=
    ((Extends.refl fs).create _).modify _ (Inode.Grows.append _)
  have inode : ((fs.create (.file [])).modify fs.freeinode
      (Inode.append contents)).inodes fs.freeinode =
        ⟨1, contents.length, .file contents⟩ := by
    simp [modify, create, Inode.fresh, Inode.append, Body.append]
  have file : ((fs.create (.file [])).modify fs.freeinode
      (Inode.append contents)).IsFile fs.freeinode :=
    ⟨positive, Nat.lt_succ_self _, by rw [inode]; rfl⟩
  have entered : (((fs.create (.file [])).modify fs.freeinode
      (Inode.append contents)).enter curInode
        ⟨fs.freeinode, name.field⟩).Shape (curInode :: stack) := by
    refine shape.enterFile grown ?_ ⟨name, rfl⟩
      (fun inum below different => ?_) (fun inum below above => ?_) file
      (by rw [inode]; rfl) ?_ fun curr member => ?_
    · refine named_new rfl positive ?_ fun inum below => ?_
      · simp [names, children, dirents, inode, Body.dirents]
      · simp [names, children, dirents, modify, create, below.ne]
    · simp [modify, create, below.ne]
    · have atMost : inum < fs.freeinode + 1 := below
      exact Nat.le_antisymm (Nat.le_of_lt_succ atMost) above
    · rw [inode, shape.count_of_le le_rfl]
    · exact (shape.links curr member).extend grown
  have enters := (Extends.refl ((fs.create (.file [])).modify fs.freeinode
    (Inode.append contents))).enter curInode ⟨fs.freeinode, name.field⟩
  refine entered.withProcess process fun curr member => ?_
  rcases known curr member with new | old
  · rw [new]
    exact file.extend enters
  · exact (old.extend grown).extend enters

/-- The search through the map ends at a file, or the file is new. -/
theorem Shape.addFile (shape : fs.Shape (curInode :: stack))
    (name : HostName) (stIno stNlink : UInt64) (contents : List UInt8)
    (chunk : Option Chunk) :
    (fs.addFile curInode name stIno stNlink contents chunk).Shape
      (curInode :: stack) := by
  have shape := shape.openFile
  unfold FileSystem.addFile
  generalize fs.openFile = fs at *
  dsimp only
  split_ifs with linked known
  · cases found : findNode stIno.toUInt32 fs.process.links with
    | none => simp [fetch, found] at known
    | some result =>
      cases result with
      | missing last => cases chunk <;> simp [fetch, found] at known
      | found last curr =>
          have file := shape.links curr (Chunks.mem_used_of_search found).1
          rw [fetch_found found]
          exact shape.addLink file last curr name
  · have old : ∀ curr ∈ fs.process.links.used,
        (fs.process.links.cell curr).value.fsINode = fs.freeinode ∨
          fs.IsFile (fs.process.links.cell curr).value.fsINode :=
      fun curr member => .inr (shape.links curr member)
    rw [closeFile_enter]
    refine Shape.closeFile ?_
    cases found : findNode stIno.toUInt32 fs.process.links with
    | none =>
        simp only [fetch, found]
        exact (shape.addNewFile fs.process old contents name).stop
    | some result =>
      cases result with
      | missing last =>
        cases chunk with
        | none =>
            simp only [fetch, found]
            exact (shape.addNewFile fs.process old contents name).stop
        | some chunk =>
            rw [fetch_new found]
            refine shape.addNewFile _ (fun curr member => ?_) contents name
            rcases used_addNode member with new | ⟨present, same⟩
            · exact .inl (congrArg HardLinkMapNode.fsINode new)
            · rw [same]
              exact old curr present
      | found last curr =>
          have file := shape.links curr (Chunks.mem_used_of_search found).1
          rw [fetch_found found] at known
          exact absurd file.2.1.ne known
  · exact (shape.addNewFile fs.process (fun curr member =>
      .inr (shape.links curr member)) contents name).closeFile

/-- The inodes after a directory was created and got its first entries. -/
theorem inodes_open (old : curInode < fs.freeinode) (inum : Nat) :
    ((fs.create (.directory [])).addDirHead fs.freeinode curInode).inodes
        inum =
      if inum = fs.freeinode then
        ⟨2, 32, .directory [⟨fs.freeinode, dotName⟩,
          ⟨curInode, dotdotName⟩]⟩
      else if inum = curInode then (fs.inodes curInode).link
      else fs.inodes inum := by
  have lengths : ∀ inum, (Dirent.bytes ⟨inum, dotName⟩).length = 16 ∧
      (Dirent.bytes ⟨inum, dotdotName⟩).length = 16 := fun inum => by
    simp [Dirent.bytes, dotName, dotdotName]
  simp only [addDirHead, if_pos (show fs.freeinode ≠ curInode from old.ne'),
    enter, modify, create]
  by_cases isNew : inum = fs.freeinode
  · subst isNew
    simp [Inode.enter, Inode.fresh, Body.enter, lengths, old.ne']
  · by_cases isCurrent : inum = curInode
    · subst isCurrent
      simp [isNew]
    · simp [isNew, isCurrent]

theorem freeinode_open (fs : FileSystem) (curInode : Nat) :
    ((fs.create (.directory [])).addDirHead fs.freeinode
      curInode).freeinode = fs.freeinode + 1 := by
  simp only [addDirHead]
  split_ifs <;> rfl

/-- A new directory with its entries `.` and `..` goes on the stack. -/
theorem Shape.openDirectory (shape : fs.Shape (curInode :: stack)) :
    ((fs.create (.directory [])).addDirHead fs.freeinode curInode).Shape
      (fs.freeinode :: curInode :: stack) := by
  have current := shape.opened curInode List.mem_cons_self
  have inodes := inodes_open current.2.1
  have grown : fs.Extends
      ((fs.create (.directory [])).addDirHead fs.freeinode curInode) :=
    ((Extends.refl fs).create _).addDirHead _ _
  have freeinode := freeinode_open fs curInode
  have process : ((fs.create (.directory [])).addDirHead fs.freeinode
      curInode).process = fs.process := by
    simp only [addDirHead]
    split_ifs <;> rfl
  generalize (fs.create (.directory [])).addDirHead fs.freeinode curInode =
    next at *
  have rootBelow := shape.root.2.1
  have named : next.named = fs.named := by
    refine named_new freeinode rootBelow.le ?_ fun inum below => ?_
    · simp [names, children, dirents, inodes, Body.dirents]
    · simp only [names, children, dirents, inodes, if_neg below.ne]
      split_ifs with same
      · rw [same]
        rfl
      · rfl
  have newDirectory : next.IsDirectory fs.freeinode := by
    refine ⟨rootBelow.le, by omega, ?_⟩
    rw [inodes, if_pos rfl]
    rfl
  refine ⟨shape.root.extend grown, fun inum member => ?_,
    fun curr member => ?_,
    fun inum directory => ?_, fun inum file => ?_⟩
  · rcases List.mem_cons.mp member with rfl | old
    · exact newDirectory
    · exact (shape.opened inum old).extend grown
  · rw [process] at member ⊢
    exact (shape.links curr member).extend grown
  · by_cases isNew : inum = fs.freeinode
    · subst isNew
      refine .fresh ((inodes fs.freeinode).trans (if_pos rfl))
        (current.extend grown) (fun isRoot => ?_) (fun _ => current.2.1) ?_ ?_
        List.mem_cons_self
      · omega
      · rw [freeinode]
        exact rootBelow.trans (Nat.lt_succ_self _)
      · rw [named, shape.count_of_le le_rfl]
    · have below : inum < fs.freeinode := by
        have range := directory.2.1
        omega
      have old := directory.of_extends grown below
      have ok := shape.directories inum old
      have here := (inodes inum).trans (if_neg isNew)
      have sameStack : inum ∈ fs.freeinode :: curInode :: stack ↔
          inum ∈ curInode :: stack := by
        simp [isNew]
      by_cases isCurrent : inum = curInode
      · -- The parent has one more link, and the same entries and size.
        subst isCurrent
        have here := here.trans (if_pos rfl)
        refine ok.extend grown [] ?_ (List.forall_mem_nil _) ?_ ?_ ?_
          fun _ closed =>
          absurd (sameStack.mpr List.mem_cons_self) closed
        · rw [List.append_nil, dirents, dirents, here]
          rfl
        · rw [here, freeinode]
          exact Nat.succ_le_succ ok.nlink
        · rw [here, if_pos (sameStack.mpr List.mem_cons_self)]
          exact ok.size.trans (if_pos List.mem_cons_self)
        · simp only [sameStack, named]
          exact ok.count
      · exact ok.congr grown (here.trans (if_neg isCurrent)) sameStack
          (by rw [named])
  · have different : inum ≠ fs.freeinode := fun equal =>
      file.not_isDirectory (equal ▸ newDirectory)
    have below : inum < fs.freeinode := by
      have range := file.2.1
      omega
    have old := file.of_extends grown below
    have notCurrent : inum ≠ curInode := fun equal =>
      old.not_isDirectory (equal ▸ current)
    have here := (inodes inum).trans
      ((if_neg different).trans (if_neg notCurrent))
    exact (shape.files inum old).congr here (by rw [named])

/-- A directory on top of the stack is finished and gets its entry. -/
theorem Shape.closeDirectory {child : Nat}
    (shape : fs.Shape (child :: curInode :: stack))
    (top : child ∉ curInode :: stack) (parent : fs.parent child = curInode)
    (notRoot : child ≠ 1) (name : HostName) :
    ((fs.modify child Inode.fixSize).enter curInode
      ⟨child, name.field⟩).Shape (curInode :: stack) := by
  have current := shape.opened curInode
    (List.mem_cons_of_mem _ List.mem_cons_self)
  have childDirectory := shape.opened child List.mem_cons_self
  have different : child ≠ curInode := fun equal =>
    top (equal ▸ List.mem_cons_self)
  have fixed : fs.Extends (fs.modify child Inode.fixSize) :=
    (Extends.refl fs).modify child Inode.Grows.fixSize
  have grown : fs.Extends ((fs.modify child Inode.fixSize).enter curInode
      ⟨child, name.field⟩) := fixed.enter _ _
  have currentOk := shape.directories curInode current
  have direntsFixed : (fs.modify child Inode.fixSize).dirents = fs.dirents :=
    dirents_modify Inode.fixSize (fun _ => rfl) child
  have count : ∀ inum, ((fs.modify child Inode.fixSize).enter curInode
      ⟨child, name.field⟩).named.count inum =
        fs.named.count inum + if child = inum then 1 else 0 := fun inum => by
    rw [count_enter (current.extend fixed) ?_,
      named_modify Inode.fixSize fun _ => rfl]
    rw [direntsFixed, currentOk.head]
    simp
  have dirents : ((fs.modify child Inode.fixSize).enter curInode
      ⟨child, name.field⟩).dirents = update fs.dirents curInode
        (fs.dirents curInode ++ [⟨child, name.field⟩]) := by
    rw [dirents_enter (current.extend fixed), direntsFixed]
  refine ⟨shape.root.extend grown,
    fun inum member => (shape.opened inum
      (List.mem_cons_of_mem _ member)).extend grown,
    fun node member => (shape.links node member).extend grown,
    fun inum directory => ?_, fun inum file => ?_⟩
  · have old := directory.of_extends grown directory.2.1
    have ok := shape.directories inum old
    by_cases isChild : inum = child
    · subst isChild
      have here : ((fs.modify inum Inode.fixSize).enter curInode
          ⟨inum, name.field⟩).inodes inum = (fs.inodes inum).fixSize :=
        (enter_of_ne different _).trans (update_self _ _ _)
      refine ok.extend grown [] ?_ (List.forall_mem_nil _) ?_ ?_ ?_
        fun _ _ => ?_
      · rw [dirents, update_of_ne different, List.append_nil]
      · rw [here]
        exact ok.nlink
      · rw [here, if_neg top]
        have unfinished := ok.size.trans (if_pos List.mem_cons_self)
        simp only [Inode.fixSize, unfinished]
      · rw [count, if_pos rfl, ok.count,
          if_pos (.inr List.mem_cons_self), if_neg]
        rintro (isRoot | opened)
        · exact notRoot isRoot
        · exact top opened
      · rw [parent, names, children, dirents, update_self]
        simp [currentOk.head]
    · have sameStack : inum ∈ curInode :: stack ↔
          inum ∈ child :: curInode :: stack := by
        simp [isChild]
      have countSame : ((fs.modify child Inode.fixSize).enter curInode
          ⟨child, name.field⟩).named.count inum = fs.named.count inum := by
        rw [count, if_neg (Ne.symm isChild), Nat.add_zero]
      have unfixed : (fs.modify child Inode.fixSize).inodes inum =
          fs.inodes inum := update_of_ne isChild _ _
      by_cases isCurrent : inum = curInode
      · subst isCurrent
        have positive := childDirectory.1
        exact ok.enter (sameStack.mp List.mem_cons_self) List.mem_cons_self
          fixed unfixed old ⟨by simp only; omega, childDirectory.2.1, name, rfl⟩
          countSame
      · exact ok.congr grown ((enter_of_ne isCurrent _).trans unfixed)
          sameStack countSame
  · have old := file.of_extends grown file.2.1
    have notCurrent : inum ≠ curInode := fun equal =>
      old.not_isDirectory (equal ▸ current)
    have notChild : inum ≠ child := fun equal =>
      old.not_isDirectory (equal ▸ childDirectory)
    refine (shape.files inum old).congr ?_ ?_
    · rw [enter_of_ne notCurrent]
      exact update_of_ne notChild _ _
    · rw [count, if_neg (Ne.symm notChild), Nat.add_zero]

theorem DirectoryOk.parent_extend {inum : Nat}
    (ok : fs.DirectoryOk stack inum) (grown : fs.Extends next)
    (below : inum < fs.freeinode) : next.parent inum = fs.parent inum := by
  obtain ⟨added, dirents⟩ := (grown.inodes inum below).dirents
  have extended : next.dirents inum = fs.dirents inum ++ added :=
    dirents.symm
  rw [FileSystem.parent, FileSystem.parent, extended, ok.head]
  rfl

/-- A new directory that has been filled is closed and gets its entry. -/
theorem Shape.closeFilled (shape : fs.Shape (curInode :: stack))
    {children : HostDir}
    (filled : (((fs.create (.directory [])).addDirHead fs.freeinode
      curInode).addEntries fs.freeinode children).Shape
        (fs.freeinode :: curInode :: stack)) (name : HostName) :
    (((((fs.create (.directory [])).addDirHead fs.freeinode
      curInode).addEntries fs.freeinode children).modify fs.freeinode
        Inode.fixSize).enter curInode
          ⟨fs.freeinode, name.field⟩).Shape (curInode :: stack) := by
  have opened := shape.openDirectory
  have isNew := opened.opened fs.freeinode List.mem_cons_self
  have current := shape.opened curInode List.mem_cons_self
  have parent : (((fs.create (.directory [])).addDirHead fs.freeinode
      curInode).addEntries fs.freeinode children).parent fs.freeinode =
        curInode := by
    rw [(opened.directories _ isNew).parent_extend
      ((Extends.refl _).addEntries _ _) isNew.2.1]
    simp [FileSystem.parent, dirents, inodes_open current.2.1,
      Body.dirents]
  refine filled.closeDirectory (fun member => ?_) parent shape.root.2.1.ne'
    name
  exact (shape.opened _ member).2.1.false

/-- The loop of `add_dir` keeps the shape. -/
theorem Shape.addEntries (shape : fs.Shape (curInode :: stack))
    (curDir : HostDir) :
    (fs.addEntries curInode curDir).Shape (curInode :: stack) := by
  induction curDir generalizing fs curInode stack with
  | nil => exact shape
  | file name stIno stNlink contents chunk rest ih =>
      exact ih (shape.addFile name stIno stNlink contents chunk)
  | dir name children rest childrenIh restIh =>
      have shape := shape.openFile
      exact restIh (shape.closeFilled (childrenIh shape.openDirectory)
        name).closeFile

end Steps

/-- The root directory with its entries `.` and `..`. -/
theorem shape_root (descriptors : Nat) :
    (((initial descriptors).create (.directory [])).addDirHead 1 1).Shape [1] := by
  have freeinode : (((initial descriptors).create (.directory [])).addDirHead 1
      1).freeinode = 2 := rfl
  have inode : (((initial descriptors).create (.directory [])).addDirHead 1 1).inodes 1 =
      ⟨2, 32, .directory [⟨1, dotName⟩, ⟨1, dotdotName⟩]⟩ := rfl
  have links : (((initial descriptors).create (.directory [])).addDirHead 1
      1).process.links.used = [] := rfl
  generalize ((initial descriptors).create (.directory [])).addDirHead 1 1 = fs at *
  have only : ∀ inum, 1 ≤ inum → inum < fs.freeinode → inum = 1 := by omega
  have root : fs.IsDirectory 1 :=
    ⟨le_rfl, by omega, by rw [inode]; rfl⟩
  have children : fs.children 1 = [] := by
    simp [FileSystem.children, dirents, inode, Body.dirents]
  have named : fs.named = [] := by
    simp [FileSystem.named, freeinode, names, children]
  refine ⟨root, fun inum member => ?_, by simp [links],
    fun inum directory => ?_, fun inum file => ?_⟩
  · rw [List.mem_singleton.mp member]
    exact root
  · obtain rfl := only inum directory.1 directory.2.1
    exact .fresh inode root (fun _ => rfl) (fun notRoot => absurd rfl notRoot)
      freeinode.ge (by simp [named]) List.mem_cons_self
  · obtain rfl := only inum file.1 file.2.1
    exact absurd root file.not_isDirectory

/-- Every file system that is built is a tree. -/
theorem shape_build (descriptors : Nat) (fileTreeRoot : HostDir) :
    (build descriptors fileTreeRoot).Shape [] := by
  have filled := (shape_root descriptors).addEntries fileTreeRoot
  unfold build addDir
  generalize (((initial descriptors).create (.directory [])).addDirHead 1 1).addEntries 1
    fileTreeRoot = fs at *
  have fixed : fs.Extends (fs.modify 1 Inode.fixSize) :=
    (Extends.refl fs).modify 1 Inode.Grows.fixSize
  have named : (fs.modify 1 Inode.fixSize).named = fs.named :=
    named_modify Inode.fixSize (fun _ => rfl) 1
  refine ⟨filled.root.extend fixed, nofun,
    fun node member => (filled.links node member).extend fixed,
    fun inum directory => ?_, fun inum file => ?_⟩
  · have ok := filled.directories inum
      (directory.of_extends fixed directory.2.1)
    refine ok.extend fixed [] ?_ (List.forall_mem_nil _) ?_ ?_ ?_
      fun notRoot _ =>
      names_subset fixed ok.parent.2.1 (ok.held notRoot (by simpa))
    · rw [List.append_nil, dirents_modify Inode.fixSize fun _ => rfl]
    · by_cases isRoot : inum = 1
      · subst isRoot
        simpa [modify, Inode.fixSize] using ok.nlink
      · simpa [modify, isRoot] using ok.nlink
    · have size := ok.size
      by_cases isRoot : inum = 1
      · subst isRoot
        rw [if_pos List.mem_cons_self] at size
        simp [modify, Inode.fixSize, size]
      · simpa [modify, isRoot] using size
    · rw [named, ok.count]
      simp
  · have old := file.of_extends fixed file.2.1
    have notRoot : inum ≠ 1 := fun equal =>
      old.not_isDirectory (equal ▸ filled.root)
    exact (filled.files inum old).congr (update_of_ne notRoot _ _)
      (by rw [named])

section Lengths

variable {fs : FileSystem} {stack : List Nat} {inum : Nat}

/-- Every entry of a directory takes sixteen bytes. -/
theorem DirectoryOk.name_length (ok : fs.DirectoryOk stack inum)
    {entry : Dirent} (member : entry ∈ fs.dirents inum) :
    entry.name.length = 14 := by
  rw [ok.head, List.mem_cons, List.mem_cons] at member
  rcases member with rfl | rfl | child
  · rfl
  · rfl
  · obtain ⟨name, nameEq⟩ := (ok.children entry child).name
    rw [nameEq, HostName.field, List.length_take, List.length_append,
      List.length_replicate]
    omega

theorem DirectoryOk.dirent_length (ok : fs.DirectoryOk stack inum)
    {entry : Dirent} (member : entry ∈ fs.dirents inum) :
    entry.bytes.length = 16 := by
  rw [Dirent.bytes, List.length_append, ByteMemory.littleEndian_length,
    ok.name_length member]

theorem IsDirectory.bytes_eq (directory : fs.IsDirectory inum) :
    (fs.inodes inum).body.bytes =
      (fs.dirents inum).flatMap Dirent.bytes := by
  unfold dirents
  cases body : (fs.inodes inum).body with
  | directory => rfl
  | file => simp [IsDirectory, body, Body.type] at directory

theorem DirectoryOk.bytes_length (ok : fs.DirectoryOk stack inum)
    (directory : fs.IsDirectory inum) :
    (fs.inodes inum).body.bytes.length = 16 * (fs.dirents inum).length := by
  rw [directory.bytes_eq, List.length_flatMap,
    List.map_congr_left fun entry => ok.dirent_length, List.map_const',
    List.sum_replicate_nat, Nat.mul_comm]

end Lengths

end FileSystem

end LinuxKernelDev.Mkfs
