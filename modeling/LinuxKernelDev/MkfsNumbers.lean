import LinuxKernelDev.MkfsImage

/-!
# Runs and the numbers of inodes

However many inodes there are, a run that is not stopped gives them the numbers
that they have in the built file system, and holds the same hard link map and
the same descriptors.
-/

namespace LinuxKernelDev.Mkfs

open LinkedChunks

/-- The numbers of inodes and the process are those of the file system that is
built. -/
structure Agrees (s : State) (fs : FileSystem) : Prop where
  freeinode : s.freeinode = fs.freeinode
  process : s.process = fs.process
  running : fs.stopped = false

namespace Agrees

variable {s next : State} {fs : FileSystem}

theorem keeps {other : FileSystem} (agrees : Agrees s fs)
    (kept : Keeps s next) (freeinode : other.freeinode = fs.freeinode)
    (process : other.process = fs.process)
    (running : other.stopped = fs.stopped) : Agrees next other :=
  ⟨kept.1.trans (agrees.freeinode.trans freeinode.symm),
    kept.2.trans (agrees.process.trans process.symm),
    running.trans agrees.running⟩

theorem modify (agrees : Agrees s fs) (kept : Keeps s next) (inum : Nat)
    (change : Inode → Inode) : Agrees next (fs.modify inum change) :=
  agrees.keeps kept rfl rfl rfl

theorem ialloc {type inum : Nat} (agrees : Agrees s fs) (body : Body)
    (done : Mkfs.ialloc type s = some (inum, next)) :
    inum = fs.freeinode ∧ Agrees next (fs.create body) := by
  obtain ⟨rfl, disk, rfl⟩ := exists_disk_of_ialloc done
  refine ⟨agrees.freeinode, ?_, agrees.process, agrees.running⟩
  exact congrArg (· + 1) agrees.freeinode

theorem setLinks (agrees : Agrees s fs) (links : Chunks HardLinkMapNode) :
    Agrees (s.setLinks links) (fs.setLinks links) := by
  refine ⟨agrees.freeinode, ?_, agrees.running⟩
  simp only [State.setLinks, FileSystem.setLinks, agrees.process]

theorem openFile (agrees : Agrees s fs)
    (done : Mkfs.openFile s = some next) : Agrees next fs.openFile := by
  unfold Mkfs.openFile at done
  unfold FileSystem.openFile
  rw [agrees.process] at done
  split_ifs at done ⊢
  obtain rfl := Option.some.inj done
  refine ⟨agrees.freeinode, ?_, agrees.running⟩
  simp only [State.setDescriptors, FileSystem.setDescriptors, agrees.process]

theorem closeFile (agrees : Agrees s fs) :
    Agrees (Mkfs.closeFile s) fs.closeFile := by
  refine ⟨agrees.freeinode, ?_, agrees.running⟩
  simp only [Mkfs.closeFile, FileSystem.closeFile, State.setDescriptors,
    FileSystem.setDescriptors, agrees.process]

theorem fetchHardLink {hostINode nlinks : UInt32} {chunk : Option Chunk}
    {inum : Nat} (agrees : Agrees s fs)
    (done : Mkfs.fetchHardLink hostINode nlinks chunk s = some (inum, next)) :
    inum = (fs.fetch hostINode nlinks chunk).1 ∧
      Agrees next (fs.fetch hostINode nlinks chunk).2 := by
  unfold Mkfs.fetchHardLink at done
  rw [agrees.process] at done
  obtain ⟨result, searched, rest⟩ := Option.bind_eq_some_iff.mp done
  cases result with
  | found last curr =>
      obtain ⟨rfl, rfl⟩ := Prod.mk.inj (Option.some.inj rest)
      rw [FileSystem.fetch_found searched]
      exact ⟨rfl, agrees.setLinks _⟩
  | missing last =>
      obtain ⟨new, isChunk, made⟩ := Option.bind_eq_some_iff.mp rest
      obtain ⟨⟨child, middle⟩, created, same⟩ :=
        Option.bind_eq_some_iff.mp made
      obtain ⟨rfl, rfl⟩ := Prod.mk.inj (Option.some.inj same)
      obtain ⟨rfl, middleAgrees⟩ := agrees.ialloc (.file []) created
      rw [isChunk, FileSystem.fetch_new searched]
      refine ⟨rfl, ?_⟩
      have set := middleAgrees.setLinks (addNode middle.process.links last new
        ⟨fs.freeinode, hostINode, nlinks - 1⟩)
      rwa [middleAgrees.process] at set ⊢

theorem addFile {curInode : Nat} {name : HostName} {stIno stNlink : UInt64}
    {contents : List UInt8} {chunk : Option Chunk} (agrees : Agrees s fs)
    (done : Mkfs.addFile curInode name stIno stNlink contents chunk s =
      some next) :
    Agrees next (fs.addFile curInode name stIno stNlink contents chunk) := by
  obtain ⟨opened, openedEq, done⟩ := Option.bind_eq_some_iff.mp done
  have agrees := agrees.openFile openedEq
  unfold FileSystem.addFile
  dsimp only
  by_cases linked : 0 < stNlink
  · rw [if_pos linked] at done ⊢
    obtain ⟨⟨child, middle⟩, fetched, rest⟩ := Option.bind_eq_some_iff.mp done
    obtain ⟨rfl, middleAgrees⟩ := agrees.fetchHardLink fetched
    dsimp only at rest
    rw [agrees.freeinode] at rest
    split_ifs at rest ⊢
    · obtain ⟨other, changed, entered⟩ := Option.bind_eq_some_iff.mp rest
      exact (middleAgrees.modify (keeps_addLink changed) _ _).modify
        (keeps_iappend entered) _ _
    · obtain ⟨other, changed, entered⟩ := Option.bind_eq_some_iff.mp rest
      exact (middleAgrees.modify (keeps_copyFile changed) _ _).closeFile.modify
        (keeps_iappend entered) _ _
  · rw [if_neg linked] at done ⊢
    obtain ⟨⟨child, middle⟩, created, rest⟩ := Option.bind_eq_some_iff.mp done
    obtain ⟨other, changed, entered⟩ := Option.bind_eq_some_iff.mp rest
    exact ((agrees.ialloc (.file []) created).2.modify
      (keeps_copyFile changed) _ _).closeFile.modify (keeps_iappend entered)
        _ _

theorem addDirHead {curInode parentInode : Nat} (agrees : Agrees s fs)
    (done : Mkfs.addDirHead curInode parentInode s = some next) :
    Agrees next (fs.addDirHead curInode parentInode) := by
  refine agrees.keeps (keeps_addDirHead done) ?_ ?_ ?_ <;>
  · simp only [FileSystem.addDirHead]
    split_ifs <;> rfl

theorem addEntries {curInode : Nat} {curDir : HostDir}
    (agrees : Agrees s fs)
    (done : Mkfs.addEntries curInode curDir s = some next) :
    Agrees next (fs.addEntries curInode curDir) := by
  induction curDir generalizing curInode s fs next with
  | nil =>
      obtain rfl := Option.some.inj done
      exact agrees
  | file name stIno stNlink contents chunk rest ih =>
      obtain ⟨middle, added, later⟩ := Option.bind_eq_some_iff.mp done
      exact ih (agrees.addFile added) later
  | dir name children rest childrenIh restIh =>
      obtain ⟨started, openedEq, afterOpen⟩ := Option.bind_eq_some_iff.mp done
      have agrees := agrees.openFile openedEq
      obtain ⟨⟨child, created⟩, allocated, afterAlloc⟩ :=
        Option.bind_eq_some_iff.mp afterOpen
      obtain ⟨opened, headed, afterHead⟩ :=
        Option.bind_eq_some_iff.mp afterAlloc
      obtain ⟨filled, added, afterFill⟩ := Option.bind_eq_some_iff.mp afterHead
      obtain ⟨fixed, sized, afterFix⟩ := Option.bind_eq_some_iff.mp afterFill
      obtain ⟨entered, appended, later⟩ := Option.bind_eq_some_iff.mp afterFix
      obtain ⟨rfl, createdAgrees⟩ := agrees.ialloc (.directory []) allocated
      have filledAgrees := childrenIh (createdAgrees.addDirHead headed) added
      exact restIh ((filledAgrees.modify (keeps_fixSize sized) _
        _).closeFile.modify (keeps_iappend appended) _ _) later

end Agrees

/-- A run that ends has the numbers of the built file system. -/
theorem agrees_written {descriptors : Nat} {fileTreeRoot : HostDir}
    {final : State} (done : written descriptors fileTreeRoot = some final) :
    Agrees final (FileSystem.build descriptors fileTreeRoot) := by
  obtain ⟨start, started, layout, stored⟩ := refines_mkfs
  unfold written at done
  rw [started, Option.bind_eq_bind, Option.bind_some] at done
  obtain ⟨⟨root, created⟩, allocated, afterAlloc⟩ :=
    Option.bind_eq_some_iff.mp done
  have agrees : Agrees start (FileSystem.initial 0) :=
    ⟨stored.freeinode, stored.process, rfl⟩
  obtain ⟨rootEq, createdAgrees⟩ := agrees.ialloc (.directory []) allocated
  obtain rfl : root = 1 := rootEq
  have opened : Agrees { created with process := Process.initial descriptors }
      ((FileSystem.initial descriptors).create (.directory [])) :=
    ⟨createdAgrees.freeinode, rfl, rfl⟩
  obtain ⟨filled, added, marked⟩ := Option.bind_eq_some_iff.mp afterAlloc
  obtain ⟨head, headed, afterHead⟩ := Option.bind_eq_some_iff.mp added
  obtain ⟨entered, entries, sized⟩ := Option.bind_eq_some_iff.mp afterHead
  have built := (opened.addDirHead headed).addEntries entries
  unfold FileSystem.build FileSystem.addDir
  generalize (((FileSystem.initial descriptors).create
    (.directory [])).addDirHead 1 1).addEntries 1 fileTreeRoot = fs at built ⊢
  have built := built.modify (keeps_fixSize sized) 1 Inode.fixSize
  unfold balloc at marked
  split_ifs at marked
  obtain rfl := Option.some.inj marked
  exact ⟨built.freeinode, built.process, built.running⟩

/-- A run that ends with few inodes has written the built file system. -/
theorem exists_carries_of_written {descriptors : Nat} {fileTreeRoot : HostDir}
    {final : State} (done : written descriptors fileTreeRoot = some final)
    (table : final.freeinode ≤ 208) :
    ∃ layout, Carries final.disk (FileSystem.build descriptors fileTreeRoot)
      layout := by
  have image : main descriptors fileTreeRoot = some final.disk := by
    rw [main, done, Option.map_some]
  rw [(agrees_written done).freeinode] at table
  by_cases fits : (FileSystem.build descriptors fileTreeRoot).Fits
  · obtain ⟨img, layout, same, carries⟩ :=
      exists_carries descriptors fileTreeRoot table fits
    obtain rfl := Option.some.inj (image.symm.trans same)
    exact ⟨layout, carries⟩
  · rw [main_eq_none descriptors fileTreeRoot table fits] at image
    cases image

end LinuxKernelDev.Mkfs
