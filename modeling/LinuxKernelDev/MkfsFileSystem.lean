import LinuxKernelDev.Mkfs
import LinuxKernelDev.MkfsBlockAppends

/-!
# The file system that is built

What `mkfs` writes, without blocks and bytes: numbered inodes that are files
with their data or directories with their entries.  The same steps that build
an image build such a file system.  Instead of ending at a pointer that leads
nowhere or at a file that cannot be opened, the steps go on and record it.
-/

namespace LinuxKernelDev.Mkfs

open Function LinkedChunks

/-- The data of a file, or the entries of a directory. -/
inductive Body where
  | file (data : List UInt8)
  | directory (dirents : List Dirent)

namespace Body

/-- The field `type` of the inode. -/
def type : Body → Nat
  | file _ => 2
  | directory _ => 1

def dirents : Body → List Dirent
  | file _ => []
  | directory dirents => dirents

def bytes : Body → List UInt8
  | file data => data
  | directory dirents => dirents.flatMap Dirent.bytes

/-- Bytes added to a file. -/
def append (added : List UInt8) : Body → Body
  | file data => file (data ++ added)
  | directory dirents => directory dirents

/-- An entry added to a directory. -/
def enter (entry : Dirent) : Body → Body
  | file data => file data
  | directory dirents => directory (dirents ++ [entry])

end Body

/-- An inode without the addresses of its blocks. -/
structure Inode where
  nlink : Nat
  size : Nat
  body : Body

namespace Inode

/-- A new file or directory. -/
def fresh : Body → Inode
  | .file data => ⟨1, 0, .file data⟩
  | .directory dirents => ⟨2, 0, .directory dirents⟩

def append (added : List UInt8) (inode : Inode) : Inode :=
  ⟨inode.nlink, inode.size + added.length, inode.body.append added⟩

def enter (entry : Dirent) (inode : Inode) : Inode :=
  ⟨inode.nlink, inode.size + entry.bytes.length, inode.body.enter entry⟩

def link (inode : Inode) : Inode :=
  ⟨inode.nlink + 1, inode.size, inode.body⟩

def fixSize (inode : Inode) : Inode :=
  ⟨inode.nlink, (inode.size / 512 + 1) * 512, inode.body⟩

end Inode

/-- The inodes with numbers below `freeinode`, what the process holds, and
whether it should have stopped. -/
structure FileSystem where
  inodes : Nat → Inode
  freeinode : Nat
  process : Process
  stopped : Bool

namespace FileSystem

def initial (descriptors : Nat) : FileSystem :=
  ⟨fun _ => ⟨0, 0, .file []⟩, 1, Process.initial descriptors, false⟩

def stop (fs : FileSystem) : FileSystem := { fs with stopped := true }

def setLinks (fs : FileSystem) (links : Chunks HardLinkMapNode) : FileSystem :=
  { fs with process := { fs.process with links := links } }

def setDescriptors (fs : FileSystem) (descriptors : Nat) : FileSystem :=
  { fs with process := { fs.process with descriptors := descriptors } }

def openFile (fs : FileSystem) : FileSystem :=
  if 0 < fs.process.descriptors then
    fs.setDescriptors (fs.process.descriptors - 1)
  else
    fs.stop

def closeFile (fs : FileSystem) : FileSystem :=
  fs.setDescriptors (fs.process.descriptors + 1)

/-- Changes one inode. -/
def modify (fs : FileSystem) (inum : Nat) (change : Inode → Inode) :
    FileSystem :=
  { fs with inodes := update fs.inodes inum (change (fs.inodes inum)) }

/-- Adds an empty file or directory. -/
def create (fs : FileSystem) (body : Body) : FileSystem :=
  { fs with
    inodes := update fs.inodes fs.freeinode (Inode.fresh body)
    freeinode := fs.freeinode + 1 }

def enter (fs : FileSystem) (curInode : Nat) (entry : Dirent) : FileSystem :=
  fs.modify curInode (Inode.enter entry)

/-- The inode of a host file, which is new unless the map has it. -/
def fetch (fs : FileSystem) (hostINode nlinks : UInt32)
    (chunk : Option Chunk) : Nat × FileSystem :=
  match findNode hostINode fs.process.links, chunk with
  | some (.found last curr), _ =>
      ((fs.process.links.cell curr).value.fsINode,
        fs.setLinks (useLink fs.process.links last curr))
  | some (.missing last), some chunk =>
      (fs.freeinode, (fs.create (.file [])).setLinks
        (addNode fs.process.links last chunk
          ⟨fs.freeinode, hostINode, nlinks - 1⟩))
  | _, _ => (fs.freeinode, (fs.create (.file [])).stop)

def addFile (fs : FileSystem) (curInode : Nat) (name : HostName)
    (stIno stNlink : UInt64) (contents : List UInt8) (chunk : Option Chunk) :
    FileSystem :=
  let fs := fs.openFile
  if 0 < stNlink then
    let fetched := fs.fetch stIno.toUInt32 stNlink.toUInt32 chunk
    if fetched.1 ≠ fs.freeinode then
      (fetched.2.modify fetched.1 Inode.link).enter curInode
        ⟨fetched.1, name.field⟩
    else
      (fetched.2.modify fetched.1 (Inode.append contents)).closeFile.enter
        curInode ⟨fetched.1, name.field⟩
  else
    ((fs.create (.file [])).modify fs.freeinode
      (Inode.append contents)).closeFile.enter curInode
      ⟨fs.freeinode, name.field⟩

/-- Adds the entries `.` and `..`. -/
def addDirHead (fs : FileSystem) (curInode parentInode : Nat) : FileSystem :=
  let fs := fs.enter curInode ⟨curInode, dotName⟩
  let fs := if curInode ≠ parentInode then fs.modify parentInode Inode.link
    else fs
  fs.enter curInode ⟨parentInode, dotdotName⟩

def addEntries (fs : FileSystem) (curInode : Nat) : HostDir → FileSystem
  | .nil => fs
  | .file name stIno stNlink contents chunk rest =>
      (fs.addFile curInode name stIno stNlink contents chunk).addEntries
        curInode rest
  | .dir name children rest =>
      let fs := fs.openFile
      let child := fs.freeinode
      let opened := (fs.create (.directory [])).addDirHead child curInode
      let filled := (opened.addEntries child children).modify child
        Inode.fixSize
      (filled.closeFile.enter curInode ⟨child, name.field⟩).addEntries
        curInode rest

def addDir (fs : FileSystem) (curDir : HostDir) (curInode parentInode : Nat) :
    FileSystem :=
  ((fs.addDirHead curInode parentInode).addEntries curInode curDir).modify
    curInode Inode.fixSize

/-- The file system built for a host directory tree. -/
def build (descriptors : Nat) (fileTreeRoot : HostDir) : FileSystem :=
  ((initial descriptors).create (.directory [])).addDir fileTreeRoot 1 1

end FileSystem

namespace FileSystem

variable {fs : FileSystem} {hostINode nlinks : UInt32}

theorem modify_self (inum : Nat) (change : Inode → Inode) :
    (fs.modify inum change).inodes inum = change (fs.inodes inum) :=
  update_self _ _ _

theorem modify_of_ne {inum other : Nat} (different : other ≠ inum)
    (change : Inode → Inode) :
    (fs.modify inum change).inodes other = fs.inodes other :=
  update_of_ne different _ _

@[simp]
theorem openFile_inodes : fs.openFile.inodes = fs.inodes := by
  unfold openFile
  split <;> rfl

@[simp]
theorem openFile_freeinode : fs.openFile.freeinode = fs.freeinode := by
  unfold openFile
  split <;> rfl

@[simp]
theorem openFile_links : fs.openFile.process.links = fs.process.links := by
  unfold openFile
  split <;> rfl

theorem fetch_found {chunk : Option Chunk} {last : Option Nat} {curr : Nat}
    (found : findNode hostINode fs.process.links = some (.found last curr)) :
    fs.fetch hostINode nlinks chunk =
      ((fs.process.links.cell curr).value.fsINode,
        fs.setLinks (useLink fs.process.links last curr)) := by
  simp only [fetch, found]

theorem fetch_new {chunk : Chunk} {last : Option Nat}
    (missing : findNode hostINode fs.process.links = some (.missing last)) :
    fs.fetch hostINode nlinks (some chunk) =
      (fs.freeinode, (fs.create (.file [])).setLinks
        (addNode fs.process.links last chunk
          ⟨fs.freeinode, hostINode, nlinks - 1⟩)) := by
  simp only [fetch, missing]

end FileSystem

/-- An inode that changes only by growing. -/
structure Inode.Grows (inode next : Inode) : Prop where
  type : next.body.type = inode.body.type
  dirents : inode.body.dirents <+: next.body.dirents
  bytes : inode.body.bytes.length ≤ next.body.bytes.length
  nlink : inode.nlink ≤ next.nlink
  size : inode.size ≤ next.size

namespace Inode.Grows

variable {inode next : Inode}

theorem refl (inode : Inode) : Grows inode inode :=
  ⟨rfl, List.prefix_rfl, le_rfl, le_rfl, le_rfl⟩

theorem trans {middle : Inode} (first : Grows inode middle)
    (second : Grows middle next) : Grows inode next where
  type := second.type.trans first.type
  dirents := first.dirents.trans second.dirents
  bytes := first.bytes.trans second.bytes
  nlink := first.nlink.trans second.nlink
  size := first.size.trans second.size

theorem append (added : List UInt8) (inode : Inode) :
    Grows inode (inode.append added) := by
  obtain ⟨nlink, size, data | dirents⟩ := inode <;>
    exact ⟨rfl, List.prefix_rfl, by simp [Inode.append, Body.append,
      Body.bytes], le_rfl, Nat.le_add_right _ _⟩

theorem enter (entry : Dirent) (inode : Inode) :
    Grows inode (inode.enter entry) := by
  obtain ⟨nlink, size, data | dirents⟩ := inode
  · exact ⟨rfl, List.prefix_rfl, le_rfl, le_rfl, Nat.le_add_right _ _⟩
  · exact ⟨rfl, List.prefix_append _ _, by simp [Inode.enter, Body.enter,
      Body.bytes], le_rfl, Nat.le_add_right _ _⟩

theorem link (inode : Inode) : Grows inode inode.link :=
  ⟨rfl, List.prefix_rfl, le_rfl, Nat.le_succ _, le_rfl⟩

theorem fixSize (inode : Inode) : Grows inode inode.fixSize :=
  ⟨rfl, List.prefix_rfl, le_rfl, le_rfl, by simp only [Inode.fixSize]; omega⟩

end Inode.Grows

/-- A file system that changes only by new inodes and by growing ones. -/
structure FileSystem.Extends (fs next : FileSystem) : Prop where
  freeinode : fs.freeinode ≤ next.freeinode
  inodes : ∀ inum < fs.freeinode, (fs.inodes inum).Grows (next.inodes inum)
  running : next.stopped = false → fs.stopped = false

namespace FileSystem.Extends

variable {fs next : FileSystem}

theorem refl (fs : FileSystem) : Extends fs fs :=
  ⟨le_rfl, fun _ _ => Inode.Grows.refl _, id⟩

theorem trans {middle : FileSystem} (first : Extends fs middle)
    (second : Extends middle next) : Extends fs next where
  freeinode := first.freeinode.trans second.freeinode
  inodes inum below := (first.inodes inum below).trans
    (second.inodes inum (below.trans_le first.freeinode))
  running := first.running ∘ second.running

theorem modify (grown : Extends fs next) (inum : Nat)
    {change : Inode → Inode} (grows : ∀ inode : Inode, inode.Grows (change inode)) :
    Extends fs (next.modify inum change) := by
  refine grown.trans ⟨le_rfl, fun other _ => ?_, id⟩
  by_cases same : other = inum
  · subst same
    simp only [FileSystem.modify, update_self]
    exact grows _
  · simp only [FileSystem.modify, update_of_ne same]
    exact Inode.Grows.refl _

theorem create (grown : Extends fs next) (body : Body) :
    Extends fs (next.create body) := by
  refine grown.trans ⟨Nat.le_succ _, fun other below => ?_, id⟩
  simp only [FileSystem.create, update_of_ne below.ne]
  exact Inode.Grows.refl _

/-- The process is not part of what grows. -/
theorem process (grown : Extends fs next) (process : Process) :
    Extends fs { next with process := process } :=
  grown.trans ⟨le_rfl, fun _ _ => Inode.Grows.refl _, id⟩

theorem stop (grown : Extends fs next) : Extends fs next.stop :=
  grown.trans ⟨le_rfl, fun _ _ => Inode.Grows.refl _, nofun⟩

theorem openFile (grown : Extends fs next) : Extends fs next.openFile := by
  unfold FileSystem.openFile
  split
  · exact grown.process _
  · exact grown.stop

theorem closeFile (grown : Extends fs next) : Extends fs next.closeFile :=
  grown.process _

theorem enter (grown : Extends fs next) (inum : Nat) (entry : Dirent) :
    Extends fs (next.enter inum entry) :=
  grown.modify inum (Inode.Grows.enter entry)

theorem fetch (grown : Extends fs next) (hostINode nlinks : UInt32)
    (chunk : Option Chunk) :
    Extends fs (next.fetch hostINode nlinks chunk).2 := by
  unfold FileSystem.fetch
  split
  · exact grown.process _
  · exact (grown.create _).process _
  · exact (grown.create _).stop

theorem addFile_of_openFile (grown : Extends fs next.openFile)
    (curInode : Nat) (name : HostName) (stIno stNlink : UInt64)
    (contents : List UInt8) (chunk : Option Chunk) :
    Extends fs (next.addFile curInode name stIno stNlink contents chunk) := by
  simp only [FileSystem.addFile]
  split_ifs
  · exact ((grown.fetch _ _ _).modify _ Inode.Grows.link).enter _ _
  · exact ((grown.fetch _ _ _).modify _
      (Inode.Grows.append _)).closeFile.enter _ _
  · exact ((grown.create _).modify _
      (Inode.Grows.append _)).closeFile.enter _ _

theorem addFile (grown : Extends fs next) (curInode : Nat)
    (name : HostName) (stIno stNlink : UInt64) (contents : List UInt8)
    (chunk : Option Chunk) :
    Extends fs (next.addFile curInode name stIno stNlink contents chunk) :=
  grown.openFile.addFile_of_openFile _ _ _ _ _ _

theorem addDirHead (grown : Extends fs next) (curInode parentInode : Nat) :
    Extends fs (next.addDirHead curInode parentInode) := by
  simp only [FileSystem.addDirHead]
  split_ifs
  · exact ((grown.enter _ _).modify _ Inode.Grows.link).enter _ _
  · exact (grown.enter _ _).enter _ _

theorem addEntries (grown : Extends fs next) (curInode : Nat)
    (curDir : HostDir) : Extends fs (next.addEntries curInode curDir) := by
  induction curDir generalizing next curInode with
  | nil => exact grown
  | file name stIno stNlink contents chunk rest ih =>
      exact ih (grown.addFile _ _ _ _ _ _) curInode
  | dir name children rest childrenIh restIh =>
      exact restIh (((childrenIh ((grown.openFile.create _).addDirHead _ _)
        _).modify _ Inode.Grows.fixSize).closeFile.enter _ _) curInode

end FileSystem.Extends

end LinuxKernelDev.Mkfs
