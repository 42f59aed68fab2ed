import LinuxKernelDev.ByteMemory
import LinuxKernelDev.DiskImage
import LinuxKernelDev.LinkedChunks
import Mathlib.Logic.Function.Basic

/-!
# Building an image

This file models `mkfs.c`, which copies a host directory tree into a new image.
A run that does not end in `exit(0)` gives `none`: it ends in another exit or a
failed assertion, follows a wild pointer, or does not end.  Inode and block
numbers are natural numbers: a run that counts up to `2 ^ 32` has long failed to
read a sector behind the end of the image.

What the host returns is part of the input.  For each file this includes the
chunk that `malloc` returns if the file gets a `HardLinkMapNode`, with the bytes
that stand where the source never writes the field `next`.  A number of
descriptors can be opened; links that are met again do not give theirs back.
The other host calls succeed.
-/

namespace LinuxKernelDev

open ByteMemory LinkedChunks

/-- The bytes of a `struct dirent`. -/
def Dirent.bytes (entry : Dirent) : List UInt8 :=
  littleEndian 2 entry.inum ++ entry.name

namespace Mkfs

-- The indices of `addrs` are written as numerals.
instance neZeroAddrs : NeZero 13 := ⟨by decide⟩

/-- A `struct dinode`; `addrs 12` is the indirect block. -/
structure Dinode where
  type : Nat
  major : Nat
  minor : Nat
  nlink : Nat
  size : Nat
  addrs : Fin 13 → Nat

/-- The bytes of a `struct dinode`. -/
def Dinode.bytes (din : Dinode) : List UInt8 :=
  [din.type, din.major, din.minor, din.nlink].flatMap (littleEndian 2) ++
    (din.size :: List.ofFn din.addrs).flatMap (littleEndian 4)

/-- The `struct dinode` stored at an offset. -/
def Dinode.read (memory : Nat → UInt8) (offset : Nat) : Dinode where
  type := word memory 2 offset
  major := word memory 2 (offset + 2)
  minor := word memory 2 (offset + 4)
  nlink := word memory 2 (offset + 6)
  size := word memory 4 (offset + 8)
  addrs index := word memory 4 (offset + 12 + 4 * index)

/-- A file that has been copied, with the number of its links to come.  The
field `next` is that of the chunk. -/
structure HardLinkMapNode where
  fsINode : Nat
  hostINode : UInt32
  remainLink : UInt32

/-- What the process holds besides the image: the chunks of the hard link map,
whose root is `hardLinkMapRoot`, and how many files it can still open. -/
structure Process where
  links : Chunks HardLinkMapNode
  descriptors : Nat

/-- `ialloc` returned an inode number, or `winode` wrote the inode with a
number. -/
inductive Event where
  | allocated (inum : Nat)
  | wrote (inum : Nat)
  deriving DecidableEq

/-- The open image and the globals of `mkfs.c`, with a record of what happened
to the inode table. -/
structure State where
  disk : Image
  freeinode : Nat
  freeblock : Nat
  usedblocks : Nat
  process : Process
  events : List Event

/-- An empty hard link map, and a number of files that can be opened. -/
def Process.initial (descriptors : Nat) : Process :=
  ⟨⟨none, [], fun _ => ⟨⟨0, 0, 0⟩, none⟩⟩, descriptors⟩

def State.note (event : Event) (s : State) : State :=
  { s with events := s.events ++ [event] }

def State.setLinks (links : Chunks HardLinkMapNode) (s : State) : State :=
  { s with process := { s.process with links := links } }

def State.setDescriptors (descriptors : Nat) (s : State) : State :=
  { s with process := { s.process with descriptors := descriptors } }

/-- A buffer of 512 bytes. -/
abbrev Sector := Nat → UInt8

def wsect (sec : Nat) (buf : Sector) (s : State) : State :=
  { s with
    disk :=
      { stSize := max s.disk.stSize ((sec + 1) * 512)
        byte := writeBlock s.disk.mem 512 sec buf } }

/-- A read behind the end of the image is short, and the run exits. -/
def rsect (sec : Nat) (s : State) : Option Sector :=
  if (sec + 1) * 512 ≤ s.disk.stSize then
    some fun index => s.disk.mem (sec * 512 + index)
  else
    none

def i2b (inum : Nat) : Nat := inum / 8 + 2

def winode (inum : Nat) (ip : Dinode) (s : State) : Option State := do
  let buf ← rsect (i2b inum) s
  some ((wsect (i2b inum) (patch buf (inum % 8 * 64) ip.bytes) s).note
    (.wrote inum))

def rinode (inum : Nat) (s : State) : Option Dinode := do
  let buf ← rsect (i2b inum) s
  some (Dinode.read buf (inum % 8 * 64))

def ialloc (type : Nat) (s : State) : Option (Nat × State) := do
  let inum := s.freeinode
  let din : Dinode :=
    ⟨type, 0, 0, if type = 1 then 2 else 1, 0, fun _ => 0⟩
  let s ← winode inum din { s with freeinode := s.freeinode + 1 }
  some (inum, s.note (.allocated inum))

/-- `freeblock++; usedblocks++`. -/
def State.takeBlock (s : State) : State :=
  { s with freeblock := s.freeblock + 1, usedblocks := s.usedblocks + 1 }

/-- Looks up an entry of an indirect block and allocates a block for it if it
is zero. -/
def indirectBlock (index entry : Nat) (s : State) : Option (Nat × State) := do
  let indirect ← rsect index s
  if word indirect 4 (4 * entry) = 0 then
    some (s.freeblock, wsect index
      (patch indirect (4 * entry) (littleEndian 4 s.freeblock)) s.takeBlock)
  else
    some (word indirect 4 (4 * entry), s)

/-- The part of the loop of `iappend` that finds or allocates block `fbn` of a
file. -/
def iappendBlock (fbn : Nat) (din : Dinode) (s : State) :
    Option (Nat × Dinode × State) :=
  if direct : fbn < 12 then
    let slot : Fin 13 := ⟨fbn, by omega⟩
    if din.addrs slot = 0 then
      some (s.freeblock,
        { din with addrs := Function.update din.addrs slot s.freeblock },
        s.takeBlock)
    else
      some (din.addrs slot, din, s)
  else if din.addrs 12 = 0 then do
    let (x, s') ← indirectBlock s.freeblock (fbn - 12) s.takeBlock
    some (x, { din with addrs := Function.update din.addrs 12 s.freeblock },
      s')
  else do
    let (x, s) ← indirectBlock (din.addrs 12) (fbn - 12) s
    some (x, din, s)

/-- The loop of `iappend`; the remaining bytes are `p`. -/
def iappendLoop (din : Dinode) (off : Nat) (p : List UInt8) (s : State) :
    Option (Dinode × Nat × State) :=
  if p = [] then
    some (din, off, s)
  else if off / 512 < 140 then do
    let (x, din, s) ← iappendBlock (off / 512) din s
    let n1 := min p.length ((off / 512 + 1) * 512 - off)
    let buf ← rsect x s
    let s := wsect x (patch buf (off - off / 512 * 512) (p.take n1)) s
    iappendLoop din (off + n1) (p.drop n1) s
  else
    none
termination_by p.length
decreasing_by
  have positive := List.length_pos_iff.mpr ‹p ≠ []›
  simp only [List.length_drop]
  omega

def iappend (inum : Nat) (p : List UInt8) (s : State) : Option State := do
  let din ← rinode inum s
  let (din, off, s) ← iappendLoop din din.size p s
  winode inum { din with size := off } s

/-- The map after a link of the node at `curr` was used.  The last link of a
node takes it out of the map; that of the first node sets the root to `NULL`. -/
def useLink (links : Chunks HardLinkMapNode) (last : Option Nat) (curr : Nat) :
    Chunks HardLinkMapNode :=
  let node := (links.cell curr).value
  if node.remainLink - 1 = 0 then
    match last with
    | some last => (links.relink (some last) (links.cell curr).next).free curr
    | none => (links.relink none none).free curr
  else
    links.setValue curr { node with remainLink := node.remainLink - 1 }

/-- A chunk that `malloc` returns.  It is not in use, and has some value where
the field `next` stands. -/
structure Chunk where
  address : List Nat → Nat
  fresh : ∀ used, address used ∉ used
  next : Option Nat

/-- The map with a new node, whose field `next` is not set. -/
def addNode (links : Chunks HardLinkMapNode) (last : Option Nat)
    (chunk : Chunk) (node : HardLinkMapNode) : Chunks HardLinkMapNode :=
  let curr := chunk.address links.used
  (links.alloc curr ⟨node, chunk.next⟩).relink last (some curr)

/-- The node of a host inode in the map. -/
def findNode (hostINode : UInt32) (links : Chunks HardLinkMapNode) :
    Option Search :=
  links.search fun node => node.hostINode = hostINode

/-- The inode of a host file.  `chunk` is what `malloc` returns, if it is
called. -/
def fetchHardLink (hostINode nlinks : UInt32) (chunk : Option Chunk)
    (s : State) : Option (Nat × State) := do
  match ← findNode hostINode s.process.links with
  | .found last curr =>
      some ((s.process.links.cell curr).value.fsINode,
        s.setLinks (useLink s.process.links last curr))
  | .missing last =>
      let chunk ← chunk
      let (fsINode, s) ← ialloc 2 s
      some (fsINode, s.setLinks (addNode s.process.links last chunk
        ⟨fsINode, hostINode, nlinks - 1⟩))

/-- `open`, which fails if no descriptor is left. -/
def openFile (s : State) : Option State :=
  if 0 < s.process.descriptors then
    some (s.setDescriptors (s.process.descriptors - 1))
  else
    none

def closeFile (s : State) : State :=
  s.setDescriptors (s.process.descriptors + 1)

/-- A name in a host directory other than `.` and `..`. -/
structure HostName where
  bytes : List UInt8
  nonempty : bytes ≠ []
  noNul : 0 ∉ bytes
  notDot : bytes ≠ [46]
  notDotdot : bytes ≠ [46, 46]

/-- `strncpy(de.name, d_name, DIRSIZ)`. -/
def HostName.field (name : HostName) : List UInt8 :=
  (name.bytes ++ List.replicate 14 0).take 14

/-- A host directory: what `readdir`, `fstat`, `read` and `malloc` return for
its entries, in order. -/
inductive HostDir where
  | nil
  | file (name : HostName) (stIno stNlink : UInt64) (contents : List UInt8)
      (chunk : Option Chunk) (rest : HostDir)
  | dir (name : HostName) (children : HostDir) (rest : HostDir)

/-- The loop that reads a file in blocks of 512 bytes. -/
def copyFile (inum : Nat) (contents : List UInt8) (s : State) :
    Option State :=
  if contents = [] then
    some s
  else do
    let s ← iappend inum (contents.take 512) s
    copyFile inum (contents.drop 512) s
termination_by contents.length
decreasing_by
  have positive := List.length_pos_iff.mpr ‹contents ≠ []›
  simp only [List.length_drop]
  omega

/-- `rinode; ++din.nlink; winode`. -/
def addLink (inum : Nat) (s : State) : Option State := do
  let din ← rinode inum s
  winode inum { din with nlink := din.nlink + 1 } s

/-- The turn of the loop of `add_dir` for a file.  A link that is met again
leaves its file open. -/
def addFile (curInode : Nat) (name : HostName) (stIno stNlink : UInt64)
    (contents : List UInt8) (chunk : Option Chunk) (s : State) :
    Option State := do
  let s ← openFile s
  if 0 < stNlink then do
    let newINum := s.freeinode
    let (childInode, s) ←
      fetchHardLink stIno.toUInt32 stNlink.toUInt32 chunk s
    if childInode ≠ newINum then do
      let s ← addLink childInode s
      iappend curInode (Dirent.bytes ⟨childInode, name.field⟩) s
    else do
      let s ← copyFile childInode contents s
      iappend curInode (Dirent.bytes ⟨childInode, name.field⟩) (closeFile s)
  else do
    let (childInode, s) ← ialloc 2 s
    let s ← copyFile childInode contents s
    iappend curInode (Dirent.bytes ⟨childInode, name.field⟩) (closeFile s)

/-- The name fields of the entries `.` and `..`. -/
def dotName : List UInt8 := 46 :: List.replicate 13 0

@[inherit_doc dotName]
def dotdotName : List UInt8 := 46 :: 46 :: List.replicate 12 0

/-- `add_dir` before its loop. -/
def addDirHead (curInode parentInode : Nat) (s : State) : Option State := do
  let s ← iappend curInode (Dirent.bytes ⟨curInode, dotName⟩) s
  let s ← if curInode ≠ parentInode then addLink parentInode s else some s
  iappend curInode (Dirent.bytes ⟨parentInode, dotdotName⟩) s

/-- `add_dir` after its loop. -/
def fixSize (curInode : Nat) (s : State) : Option State := do
  let din ← rinode curInode s
  winode curInode { din with size := (din.size / 512 + 1) * 512 } s

/-- The loop of `add_dir`, which calls `add_dir` for each subdirectory. -/
def addEntries (curInode : Nat) : HostDir → State → Option State
  | .nil, s => some s
  | .file name stIno stNlink contents chunk rest, s => do
      let s ← addFile curInode name stIno stNlink contents chunk s
      addEntries curInode rest s
  | .dir name children rest, s => do
      let s ← openFile s
      let (childInode, s) ← ialloc 1 s
      let s ← addDirHead childInode curInode s
      let s ← addEntries childInode children s
      let s ← fixSize childInode s
      let s ← iappend curInode (Dirent.bytes ⟨childInode, name.field⟩)
        (closeFile s)
      addEntries curInode rest s

def addDir (curDir : HostDir) (curInode parentInode : Nat) (s : State) :
    Option State := do
  let s ← addDirHead curInode parentInode s
  let s ← addEntries curInode curDir s
  fixSize curInode s

/-- The bitmap block with the first `used` bits set. -/
def bitmap (used : Nat) : Sector :=
  (List.range used).foldl
    (fun buf i => Function.update buf (i / 8)
      (buf (i / 8) ||| (1 <<< UInt8.ofNat (i % 8))))
    fun _ => 0

def balloc (used : Nat) (s : State) : Option State :=
  if used < 4096 then some (wsect (200 / 8 + 3) (bitmap used) s) else none

/-- Clears the image and writes the superblock. -/
def mkfs (nblocks ninodes size : Nat) : Option State :=
  let usedblocks := ninodes / 8 + 3 + (size / 4096 + 1)
  if nblocks + usedblocks = size then
    let s : State :=
      ⟨⟨0, fun _ => 0⟩, 1, usedblocks, usedblocks, Process.initial 0, []⟩
    let s := (List.range (nblocks + usedblocks)).foldl
      (fun s i => wsect i (fun _ => 0) s) s
    some (wsect 1 (patch (fun _ => 0) 0
      ([size, nblocks, ninodes].flatMap (littleEndian 4))) s)
  else
    none

/-- The state after `balloc`, if `main` comes so far.  `descriptors` files can be
opened once `opendir` has opened the root of the tree. -/
def written (descriptors : Nat) (fileTreeRoot : HostDir) : Option State := do
  let s ← mkfs 995 200 1024
  let (rootInode, s) ← ialloc 1 s
  if rootInode = 1 then do
    let s ← addDir fileTreeRoot rootInode rootInode
      { s with process := Process.initial descriptors }
    balloc s.usedblocks s
  else
    none

/-- The image written for a host directory tree.  `freeHardLinkMap`, which runs
last, does not change it. -/
def main (descriptors : Nat) (fileTreeRoot : HostDir) : Option Image :=
  (written descriptors fileTreeRoot).map State.disk

end Mkfs

end LinuxKernelDev
