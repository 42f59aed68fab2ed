import LinuxKernelDev.DiskImage

/-!
# The file system checker

A translation of `myfsck.c`.  The checker stops at the first inconsistency
with a message and exit status 1.  It is written over a `Machine`, which says
what a load from the image, an access to an array and a stop are.  Run as it is,
every index into an array is compared with the array's length, so a run that
would leave an array ends in `Stop.outOfBounds`, and a load outside the mapping
ends in `Stop.unmapped`.  Unsigned arithmetic is taken modulo `2 ^ 32`; the
reference counters are C `int`s and wrap.
-/

namespace LinuxKernelDev.Fsck

open Function

/-- The error functions of `log.h`. -/
inductive Message where
  | superblockError
  | badInodeError
  | badDirectoryFormatError
  | badDirectAddressError
  | badDirectAddressOnceError
  | badInodeReferredMarkedError
  | badIndirectAddressError
  | badFileSizeError
  | badDirectoryOnceError
  | badReferenceCountError
  | badBitmapMarkedUsedError
  | badUsedInodeNotFoundError
  | badUsedAddressError
  | badParentDirectoryError
  | badDirectoryError
  | badIndirectAddressOnceError
  deriving DecidableEq, Repr

/-- The line each error function prints on `stderr`. -/
def Message.text : Message → String
  | .superblockError => "MP4_ERR: superblock is corrupted.\n"
  | .badInodeError => "MP4_ERR: bad inode.\n"
  | .badDirectoryFormatError =>
      "MP4_ERR: directory not properly formatted.\n"
  | .badDirectAddressError => "MP4_ERR: bad direct address in inode.\n"
  | .badDirectAddressOnceError =>
      "MP4_ERR: direct address used more than once.\n"
  | .badInodeReferredMarkedError =>
      "MP4_ERR: inode referred to in directory but marked free.\n"
  | .badIndirectAddressError => "MP4_ERR: bad indirect address in inode.\n"
  | .badFileSizeError => "MP4_ERR: incorrect file size in inode.\n"
  | .badDirectoryOnceError =>
      "MP4_ERR: directory appears more than once in file system.\n"
  | .badReferenceCountError => "MP4_ERR: bad reference count for file.\n"
  | .badBitmapMarkedUsedError =>
      "MP4_ERR: bitmap marks block in use but it is not in use.\n"
  | .badUsedInodeNotFoundError =>
      "MP4_ERR: inode marked used but not found in a directory.\n"
  | .badUsedAddressError =>
      "MP4_ERR: address used by inode but marked free in bitmap.\n"
  | .badParentDirectoryError => "MP4_ERR: parent directory mismatch.\n"
  | .badDirectoryError => "MP4_ERR: inaccessible directory.\n"
  | .badIndirectAddressOnceError =>
      "MP4_ERR: indirect address used more than once.\n"

/-- Ways in which a run ends before the end of `main`.  Behind the mapping a
load is killed by `SIGSEGV` or reads what else is mapped there. -/
inductive Stop where
  | exit (message : Option Message)
  | outOfBounds
  | unmapped
  | outOfFuel
  deriving DecidableEq, Repr

/-- The observable result of a run. -/
inductive Outcome where
  | exited (status : Nat) (stderr : String)
  | undefined
  deriving DecidableEq, Repr

/-- The arrays that `helper` declares. -/
inductive Table where
  | blkvisited
  | usedinode
  | inodeindirent
  | parentdotdot
  | parententry
  | seen
  deriving DecidableEq

/-- What the checker does apart from computing: it stops, it loads bytes of the
image, and it accesses an element of an array. -/
class Machine (m : Type → Type) where
  stop {α : Type} (reason : Stop) : m α
  load {α : Type} (img : Image) (offset length : Nat) (value : α) : m α
  access {α : Type} (table : Table) (length : Nat) (index : Int) (value : α) :
    m α

export Machine (load access)

/-- The checker as it runs. -/
@[default_instance]
instance : Machine (Except Stop) where
  stop reason := .error reason
  load img offset length value :=
    if img.Maps offset length then .ok value else .error .unmapped
  access _ length index value :=
    if 0 ≤ index ∧ index < length then .ok value else .error .outOfBounds

section Machine

variable {m : Type → Type} [Monad m] [Machine m]

omit [Monad m] in
def fail {α : Type} (message : Message) : m α :=
  Machine.stop (.exit (some message))

/-- `if (condition) { message(); exit(1); }`. -/
def failIf (condition : Prop) [Decidable condition] (message : Message) :
    m Unit :=
  if condition then fail message else pure ()

end Machine

/-- The globals set by `main` and `check_size`. -/
structure Globals where
  sbsize : Nat
  nblocks : Nat
  ninodes : Nat
  datblkstnum : Nat
  datblkednum : Nat
  deriving DecidableEq

/-- Length of `blkvisited`, declared with `sbsize + 1` elements. -/
def Globals.visitedLen (g : Globals) : Nat := (g.sbsize + 1) % 4294967296

/-- Length of the arrays declared with `ninodes + 1` elements. -/
def Globals.tableLen (g : Globals) : Nat := (g.ninodes + 1) % 4294967296

/-- The arrays of `helper` and the counters it passes by address. -/
structure Scan where
  blkvisited : Nat → Bool
  usedinode : Nat → Bool
  inodeindirent : Nat → Int
  parentdotdot : Nat → Int
  parententry : Nat → Int
  curcnt : Nat
  parcnt : Nat
  blkcnt : Nat

/-- The arrays after the `memset` calls of `helper`. -/
def Scan.initial : Scan where
  blkvisited := fun _ => false
  usedinode := fun _ => false
  inodeindirent := fun _ => 0
  parentdotdot := fun _ => -1
  parententry := fun _ => -1
  curcnt := 0
  parcnt := 0
  blkcnt := 0

/-- `inodeindirent[inum] += 1` on a C `int`. -/
def Scan.countReference (scan : Scan) (inum : Nat) : Scan :=
  { scan with
    inodeindirent := update scan.inodeindirent inum
      (Int.bmod (scan.inodeindirent inum + 1) 4294967296) }

section Machine

variable {m : Type → Type} [Monad m] [Machine m]

def loadType (img : Image) (inum : Nat) : m Int :=
  load img (Image.inodeOffset inum) 2 (img.inodeType inum)

def loadNlink (img : Image) (inum : Nat) : m Int :=
  load img (Image.inodeOffset inum + 6) 2 (img.inodeNlink inum)

def loadSize (img : Image) (inum : Nat) : m Nat :=
  load img (Image.inodeOffset inum + 8) 4 (img.inodeSize inum)

def loadAddr (img : Image) (inum index : Nat) : m Nat :=
  load img (Image.inodeOffset inum + 12 + 4 * index) 4
    (img.inodeAddr inum index)

/-- Number of bytes of a name that `strncmp` with `.` and with `..` reads. -/
def comparedBytes : List UInt8 → Nat
  | 46 :: 46 :: _ => 3
  | 46 :: _ => 2
  | _ => 1

/-- An entry of a directory block; the name is read only if the entry is
used. -/
def loadDirent (img : Image) (blknum index : Nat) : m Dirent := do
  let entry ← load img (Image.blockOffset blknum + 16 * index) 2
    (img.blockDirent blknum index)
  if entry.inum = 0 then
    pure entry
  else
    load img (Image.blockOffset blknum + 16 * index + 2)
      (comparedBytes entry.name) entry

def loadIndirectWord (img : Image) (blknum index : Nat) : m Nat :=
  load img (Image.blockOffset blknum + 4 * index) 4
    (img.indirectWord blknum index)

def bitIsUsed (img : Image) (g : Globals) (blknum : Nat) : m Bool :=
  load img (Image.bitmapOffset g.ninodes blknum) 1
    (img.bitmapBit g.ninodes blknum)

/-- Computes the data block range and compares its end with the size. -/
def checkSize (sbsize nblocks ninodes : Nat) : m Globals :=
  let inodezie := ninodes / 8 + 1
  let bitmapsize := sbsize / 4096 + 1
  let datblkstnum := (inodezie + bitmapsize + 2) % 4294967296
  let datblkednum := (nblocks + datblkstnum) % 4294967296
  if sbsize ≠ datblkednum then
    fail .superblockError
  else
    pure { sbsize, nblocks, ninodes, datblkstnum, datblkednum }

def checkNodeType (img : Image) (inum : Nat) : m Unit := do
  let type ← loadType img inum
  if type ≠ 0 ∧ type ≠ 1 ∧ type ≠ 2 ∧ type ≠ 3 then
    fail .badInodeError
  else
    pure ()

/-- The body of the loop of `traverse_dirent`, on one entry. -/
def visitDirent (img : Image) (g : Globals) (currinodenum : Nat)
    (scan : Scan) (entry : Dirent) : m Scan :=
  if entry.inum = 0 then
    pure scan
  else if isDot entry.name then
    if entry.inum ≠ currinodenum then
      fail .badDirectoryFormatError
    else if currinodenum = 1 then do
      let _ ← access .inodeindirent g.tableLen 1 ()
      let scan := scan.countReference 1
      pure { scan with curcnt := scan.curcnt + 1 }
    else
      pure { scan with curcnt := scan.curcnt + 1 }
  else if isDotdot entry.name then do
    let _ ← access .parentdotdot g.tableLen currinodenum ()
    pure { scan with
      parentdotdot := update scan.parentdotdot currinodenum entry.inum
      parcnt := scan.parcnt + 1 }
  else do
    let _ ← access .inodeindirent g.tableLen entry.inum ()
    let scan := scan.countReference entry.inum
    let childType ← loadType img entry.inum
    if childType = 1 then do
      let _ ← access .parententry g.tableLen entry.inum ()
      pure { scan with
        parententry := update scan.parententry entry.inum
          (Int.bmod currinodenum 4294967296) }
    else
      pure scan

def traverseDirent (img : Image) (g : Globals) (blknum currinodenum : Nat)
    (scan : Scan) : m Scan :=
  (List.range 32).foldlM (fun scan index => do
    let entry ← loadDirent img blknum index
    visitDirent img g currinodenum scan entry) scan

/-- The checks shared by direct blocks, indirect blocks and the blocks named
in an indirect block; the callers differ in the messages. -/
def claimBlock (img : Image) (g : Globals) (badAddress usedOnce : Message)
    (blknum : Nat) (scan : Scan) : m Scan :=
  if blknum < g.datblkstnum ∨ blknum ≥ g.datblkednum then
    fail badAddress
  else do
    let visited ← access .blkvisited g.visitedLen blknum
      (scan.blkvisited blknum)
    if visited then
      fail usedOnce
    else do
      let used ← bitIsUsed img g blknum
      if !used then
        fail .badUsedAddressError
      else
        pure { scan with blkvisited := update scan.blkvisited blknum true }

/-- One address of a data block: zero is a hole, any other address is claimed,
counted and, in a directory, traversed. -/
def scanDataBlock (img : Image) (g : Globals) (badAddress usedOnce : Message)
    (type : Int) (currinodenum blknum : Nat) (scan : Scan) :
    m Scan :=
  if blknum = 0 then
    pure scan
  else do
    let scan ← claimBlock img g badAddress usedOnce blknum scan
    let scan := { scan with blkcnt := scan.blkcnt + 1 }
    if type = 1 then
      traverseDirent img g blknum currinodenum scan
    else
      pure scan

/-- Scans the twelve direct addresses of inode `inum`. -/
def checkDirectAddress (img : Image) (g : Globals) (inum : Nat) (type : Int)
    (currinodenum : Nat) (scan : Scan) : m Scan :=
  (List.range 12).foldlM (fun scan index => do
    let blknum ← loadAddr img inum index
    scanDataBlock img g .badDirectAddressError .badDirectAddressOnceError
      type currinodenum blknum scan) scan

/-- Claims the indirect block of inode `inum` and scans the 128 addresses in
it. -/
def checkIndirectAddress (img : Image) (g : Globals) (inum : Nat) (type : Int)
    (currinodenum : Nat) (scan : Scan) : m Scan := do
  let ndirblknum ← loadAddr img inum 12
  if ndirblknum = 0 then
    pure scan
  else do
    let scan ← claimBlock img g .badIndirectAddressError
      .badIndirectAddressOnceError ndirblknum scan
    (List.range 128).foldlM (fun scan index => do
      let blknum ← loadIndirectWord img ndirblknum index
      scanDataBlock img g .badIndirectAddressError
        .badIndirectAddressOnceError type currinodenum blknum scan) scan

/-- The size test: no block for an empty file, otherwise the last block is
needed and large enough. -/
def checkFileSize (img : Image) (inum sum : Nat) : m Unit := do
  let size ← loadSize img inum
  if sum = 0 then
    if size ≠ 0 then fail .badFileSizeError else pure ()
  else if size ≤ (sum - 1) * 512 ∨ size > sum * 512 then
    fail .badFileSizeError
  else
    pure ()

/-- One iteration of the first loop of `helper`, with callees that receive the
inode number in a type of `width` values. -/
def scanInodeWith (width : Nat) (img : Image) (g : Globals) (scan : Scan)
    (inum : Nat) : m Scan := do
  checkNodeType img inum
  let type ← loadType img inum
  if inum ≠ 0 ∧ type ≠ 0 then do
    let currinodenum := inum % width
    let scan := { scan with curcnt := 0, parcnt := 0, blkcnt := 0 }
    let scan ← checkDirectAddress img g inum type currinodenum scan
    let scan ← checkIndirectAddress img g inum type currinodenum scan
    if type = 1 ∧ (scan.curcnt ≠ 1 ∨ scan.parcnt ≠ 1) then
      fail .badDirectoryFormatError
    else do
      checkFileSize img inum scan.blkcnt
      let _ ← access .usedinode g.tableLen inum ()
      pure { scan with usedinode := update scan.usedinode inum true }
  else
    pure scan

/-- One iteration of the first loop of `helper`.  The callees receive the
inode number as a `ushort`. -/
abbrev scanInode (img : Image) (g : Globals) (scan : Scan) (inum : Nat) :
    m Scan :=
  scanInodeWith 65536 img g scan inum

/-- The first loop of `helper`. -/
def firstPassWith (width : Nat) (img : Image) (g : Globals) : m Scan :=
  (List.range g.ninodes).foldlM (scanInodeWith width img g) Scan.initial

abbrev firstPass (img : Image) (g : Globals) : m Scan :=
  firstPassWith 65536 img g

/-- One iteration of the bitmap loop of `helper`. -/
def checkBitmapBlock (img : Image) (g : Globals) (scan : Scan)
    (blknum : Nat) : m Unit := do
  let used ← bitIsUsed img g blknum
  if used then do
    let visited ← access .blkvisited g.visitedLen blknum
      (scan.blkvisited blknum)
    if !visited then fail .badBitmapMarkedUsedError else pure ()
  else
    pure ()

def bitmapPass (img : Image) (g : Globals) (scan : Scan) : m Unit :=
  forM (List.range' g.datblkstnum (g.datblkednum - g.datblkstnum))
    (checkBitmapBlock img g scan)

/-- The `while` loop that follows `..` entries from `cur` to the root, with
the local array `seen`. -/
def followDotdot (tableLen : Nat) (parentdotdot : Nat → Int) :
    Nat → (Nat → Bool) → Int → m Unit
  | 0, _, _ => Machine.stop .outOfFuel
  | fuel + 1, seen, cur =>
      if cur = 1 then
        pure ()
      else do
        let again ← access .seen tableLen cur (seen cur.toNat)
        if again then
          fail .badDirectoryError
        else do
          let next ← access .parentdotdot tableLen cur
            (parentdotdot cur.toNat)
          if next = -1 then
            fail .badDirectoryError
          else
            followDotdot tableLen parentdotdot fuel
              (update seen cur.toNat true) next

/-- The test that the two recorded parents of a directory agree; the root is
its own parent. -/
def compareParents (g : Globals) (scan : Scan) (inum : Nat) : m Unit :=
  if inum = 1 then do
    let parent ← access .parentdotdot g.tableLen inum (scan.parentdotdot inum)
    failIf (parent ≠ 1) .badParentDirectoryError
  else do
    let holder ← access .parententry g.tableLen inum (scan.parententry inum)
    failIf (holder = -1) .badParentDirectoryError
    let parent ← access .parentdotdot g.tableLen inum (scan.parentdotdot inum)
    failIf (parent ≠ holder) .badParentDirectoryError

/-- The extra checks on a directory: its recorded parents agree and its `..`
chain leads to the root. -/
def checkParent (g : Globals) (scan : Scan) (inum : Nat) : m Unit := do
  compareParents g scan inum
  followDotdot g.tableLen scan.parentdotdot (g.tableLen + 1)
    (fun _ => false) (Int.bmod inum 4294967296)

/-- The link count check on a regular file. -/
def checkNlink (img : Image) (inum : Nat) (type references : Int) :
    m Unit :=
  if type = 2 then do
    let nlink ← loadNlink img inum
    failIf (nlink ≠ references) .badReferenceCountError
  else
    pure ()

/-- One iteration of the last loop of `helper`. -/
def checkReferences (img : Image) (g : Globals) (scan : Scan) (inum : Nat) :
    m Unit := do
  let used ← access .usedinode g.tableLen inum (scan.usedinode inum)
  let references ← access .inodeindirent g.tableLen inum
    (scan.inodeindirent inum)
  failIf (used = true ∧ references = 0) .badUsedInodeNotFoundError
  failIf (used = false ∧ references ≠ 0) .badInodeReferredMarkedError
  let type ← loadType img inum
  checkNlink img inum type references
  if type = 1 then do
    failIf (references ≠ 1) .badDirectoryOnceError
    checkParent g scan inum
  else
    pure ()

def referencePass (img : Image) (g : Globals) (scan : Scan) :
    m Unit :=
  forM (List.range' 1 (g.ninodes - 1)) (checkReferences img g scan)

def helperWith (width : Nat) (img : Image) (g : Globals) : m Unit := do
  let scan ← firstPassWith width img g
  bitmapPass img g scan
  referencePass img g scan

abbrev helper (img : Image) (g : Globals) : m Unit := helperWith 65536 img g

/-- `main` from `mmap` on: mapping an empty file fails without a message. -/
def mainWith (width : Nat) (img : Image) : m Unit := do
  if img.stSize = 0 then
    Machine.stop (.exit none)
  else do
    let sbsize ← load img 512 4 img.sbSize
    let nblocks ← load img 516 4 img.sbNblocks
    let ninodes ← load img 520 4 img.sbNinodes
    let g ← checkSize sbsize nblocks ninodes
    helperWith width img g

abbrev main (img : Image) : m Unit := mainWith 65536 img

end Machine

/-- The status and the standard error of a run. -/
def report : Except Stop Unit → Outcome
  | .ok () => .exited 0 ""
  | .error (.exit none) => .exited 1 ""
  | .error (.exit (some message)) => .exited 1 message.text
  | .error _ => .undefined

/-- What running `myfsck` on an image shows: status and standard error. -/
def myfsck (img : Image) : Outcome :=
  report (main img)

end LinuxKernelDev.Fsck
