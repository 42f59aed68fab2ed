import LinuxKernelDev.FsckChecker

/-!
# Listing an image

This file models `lsfs.c`, which lists the directories of an image, starting at
the root.  The mutual recursion of `ls_dir` and `walk_dirblock` has neither a
depth limit nor a set of visited directories, so its model takes the depth of
the recursion as fuel.

The result of a call is the listing of a directory: one node for each line that
is printed, in order, with the listing of a subdirectory below its node.  The
texts of the lines are left out.
-/

namespace LinuxKernelDev.Lsfs

open Fsck

/-- Offset of a block: `(size_t)bn * BSIZE`. -/
def blkptr (bn : Nat) : Nat := bn * 512 % 18446744073709551616

/-- What is listed for a directory. -/
inductive Listing where
  | nil
  | directory (entry : Dirent) (children rest : Listing)
  | file (entry : Dirent) (rest : Listing)
  | device (entry : Dirent) (rest : Listing)
  deriving DecidableEq

namespace Listing

def append : Listing → Listing → Listing
  | .nil, second => second
  | .directory entry children rest, second =>
      .directory entry children (rest.append second)
  | .file entry rest, second => .file entry (rest.append second)
  | .device entry rest, second => .device entry (rest.append second)

end Listing

/-- A loop in which every turn lists something. -/
def listAll {α : Type} (turn : α → Except Stop Listing) :
    List α → Except Stop Listing
  | [] => .ok .nil
  | item :: items => do
      let first ← turn item
      let rest ← listAll turn items
      .ok (first.append rest)

/-- The body of the loop of `walk_dirblock`, on one entry. -/
def walkDirent (img : Image) (lsDir : Nat → Except Stop Listing)
    (entry : Dirent) : Except Stop Listing :=
  if entry.inum = 0 then
    .ok .nil
  else if isDot entry.name || isDotdot entry.name then
    .ok .nil
  else do
    let type ← loadType img entry.inum
    if type = 1 then do
      let children ← lsDir entry.inum
      .ok (.directory entry children .nil)
    else if type = 2 then do
      let _ ← loadSize img entry.inum
      let _ ← loadNlink img entry.inum
      .ok (.file entry .nil)
    else if type = 3 then do
      let _ ← load img (Image.inodeOffset entry.inum + 2) 2 ()
      let _ ← load img (Image.inodeOffset entry.inum + 4) 2 ()
      .ok (.device entry .nil)
    else
      .ok .nil

def walkDirblock (img : Image) (lsDir : Nat → Except Stop Listing)
    (blkno : Nat) : Except Stop Listing :=
  listAll (fun index => do
    let entry ← load img (blkptr blkno + 16 * index) 16
      (img.direntAt (blkptr blkno + 16 * index))
    walkDirent img lsDir entry) (List.range 32)

/-- A loop over block addresses, which skips holes. -/
def walkAddresses (img : Image) (lsDir : Nat → Except Stop Listing)
    (address : Nat → Except Stop Nat) (count : Nat) : Except Stop Listing :=
  listAll (fun index => do
    let blkno ← address index
    if blkno = 0 then .ok .nil else walkDirblock img lsDir blkno)
    (List.range count)

def lsDir (img : Image) : Nat → Nat → Except Stop Listing
  | 0, _ => .error .outOfFuel
  | fuel + 1, inum => do
      let type ← loadType img inum
      if type ≠ 1 then
        .ok .nil
      else do
        let _ ← loadNlink img inum
        let direct ← walkAddresses img (lsDir img fuel) (loadAddr img inum) 12
        let indirect ← loadAddr img inum 12
        if indirect = 0 then
          .ok direct
        else do
          let rest ← walkAddresses img (lsDir img fuel) (fun index =>
            load img (blkptr indirect + 4 * index) 4
              (img.word32 (blkptr indirect + 4 * index))) 128
          .ok (direct.append rest)

end LinuxKernelDev.Lsfs
