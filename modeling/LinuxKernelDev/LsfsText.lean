import LinuxKernelDev.FormattedText
import LinuxKernelDev.MkfsListing

/-!
# What `lsfs` prints

The functions of `lsfs.c` with the paths that they build and the lines that
they print.  A path is kept in a buffer of 4096 bytes, so a longer one is cut.
The text of a run is the one that the lines of its listing have, in order, the
head of each directory before its entries.
-/

namespace LinuxKernelDev.Lsfs

open Fsck FormattedText LoopRules

section Lines

/-- `snprintf(childpath, sizeof(childpath), ...)`: the path of an entry. -/
def childpath (path name : List UInt8) : List UInt8 :=
  if path = [] then
    (chars ['/'] ++ name).take 4095
  else
    (path ++ chars ['/'] ++ name).take 4095

/-- A path that fits is not cut. -/
theorem childpath_of_short {path name : List UInt8}
    (short : path.length + 1 + name.length ≤ 4095) :
    childpath path name = path ++ chars ['/'] ++ name := by
  unfold childpath
  split_ifs with top
  · rw [top, List.nil_append]
    exact List.take_of_length_le (by simp; omega)
  · exact List.take_of_length_le (by simp; omega)

/-- `"\n- %s/ [nlink=%d]\n"`. -/
def directoryHead (path : List UInt8) (nlink : Int) : List UInt8 :=
  chars "\n- ".toList ++ path ++ chars "/ [nlink=".toList ++
    signedDecimal nlink ++ chars "]\n".toList

/-- `"%s  [file, %u bytes, nlink=%d]\n"`. -/
def fileLine (path : List UInt8) (size : Nat) (nlink : Int) : List UInt8 :=
  path ++ chars "  [file, ".toList ++ decimal size ++
    chars " bytes, nlink=".toList ++ signedDecimal nlink ++
      chars "]\n".toList

/-- `"%s  [device %d:%d]\n"`. -/
def deviceLine (path : List UInt8) (major minor : Int) : List UInt8 :=
  path ++ chars "  [device ".toList ++ signedDecimal major ++
    chars [':'] ++ signedDecimal minor ++ chars "]\n".toList

/-- `"= %s\n"` and `"size=%u blocks  nblocks=%u  ninodes=%u\n\n"`. -/
def imageHead (name : List UInt8) (size nblocks ninodes : Nat) :
    List UInt8 :=
  chars "= ".toList ++ name ++ chars "\nsize=".toList ++ decimal size ++
    chars " blocks  nblocks=".toList ++ decimal nblocks ++
      chars "  ninodes=".toList ++ decimal ninodes ++ chars "\n\n".toList

end Lines

section Printing

def deviceMajor (img : Image) (inum : Nat) : Int :=
  int16 (img.word16 (Image.inodeOffset inum + 2))

def deviceMinor (img : Image) (inum : Nat) : Int :=
  int16 (img.word16 (Image.inodeOffset inum + 4))

/-- A loop in which every turn prints something. -/
def printAll {α : Type} (turn : α → Except Stop (List UInt8)) :
    List α → Except Stop (List UInt8)
  | [] => .ok []
  | item :: items => do
      let first ← turn item
      let rest ← printAll turn items
      .ok (first ++ rest)

/-- The body of the loop of `walk_dirblock`. -/
def printDirent (img : Image)
    (lsDir : Nat → List UInt8 → Except Stop (List UInt8))
    (path : List UInt8) (entry : Dirent) : Except Stop (List UInt8) :=
  if entry.inum = 0 then
    .ok []
  else if isDot entry.name || isDotdot entry.name then
    .ok []
  else do
    let type ← loadType img entry.inum
    if type = 1 then
      lsDir entry.inum (childpath path entry.text)
    else if type = 2 then do
      let size ← loadSize img entry.inum
      let nlink ← loadNlink img entry.inum
      .ok (fileLine (childpath path entry.text) size nlink)
    else if type = 3 then do
      let major ← load img (Image.inodeOffset entry.inum + 2) 2
        (deviceMajor img entry.inum)
      let minor ← load img (Image.inodeOffset entry.inum + 4) 2
        (deviceMinor img entry.inum)
      .ok (deviceLine (childpath path entry.text) major minor)
    else
      .ok []

def printDirblock (img : Image)
    (lsDir : Nat → List UInt8 → Except Stop (List UInt8)) (blkno : Nat)
    (path : List UInt8) : Except Stop (List UInt8) :=
  printAll (fun index => do
    let entry ← load img (blkptr blkno + 16 * index) 16
      (img.direntAt (blkptr blkno + 16 * index))
    printDirent img lsDir path entry) (List.range 32)

/-- The loop over block addresses. -/
def printAddresses (img : Image)
    (lsDir : Nat → List UInt8 → Except Stop (List UInt8))
    (address : Nat → Except Stop Nat) (count : Nat) (path : List UInt8) :
    Except Stop (List UInt8) :=
  printAll (fun index => do
    let blkno ← address index
    if blkno = 0 then .ok [] else printDirblock img lsDir blkno path)
    (List.range count)

/-- `ls_dir` with its path, and the depth of the recursion as fuel. -/
def printDir (img : Image) :
    Nat → Nat → List UInt8 → Except Stop (List UInt8)
  | 0, _, _ => .error .outOfFuel
  | fuel + 1, inum, path => do
      let type ← loadType img inum
      if type ≠ 1 then
        .ok []
      else do
        let nlink ← loadNlink img inum
        let direct ← printAddresses img (printDir img fuel)
          (loadAddr img inum) 12 path
        let indirect ← loadAddr img inum 12
        if indirect = 0 then
          .ok (directoryHead path nlink ++ direct)
        else do
          let rest ← printAddresses img (printDir img fuel) (fun index =>
            load img (blkptr indirect + 4 * index) 4
              (img.word32 (blkptr indirect + 4 * index))) 128 path
          .ok (directoryHead path nlink ++ direct ++ rest)

/-- `main` from `mmap` on, with the name of the image file.  Mapping an empty
file fails, and nothing is printed on the standard output. -/
def main (name : List UInt8) (img : Image) (fuel : Nat) :
    Except Stop (List UInt8) :=
  if img.stSize = 0 then
    .error (.exit none)
  else do
    let size ← load img 512 4 img.sbSize
    let nblocks ← load img 516 4 img.sbNblocks
    let ninodes ← load img 520 4 img.sbNinodes
    let text ← printDir img fuel 1 []
    .ok (imageHead name size nblocks ninodes ++ text)

end Printing

/-- The text of a listing below a path. -/
def Listing.text (img : Image) : List UInt8 → Listing → List UInt8
  | _, .nil => []
  | path, .directory entry children rest =>
      directoryHead (childpath path entry.text) (img.inodeNlink entry.inum) ++
        children.text img (childpath path entry.text) ++ rest.text img path
  | path, .file entry rest =>
      fileLine (childpath path entry.text) (img.inodeSize entry.inum)
        (img.inodeNlink entry.inum) ++ rest.text img path
  | path, .device entry rest =>
      deviceLine (childpath path entry.text) (deviceMajor img entry.inum)
        (deviceMinor img entry.inum) ++ rest.text img path

/-- The text of a call of `ls_dir`. -/
def callText (img : Image) (inum : Nat) (path : List UInt8)
    (listing : Listing) : List UInt8 :=
  if img.inodeType inum = 1 then
    directoryHead path (img.inodeNlink inum) ++ listing.text img path
  else
    []

section Refinement

variable {img : Image} {path : List UInt8}

@[simp]
theorem Listing.text_append (first second : Listing) :
    (first.append second).text img path =
      first.text img path ++ second.text img path := by
  induction first generalizing path with
  | nil => rfl
  | directory entry children rest _ ih =>
      simp only [append, text, ih, List.append_assoc]
  | file entry rest ih => simp only [append, text, ih, List.append_assoc]
  | device entry rest ih => simp only [append, text, ih, List.append_assoc]

theorem map_bind {α β γ : Type} (first : Except Stop α)
    (next : α → Except Stop β) (change : β → γ) :
    (first >>= next).map change =
      (first >>= fun value => (next value).map change) := by
  cases first <;> rfl

theorem bind_map {α β γ : Type} (first : Except Stop α) (change : α → β)
    (next : β → Except Stop γ) :
    (first.map change >>= next) =
      (first >>= fun value => next (change value)) := by
  cases first <;> rfl

theorem map_ok {α β : Type} (change : α → β) (value : α) :
    (Except.ok value : Except Stop α).map change = .ok (change value) :=
  rfl

/-- A loop prints the lines that it lists. -/
theorem printAll_eq {α : Type} {print : α → Except Stop (List UInt8)}
    {turn : α → Except Stop Listing} {items : List α}
    (each : ∀ item ∈ items,
      print item = (turn item).map (Listing.text img path)) :
    printAll print items =
      (listAll turn items).map (Listing.text img path) := by
  induction items with
  | nil => rfl
  | cons item items ih =>
      have later := ih fun other member =>
        each other (List.mem_cons_of_mem _ member)
      rw [printAll, listAll, each item List.mem_cons_self, later]
      cases turn item with
      | error stop => rfl
      | ok first =>
          cases listAll turn items with
          | error stop => rfl
          | ok rest => exact congrArg Except.ok (Listing.text_append ..).symm

variable {print : Nat → List UInt8 → Except Stop (List UInt8)}
  {ls : Nat → Except Stop Listing}

theorem printDirent_eq (entry : Dirent)
    (calls : ∀ inum path,
      print inum path = (ls inum).map (callText img inum path)) :
    printDirent img print path entry =
      (walkDirent img ls entry).map (Listing.text img path) := by
  unfold printDirent walkDirent
  split_ifs
  · rfl
  · rfl
  · rw [map_bind]
    refine bind_congr_of_ok fun type loaded => ?_
    obtain ⟨-, rfl⟩ := load_eq_ok_iff.mp loaded
    split_ifs with directory file device
    · rw [calls, map_bind]
      cases ls entry.inum with
      | error stop => rfl
      | ok children =>
          refine congrArg Except.ok ?_
          rw [callText, if_pos directory, Listing.text, Listing.text,
            List.append_nil]
    · simp only [map_bind, map_ok, Listing.text, List.append_nil]
      refine bind_congr_of_ok fun size sizeLoaded =>
        bind_congr_of_ok fun nlink nlinkLoaded => ?_
      obtain ⟨-, rfl⟩ := load_eq_ok_iff.mp sizeLoaded
      obtain ⟨-, rfl⟩ := load_eq_ok_iff.mp nlinkLoaded
      rfl
    · simp only [load_eq]
      split_ifs <;> simp [bind, Except.bind, Except.map, Listing.text]
    · rfl

theorem printAddresses_eq {address : Nat → Except Stop Nat} {count : Nat}
    (calls : ∀ inum path,
      print inum path = (ls inum).map (callText img inum path)) :
    printAddresses img print address count path =
      (walkAddresses img ls address count).map (Listing.text img path) := by
  refine printAll_eq fun index _ => ?_
  rw [map_bind]
  refine bind_congr_of_ok fun blkno _ => ?_
  split_ifs
  · rfl
  · refine printAll_eq fun slot _ => ?_
    rw [map_bind]
    exact bind_congr_of_ok fun entry _ => printDirent_eq entry calls

/-- A call prints the head of its directory and what it lists. -/
theorem printDir_eq (img : Image) (fuel inum : Nat) (path : List UInt8) :
    printDir img fuel inum path =
      (lsDir img fuel inum).map (callText img inum path) := by
  induction fuel generalizing inum path with
  | zero => rfl
  | succ fuel ih =>
      rw [printDir, lsDir, map_bind]
      refine bind_congr_of_ok fun type loaded => ?_
      obtain ⟨-, rfl⟩ := load_eq_ok_iff.mp loaded
      by_cases directory : img.inodeType inum = 1
      · rw [if_neg (not_not.mpr directory), if_neg (not_not.mpr directory),
          map_bind]
        refine bind_congr_of_ok fun nlink nlinkLoaded => ?_
        obtain ⟨-, rfl⟩ := load_eq_ok_iff.mp nlinkLoaded
        rw [printAddresses_eq ih, map_bind, bind_map]
        refine bind_congr_of_ok fun direct _ => ?_
        rw [map_bind]
        refine bind_congr_of_ok fun indirect _ => ?_
        split_ifs with hole
        · rw [map_ok, callText, if_pos directory]
        · rw [printAddresses_eq ih, map_bind, bind_map]
          refine bind_congr_of_ok fun rest _ => ?_
          rw [map_ok, callText, if_pos directory, Listing.text_append,
            List.append_assoc]
      · rw [if_pos directory, if_pos directory, map_ok, callText,
          if_neg directory]

end Refinement

end LinuxKernelDev.Lsfs
