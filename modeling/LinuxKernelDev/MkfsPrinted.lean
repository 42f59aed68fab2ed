import LinuxKernelDev.LsfsText
import LinuxKernelDev.MkfsLinkCounts

/-!
# Printing the images of `mkfs`

For a tree in which no two files share a host inode number, the text that
`lsfs` prints for the image of `mkfs` is known down to the last byte.  Every
file has the link count 1, every directory 2 plus the number of directories
in it, and the inode table is too small for a path that would not fit into the
buffer of `walk_dirblock`.
-/

namespace LinuxKernelDev.Mkfs

open Lsfs LinkedChunks LoopRules Fsck FormattedText

namespace HostDir

/-- Number of directories in a host directory. -/
def directories : HostDir → Nat
  | .nil => 0
  | .file _ _ _ _ _ rest => rest.directories
  | .dir _ _ rest => rest.directories + 1

/-- The path of an entry, whose name is cut to 14 bytes. -/
def path (above : List UInt8) (name : HostName) : List UInt8 :=
  above ++ chars ['/'] ++ name.bytes.take 14

/-- The lines for a host directory below a path. -/
def text : List UInt8 → HostDir → List UInt8
  | _, .nil => []
  | above, .file name _ _ contents _ rest =>
      fileLine (path above name) contents.length 1 ++ rest.text above
  | above, .dir name children rest =>
      directoryHead (path above name) (2 + children.directories) ++
        children.text (path above name) ++ rest.text above

theorem length_path (above : List UInt8) (name : HostName) :
    (path above name).length ≤ above.length + 15 := by
  simp only [path, List.length_append, length_chars, List.length_take,
    List.length_singleton]
  omega

theorem height_le (curDir : HostDir) :
    curDir.height ≤ curDir.subdirs.length := by
  induction curDir with
  | nil => exact Nat.le_refl 0
  | file name stIno stNlink contents chunk rest ih => exact ih
  | dir name children rest childrenIh restIh =>
      simp only [height, subdirs, List.length_append, List.length_cons]
      omega

end HostDir

namespace FileSystem

/-- Every file has one link, and the hard link map holds the host inode
numbers of files that were added. -/
structure Unshared (fs : FileSystem) (past : List UInt32) : Prop where
  single : ∀ inum, fs.IsFile inum → (fs.inodes inum).nlink = 1
  known : ∀ curr ∈ fs.process.links.used,
    (fs.process.links.cell curr).value.hostINode ∈ past

section Steps

variable {fs next : FileSystem} {past : List UInt32} {stack : List Nat}
  {curInode : Nat}

/-- Files keep their one link if new files have one link and no link is
added. -/
theorem Unshared.extend (unshared : fs.Unshared past)
    (grown : fs.Extends next) {present : List UInt32}
    (old : ∀ inum, fs.IsFile inum →
      (next.inodes inum).nlink = (fs.inodes inum).nlink)
    (new : ∀ inum, next.IsFile inum → fs.freeinode ≤ inum →
      (next.inodes inum).nlink = 1)
    (known : ∀ curr ∈ next.process.links.used,
      (next.process.links.cell curr).value.hostINode ∈ present) :
    next.Unshared present where
  single inum file := by
    by_cases below : inum < fs.freeinode
    · have before : fs.IsFile inum :=
        ⟨file.1, below, (grown.inodes inum below).type ▸ file.2.2⟩
      rw [old inum before, unshared.single inum before]
    · exact new inum file (Nat.le_of_not_lt below)
  known := known

theorem Unshared.openFile (unshared : fs.Unshared past) :
    fs.openFile.Unshared past := by
  refine unshared.extend (Extends.refl fs).openFile
    (fun inum _ => by rw [openFile_inodes]) (fun inum file above => ?_) ?_
  · rw [← @openFile_freeinode fs] at above
    exact absurd file.2.1 (Nat.not_lt.mpr above)
  · rw [openFile_links]
    exact unshared.known

/-- A file that is new gets one link. -/
theorem Unshared.addFile (unshared : fs.Unshared past) (curInode : Nat)
    (name : HostName) (stIno stNlink : UInt64) (contents : List UInt8)
    (chunk : Option Chunk) (unknown : 0 < stNlink → stIno.toUInt32 ∉ past) :
    (fs.addFile curInode name stIno stNlink contents chunk).Unshared
      ((if 0 < stNlink then [stIno.toUInt32] else []) ++ past) := by
  have grown := (Extends.refl fs).addFile curInode name stIno stNlink contents
    chunk
  obtain ⟨base, inodes, freeinode, links, added⟩ := @addFile_absent fs curInode
    name stIno stNlink contents chunk fun linked last curr found => by
      obtain ⟨present, number⟩ := Chunks.mem_used_of_search found
      exact unknown linked
        (of_decide_eq_true number ▸ unshared.known curr present)
  rw [added] at grown ⊢
  refine unshared.extend grown (fun inum file => ?_)
    (fun inum file above => ?_) fun curr member => ?_
  · have different : inum ≠ fs.freeinode := file.2.1.ne
    rw [nlink_enter]
    simp [closeFile, setDescriptors, modify, inodes, create, different]
  · have below : inum < base.freeinode := file.2.1
    obtain rfl : inum = fs.freeinode := by omega
    rw [nlink_enter]
    simp [closeFile, setDescriptors, modify, inodes, create, Inode.append,
      Inode.fresh]
  · rcases links curr member with ⟨linked, new⟩ | ⟨old, same⟩
    · rw [if_pos linked]
      exact List.mem_cons.mpr (.inl new)
    · refine List.mem_append_right _ ?_
      exact (congrArg HardLinkMapNode.hostINode same).symm ▸
        unshared.known curr old

/-- A new directory links its parent, which is no file. -/
theorem Unshared.openDirectory (unshared : fs.Unshared past)
    (current : fs.IsDirectory curInode) :
    ((fs.create (.directory [])).addDirHead fs.freeinode curInode).Unshared
      past := by
  refine unshared.extend (((Extends.refl fs).create _).addDirHead _ _)
    (fun inum file => ?_) (fun inum file above => ?_) ?_
  · have notCurrent : inum ≠ curInode := fun same =>
      file.not_isDirectory (same ▸ current)
    rw [inodes_open current.2.1, if_neg file.2.1.ne, if_neg notCurrent]
  · have below := file.2.1
    rw [freeinode_open] at below
    obtain rfl : inum = fs.freeinode := by omega
    have type := file.2.2
    rw [inodes_open current.2.1, if_pos rfl] at type
    cases type
  · rw [links_addDirHead]
    exact unshared.known

theorem Unshared.close (unshared : fs.Unshared past) (inum curInode : Nat)
    (entry : Dirent) :
    ((fs.modify inum Inode.fixSize).closeFile.enter curInode entry).Unshared
      past := by
  refine unshared.extend
    (((Extends.refl fs).modify _ Inode.Grows.fixSize).closeFile.enter _ _)
    (fun other _ => ?_) (fun other file above => ?_) unshared.known
  · rw [nlink_enter]
    exact @nlink_modify fs Inode.fixSize (fun _ => rfl) inum other
  · exact absurd file.2.1 (Nat.not_lt.mpr above)

theorem Unshared.mono (unshared : fs.Unshared past) {present : List UInt32}
    (sub : past ⊆ present) : fs.Unshared present :=
  ⟨unshared.single, fun node member => sub (unshared.known node member)⟩

theorem Unshared.addEntries (unshared : fs.Unshared past)
    (shape : fs.Shape (curInode :: stack)) (curDir : HostDir)
    (distinct : (curDir.linked.map Prod.fst ++ past).Nodup) :
    (fs.addEntries curInode curDir).Unshared
      (curDir.linked.map Prod.fst ++ past) := by
  induction curDir generalizing fs curInode stack past with
  | nil => exact unshared
  | file name stIno stNlink contents chunk rest ih =>
      have hosts : (HostDir.file name stIno stNlink contents chunk
          rest).linked.map Prod.fst =
            (if 0 < stNlink then [stIno.toUInt32] else []) ++
              rest.linked.map Prod.fst := by
        rw [HostDir.linked, List.map_append]
        split_ifs <;> rfl
      rw [hosts, List.append_assoc] at distinct ⊢
      have swap := List.perm_append_comm_assoc (rest.linked.map Prod.fst)
        (if 0 < stNlink then [stIno.toUInt32] else []) past
      have added := unshared.addFile curInode name stIno stNlink contents chunk
        fun linked member => by
          rw [if_pos linked, List.singleton_append,
            List.nodup_cons] at distinct
          exact distinct.1 (List.mem_append_right _ member)
      exact (ih added (shape.addFile name stIno stNlink contents chunk)
        (swap.nodup_iff.mpr distinct)).mono swap.subset
  | dir name children rest childrenIh restIh =>
      rw [HostDir.linked, List.map_append, List.append_assoc] at distinct ⊢
      have swap := List.perm_append_comm_assoc (rest.linked.map Prod.fst)
        (children.linked.map Prod.fst) past
      have shape := shape.openFile
      have opened := unshared.openFile.openDirectory
        (shape.opened curInode List.mem_cons_self)
      have apart : (children.linked.map Prod.fst ++ past).Nodup :=
        distinct.sublist ((List.Sublist.refl _).append
          (List.sublist_append_right _ _))
      have filled := childrenIh opened shape.openDirectory apart
      have closed := filled.close fs.openFile.freeinode curInode
        ⟨fs.openFile.freeinode, name.field⟩
      exact (restIh closed (shape.closeFilled
        (shape.openDirectory.addEntries children) name).closeFile
        (swap.nodup_iff.mpr distinct)).mono swap.subset

end Steps

/-- All files of a tree without shared inode numbers have one link. -/
theorem unshared_build {descriptors : Nat} {fileTreeRoot : HostDir}
    (distinct : (fileTreeRoot.linked.map Prod.fst).Nodup) {inum : Nat}
    (file : (build descriptors fileTreeRoot).IsFile inum) :
    ((build descriptors fileTreeRoot).inodes inum).nlink = 1 := by
  have root : (((initial descriptors).create (.directory [])).addDirHead 1
      1).Unshared [] := by
    refine ⟨fun inum file => ?_, fun node member => by cases member⟩
    have only : inum < 2 := file.2.1
    have positive := file.1
    obtain rfl : inum = 1 := by omega
    cases file.2.2
  have filled := root.addEntries (shape_root descriptors) fileTreeRoot
    (by rwa [List.append_nil])
  have closed := filled.extend
    ((Extends.refl _).modify 1 Inode.Grows.fixSize)
    (fun other _ => @nlink_modify _ Inode.fixSize (fun _ => rfl) 1 other)
    (fun other file above => absurd file.2.1 (Nat.not_lt.mpr above))
    filled.known
  exact closed.single inum file

/-- The entries that mirror a host directory name as many directories. -/
theorem Mirrors.directories {fs : FileSystem}
    {same : List UInt8 → List UInt8 → Prop} {entries : List Dirent}
    {curDir : HostDir} (mirrors : fs.Mirrors same entries curDir) :
    ((entries.map Dirent.inum).filter fun child =>
      decide ((fs.inodes child).body.type = 1)).length =
        curDir.directories := by
  induction curDir generalizing entries with
  | nil => rw [show entries = [] from mirrors]; rfl
  | file name stIno stNlink contents chunk rest ih =>
      obtain ⟨entry, others, rfl, -, file, -, tail⟩ := mirrors
      have type := file.2.2
      rw [List.map_cons, List.filter_cons_of_neg (by rw [type]; decide)]
      exact ih tail
  | dir name children rest _ ih =>
      obtain ⟨entry, others, rfl, -, directory, -, tail⟩ := mirrors
      have type := directory.2.2
      rw [List.map_cons, List.filter_cons_of_pos (by rw [type]; decide),
        List.length_cons, ih tail, HostDir.directories]

end FileSystem

namespace Carries

variable {img : Image} {fs : FileSystem} {layout : Nat → Layout} {inum : Nat}

variable (carries : Carries img fs layout) (shape : fs.Shape [])
  (table : fs.freeinode ≤ 208) (counts : fs.LinkCounts)

include carries shape table counts

theorem inodeNlink_directory (directory : fs.IsDirectory inum)
    {curDir : HostDir} (mirrors : fs.Mirrors Eq (fs.children inum) curDir) :
    img.inodeNlink inum = 2 + curDir.directories := by
  have small := (shape.directories inum directory).nlink
  rw [carries.inodeNlink_eq directory.1 directory.2.1 (by omega),
    counts inum directory, ← (shape.names_perm_subdirs directory).length_eq,
    FileSystem.names, mirrors.directories]
  rfl

/-- The entries that mirror a host directory are printed as its lines, as long
as the paths fit. -/
theorem text_of_mirrors
    (single : ∀ inum, fs.IsFile inum → (fs.inodes inum).nlink = 1)
    {fuel : Nat} {entries : List Dirent} {curDir : HostDir}
    {listing : Listing} {above : List UInt8}
    (short : above.length + 15 * (curDir.height + 1) ≤ 4095)
    (children : ∀ entry ∈ entries, fs.ChildOk entry)
    (mirrors : fs.Mirrors Eq entries curDir)
    (listed : listAll (walkDirent img (lsDir img fuel)) entries =
      .ok listing) :
    listing.text img above = curDir.text above := by
  have fits : ∀ {above : List UInt8} {entry : Dirent} {name : HostName},
      above.length + 15 ≤ 4095 → entry.name = name.field →
        childpath above entry.text = HostDir.path above name := by
    intro above entry name room nameEq
    rw [text_field nameEq]
    refine childpath_of_short ?_
    rw [List.length_take]
    omega
  induction curDir generalizing fuel entries listing above with
  | nil =>
      obtain rfl : entries = [] := mirrors
      cases listed
      rfl
  | file name stIno stNlink contents chunk rest ih =>
      obtain ⟨entry, others, rfl, nameEq, file, data, tail⟩ := mirrors
      obtain ⟨first, behind, taken, restListed, rfl⟩ :=
        listAll_cons_eq_ok_iff.mp listed
      have type : img.inodeType entry.inum = 2 := by
        rw [carries.inodeType_eq file.1 file.2.1, file.2.2]
        rfl
      have size : img.inodeSize entry.inum = contents.length := by
        rw [carries.inodeSize_eq file.1 file.2.1,
          (shape.files entry.inum file).size, data]
      have nlink : img.inodeNlink entry.inum = 1 := by
        have one := single entry.inum file
        rw [carries.inodeNlink_eq file.1 file.2.1 (by omega), one]
        rfl
      rw [walkDirent_of_isChild (children entry List.mem_cons_self).isChild.1]
        at taken
      simp only [loadType, loadSize, loadNlink, type, load_bind_eq_ok_iff,
        Int.reduceEq, if_false, if_true] at taken
      obtain ⟨-, -, -, ⟨⟩⟩ := taken
      have later := ih short (fun other member => children other
        (List.mem_cons_of_mem _ member)) tail restListed
      rw [Listing.text_append, Listing.text, Listing.text, List.append_nil,
        HostDir.text, later, size, nlink,
        fits (by rw [HostDir.height] at short; omega) nameEq]
  | dir name inner rest innerIh restIh =>
      obtain ⟨entry, others, rfl, nameEq, directory, below, tail⟩ := mirrors
      obtain ⟨first, behind, taken, restListed, rfl⟩ :=
        listAll_cons_eq_ok_iff.mp listed
      rw [HostDir.height] at short
      have type : img.inodeType entry.inum = 1 := by
        rw [carries.inodeType_eq directory.1 directory.2.1, directory.2.2]
        rfl
      rw [walkDirent_of_isChild (children entry List.mem_cons_self).isChild.1]
        at taken
      simp only [loadType, type, load_bind_eq_ok_iff, if_true] at taken
      obtain ⟨nested, called, ⟨⟩⟩ := bind_eq_ok_iff.mp taken.2
      cases fuel with
      | zero => cases called
      | succ fuel =>
          have nestedListed :=
            (carries.lsDir_eq_ok_iff shape table directory).mp called
          have longer := HostDir.length_path above name
          have innerRoom : (HostDir.path above name).length +
              15 * (inner.height + 1) ≤ 4095 := by omega
          have restRoom : above.length + 15 * (rest.height + 1) ≤ 4095 := by
            omega
          have innerText := innerIh innerRoom
            (shape.directories entry.inum directory).children below
            nestedListed
          have later := restIh restRoom (fun other member => children other
            (List.mem_cons_of_mem _ member)) tail restListed
          rw [Listing.text_append, Listing.text, Listing.text,
            List.append_nil, HostDir.text, later, fits (by omega) nameEq,
            innerText, carries.inodeNlink_directory shape table counts
              directory below]

end Carries

theorem coherent_of_nodup {fileTreeRoot : HostDir}
    (distinct : (fileTreeRoot.linked.map Prod.fst).Nodup) :
    FileSystem.Coherent Eq fileTreeRoot := by
  intro first firstMem second secondMem same
  rw [List.inj_on_of_nodup_map distinct firstMem secondMem same]

/-- The text that `lsfs` prints for a host tree, in an image of the name. -/
def printed (name : List UInt8) (fileTreeRoot : HostDir) : List UInt8 :=
  imageHead name 1024 995 200 ++
    (directoryHead [] (2 + fileTreeRoot.directories) ++ fileTreeRoot.text [])

/-- For a tree whose files have distinct inode numbers, `lsfs` prints the tree
from the image of `mkfs`. -/
theorem main_printed {descriptors : Nat} {fileTreeRoot : HostDir}
    {final : State} (done : written descriptors fileTreeRoot = some final)
    (table : final.freeinode ≤ 208)
    (distinct : (fileTreeRoot.linked.map Prod.fst).Nodup)
    (name : List UInt8) :
    ∃ depth, ∀ fuel, depth ≤ fuel →
      Lsfs.main name final.disk fuel = .ok (printed name fileTreeRoot) := by
  have shape := FileSystem.shape_build descriptors fileTreeRoot
  have counts := FileSystem.linkCounts_build descriptors fileTreeRoot
  obtain ⟨layout, carries⟩ := exists_carries_of_written done table
  rw [(agrees_written done).freeinode] at table
  have mirrors := FileSystem.mirrors_build (fun _ => rfl) descriptors
    (coherent_of_nodup distinct)
  have children := (shape.directories 1 shape.root).children
  obtain ⟨listing, listed, -⟩ := carries.exists_shows shape table
    (Nat.le_refl fileTreeRoot.height) children mirrors
  have room : ([] : List UInt8).length + 15 * (fileTreeRoot.height + 1) ≤
      4095 := by
    have inodes := (FileSystem.freeinode_build descriptors fileTreeRoot).1
    have nested := fileTreeRoot.height_le
    rw [List.length_nil]
    omega
  have text := carries.text_of_mirrors shape table counts
    (fun _ => FileSystem.unshared_build distinct) room children mirrors listed
  have called := (carries.lsDir_eq_ok_iff shape table shape.root).mpr listed
  have type : final.disk.inodeType 1 = 1 := by
    rw [carries.inodeType_eq shape.root.1 shape.root.2.1, shape.root.2.2]
    rfl
  have mapped : ∀ offset, offset + 4 ≤ 524288 → final.disk.Maps offset 4 :=
    fun offset inside => carries.maps_iff.mpr inside
  have nonempty : final.disk.stSize ≠ 0 := by
    rw [carries.whole]
    decide
  refine ⟨fileTreeRoot.height + 1, fun fuel enough => ?_⟩
  have root : printDir final.disk fuel 1 [] = .ok (directoryHead []
      (2 + fileTreeRoot.directories) ++ fileTreeRoot.text []) := by
    rw [printDir_eq, lsDir_of_le enough called, map_ok, callText, if_pos type,
      text, carries.inodeNlink_directory shape table counts shape.root mirrors]
  rw [Lsfs.main, if_neg nonempty]
  simp only [load_bind_eq_ok_iff]
  refine ⟨mapped 512 (by decide), mapped 516 (by decide),
    mapped 520 (by decide), ?_⟩
  rw [root, carries.sbSize, carries.sbNblocks, carries.sbNinodes]
  rfl

/-- A file in a directory, and an empty file. -/
def nestedPair : HostDir :=
  .dir (byteName 49)
    (.file (byteName 50) 5 1 [104, 105] (some (Chunk.placed 64 none)) .nil)
    (.file (byteName 51) 6 1 [] (some (Chunk.placed 96 none)) .nil)

theorem main_printed_nestedPair :
    ∃ final, written 2 nestedPair = some final ∧
      ∃ depth, ∀ fuel, depth ≤ fuel →
        Lsfs.main [120] final.disk fuel = .ok (chars ("= x\n" ++
          "size=1024 blocks  nblocks=995  ninodes=200\n\n" ++
          "\n- / [nlink=3]\n" ++ "\n- /a/ [nlink=2]\n" ++
          "/a/b  [file, 2 bytes, nlink=1]\n" ++
          "/c  [file, 0 bytes, nlink=1]\n").toList) := by
  have five : (written 2 nestedPair).map State.freeinode = some 5 := by
    decide +kernel
  obtain ⟨final, done, freeinode⟩ := Option.map_eq_some_iff.mp five
  have text : printed [120] nestedPair =
      chars ("= x\n" ++ "size=1024 blocks  nblocks=995  ninodes=200\n\n" ++
        "\n- / [nlink=3]\n" ++ "\n- /a/ [nlink=2]\n" ++
        "/a/b  [file, 2 bytes, nlink=1]\n" ++
        "/c  [file, 0 bytes, nlink=1]\n").toList := by
    decide +kernel
  rw [← text]
  exact ⟨final, done,
    main_printed done (by rw [freeinode]; decide) (by decide) [120]⟩

end LinuxKernelDev.Mkfs
