import LinuxKernelDev.LsfsSemantics
import LinuxKernelDev.MkfsConsistency
import LinuxKernelDev.MkfsInodeDemand

/-!
# Listing the images of `mkfs`

Walking an image that `mkfs` has written gives the host tree back: the entries
of each directory in order, under their names as far as these fit, with the
contents of every file.  The hard link map may lose its nodes, so that a file
is copied again for a later link.  The walk still shows the same tree, but the
copies need room, and the image of a tree that would fit may not be completed.
-/

namespace LinuxKernelDev

/-- The name in an entry, up to the first zero. -/
def Dirent.text (entry : Dirent) : List UInt8 :=
  entry.name.takeWhile fun char => char != 0

namespace Mkfs

open Lsfs LoopRules Fsck

/-- How deep the directories of a host directory are nested. -/
def HostDir.height : HostDir → Nat
  | .nil => 0
  | .file _ _ _ _ _ rest => rest.height
  | .dir _ children rest => max (children.height + 1) rest.height

/-- A listing shows a host directory: the same entries in the same order, with
names cut to 14 bytes, and with the size and the contents of every file. -/
def Shows (img : Image) : Listing → HostDir → Prop
  | .nil, .nil => True
  | .file entry rest, .file name _ _ contents _ others =>
      entry.text = name.bytes.take 14 ∧
        img.inodeSize entry.inum = contents.length ∧
        img.contents entry.inum = contents ∧ Shows img rest others
  | .directory entry listing rest, .dir name children others =>
      entry.text = name.bytes.take 14 ∧
        Shows img listing children ∧ Shows img rest others
  | _, _ => False

/-- Walking the image from its root returns the host tree. -/
def ShowsTree (img : Image) (fileTreeRoot : HostDir) : Prop :=
  ∃ listing, (∃ depth, ∀ fuel, depth ≤ fuel →
    lsDir img fuel 1 = .ok listing) ∧ Shows img listing fileTreeRoot

theorem text_field {entry : Dirent} {name : HostName}
    (nameEq : entry.name = name.field) :
    entry.text = name.bytes.take 14 := by
  have plain : ∀ char ∈ name.bytes.take 14, (char != 0) = true := by
    intro char member
    rw [bne_iff_ne]
    rintro rfl
    exact name.noNul (List.mem_of_mem_take member)
  rw [Dirent.text, nameEq, HostName.field, List.take_append,
    List.takeWhile_append_of_pos plain, List.take_replicate]
  cases min (14 - name.bytes.length) 14 <;> simp [List.replicate_succ]

namespace Carries

variable {img : Image} {fs : FileSystem} {layout : Nat → Layout} {inum : Nat}

section Files

variable (carries : Carries img fs layout) (positive : 1 ≤ inum)
  (below : inum < fs.freeinode)

include carries positive below

theorem fileBlock_eq {fbn blknum : Nat}
    (block : (layout inum).blocks[fbn]? = some blknum) :
    img.fileBlock inum fbn = blknum := by
  have content := carries.content positive below
  have inside := (List.getElem?_eq_some_iff.mp block).1
  have short := carries.blocks_length_le positive below
  unfold Image.fileBlock
  split_ifs with direct
  · have addr := carries.inodeAddr_eq positive below ⟨fbn, by omega⟩
    rw [Layout.addrs, if_pos direct, block] at addr
    exact addr
  · have indexed := content.indexed.mpr (by omega)
    rw [carries.index_eq positive below, Image.word32_eq_word,
      content.index indexed _ (by omega),
      show 12 + (fbn - 12) = fbn by omega, block]
    rfl

/-- A file is read back as it was stored. -/
theorem contents_eq
    (size : (fs.inodes inum).size = (fs.inodes inum).body.bytes.length) :
    img.contents inum = (fs.inodes inum).body.bytes := by
  have content := carries.content positive below
  have bound := content.bound
  rw [Image.contents, carries.inodeSize_eq positive below, size]
  refine List.ext_getElem (by simp) fun position _ inside => ?_
  have block := List.getElem?_eq_getElem
    (show position / 512 < (layout inum).blocks.length by omega)
  rw [List.getElem_map, List.getElem_range,
    carries.fileBlock_eq positive below block,
    content.bytes _ _ block _ (Nat.mod_lt _ (by decide)), Nat.div_add_mod,
    List.getElem?_eq_getElem inside, Option.getD_some]

end Files

section Listing

variable (carries : Carries img fs layout) (shape : fs.Shape [])
  (table : fs.freeinode ≤ 208)

include carries

theorem maps_iff {offset length : Nat} :
    img.Maps offset length ↔ offset + length ≤ 524288 := by
  rw [Image.Maps, Image.mapped, carries.whole]

include table in
theorem maps_inode (below : inum < fs.freeinode) (offset length : Nat)
    (inside : offset + length ≤ 64) :
    img.Maps (Image.inodeOffset inum + offset) length := by
  rw [carries.maps_iff, Image.inodeOffset]
  omega

include table in
theorem readable (positive : 1 ≤ inum) (below : inum < fs.freeinode) :
    Readable img inum := by
  refine ⟨carries.maps_inode table below 0 64 (by omega),
    fun blknum member => ?_⟩
  have range := carries.blocks.owned_range positive below
    ((carries.ownedBlocks_perm positive below).subset member)
  have last := carries.blocks.last
  rw [carries.maps_iff]
  omega

include shape table

theorem lsDir_eq_ok_iff {fuel : Nat} {listing : Listing}
    (directory : fs.IsDirectory inum) :
    lsDir img (fuel + 1) inum = .ok listing ↔
      listAll (walkDirent img (lsDir img fuel)) (fs.children inum) =
        .ok listing := by
  have type := carries.inodeType_eq directory.1 directory.2.1
  rw [directory.2.2] at type
  rw [Lsfs.lsDir_eq_ok_iff type,
    ← carries.filter_isChild shape (table.trans (by decide)) directory,
    listAll_walkDirent_filter]
  exact and_iff_right (carries.readable table directory.1 directory.2.1)

/-- The entries that mirror a host directory are listed as such. -/
theorem exists_shows {fuel : Nat} {entries : List Dirent} {curDir : HostDir}
    (deep : curDir.height ≤ fuel)
    (children : ∀ entry ∈ entries, fs.ChildOk entry)
    (mirrors : fs.Mirrors Eq entries curDir) :
    ∃ listing, listAll (walkDirent img (lsDir img fuel)) entries =
      .ok listing ∧ Shows img listing curDir := by
  induction curDir generalizing fuel entries with
  | nil =>
      rw [show entries = [] from mirrors]
      exact ⟨.nil, rfl, trivial⟩
  | file name stIno stNlink contents chunk rest ih =>
      obtain ⟨entry, others, rfl, nameEq, file, data, tail⟩ := mirrors
      obtain ⟨listing, listed, shown⟩ := ih deep
        (fun other member => children other (List.mem_cons_of_mem _ member))
        tail
      have size := (shape.files entry.inum file).size
      have type : img.inodeType entry.inum = 2 := by
        rw [carries.inodeType_eq file.1 file.2.1, file.2.2]
        rfl
      have mapped := carries.maps_inode table file.2.1
      have walked : walkDirent img (lsDir img fuel) entry =
          .ok (.file entry .nil) := by
        rw [walkDirent_of_isChild (children entry List.mem_cons_self).isChild.1]
        simp only [loadType, loadSize, loadNlink, type, load_bind_eq_ok_iff,
          Int.reduceEq, if_false, if_true]
        exact ⟨mapped 0 2 (by omega), mapped 8 4 (by omega),
          mapped 6 2 (by omega), trivial⟩
      refine ⟨.file entry listing, listAll_cons_eq_ok_iff.mpr
        ⟨_, _, walked, listed, rfl⟩, text_field nameEq, ?_, ?_, shown⟩
      · rw [carries.inodeSize_eq file.1 file.2.1, size, data]
      · rw [carries.contents_eq file.1 file.2.1 size, data]
  | dir name inner rest innerIh restIh =>
      obtain ⟨entry, others, rfl, nameEq, directory, below, tail⟩ := mirrors
      rw [HostDir.height] at deep
      obtain ⟨depth, rfl⟩ : ∃ depth, fuel = depth + 1 :=
        ⟨fuel - 1, by omega⟩
      have innerDeep : inner.height ≤ depth := by omega
      have restDeep : rest.height ≤ depth + 1 := by omega
      obtain ⟨listing, listed, shown⟩ := restIh restDeep
        (fun other member => children other (List.mem_cons_of_mem _ member))
        tail
      obtain ⟨nested, nestedListed, nestedShown⟩ := innerIh innerDeep
        (shape.directories entry.inum directory).children below
      have called := (carries.lsDir_eq_ok_iff shape table directory).mpr
        nestedListed
      have type : img.inodeType entry.inum = 1 := by
        rw [carries.inodeType_eq directory.1 directory.2.1, directory.2.2]
        rfl
      have walked : walkDirent img (lsDir img (depth + 1)) entry =
          .ok (.directory entry nested .nil) := by
        rw [walkDirent_of_isChild (children entry List.mem_cons_self).isChild.1]
        simp only [loadType, type, load_bind_eq_ok_iff, if_true, called]
        exact ⟨carries.maps_inode table directory.2.1 0 2 (by omega), rfl⟩
      exact ⟨.directory entry nested listing, listAll_cons_eq_ok_iff.mpr
        ⟨_, _, walked, listed, rfl⟩, text_field nameEq, nestedShown, shown⟩

end Listing

end Carries

/-- Host files whose inode numbers agree in 32 bits are one file, and so have
the same contents. -/
def HostDir.Distinct (fileTreeRoot : HostDir) : Prop :=
  FileSystem.Coherent Eq fileTreeRoot

/-- The walk of an image with at most 207 inodes returns the tree, whatever the
hard link map does. -/
theorem showsTree_written {descriptors : Nat} {fileTreeRoot : HostDir}
    {final : State} (distinct : fileTreeRoot.Distinct)
    (done : written descriptors fileTreeRoot = some final)
    (table : final.freeinode ≤ 208) : ShowsTree final.disk fileTreeRoot := by
  have shape := FileSystem.shape_build descriptors fileTreeRoot
  obtain ⟨layout, carries⟩ := exists_carries_of_written done table
  rw [(agrees_written done).freeinode] at table
  obtain ⟨listing, listed, shown⟩ := carries.exists_shows shape table
    (Nat.le_refl fileTreeRoot.height) (shape.directories 1 shape.root).children
    (FileSystem.mirrors_build (fun _ => rfl) descriptors distinct)
  have called := (carries.lsDir_eq_ok_iff shape table shape.root).mpr listed
  exact ⟨listing, ⟨_, fun fuel enough => lsDir_of_le enough called⟩, shown⟩

section Copies

open LinkedChunks

namespace FileSystem

variable {fs : FileSystem} {curInode : Nat} {name : HostName}
  {stIno stNlink : UInt64} {contents : List UInt8} {chunk : Option Chunk}

/-- A file that the map does not find is copied. -/
theorem blocks_addFile_absent (current : curInode < fs.freeinode)
    (absent : ∀ last curr, findNode stIno.toUInt32 fs.process.links ≠
      some (.found last curr)) :
    fs.blocks + Layout.cost contents.length ≤
      (fs.addFile curInode name stIno stNlink contents chunk).blocks := by
  have grown := (Extends.refl fs).addFile curInode name stIno stNlink contents
    chunk
  obtain ⟨base, inodes, freeinode, -, added⟩ := @addFile_absent fs curInode
    name stIno stNlink contents chunk fun _ => absent
  rw [added] at grown ⊢
  have stored := blocks_add_cost_le grown (by omega) (Nat.le_refl _)
    (Nat.lt_of_lt_of_eq (Nat.lt_succ_self _) freeinode.symm)
  rw [enter_of_ne current.ne'] at stored
  simpa [closeFile, setDescriptors, modify, inodes, create, Inode.append,
    Inode.fresh, Body.append, Body.bytes] using stored

/-- The first node of the map is that of a file with one link to come. -/
def FirstIs (fs : FileSystem) (hostINode : UInt32) : Prop :=
  ∃ curr, fs.process.links.root = some curr ∧
    curr ∈ fs.process.links.used ∧
    (fs.process.links.cell curr).value.hostINode = hostINode ∧
    (fs.process.links.cell curr).value.remainLink = 1

theorem Seen.absent {seen : Finset UInt32} (known : fs.Seen seen)
    (new : stIno.toUInt32 ∉ seen) (last : Option Nat) (curr : Nat) :
    findNode stIno.toUInt32 fs.process.links ≠ some (.found last curr) := by
  intro found
  obtain ⟨present, number⟩ := Chunks.mem_used_of_search found
  exact new (of_decide_eq_true number ▸ known curr present)

theorem links_addFile (linked : 0 < stNlink) :
    (fs.addFile curInode name stIno stNlink contents chunk).process.links =
        (fs.openFile.fetch stIno.toUInt32 stNlink.toUInt32
          chunk).2.process.links ∧
      (fs.addFile curInode name stIno stNlink contents chunk).stopped =
        (fs.openFile.fetch stIno.toUInt32 stNlink.toUInt32
          chunk).2.stopped := by
  simp only [addFile, if_pos linked]
  split_ifs <;> exact ⟨rfl, rfl⟩

/-- The first file that goes through the map. -/
theorem firstIs_of_empty (empty : fs.process.links.root = none) :
    (fs.addFile curInode name stIno 2 contents chunk).stopped = true ∨
      (fs.addFile curInode name stIno 2 contents chunk).FirstIs
        stIno.toUInt32 := by
  obtain ⟨links, stopped⟩ := @links_addFile fs curInode name stIno 2 contents
    chunk (by decide)
  rw [← openFile_links] at empty
  have missing : findNode stIno.toUInt32 fs.openFile.process.links =
      some (.missing none) := by
    rw [findNode, Chunks.search, empty, Chunks.searchFrom]
  rw [FirstIs, links, stopped]
  cases chunk with
  | none =>
      refine .inl ?_
      simp only [fetch, missing]
      rfl
  | some chunk =>
      rw [fetch_new missing]
      refine .inr ⟨chunk.address fs.openFile.process.links.used, rfl,
        List.mem_cons_self, ?_⟩
      simp [setLinks, addNode, Chunks.relink, Chunks.alloc]

/-- Another file is put behind the first node, or the run is stopped. -/
theorem FirstIs.absent {hostINode : UInt32} (first : fs.FirstIs hostINode)
    (linked : 0 < stNlink)
    (absent : ∀ last curr, findNode stIno.toUInt32 fs.process.links ≠
      some (.found last curr)) :
    (fs.addFile curInode name stIno stNlink contents chunk).stopped = true ∨
      (fs.addFile curInode name stIno stNlink contents chunk).FirstIs
        hostINode := by
  obtain ⟨links, stopped⟩ :=
    @links_addFile fs curInode name stIno stNlink contents chunk linked
  rw [← openFile_links] at absent
  obtain ⟨curr, root, inUse, host, one⟩ := first
  rw [← openFile_links] at root inUse host one
  rw [FirstIs, links, stopped]
  cases found : findNode stIno.toUInt32 fs.openFile.process.links with
  | none =>
      refine .inl ?_
      simp only [fetch, found]
      rfl
  | some result =>
      cases result with
      | found last curr => exact absurd found (absent last curr)
      | missing last =>
          cases chunk with
          | none =>
              refine .inl ?_
              simp only [fetch, found]
              rfl
          | some chunk =>
              rw [fetch_new found]
              obtain ⟨last, rfl⟩ := Option.isSome_iff_exists.mp
                (Chunks.isSome_of_search found (by rw [root]; rfl))
              have apart : curr ≠ chunk.address fs.openFile.process.links.used :=
                fun equal => chunk.fresh _ (equal ▸ inUse)
              refine .inr ⟨curr, root, List.mem_cons_of_mem _ inUse, ?_⟩
              simp only [setLinks, addNode, Chunks.relink_value, Chunks.alloc,
                Function.update_of_ne apart]
              exact ⟨host, one⟩

/-- The last link of the first file empties the map. -/
theorem FirstIs.root_addFile (first : fs.FirstIs stIno.toUInt32)
    (linked : 0 < stNlink) :
    (fs.addFile curInode name stIno stNlink contents
      chunk).process.links.root = none := by
  obtain ⟨links, -⟩ :=
    @links_addFile fs curInode name stIno stNlink contents chunk linked
  obtain ⟨curr, root, inUse, host, one⟩ := first
  rw [← openFile_links] at root inUse host one
  have found : findNode stIno.toUInt32 fs.openFile.process.links =
      some (.found none curr) :=
    @Chunks.Segment.search_found _ fs.openFile.process.links _ _ [] [] curr
      ⟨root, inUse, rfl⟩ nofun (decide_eq_true host)
  rw [links, fetch_found found]
  simp only [setLinks, useLink, one]
  rfl

end FileSystem

/-- Files with one link each. -/
def largeFiles (contents : List UInt8) (chunk : Nat → Option Chunk) :
    Nat → HostDir
  | 0 => .nil
  | left + 1 =>
      .file (byteName (left + 4)) (UInt64.ofNat (left + 12)) 1 contents
        (chunk (left + 4)) (largeFiles contents chunk left)

/-- Two files whose links come in turn, and more files behind them.  The last
link of the first file drops the map before the last link of the second one
comes, which is copied again. -/
def copiedTwice (contents : List UInt8) (chunk : Nat → Option Chunk) :
    HostDir :=
  .file (byteName 0) 10 2 [] (chunk 0)
    (.file (byteName 1) 11 2 contents (chunk 1)
      (.file (byteName 2) 10 2 [] (chunk 2)
        (.file (byteName 3) 11 2 contents (chunk 3)
          (largeFiles contents chunk 6))))

variable {contents : List UInt8} {chunk : Nat → Option Chunk}

theorem blocks_largeFiles {fs : FileSystem} {curInode left : Nat}
    {seen : Finset UInt32} (small : left < 1000) (known : fs.Seen seen)
    (apart : ∀ host ∈ seen, host.toNat < 12 ∨ left + 12 ≤ host.toNat)
    (current : curInode < fs.freeinode) :
    fs.blocks + left * Layout.cost contents.length ≤
      (fs.addEntries curInode (largeFiles contents chunk left)).blocks := by
  induction left generalizing fs seen with
  | zero => simp [largeFiles, FileSystem.addEntries]
  | succ left ih =>
      have number : (UInt64.ofNat (left + 12)).toUInt32.toNat = left + 12 := by
        rw [UInt64.toNat_toUInt32, UInt64.toNat_ofNat']
        omega
      have new : (UInt64.ofNat (left + 12)).toUInt32 ∉ seen := fun member => by
        have range := apart _ member
        omega
      have grown := (FileSystem.Extends.refl fs).addFile curInode
        (byteName (left + 4)) (UInt64.ofNat (left + 12)) 1 contents
        (chunk (left + 4))
      have copied := @FileSystem.blocks_addFile_absent fs curInode
        (byteName (left + 4)) (UInt64.ofNat (left + 12)) 1 contents
        (chunk (left + 4)) current (known.absent new)
      have later := ih (by omega) (known.addFile curInode
        (byteName (left + 4)) (UInt64.ofNat (left + 12)) 1 contents
        (chunk (left + 4))).known (fun host member => ?_)
        (current.trans_le grown.freeinode)
      · rw [largeFiles, FileSystem.addEntries, Nat.add_one_mul]
        omega
      · rcases Finset.mem_insert.mp member with rfl | old
        · omega
        · have range := apart host old
          omega

section Run

variable {fs : FileSystem} {curInode : Nat}
  (empty : fs.process.links.root = none) (unused : fs.Seen ∅)
  (current : curInode < fs.freeinode)

include empty unused current

/-- The second link of the first file drops the map, unless the run is
stopped. -/
theorem dropped_copiedTwice {next : FileSystem}
    (three : ((fs.addFile curInode (byteName 0) 10 2 [] (chunk 0)).addFile
      curInode (byteName 1) 11 2 contents (chunk 1)).addFile curInode
        (byteName 2) 10 2 [] (chunk 2) = next) :
    fs.Extends next ∧ next.Seen {10, 11} ∧
      Layout.cost contents.length ≤ next.blocks ∧
      (next.stopped = false → next.process.links.root = none) := by
  have oneFirst := @FileSystem.firstIs_of_empty fs curInode (byteName 0) 10 []
    (chunk 0) empty
  have oneGrown := (FileSystem.Extends.refl fs).addFile curInode (byteName 0)
    10 2 [] (chunk 0)
  have oneSeen := (unused.addFile curInode (byteName 0) 10 2 []
    (chunk 0)).known
  generalize fs.addFile curInode (byteName 0) 10 2 [] (chunk 0) = one at *
  have twoAbsent := @FileSystem.Seen.absent one 11 _ oneSeen (by decide)
  have twoGrown := (FileSystem.Extends.refl one).addFile curInode (byteName 1)
    11 2 contents (chunk 1)
  have twoFirst := fun first : one.FirstIs 10 => @FileSystem.FirstIs.absent one
    curInode (byteName 1) 11 2 contents (chunk 1) 10 first (by decide) twoAbsent
  have twoSeen := (oneSeen.addFile curInode (byteName 1) 11 2 contents
    (chunk 1)).known
  have twoBlocks := @FileSystem.blocks_addFile_absent one curInode (byteName 1)
    11 2 contents (chunk 1) (current.trans_le oneGrown.freeinode) twoAbsent
  generalize one.addFile curInode (byteName 1) 11 2 contents (chunk 1) =
    two at *
  have grown := (FileSystem.Extends.refl two).addFile curInode (byteName 2) 10
    2 [] (chunk 2)
  have seen := (twoSeen.addFile curInode (byteName 2) 10 2 [] (chunk 2)).known
  rw [three] at grown seen
  refine ⟨(oneGrown.trans twoGrown).trans grown, ?_, ?_, fun running => ?_⟩
  · exact (show insert (UInt64.toUInt32 10) (insert (UInt64.toUInt32 11)
      (insert (UInt64.toUInt32 10) ∅)) = ({10, 11} : Finset UInt32) by
        decide) ▸ seen
  · have blocks := FileSystem.blocks_le grown
    omega
  · have twoRuns := grown.running running
    have oneRuns := twoGrown.running twoRuns
    have first := oneFirst.resolve_left (by rw [oneRuns]; decide)
    have second := (twoFirst first).resolve_left (by rw [twoRuns]; decide)
    rw [← three]
    exact @FileSystem.FirstIs.root_addFile two curInode (byteName 2) 10 2 []
      (chunk 2) second (by decide)

/-- The second file is stored twice, unless the run is stopped. -/
theorem blocks_copiedTwice
    (running : (fs.addEntries curInode
      (copiedTwice contents chunk)).stopped = false) :
    8 * Layout.cost contents.length ≤
      (fs.addEntries curInode (copiedTwice contents chunk)).blocks := by
  simp only [copiedTwice, FileSystem.addEntries] at running ⊢
  obtain ⟨grown, seen, blocks, emptied⟩ := @dropped_copiedTwice contents chunk
    fs curInode empty unused current _ rfl
  have current := current.trans_le grown.freeinode
  generalize ((fs.addFile curInode (byteName 0) 10 2 [] (chunk 0)).addFile
    curInode (byteName 1) 11 2 contents (chunk 1)).addFile curInode
      (byteName 2) 10 2 [] (chunk 2) = three at *
  have fourGrown := (FileSystem.Extends.refl three).addFile curInode
    (byteName 3) 11 2 contents (chunk 3)
  have lastGrown := fourGrown.addEntries curInode
    (largeFiles contents chunk 6)
  have root := emptied (lastGrown.running running)
  have fourBlocks := @FileSystem.blocks_addFile_absent three curInode
    (byteName 3) 11 2 contents (chunk 3) current fun last curr found => by
      rw [findNode, Chunks.search, root, Chunks.searchFrom] at found
      cases found
  have fourSeen := (seen.addFile curInode (byteName 3) 11 2 contents
    (chunk 3)).known
  have lastBlocks := @blocks_largeFiles contents chunk _ curInode 6 _
    (by decide) fourSeen (by simp) (current.trans_le fourGrown.freeinode)
  omega

end Run

/-- The host tree is within the limits, and each file has the links that its
link count says. -/
theorem copiedTwice_withinLimits (size : contents.length = 71680) :
    (copiedTwice contents chunk).WithinLimits ∧
      (copiedTwice contents chunk).Distinct ∧
      Steady (copiedTwice contents chunk).calls := by
  have files : (copiedTwice contents chunk).files =
      [(10, 0), (11, 71680), (10, 0), (11, 71680), (17, 71680), (16, 71680),
        (15, 71680), (14, 71680), (13, 71680), (12, 71680)] := by
    simp [copiedTwice, largeFiles, HostDir.files, size]
  have subdirs : (copiedTwice contents chunk).subdirs = [] := rfl
  have bytes : (copiedTwice contents chunk).bytes = 192 := rfl
  refine ⟨⟨?_, ?_, ?_, ?_⟩, ?_, ?_⟩
  · rw [files, subdirs]
    decide
  · rw [files]
    decide
  · rw [subdirs]
    simp [bytes]
  · rw [files, subdirs, List.map_singleton, bytes]
    decide
  · have same : ∀ file ∈ (copiedTwice contents chunk).linked,
        file.2 = if file.1 = 10 then [] else contents := by
      simp [copiedTwice, largeFiles, HostDir.linked]
    intro first firstMem second secondMem equal
    rw [same first firstMem, same second secondMem, equal]
  · refine ⟨?_, ?_, ?_⟩
    · simp [copiedTwice, largeFiles, HostDir.calls]
    · simp [copiedTwice, largeFiles, HostDir.calls]
    · simp [copiedTwice, largeFiles, HostDir.calls, hosts]

theorem FileSystem.Fits.of_build {descriptors : Nat} {fileTreeRoot : HostDir}
    (fits : (build descriptors fileTreeRoot).Fits) :
    ((((initial descriptors).create (.directory [])).addDirHead 1 1).addEntries
      1 fileTreeRoot).Fits :=
  fits.of_extends ((Extends.refl _).modify 1 Inode.Grows.fixSize)

/-- Whatever `malloc` returns, there are not enough blocks for eight copies of
140 blocks. -/
theorem main_copiedTwice (descriptors : Nat) (chunk : Nat → Option Chunk)
    (size : contents.length = 71680) :
    main descriptors (copiedTwice contents chunk) = none := by
  have few := (FileSystem.freeinode_build descriptors
    (copiedTwice contents chunk)).2
  rw [show (copiedTwice contents chunk).files.length = 10 from rfl,
    show (copiedTwice contents chunk).subdirs.length = 0 from rfl] at few
  refine main_eq_none descriptors _ (few.trans (by decide)) fun fits => ?_
  have fits := fits.of_build
  have copies := @blocks_copiedTwice contents chunk
    (((FileSystem.initial descriptors).create (.directory [])).addDirHead 1 1)
    1 rfl nofun (show 1 < 2 by decide) fits.running
  have needed : 8 * Layout.cost 71680 = 1128 := by decide +kernel
  rw [size, needed] at copies
  have room := copies.trans fits.blocks
  omega

/-- `malloc` returns chunks that have not been used before. -/
def unusedChunks (index : Nat) : Option Chunk :=
  some (Chunk.placed (index + 1) none)

end Copies

end Mkfs

end LinuxKernelDev
