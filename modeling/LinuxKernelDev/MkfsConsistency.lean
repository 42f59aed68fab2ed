import LinuxKernelDev.FsckConsistency
import LinuxKernelDev.MkfsDemand

/-!
# The checker and the images of `mkfs`

An image that `mkfs` writes is consistent up to the size fields of its
directories.  `add_dir` rounds the size of a directory up to the next block,
and does so also when the last block is full: such a directory has a size that
needs one block more than it owns, and the checker rejects it.
-/

namespace LinuxKernelDev.Mkfs

open LoopRules

section Names

theorem isDot_field (name : HostName) : isDot name.field = false := by
  obtain ⟨bytes, nonempty, noNul, notDot, notDotdot⟩ := name
  match bytes with
  | [] => exact absurd rfl nonempty
  | [first] =>
      have other : (46 : UInt8) ≠ first := fun equal => notDot (by rw [equal])
      simp [HostName.field, isDot, strncmpIsZero, other]
  | first :: second :: rest =>
      have terminated : (0 : UInt8) ≠ second := fun equal =>
        noNul (by simp [← equal])
      simp [HostName.field, isDot, strncmpIsZero, terminated]

theorem isDotdot_field (name : HostName) : isDotdot name.field = false := by
  obtain ⟨bytes, nonempty, noNul, notDot, notDotdot⟩ := name
  match bytes with
  | [] => exact absurd rfl nonempty
  | [first] => simp [HostName.field, isDotdot, strncmpIsZero]
  | [first, second] =>
      by_cases dots : (46 : UInt8) = first ∧ (46 : UInt8) = second
      · exact absurd (by rw [← dots.1, ← dots.2]) notDotdot
      · rcases not_and_or.mp dots with other | other <;>
          simp [HostName.field, isDotdot, strncmpIsZero, other]
  | first :: second :: third :: rest =>
      have terminated : (0 : UInt8) ≠ third := fun equal =>
        noNul (by simp [← equal])
      simp [HostName.field, isDotdot, strncmpIsZero, terminated]

end Names

namespace FileSystem

variable {fs : FileSystem} {inum : Nat}

theorem ChildOk.isChild {entry : Dirent} (ok : fs.ChildOk entry) :
    entry.isChild = true ∧ entry.isSelf = false ∧ entry.isParent = false := by
  obtain ⟨name, nameEq⟩ := ok.name
  have used := ok.notRoot
  simp [Dirent.isChild, Dirent.isSelf, Dirent.isParent, nameEq, isDot_field,
    isDotdot_field]
  omega

/-- All entries of a directory name existing inodes. -/
theorem Shape.inum_lt (shape : fs.Shape []) (directory : fs.IsDirectory inum)
    {entry : Dirent} (member : entry ∈ fs.dirents inum) :
    entry.inum < fs.freeinode := by
  have ok := shape.directories inum directory
  rw [ok.head, List.mem_cons, List.mem_cons] at member
  rcases member with rfl | rfl | child
  · exact directory.2.1
  · exact ok.parent.2.1
  · exact (ok.children entry child).below

end FileSystem

namespace Carries

variable {img : Image} {fs : FileSystem} {layout : Nat → Layout} {inum : Nat}

section Directory

variable (carries : Carries img fs layout) (shape : fs.Shape [])
  (narrow : fs.freeinode ≤ 65536) (directory : fs.IsDirectory inum)

include carries shape narrow directory

theorem slots_eq :
    img.directoryDirents inum = fs.dirents inum ++
      List.replicate (32 * (layout inum).blocks.length -
        (fs.dirents inum).length) Dirent.unused :=
  carries.directoryDirents_eq directory (shape.directories inum directory)
    fun entry member => by
      have below := shape.inum_lt directory member
      omega

/-- The used slots of a directory are among its entries. -/
theorem filter_slots {property : Dirent → Bool}
    (used : property Dirent.unused = false) :
    (img.directoryDirents inum).filter property =
      (fs.dirents inum).filter property := by
  rw [carries.slots_eq shape narrow directory, List.filter_append,
    List.filter_replicate_of_neg (by rw [used]; exact Bool.false_ne_true),
    List.append_nil]

theorem filter_isSelf :
    (img.directoryDirents inum).filter Dirent.isSelf =
      [⟨inum, dotName⟩] := by
  have ok := shape.directories inum directory
  have positive : inum ≠ 0 := by
    have range := directory.1
    omega
  have self : Dirent.isSelf ⟨inum, dotName⟩ = true := by
    simp [Dirent.isSelf, positive, show isDot dotName = true from rfl]
  have parent : ¬Dirent.isSelf ⟨fs.parent inum, dotdotName⟩ = true := by
    simp [Dirent.isSelf, show isDot dotdotName = false from rfl]
  rw [carries.filter_slots shape narrow directory rfl, ok.head,
    List.filter_cons_of_pos self, List.filter_cons_of_neg parent,
    List.filter_eq_nil_iff.mpr fun entry member => by
      simp [(ok.children entry member).isChild.2.1]]

theorem filter_isParent :
    (img.directoryDirents inum).filter Dirent.isParent =
      [⟨fs.parent inum, dotdotName⟩] := by
  have ok := shape.directories inum directory
  have positive : fs.parent inum ≠ 0 := by
    have range := ok.parent.1
    omega
  have self : ¬Dirent.isParent ⟨inum, dotName⟩ = true := by
    simp [Dirent.isParent, show isDotdot dotName = false from rfl]
  have parent : Dirent.isParent ⟨fs.parent inum, dotdotName⟩ = true := by
    simp [Dirent.isParent, positive, show isDotdot dotdotName = true from rfl]
  rw [carries.filter_slots shape narrow directory rfl, ok.head,
    List.filter_cons_of_neg self, List.filter_cons_of_pos parent,
    List.filter_eq_nil_iff.mpr fun entry member => by
      simp [(ok.children entry member).isChild.2.2]]

theorem filter_isChild :
    (img.directoryDirents inum).filter Dirent.isChild = fs.children inum := by
  have ok := shape.directories inum directory
  have self : ¬Dirent.isChild ⟨inum, dotName⟩ = true := by
    simp [Dirent.isChild, show isDot dotName = true from rfl]
  have parent : ¬Dirent.isChild ⟨fs.parent inum, dotdotName⟩ = true := by
    simp [Dirent.isChild, show isDotdot dotdotName = true from rfl]
  rw [carries.filter_slots shape narrow directory rfl, ok.head,
    List.filter_cons_of_neg self, List.filter_cons_of_neg parent,
    List.filter_eq_self.mpr fun entry member =>
      (ok.children entry member).isChild.1]

theorem dotdotNames_iff {parent : Nat} :
    img.DotdotNames inum parent ↔ parent = fs.parent inum := by
  have only : ∀ entry, entry ∈ img.directoryDirents inum ∧
      entry.isParent = true ↔ entry = ⟨fs.parent inum, dotdotName⟩ :=
    fun entry => by
      rw [← List.mem_filter, carries.filter_isParent shape narrow directory,
        List.mem_singleton]
  constructor
  · rintro ⟨entry, member, isParent, rfl⟩
    rw [(only entry).mp ⟨member, isParent⟩]
  · rintro rfl
    obtain ⟨member, isParent⟩ := (only _).mpr rfl
    exact ⟨_, member, isParent, rfl⟩

end Directory

section Sizes

variable (carries : Carries img fs layout) (shape : fs.Shape [])

include carries shape

theorem sizeFits_of_isFile (file : fs.IsFile inum) :
    Image.SizeFits (img.inodeSize inum) (img.fileBlocks inum).length := by
  have size := (shape.files inum file).size
  have full := carries.full inum file.1 file.2.1
  rw [carries.inodeSize_eq file.1 file.2.1,
    carries.fileBlocks_eq file.1 file.2.1]
  unfold Image.SizeFits
  omega

/-- The size of a directory fits its blocks unless its last block is full. -/
theorem sizeFits_iff (directory : fs.IsDirectory inum) :
    Image.SizeFits (img.inodeSize inum) (img.fileBlocks inum).length ↔
      (fs.dirents inum).length % 32 ≠ 0 := by
  have ok := shape.directories inum directory
  have size := ok.size
  have full := carries.full inum directory.1 directory.2.1
  have length := ok.bytes_length directory
  have head : 2 ≤ (fs.dirents inum).length := by
    rw [ok.head]
    simp
  rw [if_neg List.not_mem_nil] at size
  rw [carries.inodeSize_eq directory.1 directory.2.1,
    carries.fileBlocks_eq directory.1 directory.2.1]
  unfold Image.SizeFits
  omega

end Sizes

section Tree

variable (carries : Carries img fs layout) (shape : fs.Shape [])
  (table : fs.freeinode ≤ 200)

include carries shape table

theorem entries_eq :
    img.entries = (List.range' 1 (fs.freeinode - 1)).flatMap fun inum =>
      (fs.children inum).map (Prod.mk inum) := by
  rw [Image.entries, Image.slots, carries.inUseInodes_eq table,
    flatMap_filter, List.filter_flatMap]
  refine List.flatMap_congr fun inum member => ?_
  rw [List.mem_range'_1] at member
  have below : inum < fs.freeinode := by omega
  have type := carries.inodeType_eq member.1 below
  by_cases directory : (fs.inodes inum).body.type = 1
  · have isDirectory : fs.IsDirectory inum := ⟨member.1, below, directory⟩
    rw [if_pos (by rw [type, directory]; rfl), List.filter_map,
      ← carries.filter_isChild shape (table.trans (by decide)) isDirectory]
    rfl
  · rw [if_neg fun equal => directory (by rw [type] at equal; omega)]
    cases body : (fs.inodes inum).body with
    | directory => exact absurd (by rw [body]; rfl) directory
    | file => simp [FileSystem.children, FileSystem.dirents, body, Body.dirents]

theorem childOk {entry : Nat × Dirent} (member : entry ∈ img.entries) :
    fs.ChildOk entry.2 := by
  rw [carries.entries_eq shape table, List.mem_flatMap] at member
  obtain ⟨holder, range, present⟩ := member
  obtain ⟨child, listed, rfl⟩ := List.mem_map.mp present
  rw [List.mem_range'_1] at range
  have directory := FileSystem.isDirectory_of_mem_children range.1 (by omega)
    listed
  exact (shape.directories holder directory).children child listed

theorem entriesNaming_eq (inum : Nat) :
    img.entriesNaming inum = fs.named.count inum := by
  have named : img.entries.map (fun entry => entry.2.inum) = fs.named := by
    rw [carries.entries_eq shape table, List.map_flatMap]
    exact List.flatMap_congr fun inum _ => by
      rw [List.map_map]
      rfl
  rw [Image.entriesNaming, ← named, List.count, List.countP_map]
  rfl

/-- The link count of a file is the number of entries that name it. -/
theorem inodeNlink_eq_entriesNaming (file : fs.IsFile inum) :
    img.inodeNlink inum = img.entriesNaming inum := by
  have nlink := (shape.files inum file).nlink
  have few : fs.named.count inum ≤ 31840 :=
    List.count_le_length.trans (carries.fits.named_length_le shape)
  rw [carries.entriesNaming_eq shape table, ← nlink]
  exact carries.inodeNlink_eq file.1 file.2.1 (by omega)

theorem holds_iff {holder inum : Nat} :
    img.Holds holder inum ↔ 1 ≤ holder ∧ holder < fs.freeinode ∧
      inum ∈ fs.names holder := by
  unfold Image.Holds FileSystem.names
  simp only [carries.entries_eq shape table, List.mem_flatMap, List.mem_map,
    List.mem_range'_1]
  constructor
  · rintro ⟨_, ⟨_, range, entry, member, rfl⟩, rfl, rfl⟩
    exact ⟨range.1, by simp only; omega, entry, member, rfl⟩
  · rintro ⟨positive, below, entry, member, rfl⟩
    exact ⟨_, ⟨holder, ⟨positive, by omega⟩, entry, member, rfl⟩, rfl, rfl⟩

/-- The parent of a directory holds an entry for it. -/
theorem parent_holds (directory : fs.IsDirectory inum) (notRoot : inum ≠ 1) :
    img.Holds (fs.parent inum) inum := by
  have ok := shape.directories inum directory
  exact (carries.holds_iff shape table).mpr
    ⟨ok.parent.1, ok.parent.2.1, ok.held notRoot List.not_mem_nil⟩

/-- Every directory is reached from the root.  The induction is on its number,
which is larger than that of its parent. -/
theorem reachable (directory : fs.IsDirectory inum) :
    Relation.ReflTransGen img.Holds 1 inum := by
  induction inum using Nat.strong_induction_on with
  | h inum ih =>
      by_cases root : inum = 1
      · rw [root]
      · have ok := shape.directories inum directory
        exact (ih _ (ok.parentBelow root) ok.parent).tail
          (carries.parent_holds shape table directory root)

theorem entriesNaming_directory (directory : fs.IsDirectory inum) :
    img.entriesNaming inum = if inum = 1 then 0 else 1 := by
  rw [carries.entriesNaming_eq shape table,
    (shape.directories inum directory).count]
  simp

omit shape in
theorem isDirectory_or_isFile (used : img.InUse inum) :
    fs.IsDirectory inum ∨ fs.IsFile inum := by
  obtain ⟨positive, below⟩ := (carries.inUse_iff table).mp used
  cases body : (fs.inodes inum).body with
  | directory => exact .inl ⟨positive, below, by rw [body]; rfl⟩
  | file => exact .inr ⟨positive, below, by rw [body]; rfl⟩

omit shape in
theorem inodeType_cases (inside : inum < img.sbNinodes) :
    img.inodeType inum = 0 ∨ img.inodeType inum = 1 ∨
      img.inodeType inum = 2 ∨ img.inodeType inum = 3 := by
  by_cases used : img.InUse inum
  · rcases carries.isDirectory_or_isFile table used with directory | file
    · exact .inr (.inl ((carries.isDirectory_iff table).mpr directory).2)
    · rw [carries.inodeType_eq file.1 file.2.1, file.2.2]
      exact .inr (.inr (.inl rfl))
  · rw [carries.sbNinodes] at inside
    rw [carries.inUse_iff table] at used
    exact .inl (carries.free inum (by omega) (by omega))

omit shape in
theorem mem_blockClaims {blknum : Nat} :
    blknum ∈ img.blockClaims ↔ 29 ≤ blknum ∧ blknum < 29 + fs.blocks := by
  rw [(carries.blockClaims_perm table).mem_iff, List.mem_range'_1]

/-- The image is consistent if no directory has a full last block. -/
theorem consistent
    (unfilled : ∀ inum, fs.IsDirectory inum →
      (fs.dirents inum).length % 32 ≠ 0) : img.Consistent := by
  have narrow : fs.freeinode ≤ 65536 := table.trans (by decide)
  have isDirectory := fun inum =>
    @carries.isDirectory_iff img fs layout inum table
  have dataStart : img.dataStart = 29 := by
    rw [Image.dataStart, carries.sbSize, carries.sbNinodes]
  have root := shape.root
  have rootOk := shape.directories 1 root
  refine
    { superblock := by
        rw [carries.sbSize, carries.sbNblocks, carries.sbNinodes]
      types := fun inum inside => carries.inodeType_cases table inside
      claimsInside := fun blknum claimed => ?_
      claimsNodup := (carries.blockClaims_perm table).nodup_iff.mpr
        (List.nodup_range' ..)
      bitmap := fun blknum lower upper => ?_
      sizes := fun inum used => ?_
      selfOnce := fun inum directory => ?_
      selfInum := fun inum directory entry member self => ?_
      parentOnce := fun inum directory => ?_
      entriesInUse := fun entry member => ?_
      named := fun inum used notRoot => ?_
      nlinks := fun inum used type => ?_
      namedOnce := fun inum directory notRoot => ?_
      parentHolds := fun inum directory notRoot parent names => ?_
      root := (isDirectory 1).mpr root
      rootParent := (carries.dotdotNames_iff shape narrow root).mpr
        (rootOk.rootParent rfl).symm
      rootUnnamed := carries.entriesNaming_directory shape table root
      reachable := fun inum directory => carries.reachable shape table
        ((isDirectory inum).mp directory) }
  · rw [carries.mem_blockClaims table] at claimed
    have last := carries.fits.blocks
    rw [dataStart, carries.sbSize]
    omega
  · rw [dataStart] at lower
    rw [carries.sbSize] at upper
    rw [carries.sbNinodes, carries.bitmap blknum upper,
      carries.mem_blockClaims table, decide_eq_true_eq]
    omega
  · rcases carries.isDirectory_or_isFile table used with directory | file
    · exact (carries.sizeFits_iff shape directory).mpr (unfilled inum directory)
    · exact carries.sizeFits_of_isFile shape file
  · rw [List.countP_eq_length_filter, carries.filter_isSelf shape narrow
      ((isDirectory inum).mp directory)]
    rfl
  · have found := List.mem_filter.mpr ⟨member, self⟩
    rw [carries.filter_isSelf shape narrow ((isDirectory inum).mp directory),
      List.mem_singleton] at found
    rw [found]
  · rw [List.countP_eq_length_filter, carries.filter_isParent shape narrow
      ((isDirectory inum).mp directory)]
    rfl
  · have ok := carries.childOk shape table member
    exact (carries.inUse_iff table).mpr
      ⟨Nat.le_of_succ_le ok.notRoot, ok.below⟩
  · rcases carries.isDirectory_or_isFile table used with directory | file
    · rw [carries.entriesNaming_directory shape table directory,
        if_neg notRoot]
      exact Nat.one_ne_zero
    · rw [carries.entriesNaming_eq shape table]
      exact (shape.files inum file).linked
  · rcases carries.isDirectory_or_isFile table used with directory | file
    · rw [((isDirectory inum).mpr directory).2] at type
      exact absurd type (by decide)
    · exact carries.inodeNlink_eq_entriesNaming shape table file
  · rw [carries.entriesNaming_directory shape table
      ((isDirectory inum).mp directory), if_neg notRoot]
  · have isDir := (isDirectory inum).mp directory
    rw [(carries.dotdotNames_iff shape narrow isDir).mp names]
    exact carries.parent_holds shape table isDir notRoot

end Tree

theorem whole_le (carries : Carries img fs layout) :
    img.sbSize ≤ 8388608 ∧ img.sbSize * 512 ≤ img.stSize := by
  rw [carries.sbSize, carries.whole]
  decide

/-- The checker accepts the image if and only if no directory has a full last
block. -/
theorem myfsck_iff (carries : Carries img fs layout) (shape : fs.Shape [])
    (table : fs.freeinode ≤ 200) :
    Fsck.myfsck img = .exited 0 "" ↔
      ∀ inum, fs.IsDirectory inum → (fs.dirents inum).length % 32 ≠ 0 := by
  have root := shape.root
  have inTable : ∀ entry ∈ img.entries,
      entry.2.inum < img.sbNinodes := fun entry member => by
    rw [carries.sbNinodes]
    exact (carries.childOk shape table member).below.trans_le table
  rw [Fsck.myfsck_eq_exited_zero_iff_consistent carries.whole_le.1
    carries.whole_le.2 ⟨1, (carries.inUse_iff table).mpr ⟨root.1, root.2.1⟩⟩
    inTable]
  constructor
  · intro consistent inum directory
    exact (carries.sizeFits_iff shape directory).mp (consistent.sizes inum
      ((carries.inUse_iff table).mpr ⟨directory.1, directory.2.1⟩))
  · exact carries.consistent shape table

end Carries

/-- The numbers of entries of the built directories are those of the host
directories. -/
theorem forall_dirents_iff (descriptors : Nat) (fileTreeRoot : HostDir)
    (property : Nat → Prop) :
    (∀ inum, (FileSystem.build descriptors fileTreeRoot).IsDirectory inum →
      property ((FileSystem.build descriptors fileTreeRoot).dirents
        inum).length) ↔
    ∀ curDir ∈ fileTreeRoot :: fileTreeRoot.subdirs,
      property (curDir.length + 2) := by
  have shape := FileSystem.shape_build descriptors fileTreeRoot
  have mirrors := @FileSystem.mirrors_build (fun _ _ => True)
    (fun _ => trivial) descriptors fileTreeRoot fun _ _ _ _ _ => trivial
  generalize FileSystem.build descriptors fileTreeRoot = fs at *
  have lengths : ∀ inum curDir, fs.IsDirectory inum →
      fs.Mirrors (fun _ _ => True) (fs.children inum) curDir →
        (fs.dirents inum).length = curDir.length + 2 :=
    fun inum curDir directory mirrored => by
      rw [(shape.directories inum directory).head, List.length_cons,
        List.length_cons, mirrored.length_eq]
  constructor
  · intro each curDir member
    rcases List.mem_cons.mp member with rfl | below
    · rw [← lengths 1 curDir shape.root mirrors]
      exact each 1 shape.root
    · obtain ⟨inum, directory, mirrored⟩ := mirrors.exists_directory below
      rw [← lengths inum curDir directory mirrored]
      exact each inum directory
  · intro each inum directory
    obtain ⟨curDir, member, mirrored⟩ := shape.exists_subdir mirrors directory
    rw [lengths inum curDir directory mirrored]
    exact each curDir member

/-- No directory fills its last block: together with `.` and `..`, its entries
do not fill whole blocks of 32 entries. -/
def HostDir.Unfilled (fileTreeRoot : HostDir) : Prop :=
  ∀ curDir ∈ fileTreeRoot :: fileTreeRoot.subdirs, (curDir.length + 2) % 32 ≠ 0

instance (fileTreeRoot : HostDir) : Decidable fileTreeRoot.Unfilled := by
  unfold HostDir.Unfilled
  infer_instance

/-- Whatever the hard link map does, an image with at most 199 inodes is
accepted exactly if no directory fills its last block. -/
theorem myfsck_written_iff {descriptors : Nat} {fileTreeRoot : HostDir}
    {final : State} (done : written descriptors fileTreeRoot = some final)
    (table : final.freeinode ≤ 200) :
    Fsck.myfsck final.disk = .exited 0 "" ↔ fileTreeRoot.Unfilled := by
  obtain ⟨layout, carries⟩ :=
    exists_carries_of_written done (table.trans (by decide))
  rw [(agrees_written done).freeinode] at table
  rw [carries.myfsck_iff (FileSystem.shape_build descriptors fileTreeRoot)
    table]
  exact forall_dirents_iff descriptors fileTreeRoot (fun length => length % 32 ≠ 0)

/-- A run that comes to its end, for a tree whose hard links are all found or
whose copies are few. -/
theorem exists_written_iff (descriptors : Nat) {fileTreeRoot : HostDir}
    (steady : Steady fileTreeRoot.calls)
    (terminated : Terminated fileTreeRoot.calls)
    (table : (fileTreeRoot.stored .start).length ≤ 206) :
    (∃ final, written descriptors fileTreeRoot = some final) ↔
      fileTreeRoot.Fits ∧ fileTreeRoot.opens .start ≤ descriptors := by
  have free := (FileSystem.tally_build descriptors steady terminated).1
  have wide : (FileSystem.build descriptors fileTreeRoot).freeinode ≤ 208 := by
    omega
  rw [← FileSystem.fits_build_iff descriptors steady terminated]
  constructor
  · rintro ⟨final, done⟩
    by_contra overflow
    have none := main_eq_none descriptors fileTreeRoot wide overflow
    rw [main, done] at none
    cases none
  · intro fits
    obtain ⟨s, -, done⟩ := exists_written descriptors fileTreeRoot wide fits
    exact ⟨_, done⟩

/-- What holds of the image exactly if a run comes to its end. -/
theorem exists_main_iff {descriptors : Nat} {fileTreeRoot : HostDir}
    {property : Image → Prop} {condition : Prop}
    (each : ∀ final, written descriptors fileTreeRoot = some final →
      (property final.disk ↔ condition)) :
    (∃ img, main descriptors fileTreeRoot = some img ∧ property img) ↔
      (∃ final, written descriptors fileTreeRoot = some final) ∧ condition := by
  constructor
  · rintro ⟨img, image, holds⟩
    obtain ⟨final, done, rfl⟩ := Option.map_eq_some_iff.mp image
    exact ⟨⟨final, done⟩, (each final done).mp holds⟩
  · rintro ⟨⟨final, done⟩, holds⟩
    exact ⟨final.disk, by rw [main, done, Option.map_some],
      (each final done).mpr holds⟩

end LinuxKernelDev.Mkfs
