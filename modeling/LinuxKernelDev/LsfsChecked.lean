import LinuxKernelDev.DirectoryWalk
import LinuxKernelDev.LsfsSemantics

/-!
# Listing a checked image

On an image that the checker accepts, and whose entries stay in the inode table,
`ls_dir` follows the tree of directories: it returns, is called once for every
in-use directory, and prints the other inodes once for every entry that names
them.  The checker never asks for a root directory, so it also accepts images
whose table ends before inode 1; `lsfs` then follows whatever lies in its place.
-/

namespace LinuxKernelDev.Lsfs

open Fsck LoopRules LinuxKernelDev.RootedTree

/-- The inode numbers in the lines of a listing for inodes of a type; each line
for a directory stands for a call of `ls_dir`. -/
def Listing.inums (type : Int) : Listing → List Nat
  | .nil => []
  | .directory entry children rest =>
      (if type = 1 then [entry.inum] else []) ++
        (children.inums type ++ rest.inums type)
  | .file entry rest =>
      (if type = 2 then [entry.inum] else []) ++ rest.inums type
  | .device entry rest =>
      (if type = 3 then [entry.inum] else []) ++ rest.inums type

@[simp]
theorem Listing.inums_append (type : Int) (first second : Listing) :
    (first.append second).inums type =
      first.inums type ++ second.inums type := by
  induction first with
  | nil => rfl
  | directory entry children rest _ ih =>
      simp only [append, inums, ih, List.append_assoc]
  | file entry rest ih => simp only [append, inums, ih, List.append_assoc]
  | device entry rest ih => simp only [append, inums, ih, List.append_assoc]

/-- A listing from the root with every directory once, every file once per link
and every device once per entry. -/
structure ListsAll (img : Image) (listing : Listing) : Prop where
  directories : ∀ inum, img.IsDirectory inum →
    (1 :: listing.inums 1).count inum = 1
  files : ∀ inum, img.InUse inum → img.inodeType inum = 2 →
    ((listing.inums 2).count inum : Int) = img.inodeNlink inum
  devices : ∀ inum, img.InUse inum → img.inodeType inum = 3 →
    (listing.inums 3).count inum = img.entriesNaming inum

section Lines

variable {img : Image} {ls : Nat → Except Stop Listing} {listing : Listing}

theorem listAll_inums {α : Type} {turn : α → Except Stop Listing}
    {type : Int} {items : List α} {expand : α → List Nat}
    (each : ∀ item ∈ items, ∀ listing, turn item = .ok listing →
      (listing.inums type).Perm (expand item))
    (listed : listAll turn items = .ok listing) :
    (listing.inums type).Perm (items.flatMap expand) := by
  induction items generalizing listing with
  | nil =>
      cases listed
      exact .refl _
  | cons item items ih =>
      obtain ⟨first, rest, taken, restListed, rfl⟩ :=
        listAll_cons_eq_ok_iff.mp listed
      rw [Listing.inums_append, List.flatMap_cons]
      exact (each item (by simp) first taken).append
        (ih (fun other member => each other (by simp [member])) restListed)

/-- What is listed for a name: its own line, and the lines below it. -/
def lines (img : Image) (below : Nat → List Nat) (type : Int) (inum : Nat) :
    List Nat :=
  (if img.inodeType inum = type then [inum] else []) ++
    if img.inodeType inum = 1 then below inum else []

theorem walkDirent_inums {entry : Dirent} {type : Int}
    {below : Nat → List Nat} (printed : type = 1 ∨ type = 2 ∨ type = 3)
    (child : entry.isChild = true)
    (children : img.inodeType entry.inum = 1 →
      ∀ listing, ls entry.inum = .ok listing →
        (listing.inums type).Perm (below entry.inum))
    (listed : walkDirent img ls entry = .ok listing) :
    (listing.inums type).Perm (lines img below type entry.inum) := by
  rw [walkDirent_of_isChild child, loadType, load_bind_eq_ok_iff] at listed
  obtain ⟨-, listed⟩ := listed
  unfold lines
  split_ifs at listed with directory file device
  · obtain ⟨inner, called, here⟩ := bind_eq_ok_iff.mp listed
    cases here
    simpa [Listing.inums, directory, eq_comm] using
      (children directory inner called).append_left _
  · simp only [loadSize, loadNlink, load_bind_eq_ok_iff] at listed
    cases listed.2.2
    simp [Listing.inums, file, eq_comm]
  · simp only [load_bind_eq_ok_iff] at listed
    cases listed.2.2
    simp [Listing.inums, device, eq_comm]
  · cases listed
    have other : img.inodeType entry.inum ≠ type := by
      rcases printed with rfl | rfl | rfl <;> assumption
    simp [Listing.inums, directory, other]

end Lines

section Tree

variable {img : Image} {listing : Listing}

/-- The lines for the slots of a directory are those for its names. -/
theorem flatMap_lines_perm (img : Image) (below : Nat → List Nat)
    (type : Int) (inum : Nat) :
    ((img.directoryDirents inum).flatMap fun entry =>
        if entry.isChild = true then lines img below type entry.inum
        else []).Perm
      (img.namesOf type inum ++ (img.namesOf 1 inum).flatMap below) := by
  have named : ((img.directoryDirents inum).flatMap fun entry =>
      if entry.isChild = true then lines img below type entry.inum else []) =
        (img.names inum).flatMap (lines img below type) := by
    rw [← flatMap_filter, Image.names, List.flatMap_map]
    simp
  have own : (img.namesOf type inum) = (img.names inum).flatMap fun name =>
      if img.inodeType name = type then [name] else [] := by
    rw [← flatMap_filter, List.flatMap_singleton', Image.namesOf]
  rw [named, own, Image.namesOf, flatMap_filter]
  exact (List.flatMap_append_perm _ _ _).symm

/-- A listing holds the names of the directories met by the walk. -/
theorem lsDir_inums (consistent : img.Consistent) {type : Int}
    (printed : type = 1 ∨ type = 2 ∨ type = 3) {fuel inum : Nat}
    (directory : img.IsDirectory inum)
    (listed : lsDir img fuel inum = .ok listing) :
    (listing.inums type).Perm
      ((preorder img.subdirectories fuel inum).flatMap
        (img.namesOf type)) := by
  induction fuel generalizing inum listing with
  | zero => cases listed
  | succ fuel ih =>
      obtain ⟨-, slots⟩ := (lsDir_eq_ok_iff directory.2).mp listed
      let below := fun child =>
        (preorder img.subdirectories fuel child).flatMap (img.namesOf type)
      have each : ∀ entry ∈ img.directoryDirents inum, ∀ inner,
          walkDirent img (lsDir img fuel) entry = .ok inner →
            (inner.inums type).Perm (if entry.isChild = true then
              lines img below type entry.inum else []) := by
        intro entry member inner walked
        split_ifs with child
        · refine walkDirent_inums printed child (fun subdirectory _ => ?_)
            walked
          have held : img.Holds inum entry.inum :=
            img.holds_iff.mpr ⟨directory, entry, member, child, rfl⟩
          exact ih ⟨consistent.inUse_of_holds held, subdirectory⟩
        · rw [walkDirent_skips (Bool.not_eq_true _ ▸ child)] at walked
          cases walked
          exact .refl _
      have walk : (preorder img.subdirectories (fuel + 1) inum).flatMap
          (img.namesOf type) =
            img.namesOf type inum ++ (img.namesOf 1 inum).flatMap below := by
        rw [preorder, List.flatMap_cons, List.flatMap_assoc,
          Image.subdirectories, if_pos directory]
      rw [walk]
      exact (listAll_inums each slots).trans
        (flatMap_lines_perm img below type inum)

/-- The loads that a listing makes for in-use inodes. -/
structure Loadable (img : Image) : Prop where
  inode : ∀ inum, img.InUse inum → img.Maps (Image.inodeOffset inum) 64
  directory : ∀ inum, img.IsDirectory inum → Readable img inum

theorem exists_walkDirent (loadable : Loadable img)
    {ls : Nat → Except Stop Listing} {entry : Dirent}
    (inUse : entry.isChild = true → img.InUse entry.inum)
    (children : entry.isChild = true → img.inodeType entry.inum = 1 →
      ∃ listing, ls entry.inum = .ok listing) :
    ∃ listing, walkDirent img ls entry = .ok listing := by
  by_cases child : entry.isChild = true
  · have mapped : ∀ offset length, offset + length ≤ 64 →
        img.Maps (Image.inodeOffset entry.inum + offset) length := by
      have whole := loadable.inode entry.inum (inUse child)
      unfold Image.Maps at whole ⊢
      omega
    rw [walkDirent_of_isChild child]
    simp only [loadType, loadSize, loadNlink, load_bind_eq_ok_iff]
    refine exists_and_left.mpr ⟨mapped 0 2 (by omega), ?_⟩
    split_ifs with directory file device
    · obtain ⟨inner, called⟩ := children child directory
      exact ⟨_, bind_eq_ok_iff.mpr ⟨inner, called, rfl⟩⟩
    · simp only [load_bind_eq_ok_iff]
      exact ⟨_, mapped 8 4 (by omega), mapped 6 2 (by omega), rfl⟩
    · simp only [load_bind_eq_ok_iff]
      exact ⟨_, mapped 2 2 (by omega), mapped 4 2 (by omega), rfl⟩
    · exact ⟨_, rfl⟩
  · exact ⟨_, walkDirent_skips (Bool.not_eq_true _ ▸ child)⟩

/-- The recursion returns once its depth reaches the height of the tree. -/
theorem exists_lsDir (consistent : img.Consistent) (loadable : Loadable img)
    {height : Nat} (high : ∀ inum, img.IsDirectory inum →
      ∃ depth < height, AtDepth img.subdirectories 1 depth inum)
    {fuel depth inum : Nat} (directory : img.IsDirectory inum)
    (located : AtDepth img.subdirectories 1 depth inum)
    (enough : height ≤ depth + fuel) :
    ∃ listing, lsDir img fuel inum = .ok listing := by
  induction fuel generalizing depth inum with
  | zero =>
      obtain ⟨own, less, atOwn⟩ := high inum directory
      have := consistent.isTree.atDepth_unique located atOwn
      omega
  | succ fuel ih =>
      have held : ∀ entry ∈ img.directoryDirents inum,
          entry.isChild = true → img.Holds inum entry.inum :=
        fun entry member child =>
          img.holds_iff.mpr ⟨directory, entry, member, child, rfl⟩
      obtain ⟨listing, listed⟩ := exists_listAll fun entry member =>
        exists_walkDirent loadable
          (fun child => consistent.inUse_of_holds (held entry member child))
          fun child subdirectory => by
            have named := img.mem_subdirectories.mpr
              ⟨held entry member child, subdirectory⟩
            exact ih (consistent.isDirectory_of_mem named)
              (located.child named) (by omega)
      exact ⟨listing, (lsDir_eq_ok_iff directory.2).mpr
        ⟨loadable.directory inum directory, listed⟩⟩

/-- The listing of a consistent image is complete. -/
theorem listsAll_of_lsDir (consistent : img.Consistent) {height : Nat}
    (high : ∀ inum, img.IsDirectory inum →
      ∃ depth < height, AtDepth img.subdirectories 1 depth inum)
    (listed : lsDir img height 1 = .ok listing) : ListsAll img listing := by
  have counted : ∀ type inum, type = 1 ∨ type = 2 ∨ type = 3 →
      img.inodeType inum = type →
        (listing.inums type).count inum = img.entriesNaming inum := by
    intro type inum printed typeEq
    rw [(lsDir_inums consistent printed consistent.root listed).count_eq,
      consistent.count_namesOf high typeEq]
  refine ⟨fun inum directory => ?_, fun inum inUse file => ?_,
    fun inum _ device => counted 3 inum (by simp) device⟩
  · rw [List.count_cons, counted 1 inum (by simp) directory.2]
    by_cases root : inum = 1
    · simp [root, consistent.rootUnnamed]
    · simp [consistent.namedOnce inum directory root, Ne.symm root]
  · rw [counted 2 inum (by simp) file, consistent.nlinks inum inUse file]

/-- `lsfs` returns from the root with one complete listing. -/
def Lists (img : Image) : Prop :=
  ∃ listing, (∃ depth, ∀ fuel, depth ≤ fuel →
    lsDir img fuel 1 = .ok listing) ∧ ListsAll img listing

theorem lists_of_consistent (consistent : img.Consistent)
    (loadable : Loadable img) : Lists img := by
  obtain ⟨height, high⟩ := consistent.exists_height
  obtain ⟨listing, listed⟩ := exists_lsDir consistent loadable high
    consistent.root .root (by omega : height ≤ 0 + height)
  exact ⟨listing, ⟨height, fun fuel enough => lsDir_of_le enough listed⟩,
    listsAll_of_lsDir consistent high listed⟩

end Tree

/-- What the checker has loaded, `lsfs` can load. -/
theorem loadable_of_accepts {img : Image} {g : Globals} {scan : Scan}
    (accepts : Accepts img g scan) (small : img.sbSize ≤ 8388608) :
    Loadable img := by
  have inode : ∀ inum, img.InUse inum →
      img.Maps (Image.inodeOffset inum) 64 := by
    intro inum inUse
    have last := ((accepts.sound inum inUse.2.1).addrsMapped
      ((scanned_iff_inUse inUse.2.1).mpr inUse)).1 12 (by omega)
    unfold Image.Maps at last ⊢
    omega
  refine ⟨inode, fun inum directory => ⟨inode inum directory.1,
    fun blknum member => ?_⟩⟩
  have inUse := directory.1
  have scanned := (scanned_iff_inUse inUse.2.1).mpr inUse
  have sound := accepts.sound inum inUse.2.1
  have owned := (accepts.ownedBlocks_ok small inUse member).2.1
  rw [accepts.range] at owned
  rw [← claims_eq (accepts.indirect_lt small inUse), ← visits_map_blknum,
    List.mem_map] at member
  obtain ⟨⟨data, _⟩, visited, rfl⟩ := member
  have exact := blockOffset_of_lt (owned.trans_le small)
  cases data with
  | true =>
      have last := ((sound.visitsOk scanned _ visited).2 rfl directory.2
        31 (by omega)).1
      rw [exact] at last
      unfold Image.Maps at last ⊢
      omega
  | false =>
      -- The only block that is visited for its addresses is the indirect one.
      unfold visits indirectVisits at visited
      split_ifs at visited with hole
      · simp at visited
      · obtain rfl : _ = img.inodeAddr inum 12 := by simpa using visited
        have last := (sound.addrsMapped scanned).2 hole 127 (by omega)
        rw [exact] at last
        unfold Image.Maps at last ⊢
        omega

/-- A root directory without entries returns if its blocks can be loaded. -/
theorem lsDir_returns_iff_of_childless {img : Image} {inum : Nat}
    (mapped : img.Maps (Image.inodeOffset inum) 64)
    (directory : img.inodeType inum = 1)
    (childless : ∀ entry ∈ img.directoryDirents inum,
      entry.isChild = false) :
    (∃ listing depth, ∀ fuel, depth ≤ fuel →
        lsDir img fuel inum = .ok listing) ↔
      ∀ blknum ∈ img.ownedBlocks inum, img.Maps (blknum * 512) 512 := by
  constructor
  · rintro ⟨listing, depth, returns⟩
    have called := returns (depth + 1) (by omega)
    exact ((lsDir_eq_ok_iff directory).mp called).1.2
  · intro blocks
    have skipped : ∀ entry ∈ img.directoryDirents inum, ∃ listing,
        walkDirent img (lsDir img 0) entry = .ok listing :=
      fun entry member => ⟨.nil, walkDirent_skips (childless entry member)⟩
    obtain ⟨listing, listed⟩ := exists_listAll skipped
    have called := (lsDir_eq_ok_iff directory).mpr ⟨⟨mapped, blocks⟩, listed⟩
    exact ⟨listing, 1, fun fuel enough => lsDir_of_le enough called⟩

theorem lists_iff_of_unused {img : Image} (unused : ∀ inum, ¬img.InUse inum) :
    Lists img ↔ ∃ listing depth, ∀ fuel, depth ≤ fuel →
      lsDir img fuel 1 = .ok listing := by
  constructor
  · rintro ⟨listing, returns, -⟩
    exact ⟨listing, returns⟩
  · rintro ⟨listing, returns⟩
    exact ⟨listing, returns, fun inum directory => absurd directory.1
      (unused inum), fun inum inUse => absurd inUse (unused inum),
      fun inum inUse => absurd inUse (unused inum)⟩

/-- On an accepted image whose directories name only inodes in the table,
`lsfs` lists everything exactly if the root is in the table, is no directory,
or has blocks that are part of the mapping. -/
theorem lists_iff_of_accepted (img : Image) (stderr : String)
    (small : img.sbSize ≤ 8388608)
    (accepted : myfsck img = .exited 0 stderr)
    (inTable : ∀ inum, img.InUse inum ∨ inum = 1 → img.inodeType inum = 1 →
      ∀ entry ∈ img.directoryDirents inum, entry.isChild = true →
        entry.inum < img.sbNinodes) :
    Lists img ↔ 1 < img.sbNinodes ∨ img.inodeType 1 ≠ 1 ∨
      ∀ blknum ∈ img.ownedBlocks 1, img.Maps (blknum * 512) 512 := by
  obtain ⟨g, scan, layout, accepts⟩ := exists_accepts accepted
  by_cases inhabited : ∃ inum, img.InUse inum
  · have root := accepts.root_isDirectory inhabited.choose_spec
    have consistent := accepts.consistent layout small inhabited
      fun entry member => by
        obtain ⟨slot, child⟩ := List.mem_filter.mp member
        obtain ⟨directory, located⟩ := img.mem_slots.mp slot
        exact inTable entry.1 (.inl directory.1) directory.2 entry.2 located
          child
    exact iff_of_true
      (lists_of_consistent consistent (loadable_of_accepts accepts small))
      (.inl root.1.2.1)
  · have unused : ∀ inum, ¬img.InUse inum :=
      fun inum inUse => inhabited ⟨inum, inUse⟩
    have mapped : img.Maps (Image.inodeOffset 1) 64 := by
      have := (main_eq_ok_iff.mp
        (myfsck_eq_exited_zero_iff.mp accepted).1).1
      unfold Image.Maps Image.mapped Image.inodeOffset
      omega
    rw [lists_iff_of_unused unused]
    by_cases directory : img.inodeType 1 = 1
    · have outside : ¬1 < img.sbNinodes := fun inside =>
        unused 1 ⟨Nat.le_refl 1, inside, by omega⟩
      have childless : ∀ entry ∈ img.directoryDirents 1,
          entry.isChild = false := by
        intro entry member
        by_contra child
        rw [Bool.not_eq_false] at child
        have named := inTable 1 (.inr rfl) directory entry member child
        simp only [Dirent.isChild, Bool.and_eq_true, bne_iff_ne] at child
        omega
      rw [lsDir_returns_iff_of_childless mapped directory childless]
      simp [outside, directory]
    · refine iff_of_true ⟨.nil, 1, fun fuel enough => ?_⟩
        (.inr (.inl directory))
      have type : img.Maps (Image.inodeOffset 1) 2 := by
        unfold Image.Maps at mapped ⊢
        omega
      exact lsDir_of_le enough (lsDir_of_inodeType_ne type directory)

theorem lists_sample : Lists Image.sample :=
  (lists_iff_of_accepted Image.sample "" (by decide +kernel)
    (by decide +kernel) (by
      have tabled : ∀ inum < Image.sample.sbNinodes,
          Image.sample.inodeType inum = 1 →
            ∀ entry ∈ Image.sample.directoryDirents inum,
              entry.isChild = true → entry.inum < Image.sample.sbNinodes := by
        decide +kernel
      rintro inum (inUse | rfl)
      · exact tabled inum inUse.2.1
      · exact tabled 1 (by decide +kernel))).mpr
    (.inl (by decide +kernel))

/-- An empty inode table of one slot, followed by a directory inode in the slot
of the root, whose only block is block 1000. -/
def rootless : Image where
  stSize := 3584
  byte offset := (([(512, 7), (516, 3), (520, 1), (1088, 1), (1100, 232),
    (1101, 3)] : List (Nat × UInt8)).lookup offset).getD 0

/-- The checker accepts it, and `lsfs` does not survive the root. -/
theorem lsDir_rootless :
    rootless.sbSize ≤ 8388608 ∧ myfsck rootless = .exited 0 "" ∧
      (∀ inum, rootless.InUse inum ∨ inum = 1 →
        rootless.inodeType inum = 1 →
          ∀ entry ∈ rootless.directoryDirents inum, entry.isChild = true →
            entry.inum < rootless.sbNinodes) ∧
      (∀ fuel, lsDir rootless (fuel + 1) 1 = .error .unmapped) ∧
      ¬Lists rootless := by
  have crash : ∀ fuel, lsDir rootless (fuel + 1) 1 = .error .unmapped := by
    intro fuel
    have typeLoad : loadType rootless 1 = .ok 1 := by decide +kernel
    have nlinkLoad : loadNlink rootless 1 = .ok 0 := by decide +kernel
    have addrLoad : loadAddr rootless 1 0 = .ok 1000 := by decide +kernel
    have direntLoad : ∀ entry : Dirent,
        load rootless (blkptr 1000 + 16 * 0) 16 entry = .error .unmapped :=
      fun entry => if_neg (by decide +kernel)
    have direct : walkAddresses rootless (lsDir rootless fuel)
        (loadAddr rootless 1) 12 = .error .unmapped := by
      simp only [walkAddresses, walkDirblock, List.range_eq_range',
        List.range'_succ, listAll, addrLoad, direntLoad, bind, Except.bind]
      rfl
    simp only [lsDir, typeLoad, nlinkLoad, direct, bind, Except.bind]
    rfl
  refine ⟨by decide +kernel, by decide +kernel, ?_, crash, ?_⟩
  · rintro inum (inUse | rfl)
    · have ninodes : rootless.sbNinodes = 1 := by decide +kernel
      have := inUse.1
      have := inUse.2.1
      omega
    · decide +kernel
  · rintro ⟨listing, ⟨depth, returns⟩, -⟩
    have called := returns (depth + 1) (by omega)
    rw [crash] at called
    cases called

end LinuxKernelDev.Lsfs
