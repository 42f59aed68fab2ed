import LinuxKernelDev.MkfsRefinement

/-!
# A run of `mkfs` stores the file system

The loop of `add_dir` on the image is followed from the cleared image to the
bitmap: a run ends with an image that stores the built file system, or stops
because that file system does not fit the format.
-/

namespace LinuxKernelDev.Mkfs

open ByteMemory Function LoopRules LinkedChunks

section Steps

variable {s : State} {fs : FileSystem} {stack : List Nat} {curInode : Nat}

/-- There are fewer than `2 ^ 15` entries. -/
theorem FileSystem.Fits.named_length_le (fits : fs.Fits)
    (shape : fs.Shape stack) : fs.named.length ≤ 31840 := by
  have each : ∀ inum ∈ List.range' 1 (fs.freeinode - 1),
      (fs.names inum).length ≤
        32 * Layout.cost (fs.inodes inum).body.bytes.length := by
    intro inum member
    rw [List.mem_range'_1] at member
    have names : (fs.names inum).length ≤ (fs.dirents inum).length := by
      rw [FileSystem.names, FileSystem.children, List.length_map,
        List.length_drop]
      omega
    have cost : (fs.inodes inum).body.bytes.length ≤
        512 * Layout.cost (fs.inodes inum).body.bytes.length := by
      unfold Layout.cost Layout.claim
      split_ifs <;> omega
    cases body : (fs.inodes inum).body with
    | file data =>
        simp [FileSystem.names, FileSystem.children, FileSystem.dirents, body,
          Body.dirents]
    | directory dirents =>
        have directory : fs.IsDirectory inum :=
          ⟨member.1, by omega, by rw [body]; rfl⟩
        have bytes := (shape.directories inum directory).bytes_length directory
        rw [body] at bytes cost
        omega
  have total := List.sum_le_sum each
  have blocks := fits.blocks
  rw [List.sum_map_mul_left] at total
  rw [FileSystem.named, List.length_flatMap]
  unfold FileSystem.blocks at blocks
  omega

/-- The directory that is being filled has the size of its entries. -/
theorem shape_size (shape : fs.Shape (curInode :: stack)) :
    (fs.inodes curInode).size = (fs.inodes curInode).body.bytes.length := by
  have ok := shape.directories curInode
    (shape.opened curInode List.mem_cons_self)
  rw [ok.size, if_pos List.mem_cons_self]

/-- An entry for another inode that has changed goes to the directory that is
being filled. -/
theorem Refines.enterChanged (shape : fs.Shape (curInode :: stack))
    {next : FileSystem} (grown : fs.Extends next)
    (same : next.inodes curInode = fs.inodes curInode)
    (refines : Refines s next) (entry : Dirent) :
    Outcome (next.enter curInode entry)
      (Mkfs.iappend curInode entry.bytes s) := by
  have directory := shape.opened curInode List.mem_cons_self
  refine refines.enter (directory.extend grown) ?_ entry
  rw [same]
  exact shape_size shape

/-- A file that the map has gets another entry. -/
theorem Refines.addLinkEntry (shape : fs.Shape (curInode :: stack))
    {child : Nat} (file : fs.IsFile child) {links : Chunks HardLinkMapNode}
    (refines : Refines s (fs.setLinks links)) (entry : Dirent) :
    Outcome (((fs.setLinks links).modify child Inode.link).enter
        curInode entry)
      ((Mkfs.addLink child s).bind (Mkfs.iappend curInode entry.bytes)) := by
  obtain ⟨layout, stored⟩ : Refines _ fs := refines.withProcess fs.process
  have directory := shape.opened curInode List.mem_cons_self
  have different : curInode ≠ child := fun equal =>
    file.not_isDirectory (equal ▸ directory)
  have nlink := (shape.files child file).nlink
  have count : fs.named.count child ≤ 31840 :=
    List.count_le_length.trans (stored.fits.named_length_le shape)
  obtain ⟨next, linked, kept⟩ := refines.addLink file.1 file.2.1
    (show (fs.inodes child).nlink + 1 < 65536 by omega)
  rw [linked, Option.bind_some]
  exact kept.enterChanged shape
    (((FileSystem.Extends.refl fs).process
      { fs.process with links := links }).modify child Inode.Grows.link)
    (FileSystem.modify_of_ne different _) entry

/-- A new file gets its data and its first entry. -/
theorem Refines.addNewEntry (shape : fs.Shape (curInode :: stack))
    {process : Process}
    (refines : Refines s { fs.create (.file []) with process := process })
    (contents : List UInt8) (entry : Dirent) :
    Outcome (({ fs.create (.file []) with process := process }.modify
        fs.freeinode (Inode.append contents)).closeFile.enter curInode entry)
      ((Mkfs.copyFile fs.freeinode contents s).bind fun s =>
        Mkfs.iappend curInode entry.bytes (Mkfs.closeFile s)) := by
  have directory := shape.opened curInode List.mem_cons_self
  have positive : 1 ≤ fs.freeinode := shape.root.2.1.le
  have inode : ({ fs.create (.file []) with
      process := process } : FileSystem).inodes fs.freeinode =
        ⟨1, 0, .file []⟩ :=
    update_self _ _ _
  have grown := ((((FileSystem.Extends.refl fs).create (.file [])).process
    process).modify fs.freeinode (Inode.Grows.append contents)).closeFile
  refine (refines.copyFile ⟨positive, Nat.lt_succ_self _, by rw [inode]; rfl⟩
    (by rw [inode]; rfl) contents).bind
      ((FileSystem.Extends.refl _).closeFile.enter curInode entry)
        fun s kept => ?_
  refine kept.closeFile.enterChanged shape grown ?_ entry
  exact (FileSystem.modify_of_ne directory.2.1.ne _).trans
    (update_of_ne directory.2.1.ne _ _)

theorem Refines.addFile (refines : Refines s fs)
    (shape : fs.Shape (curInode :: stack)) (name : HostName)
    (stIno stNlink : UInt64) (contents : List UInt8) (chunk : Option Chunk)
    (table : (fs.addFile curInode name stIno stNlink contents
      chunk).freeinode ≤ 208) :
    Outcome (fs.addFile curInode name stIno stNlink contents chunk)
      (Mkfs.addFile curInode name stIno stNlink contents chunk s) := by
  unfold Mkfs.addFile
  refine refines.openFile.bind ((FileSystem.Extends.refl
    _).addFile_of_openFile _ _ _ _ _ _) fun s refines => ?_
  have shape := shape.openFile
  unfold FileSystem.addFile at table ⊢
  generalize fs.openFile = fs at *
  obtain ⟨layout, stored⟩ := id refines
  dsimp only at table ⊢
  by_cases linked : 0 < stNlink
  · have room : (fs.fetch stIno.toUInt32 stNlink.toUInt32 chunk).2.freeinode ≤
        208 := by
      rw [if_pos linked] at table
      split_ifs at table <;> exact table
    rw [if_pos linked, if_pos linked, stored.freeinode]
    rcases refines.fetchHardLink _ _ _ room with
      ⟨failed, stopped⟩ | ⟨next, fetched, kept⟩
    · rw [failed]
      intro fits
      split_ifs at fits <;> exact Bool.noConfusion (stopped.symm.trans
        fits.running)
    · simp only [fetched, Option.bind_eq_bind, Option.bind_some]
      cases found : findNode stIno.toUInt32 fs.process.links with
      | none =>
          obtain ⟨_, keptStored⟩ := kept
          have running := keptStored.running
          simp [FileSystem.fetch, found, FileSystem.stop] at running
      | some result =>
        cases result with
        | found last curr =>
            have file := shape.links curr (Chunks.mem_used_of_search found).1
            rw [FileSystem.fetch_found found] at kept ⊢
            simp only [ne_eq, file.2.1.ne, not_false_eq_true, if_true]
            exact kept.addLinkEntry shape file _
        | missing last =>
          cases chunk with
          | none =>
              obtain ⟨_, keptStored⟩ := kept
              have running := keptStored.running
              simp [FileSystem.fetch, found, FileSystem.stop] at running
          | some chunk =>
              rw [FileSystem.fetch_new found] at kept ⊢
              simp only [ne_eq, not_true_eq_false, if_false]
              exact kept.addNewEntry shape contents _
  · rw [if_neg linked] at table
    obtain ⟨next, allocated, kept⟩ :=
      refines.ialloc table (rfl : (Body.file []).bytes = [])
    simp only [if_neg linked, show Mkfs.ialloc 2 s = _ from allocated,
      Option.bind_eq_bind, Option.bind_some]
    exact @Refines.addNewEntry next fs stack curInode shape fs.process kept
      contents _

/-- A new directory gets its entries `.` and `..`. -/
theorem Refines.addDirHead (shape : fs.Shape (curInode :: stack))
    (refines : Refines s (fs.create (.directory []))) :
    Outcome ((fs.create (.directory [])).addDirHead fs.freeinode curInode)
      (Mkfs.addDirHead fs.freeinode curInode s) := by
  have current := shape.opened curInode List.mem_cons_self
  have positive : 1 ≤ fs.freeinode := shape.root.2.1.le
  have different : fs.freeinode ≠ curInode := current.2.1.ne'
  have inode : (fs.create (.directory [])).inodes fs.freeinode =
      ⟨2, 0, .directory []⟩ := update_self _ _ _
  have old : (fs.create (.directory [])).inodes curInode =
      fs.inodes curInode := update_of_ne different.symm _ _
  have directory : (fs.create (.directory [])).IsDirectory fs.freeinode :=
    ⟨positive, Nat.lt_succ_self _, by rw [inode]; rfl⟩
  simp only [Mkfs.addDirHead, FileSystem.addDirHead, if_pos different]
  have entered := (FileSystem.Extends.refl (fs.create (.directory []))).enter
    fs.freeinode ⟨fs.freeinode, dotName⟩
  refine (refines.enter directory (by rw [inode]; rfl) _).bind
    (((FileSystem.Extends.refl _).modify _ Inode.Grows.link).enter _ _)
    fun s refines => ?_
  obtain ⟨layout, stored⟩ := id refines
  have nlink := (shape.directories curInode current).nlink
  have table := stored.table
  have freeinode : ((fs.create (.directory [])).enter fs.freeinode
      ⟨fs.freeinode, dotName⟩).freeinode = fs.freeinode + 1 := rfl
  have kept : ((fs.create (.directory [])).enter fs.freeinode
      ⟨fs.freeinode, dotName⟩).inodes curInode = fs.inodes curInode :=
    (FileSystem.enter_of_ne different.symm _).trans old
  obtain ⟨next, linked, linkedRefines⟩ := refines.addLink current.1
    (current.2.1.trans (Nat.lt_succ_self _)) (by rw [kept]; omega)
  rw [linked]
  refine linkedRefines.enter ((directory.extend entered).extend
    ((FileSystem.Extends.refl _).modify _ Inode.Grows.link)) ?_ _
  rw [FileSystem.modify_of_ne different, FileSystem.enter_self, inode]
  simp [Inode.enter, Body.enter, Body.bytes]

/-- The loop of `add_dir` builds the file system or stops. -/
theorem Refines.addEntries (refines : Refines s fs)
    (shape : fs.Shape (curInode :: stack)) (curDir : HostDir)
    (table : (fs.addEntries curInode curDir).freeinode ≤ 208) :
    Outcome (fs.addEntries curInode curDir)
      (Mkfs.addEntries curInode curDir s) := by
  induction curDir generalizing s fs curInode stack with
  | nil => exact refines
  | file name stIno stNlink contents chunk rest ih =>
      have grown : (fs.addFile curInode name stIno stNlink contents
          chunk).Extends (fs.addEntries curInode
            (.file name stIno stNlink contents chunk rest)) :=
        (FileSystem.Extends.refl _).addEntries _ _
      exact (refines.addFile shape name stIno stNlink contents chunk
        (grown.freeinode.trans table)).bind grown fun s refines =>
          ih refines (shape.addFile name stIno stNlink contents chunk) table
  | dir name children rest childrenIh restIh =>
      have shape := shape.openFile
      have stopped := refines.openFile
      rw [Mkfs.addEntries]
      rw [FileSystem.addEntries] at table ⊢
      generalize fs.openFile = fs at *
      dsimp only at table ⊢
      have current := shape.opened curInode List.mem_cons_self
      have openedShape := shape.openDirectory
      have filledShape := openedShape.addEntries children
      have closedShape := (shape.closeFilled filledShape name).closeFile
      have fromFilled := ((FileSystem.Extends.refl
        (((fs.create (.directory [])).addDirHead fs.freeinode
          curInode).addEntries fs.freeinode children)).modify fs.freeinode
            Inode.Grows.fixSize).closeFile.enter curInode
              ⟨fs.freeinode, name.field⟩
      have fromClosed := (FileSystem.Extends.refl
        (((((fs.create (.directory [])).addDirHead fs.freeinode
          curInode).addEntries fs.freeinode children).modify fs.freeinode
            Inode.fixSize).closeFile.enter curInode
              ⟨fs.freeinode, name.field⟩)).addEntries curInode rest
      have fromFilled := fromFilled.trans fromClosed
      have fromOpened := ((FileSystem.Extends.refl
        ((fs.create (.directory [])).addDirHead fs.freeinode
          curInode)).addEntries fs.freeinode children).trans fromFilled
      have fromCreated := ((FileSystem.Extends.refl
        (fs.create (.directory []))).addDirHead fs.freeinode curInode).trans
          fromOpened
      refine stopped.bind (((FileSystem.Extends.refl fs).create _).trans
        fromCreated) fun s refines => ?_
      obtain ⟨next, allocated, created⟩ := refines.ialloc
        (fromCreated.freeinode.trans table)
        (rfl : (Body.directory []).bytes = [])
      simp only [show Mkfs.ialloc 1 s = _ from allocated,
        Option.bind_eq_bind, Option.bind_some]
      refine (created.addDirHead shape).bind fromOpened fun s opened => ?_
      refine (childrenIh opened openedShape
        (fromFilled.freeinode.trans table)).bind fromFilled fun s filled => ?_
      have child := filledShape.opened fs.freeinode List.mem_cons_self
      obtain ⟨next, fixed, kept⟩ := filled.fixSize child.1 child.2.1
        (shape_size filledShape)
      have member : curInode ∈ fs.freeinode :: curInode :: stack := by simp
      have directory := filledShape.opened curInode member
      have size := (filledShape.directories curInode directory).size
      rw [if_pos member] at size
      rw [fixed, Option.bind_some]
      refine (kept.closeFile.enter (directory.extend
        ((FileSystem.Extends.refl _).modify _
          Inode.Grows.fixSize).closeFile) ?_ _).bind fromClosed
            fun s closed => restIh closed closedShape table
      refine Eq.trans (congrArg Inode.size (FileSystem.modify_of_ne
        current.2.1.ne _)) (size.trans ?_)
      exact (congrArg (fun inode => inode.body.bytes.length)
        (FileSystem.modify_of_ne current.2.1.ne _)).symm

end Steps

section Start

/-- The state before anything is allocated. -/
def State.start (image : Image) : State :=
  ⟨image, 1, 29, 29, Process.initial 0, []⟩

/-- The blocks that have been cleared. -/
theorem foldl_wsect_zero (s : State) (empty : s.disk.stSize = 0)
    (blocks : Nat) :
    ∃ image : Image,
      (List.range blocks).foldl (fun s i => wsect i (fun _ => 0) s) s =
        { s with disk := image } ∧
      image.stSize = blocks * 512 ∧ ∀ address, image.mem address = 0 := by
  induction blocks with
  | zero =>
      refine ⟨s.disk, rfl, by rw [empty, Nat.zero_mul], fun address => ?_⟩
      simp [Image.mem, empty]
  | succ blocks ih =>
      obtain ⟨image, folded, size, zero⟩ := ih
      rw [List.range_succ, List.foldl_append, folded]
      refine ⟨_, rfl, ?_, fun address => ?_⟩
      · simp only [size]
        omega
      · have written : writeBlock image.mem 512 blocks (fun _ => 0) address =
            0 := by
          unfold writeBlock
          split_ifs
          · rfl
          · exact zero address
        simp only [Image.mem, written, ite_self]

/-- The state after `mkfs`: an image of zeros, with the superblock written. -/
theorem exists_mkfs :
    ∃ image : Image, image.stSize = 524288 ∧ (∀ address, image.mem address = 0) ∧
      mkfs 995 200 1024 = some (State.store (State.start image) 512
        ([1024, 995, 200].flatMap (littleEndian 4))) := by
  obtain ⟨image, cleared, size, zero⟩ := foldl_wsect_zero
    (State.start ⟨0, fun _ => 0⟩) rfl 1024
  have window : (fun _ => 0 : Sector) =
      fun index => (State.start image).disk.mem (1 * 512 + index) :=
    funext fun index => (zero _).symm
  have lengths : 0 + ([1024, 995, 200].flatMap (littleEndian 4)).length ≤
      512 := by
    rw [length_flatMap_littleEndian]
    decide
  have patched := @wsect_patch (State.start image) 1 size (by decide) 0 _
    lengths
  rw [← window] at patched
  refine ⟨image, size, zero, ?_⟩
  unfold mkfs
  exact congrArg some ((congrArg (wsect 1 _) cleared).trans patched)

/-- The state after `mkfs` stores the empty file system. -/
theorem refines_mkfs :
    ∃ s, mkfs 995 200 1024 = some s ∧ Refines s (FileSystem.initial 0) := by
  obtain ⟨image, size, zero, started⟩ := exists_mkfs
  have whole : (State.start image).disk.stSize = 524288 := size
  have lengths : ([1024, 995, 200].flatMap (littleEndian 4)).length = 12 := by
    rw [length_flatMap_littleEndian]
    rfl
  have memory : (State.store (State.start image) 512
      ([1024, 995, 200].flatMap (littleEndian 4))).disk.mem =
        patch image.mem 512 ([1024, 995, 200].flatMap (littleEndian 4)) :=
    State.store_mem whole (by omega)
  have behind : ∀ address, 1024 ≤ address →
      (State.store (State.start image) 512
        ([1024, 995, 200].flatMap (littleEndian 4))).disk.mem address = 0 :=
    fun address above => by
      rw [memory, patch_of_le (by omega), zero]
  have field : ∀ index value, [1024, 995, 200][index]? = some value →
      word (State.store (State.start image) 512
        ([1024, 995, 200].flatMap (littleEndian 4))).disk.mem 4
          (512 + 4 * index) = value % 256 ^ 4 :=
    fun index value found => by
      rw [memory]
      exact word_patch_flatMap image.mem 512 4 found
  refine ⟨_, started, fun _ => ⟨[], 0⟩, ?_⟩
  exact
    { laid := ⟨whole, rfl, le_rfl, show 29 ≤ 1024 by decide,
        fun inum positive below =>
          absurd (positive.trans_lt below) (lt_irrefl 1),
        List.Perm.refl _, fun blknum above _ position _ =>
          behind _ (by have first : 29 ≤ blknum := above; omega)⟩
      freeinode := rfl
      process := rfl
      running := rfl
      positive := le_rfl
      table := by decide
      record := fun inum positive below =>
        absurd (positive.trans_lt below) (lt_irrefl 1)
      full := fun inum positive below =>
        absurd (positive.trans_lt below) (lt_irrefl 1)
      lengths := fun inum positive below =>
        absurd (positive.trans_lt below) (lt_irrefl 1)
      free := fun inum _ _ => word_eq_zero fun index _ =>
        behind _ (by unfold Image.inodeOffset; omega)
      size := field 0 _ rfl
      nblocks := field 1 _ rfl
      ninodes := field 2 _ rfl }

/-- The root directory gets its entries `.` and `..`. -/
theorem refines_root {s : State} {descriptors : Nat}
    (refines : Refines s
      ((FileSystem.initial descriptors).create (.directory []))) :
    Outcome (((FileSystem.initial descriptors).create
      (.directory [])).addDirHead 1 1) (addDirHead 1 1 s) := by
  have directory : ((FileSystem.initial descriptors).create
      (.directory [])).IsDirectory 1 :=
    ⟨le_rfl, Nat.lt_succ_self 1, rfl⟩
  have entered := (FileSystem.Extends.refl ((FileSystem.initial
    descriptors).create (.directory []))).enter 1 ⟨1, dotName⟩
  simp only [addDirHead, FileSystem.addDirHead, ne_eq, not_true_eq_false,
    if_false, Option.bind_eq_bind, Option.bind_some]
  refine (refines.enter directory rfl _).bind
    ((FileSystem.Extends.refl _).enter _ _) fun s refines => ?_
  exact refines.enter (directory.extend entered) rfl _

/-- A run of `mkfs` builds an image of the file system, or stops because that
does not fit. -/
theorem outcome_addDir (descriptors : Nat) (fileTreeRoot : HostDir)
    (table : (FileSystem.build descriptors fileTreeRoot).freeinode ≤ 208) :
    ∃ s, mkfs 995 200 1024 = some s ∧
      ∃ next, ialloc 1 s = some (1, next) ∧
        Outcome (FileSystem.build descriptors fileTreeRoot)
          (addDir fileTreeRoot 1 1
            { next with process := Process.initial descriptors }) := by
  obtain ⟨s, started, empty⟩ := refines_mkfs
  obtain ⟨next, allocated, created⟩ := empty.ialloc
    (show 1 < 208 by decide) (rfl : (Body.directory []).bytes = [])
  refine ⟨s, started, next, allocated, ?_⟩
  have shape := FileSystem.shape_root descriptors
  have filledShape := shape.addEntries fileTreeRoot
  have fromFilled := (FileSystem.Extends.refl
    ((((FileSystem.initial descriptors).create (.directory [])).addDirHead 1
      1).addEntries 1 fileTreeRoot)).modify 1 Inode.Grows.fixSize
  have fromOpened := ((FileSystem.Extends.refl
    (((FileSystem.initial descriptors).create (.directory [])).addDirHead 1
      1)).addEntries 1 fileTreeRoot).trans fromFilled
  have opened : Refines { next with process := Process.initial descriptors }
      ((FileSystem.initial descriptors).create (.directory [])) :=
    created.withProcess (Process.initial descriptors)
  unfold addDir
  refine (refines_root opened).bind fromOpened fun s opened => ?_
  refine (opened.addEntries shape fileTreeRoot table).bind fromFilled
    fun s filled => ?_
  obtain ⟨final, fixed, kept⟩ := filled.fixSize le_rfl
    filledShape.root.2.1 (shape_size filledShape)
  rw [fixed]
  exact kept

/-- The image is the one that stores the file system, with the bitmap of the
allocated blocks. -/
theorem exists_written (descriptors : Nat) (fileTreeRoot : HostDir)
    (table : (FileSystem.build descriptors fileTreeRoot).freeinode ≤ 208)
    (fits : (FileSystem.build descriptors fileTreeRoot).Fits) :
    ∃ s, Refines s (FileSystem.build descriptors fileTreeRoot) ∧
      written descriptors fileTreeRoot =
        some (wsect 28 (bitmap s.freeblock) s) := by
  obtain ⟨s, started, next, allocated, outcome⟩ :=
    outcome_addDir descriptors fileTreeRoot table
  cases added : addDir fileTreeRoot 1 1
      { next with process := Process.initial descriptors } with
  | none =>
      rw [added] at outcome
      exact absurd fits outcome
  | some final =>
      rw [added] at outcome
      obtain ⟨layout, stored⟩ := id outcome
      have last := stored.laid.blocks.last
      refine ⟨final, outcome, ?_⟩
      simp only [written, started, allocated, added, balloc, stored.laid.used,
        if_pos (show final.freeblock < 4096 by omega), Option.bind_eq_bind,
        Option.bind_some, if_true]

theorem exists_main (descriptors : Nat) (fileTreeRoot : HostDir)
    (table : (FileSystem.build descriptors fileTreeRoot).freeinode ≤ 208)
    (fits : (FileSystem.build descriptors fileTreeRoot).Fits) :
    ∃ s, Refines s (FileSystem.build descriptors fileTreeRoot) ∧
      main descriptors fileTreeRoot =
        some (wsect 28 (bitmap s.freeblock) s).disk := by
  obtain ⟨s, refines, done⟩ :=
    exists_written descriptors fileTreeRoot table fits
  exact ⟨s, refines, by rw [main, done, Option.map_some]⟩

/-- The image of a file system that does not fit is not completed. -/
theorem main_eq_none (descriptors : Nat) (fileTreeRoot : HostDir)
    (table : (FileSystem.build descriptors fileTreeRoot).freeinode ≤ 208)
    (overflow : ¬(FileSystem.build descriptors fileTreeRoot).Fits) :
    main descriptors fileTreeRoot = none := by
  obtain ⟨s, started, next, allocated, outcome⟩ :=
    outcome_addDir descriptors fileTreeRoot table
  cases added : addDir fileTreeRoot 1 1
      { next with process := Process.initial descriptors } with
  | none =>
      simp only [main, written, started, allocated, added, Option.bind_eq_bind,
        Option.bind_some, Option.bind_none, if_true, Option.map_none]
  | some final =>
      rw [added] at outcome
      obtain ⟨layout, stored⟩ := outcome
      exact absurd stored.fits overflow

end Start

end LinuxKernelDev.Mkfs
