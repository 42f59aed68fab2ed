import LinuxKernelDev.MkfsLinkCalls
import LinuxKernelDev.MkfsMirror
import LinuxKernelDev.MkfsNumbers
import Mathlib.Data.List.Dedup

/-!
# What a host directory needs

The lengths of the files and directories that `mkfs` stores, and the number of
descriptors that it uses at a time, follow from the host directory alone: a
file is stored again exactly if it is not among the files that came since the
hard link map was last empty.
-/

namespace LinuxKernelDev.Mkfs

open Function LinkedChunks

namespace HostDir

/-- The calls of `fetchHardLink` for the files of a host directory. -/
def calls : HostDir → List LinkCall
  | .nil => []
  | .file _ stIno stNlink _ chunk rest =>
      ⟨stIno.toUInt32, stNlink.toUInt32, chunk⟩ :: rest.calls
  | .dir _ children rest => children.calls ++ rest.calls

/-- The bytes of the entries that a directory needs. -/
def bytes (curDir : HostDir) : Nat := 16 * (curDir.length + 2)

/-- The lengths of the files and directories below a host directory that get an
inode, in the order of their numbers. -/
def stored : HostDir → Stretch → List Nat
  | .nil, _ => []
  | .file _ stIno stNlink contents chunk rest, recent =>
      (if stIno.toUInt32 ∈ hosts recent.calls then [] else [contents.length]) ++
        rest.stored (recent.add ⟨stIno.toUInt32, stNlink.toUInt32, chunk⟩)
  | .dir _ children rest, recent =>
      children.bytes :: (children.stored recent ++
        rest.stored (children.calls.foldl Stretch.add recent))

/-- The number of links that are met again.  Each leaves a file open. -/
def leaked : HostDir → Stretch → Nat
  | .nil, _ => 0
  | .file _ stIno stNlink _ chunk rest, recent =>
      (if stIno.toUInt32 ∈ hosts recent.calls then 1 else 0) +
        rest.leaked (recent.add ⟨stIno.toUInt32, stNlink.toUInt32, chunk⟩)
  | .dir _ children rest, recent =>
      children.leaked recent +
        rest.leaked (children.calls.foldl Stretch.add recent)

/-- The number of descriptors that are in use at a time. -/
def opens : HostDir → Stretch → Nat
  | .nil, _ => 0
  | .file _ stIno stNlink _ chunk rest, recent =>
      max 1 ((if stIno.toUInt32 ∈ hosts recent.calls then 1 else 0) +
        rest.opens (recent.add ⟨stIno.toUInt32, stNlink.toUInt32, chunk⟩))
  | .dir _ children rest, recent =>
      max (1 + children.opens recent) (children.leaked recent +
        rest.opens (children.calls.foldl Stretch.add recent))

/-- The files of a tree, one for each link: inode number and size. -/
def files : HostDir → List (UInt64 × Nat)
  | .nil => []
  | .file _ stIno _ contents _ rest => (stIno, contents.length) :: rest.files
  | .dir _ children rest => children.files ++ rest.files

/-- A tree within the limits of the format, each file counted once. -/
structure WithinLimits (fileTreeRoot : HostDir) : Prop where
  objects : fileTreeRoot.files.dedup.length +
    fileTreeRoot.subdirs.length < 199
  files : ∀ file ∈ fileTreeRoot.files, file.2 ≤ 71680
  directories : ∀ curDir ∈ fileTreeRoot :: fileTreeRoot.subdirs,
    curDir.bytes ≤ 71680
  blocks : (fileTreeRoot.files.dedup.map fun file => Layout.cost file.2).sum +
    ((fileTreeRoot :: fileTreeRoot.subdirs).map fun curDir =>
      Layout.cost curDir.bytes).sum ≤ 995

/-- What has to be stored fits the format. -/
structure Fits (fileTreeRoot : HostDir) : Prop where
  lengths : ∀ length ∈ fileTreeRoot.bytes :: fileTreeRoot.stored .start,
    length ≤ 71680
  blocks : ((fileTreeRoot.bytes :: fileTreeRoot.stored .start).map
    Layout.cost).sum ≤ 995

end HostDir

theorem foldl_stretch (past calls : List LinkCall) :
    calls.foldl Stretch.add (stretch past) = stretch (past ++ calls) := by
  rw [stretch, stretch, List.foldl_append]

namespace HostDir

/-- The files that are stored for a host directory if the map keeps what it
knows: the first link of each. -/
structure Firsts (curDir : HostDir) (past : List LinkCall)
    (firsts : List (UInt64 × Nat)) : Prop where
  sublist : firsts.Sublist curDir.files
  apart : (firsts.map fun file => file.1.toUInt32).Nodup
  new : ∀ file ∈ firsts, file.1.toUInt32 ∉ hosts past
  all : ∀ host ∈ hosts curDir.calls, host ∈ hosts past ∨
    ∃ file ∈ firsts, file.1.toUInt32 = host
  stored : (curDir.stored (stretch past)).Perm
    (curDir.subdirs.map bytes ++ firsts.map Prod.snd)

theorem hosts_calls (curDir : HostDir) :
    hosts curDir.calls = curDir.files.map fun file => file.1.toUInt32 := by
  induction curDir with
  | nil => rfl
  | file name stIno stNlink contents chunk rest ih =>
      exact congrArg (List.cons _) ih
  | dir name children rest childrenIh restIh =>
      rw [calls, hosts_append, childrenIh, restIh, files, List.map_append]

namespace Firsts

variable {name : HostName} {stIno stNlink : UInt64} {contents : List UInt8}
  {chunk : Option Chunk} {children rest : HostDir} {past : List LinkCall}
  {firsts inner later : List (UInt64 × Nat)}

theorem known
    (next : Firsts rest (past ++ [⟨stIno.toUInt32, stNlink.toUInt32, chunk⟩])
      firsts)
    (present : stIno.toUInt32 ∈ hosts past)
    (recent : stIno.toUInt32 ∈ hosts (stretch past).calls) :
    Firsts (.file name stIno stNlink contents chunk rest) past firsts := by
  obtain ⟨sublist, apart, new, all, stored⟩ := next
  rw [stretch_concat] at stored
  simp only [hosts_append, List.mem_append, not_or] at new all
  refine ⟨sublist.cons _, apart, fun file member => (new file member).1,
    fun host member => ?_, ?_⟩
  · rcases List.mem_cons.mp member with rfl | behind
    · exact .inl present
    · refine (all host behind).imp_left fun old => old.elim id fun this => ?_
      rw [List.mem_singleton.mp this]
      exact present
  · rw [HostDir.stored, if_pos recent]
    exact stored

theorem fresh
    (next : Firsts rest (past ++ [⟨stIno.toUInt32, stNlink.toUInt32, chunk⟩])
      firsts) (absent : stIno.toUInt32 ∉ hosts past) :
    Firsts (.file name stIno stNlink contents chunk rest) past
      ((stIno, contents.length) :: firsts) := by
  obtain ⟨sublist, apart, new, all, stored⟩ := next
  rw [stretch_concat] at stored
  simp only [hosts_append, List.mem_append, not_or] at new all
  have unknown : stIno.toUInt32 ∉ hosts (stretch past).calls := fun recent =>
    absent (((stretch_suffix past).sublist.map _).subset recent)
  refine ⟨sublist.cons_cons _, ?_, List.forall_mem_cons.mpr ⟨absent,
    fun file member => (new file member).1⟩, fun host member => ?_, ?_⟩
  · refine List.nodup_cons.mpr ⟨fun again => ?_, apart⟩
    obtain ⟨file, member, equal⟩ := List.mem_map.mp again
    exact (new file member).2 (List.mem_singleton.mpr equal)
  · rcases List.mem_cons.mp member with rfl | behind
    · exact .inr ⟨_, List.mem_cons_self, rfl⟩
    · rcases all host behind with (old | this) | ⟨file, listed, equal⟩
      · exact .inl old
      · exact .inr ⟨_, List.mem_cons_self, (List.mem_singleton.mp this).symm⟩
      · exact .inr ⟨file, List.mem_cons_of_mem _ listed, equal⟩
  · rw [HostDir.stored, if_neg unknown, List.singleton_append, List.map_cons]
    exact (stored.cons _).trans List.perm_middle.symm

theorem dir (first : Firsts children past inner)
    (second : Firsts rest (past ++ children.calls) later) :
    Firsts (.dir name children rest) past (inner ++ later) := by
  obtain ⟨sublist, apart, new, all, stored⟩ := second
  simp only [hosts_append, List.mem_append, not_or] at new all
  refine ⟨first.sublist.append sublist, ?_, List.forall_mem_append.mpr
    ⟨first.new, fun file member => (new file member).1⟩,
    fun host member => ?_, ?_⟩
  · rw [List.map_append, List.nodup_append]
    refine ⟨first.apart, apart, fun host inside other behind equal => ?_⟩
    obtain ⟨file, member, rfl⟩ := List.mem_map.mp behind
    refine (new file member).2 ?_
    rw [hosts_calls, ← equal]
    exact (first.sublist.map _).subset inside
  · have before : host ∈ hosts past ∨ host ∈ hosts children.calls →
        host ∈ hosts past ∨
          ∃ file ∈ inner ++ later, file.1.toUInt32 = host := by
      rintro (old | inside)
      · exact .inl old
      · refine (first.all host inside).imp_right ?_
        rintro ⟨file, listed, equal⟩
        exact ⟨file, List.mem_append_left _ listed, equal⟩
    rw [calls, hosts_append, List.mem_append] at member
    rcases member with inside | behind
    · exact before (.inr inside)
    · rcases all host behind with earlier | ⟨file, listed, equal⟩
      · exact before earlier
      · exact .inr ⟨file, List.mem_append_right _ listed, equal⟩
  · rw [HostDir.stored, foldl_stretch, subdirs, List.map_append,
      List.map_append, List.map_cons, List.cons_append, List.cons_append]
    refine List.Perm.cons _ ((first.stored.append stored).trans ?_)
    rw [List.append_assoc, List.append_assoc]
    exact (List.perm_append_comm_assoc _ _ _).append_left _

end Firsts

theorem exists_firsts {curDir : HostDir} {past future : List LinkCall}
    (kept : Kept (past ++ (curDir.calls ++ future))) :
    ∃ firsts, Firsts curDir past firsts := by
  induction curDir generalizing past future with
  | nil => exact ⟨[], .slnil, .nil, nofun, nofun, .nil⟩
  | file name stIno stNlink contents chunk rest ih =>
      rw [calls, List.cons_append] at kept
      have known := kept past _ _ rfl
      rw [List.append_cons] at kept
      obtain ⟨firsts, next⟩ := ih kept
      by_cases present : stIno.toUInt32 ∈ hosts past
      · exact ⟨firsts, next.known present (known present)⟩
      · exact ⟨_, next.fresh present⟩
  | dir name children rest childrenIh restIh =>
      rw [calls, List.append_assoc] at kept
      obtain ⟨inner, first⟩ := childrenIh kept
      rw [← List.append_assoc] at kept
      obtain ⟨later, second⟩ := restIh kept
      exact ⟨_, first.dir second⟩

section Kept

variable {fileTreeRoot : HostDir} (kept : Kept fileTreeRoot.calls)

include kept

/-- If the map keeps what it knows, each file is stored once. -/
theorem length_stored :
    (fileTreeRoot.stored .start).length =
      fileTreeRoot.subdirs.length + (hosts fileTreeRoot.calls).dedup.length := by
  obtain ⟨firsts, sublist, apart, -, all, stored⟩ :=
    @exists_firsts fileTreeRoot [] [] (by simpa using kept)
  have same : ((hosts fileTreeRoot.calls).dedup).Perm
      (firsts.map fun file => file.1.toUInt32) := by
    refine (List.perm_ext_iff_of_nodup (List.nodup_dedup _) apart).mpr
      fun host => ?_
    rw [List.mem_dedup]
    constructor
    · intro member
      exact List.mem_map.mpr ((all host member).resolve_left List.not_mem_nil)
    · intro member
      rw [hosts_calls]
      exact (sublist.map _).subset member
  have length := stored.length_eq
  rw [List.length_append, List.length_map, List.length_map] at length
  rw [same.length_eq, List.length_map]
  exact length

theorem WithinLimits.fits (limits : fileTreeRoot.WithinLimits) :
    fileTreeRoot.Fits ∧ (fileTreeRoot.stored .start).length ≤ 198 := by
  obtain ⟨firsts, sublist, apart, -, all, stored⟩ :=
    @exists_firsts fileTreeRoot [] [] (by simpa using kept)
  have once : firsts.Subperm fileTreeRoot.files.dedup :=
    List.subperm_of_subset apart.of_map fun file member =>
      List.mem_dedup.mpr (sublist.subset member)
  have few := once.length_le
  have stored : (fileTreeRoot.stored .start).Perm
    (fileTreeRoot.subdirs.map bytes ++ firsts.map Prod.snd) := stored
  refine ⟨⟨fun length member => ?_, ?_⟩, ?_⟩
  · rw [← List.singleton_append, ((stored.append_left _).mem_iff)] at member
    rw [List.singleton_append, List.mem_cons, List.mem_append] at member
    rcases member with rfl | directory | regular
    · exact limits.directories _ List.mem_cons_self
    · obtain ⟨curDir, below, rfl⟩ := List.mem_map.mp directory
      exact limits.directories _ (List.mem_cons_of_mem _ below)
    · obtain ⟨file, first, rfl⟩ := List.mem_map.mp regular
      exact limits.files file (sublist.subset first)
  · obtain ⟨part, same, within⟩ := once
    have firstBlocks := (same.map fun file => Layout.cost file.2).sum_eq
    have fewer := (within.map fun file => Layout.cost file.2).sum_le_sum
      fun _ _ => Nat.zero_le _
    have total := ((stored.cons fileTreeRoot.bytes).map Layout.cost).sum_eq
    have blocks := limits.blocks
    simp only [List.map_cons, List.map_append, List.map_map, List.sum_cons,
      List.sum_append, comp_def] at blocks total ⊢
    omega
  · have length := stored.length_eq
    have objects := limits.objects
    rw [List.length_append, List.length_map, List.length_map] at length
    omega

end Kept

end HostDir

namespace FileSystem

/-- The lengths of some files and directories. -/
def lengths (fs : FileSystem) (first count : Nat) : List Nat :=
  (List.range' first count).map fun inum =>
    (fs.inodes inum).body.bytes.length

/-- What the loop of `add_dir` takes: the inodes with their lengths, and the
descriptors. -/
structure Tally (fs next : FileSystem) (curDir : HostDir)
    (past : List LinkCall) : Prop where
  tracks : ∃ path, Tracks (stretch (past ++ curDir.calls)) next.process.links
    path
  freeinode : next.freeinode =
    fs.freeinode + (curDir.stored (stretch past)).length
  lengths : next.lengths fs.freeinode
    (curDir.stored (stretch past)).length = curDir.stored (stretch past)
  running : next.stopped = false ↔ fs.stopped = false ∧
    curDir.opens (stretch past) ≤ fs.process.descriptors
  descriptors : next.stopped = false →
    next.process.descriptors + curDir.leaked (stretch past) =
      fs.process.descriptors

section Opening

variable {fs : FileSystem}

theorem openFile_stopped_iff :
    fs.openFile.stopped = false ↔
      fs.stopped = false ∧ 0 < fs.process.descriptors := by
  unfold openFile
  split_ifs with left
  · exact (and_iff_left left).symm
  · exact iff_of_false (Bool.true_eq_false ▸ id) fun both => left both.2

theorem openFile_descriptors (left : 0 < fs.process.descriptors) :
    fs.openFile.process.descriptors + 1 = fs.process.descriptors := by
  rw [openFile, if_pos left]
  exact Nat.sub_add_cancel left

end Opening

section Steps

variable {fs next : FileSystem} {curInode : Nat} {stack : List Nat}
  {past future : List LinkCall} {path : List Nat}

/-- Nothing but the directory that is filled changes. -/
theorem Shape.exists_filled (shape : fs.Shape (curInode :: stack))
    (curDir : HostDir) :
    ∃ files, Filled fs (fs.addEntries curInode curDir) curInode
      (fun _ _ => True) files curDir := by
  refine ⟨curDir.linked ++ fs.process.links.used.map fun curr =>
    ((fs.process.links.cell curr).value.hostINode,
      (fs.inodes (fs.process.links.cell curr).value.fsINode).body.bytes), ?_⟩
  refine filled_addEntries (fun _ => trivial) (fun _ _ _ _ _ => trivial) shape
    (fun curr member => ⟨_, List.mem_append_right _
      (List.mem_map_of_mem member), rfl, rfl⟩) (List.subset_append_left _ _)

/-- The directory that is filled gets as many entries as the host directory
has. -/
theorem Shape.bytes_addEntries (shape : fs.Shape (curInode :: stack))
    (curDir : HostDir) :
    ((fs.addEntries curInode curDir).inodes curInode).body.bytes.length =
      (fs.inodes curInode).body.bytes.length + 16 * curDir.length := by
  obtain ⟨files, filled⟩ := shape.exists_filled curDir
  obtain ⟨added, dirents, mirrors⟩ := filled.added
  have nextShape := shape.addEntries curDir
  have before := shape.opened curInode List.mem_cons_self
  have after := nextShape.opened curInode List.mem_cons_self
  rw [(nextShape.directories curInode after).bytes_length after, dirents,
    (shape.directories curInode before).bytes_length before,
    List.length_append, mirrors.length_eq, Nat.mul_add]

variable (shape : fs.Shape (curInode :: stack))
  (tracks : Tracks (stretch past) fs.process.links path)
  (name : HostName) {stIno stNlink : UInt64} (contents : List UInt8)
  {chunk : Option Chunk}
  (steady : Steady (past ++ ⟨stIno.toUInt32, stNlink.toUInt32, chunk⟩ ::
    future))

include shape tracks steady

omit shape tracks in
theorem stNlink_pos : 0 < stNlink := by
  have positive := steady.positive ⟨stIno.toUInt32, stNlink.toUInt32, chunk⟩
    (by simp)
  rw [UInt32.le_iff_toNat_le] at positive
  rw [UInt64.lt_iff_toNat_lt]
  refine Nat.pos_of_ne_zero fun zero => ?_
  obtain rfl : stNlink = 0 := UInt64.toNat_inj.mp zero
  exact Nat.not_succ_le_zero 0 positive

/-- A file of the stretch gets another entry, and stays open. -/
theorem tally_known
    (known : stIno.toUInt32 ∈ hosts (stretch past).calls) :
    Tally fs (fs.addFile curInode name stIno stNlink contents chunk)
      (.file name stIno stNlink contents chunk .nil) past := by
  have linked := stNlink_pos steady
  have stopped := @openFile_stopped_iff fs
  have left := @openFile_descriptors fs
  obtain ⟨last, curr, rest, searched, -, -, -, tracksNext⟩ :=
    tracks.call_found steady known
  have file := shape.links curr (Chunks.mem_used_of_search searched).1
  rw [addFile_found linked searched file.2.1]
  refine ⟨⟨rest, tracksNext⟩, ?_, ?_, ?_, ?_⟩
  · simp only [HostDir.stored, if_pos known]
    exact openFile_freeinode
  · simp only [HostDir.stored, if_pos known]
    rfl
  · simp only [HostDir.opens, if_pos known]
    exact stopped.trans (by simp; omega)
  · intro running
    simp only [HostDir.leaked, if_pos known]
    exact left (stopped.mp running).2

/-- A file that is not in the stretch is stored, and closed. -/
theorem tally_unknown
    (terminated : Terminated (past ++
      ⟨stIno.toUInt32, stNlink.toUInt32, chunk⟩ :: future))
    (unknown : stIno.toUInt32 ∉ hosts (stretch past).calls) :
    Tally fs (fs.addFile curInode name stIno stNlink contents chunk)
      (.file name stIno stNlink contents chunk .nil) past := by
  have linked := stNlink_pos steady
  have shape := shape.openFile
  have current := shape.opened curInode List.mem_cons_self
  have stopped := @openFile_stopped_iff fs
  have left := @openFile_descriptors fs
  rw [← openFile_links] at tracks
  obtain ⟨new, isChunk, searched, tracksNext⟩ :=
    tracks.call_new steady terminated unknown
  have added : fs.addFile curInode name stIno stNlink contents chunk =
      (((fs.openFile.create (.file [])).setLinks (addNode
        fs.openFile.process.links path.getLast? new ⟨fs.openFile.freeinode,
          stIno.toUInt32, stNlink.toUInt32 - 1⟩)).modify
            fs.openFile.freeinode (Inode.append contents)).closeFile.enter
              curInode ⟨fs.openFile.freeinode, name.field⟩ := by
    obtain rfl : chunk = some new := isChunk
    simp only [addFile, if_pos linked, fetch_new searched, ne_eq,
      not_true_eq_false, if_false]
  rw [added]
  refine ⟨⟨_, tracksNext _⟩, ?_, ?_, ?_, ?_⟩
  · simp only [HostDir.stored, if_neg unknown]
    exact congrArg (· + 1) openFile_freeinode
  · simp only [HostDir.stored, if_neg unknown]
    rw [← @openFile_freeinode fs]
    refine congrArg (fun bytes => [List.length bytes]) ?_
    rw [enter_of_ne current.2.1.ne']
    simp [closeFile, setDescriptors, modify, setLinks, create, Inode.append,
      Inode.fresh, Body.append, Body.bytes]
  · simp only [HostDir.opens, if_neg unknown]
    exact stopped.trans (by simp; omega)
  · intro running
    simp only [HostDir.leaked, if_neg unknown]
    exact left (stopped.mp running).2

theorem tally_addFile
    (terminated : Terminated (past ++
      ⟨stIno.toUInt32, stNlink.toUInt32, chunk⟩ :: future)) :
    Tally fs (fs.addFile curInode name stIno stNlink contents chunk)
      (.file name stIno stNlink contents chunk .nil) past := by
  by_cases known : stIno.toUInt32 ∈ hosts (stretch past).calls
  · exact tally_known shape tracks name contents steady known
  · exact tally_unknown shape tracks name contents steady terminated known

end Steps

section Lengths

variable {fs next : FileSystem} {curInode : Nat}

theorem lengths_add (fs : FileSystem) (first count more : Nat) :
    fs.lengths first (count + more) =
      fs.lengths first count ++ fs.lengths (first + count) more := by
  rw [lengths, ← List.range'_append_1, List.map_append]
  rfl

theorem Keeps.lengths (keeps : fs.Keeps next curInode) {first count : Nat}
    (current : curInode < first) (inside : first + count ≤ fs.freeinode) :
    next.lengths first count = fs.lengths first count := by
  refine List.map_congr_left fun inum member => ?_
  rw [List.mem_range'_1] at member
  rw [keeps.body inum (by omega) (by omega)]

end Lengths

section Runs

variable {fs mid opened full closed next : FileSystem} {curInode : Nat}
  {stack : List Nat} {past future : List LinkCall} {path : List Nat}
  {children rest : HostDir} {name : HostName}

theorem Tally.file {stIno stNlink : UInt64} {contents : List UInt8}
    {chunk : Option Chunk} (current : curInode < fs.freeinode)
    (first : Tally fs mid (.file name stIno stNlink contents chunk .nil) past)
    (keeps : mid.Keeps next curInode)
    (second : Tally mid next rest
      (past ++ [⟨stIno.toUInt32, stNlink.toUInt32, chunk⟩])) :
    Tally fs next (.file name stIno stNlink contents chunk rest) past := by
  obtain ⟨-, freeinode, lengths, running, descriptors⟩ := first
  obtain ⟨tracks, freeinodeNext, lengthsNext, runningNext, descriptorsNext⟩ :=
    second
  simp only [HostDir.stored, HostDir.opens, HostDir.leaked, List.append_nil,
    Nat.add_zero] at freeinode lengths running descriptors
  rw [stretch_concat] at freeinodeNext lengthsNext runningNext descriptorsNext
  refine ⟨?_, ?_, ?_, ?_, fun whole => ?_⟩
  · rwa [List.append_assoc] at tracks
  · rw [freeinodeNext, freeinode, HostDir.stored, List.length_append,
      Nat.add_assoc]
  · rw [HostDir.stored, List.length_append, lengths_add,
      keeps.lengths current freeinode.ge, lengths, ← freeinode, lengthsNext]
  · rw [runningNext, running, HostDir.opens]
    constructor
    · rintro ⟨⟨before, one⟩, enough⟩
      have left := descriptors (running.mpr ⟨before, one⟩)
      exact ⟨before, by omega⟩
    · rintro ⟨before, enough⟩
      have one := running.mpr ⟨before, by omega⟩
      have left := descriptors one
      exact ⟨running.mp one, by omega⟩
  · have left := descriptors (runningNext.mp whole).1
    have leftNext := descriptorsNext whole
    rw [HostDir.leaked]
    omega

theorem running_addDirHead (fs : FileSystem) (curInode parentInode : Nat) :
    (fs.addDirHead curInode parentInode).process = fs.process ∧
      (fs.addDirHead curInode parentInode).stopped = fs.stopped := by
  simp only [addDirHead]
  split_ifs <;> exact ⟨rfl, rfl⟩

/-- A directory takes an inode for itself, and a descriptor while it is
filled. -/
theorem Tally.dir (current : curInode < fs.freeinode)
    (opening : opened.freeinode = fs.freeinode + 1)
    (starts : opened.stopped = false ↔
      fs.stopped = false ∧ 0 < fs.process.descriptors)
    (taken : opened.stopped = false →
      opened.process.descriptors + 1 = fs.process.descriptors)
    (inner : Tally opened full children past)
    (entries : (full.inodes fs.freeinode).body.bytes.length = children.bytes)
    (closing : closed.freeinode = full.freeinode ∧
      closed.stopped = full.stopped ∧
      closed.process.descriptors = full.process.descriptors + 1)
    (keeps : full.Keeps next curInode)
    (later : Tally closed next rest (past ++ children.calls)) :
    Tally fs next (.dir name children rest) past := by
  obtain ⟨-, freeinode, lengths, running, descriptors⟩ := inner
  obtain ⟨tracks, freeinodeNext, lengthsNext, runningNext, descriptorsNext⟩ :=
    later
  obtain ⟨sameNumber, sameStop, released⟩ := closing
  rw [opening] at freeinode lengths
  rw [sameNumber, ← foldl_stretch] at freeinodeNext lengthsNext
  rw [sameStop, released, ← foldl_stretch] at runningNext
  rw [released, ← foldl_stretch] at descriptorsNext
  have self : next.lengths fs.freeinode 1 = [children.bytes] := by
    rw [keeps.lengths current (by omega)]
    exact congrArg (fun length => [length]) entries
  refine ⟨?_, ?_, ?_, ?_, fun whole => ?_⟩
  · rwa [List.append_assoc] at tracks
  · rw [freeinodeNext, freeinode, HostDir.stored, List.length_cons,
      List.length_append]
    omega
  · rw [HostDir.stored, List.length_cons, List.length_append, Nat.add_comm,
      lengths_add, self, lengths_add,
      keeps.lengths (by omega) freeinode.ge, lengths, ← freeinode,
      lengthsNext]
    rfl
  · rw [runningNext, running, starts, HostDir.opens]
    constructor
    · rintro ⟨⟨⟨before, one⟩, enough⟩, enoughNext⟩
      have start := starts.mpr ⟨before, one⟩
      have first := taken start
      have left := descriptors (running.mpr ⟨start, enough⟩)
      exact ⟨before, by omega⟩
    · rintro ⟨before, enough⟩
      have start := starts.mpr ⟨before, by omega⟩
      have first := taken start
      have inside : children.opens (stretch past) ≤
        opened.process.descriptors := by omega
      have left := descriptors (running.mpr ⟨start, inside⟩)
      exact ⟨⟨⟨before, by omega⟩, inside⟩, by omega⟩
  · have goes := (runningNext.mp whole).1
    have first := taken (running.mp goes).1
    have left := descriptors goes
    have leftNext := descriptorsNext whole
    rw [HostDir.leaked]
    omega

theorem bytes_head (curInode parentInode : Nat) :
    (Body.directory [⟨curInode, dotName⟩,
      ⟨parentInode, dotdotName⟩]).bytes.length = 32 := by
  simp [Body.bytes, Dirent.bytes, dotName, dotdotName]

/-- The loop of `add_dir` takes what the host directory needs. -/
theorem tally_addEntries (shape : fs.Shape (curInode :: stack))
    (tracks : Tracks (stretch past) fs.process.links path) {curDir : HostDir}
    (steady : Steady (past ++ (curDir.calls ++ future)))
    (terminated : Terminated (past ++ (curDir.calls ++ future))) :
    Tally fs (fs.addEntries curInode curDir) curDir past := by
  induction curDir generalizing fs curInode stack past future path with
  | nil =>
      refine ⟨⟨path, ?_⟩, rfl, rfl, ?_, fun _ => rfl⟩
      · rw [HostDir.calls, List.append_nil]
        exact tracks
      · exact (and_iff_left (Nat.zero_le _)).symm
  | file name stIno stNlink contents chunk rest ih =>
      rw [HostDir.calls, List.cons_append] at steady terminated
      have first := tally_addFile shape tracks name contents steady terminated
      have nextShape := shape.addFile name stIno stNlink contents chunk
      obtain ⟨files, filled⟩ := nextShape.exists_filled rest
      obtain ⟨pathNext, tracksNext⟩ := first.tracks
      rw [List.append_cons] at steady terminated
      exact first.file (shape.opened curInode List.mem_cons_self).2.1
        filled.keeps (ih nextShape tracksNext steady terminated)
  | dir name children rest childrenIh restIh =>
      rw [HostDir.calls, List.append_assoc] at steady terminated
      have shapeOpen := shape.openFile
      have openedShape := shapeOpen.openDirectory
      have fullShape := openedShape.addEntries children
      have closedShape := (shapeOpen.closeFilled fullShape name).closeFile
      have head := running_addDirHead (fs.openFile.create (.directory []))
        fs.openFile.freeinode curInode
      have current := shape.opened curInode List.mem_cons_self
      have currentOpen := shapeOpen.opened curInode List.mem_cons_self
      have openedTracks : Tracks (stretch past)
          ((fs.openFile.create (.directory [])).addDirHead
            fs.openFile.freeinode curInode).process.links path := by
        rw [head.1]
        exact openFile_links.symm ▸ tracks
      have inner := childrenIh openedShape openedTracks steady terminated
      obtain ⟨pathNext, tracksNext⟩ := inner.tracks
      obtain ⟨files, filled⟩ := closedShape.exists_filled rest
      rw [← List.append_assoc] at steady terminated
      refine Tally.dir current.2.1 ?_ ?_ ?_ inner ?_ ?_
        ((keeps_close _ _ _).trans filled.keeps)
        (restIh closedShape tracksNext steady terminated)
      · rw [freeinode_open, openFile_freeinode]
      · rw [head.2]
        exact openFile_stopped_iff
      · rw [head.1, head.2]
        exact fun running =>
          openFile_descriptors (openFile_stopped_iff.mp running).2
      · have bytes := openedShape.bytes_addEntries children
        rw [inodes_open currentOpen.2.1, if_pos rfl, bytes_head] at bytes
        rw [openFile_freeinode] at bytes ⊢
        rw [bytes, HostDir.bytes]
        omega
      · exact ⟨rfl, rfl, rfl⟩

end Runs

theorem fits_iff (fs : FileSystem) :
    fs.Fits ↔ (∀ length ∈ fs.lengths 1 (fs.freeinode - 1), length ≤ 71680) ∧
      ((fs.lengths 1 (fs.freeinode - 1)).map Layout.cost).sum ≤ 995 ∧
        fs.stopped = false := by
  have blocks : ((fs.lengths 1 (fs.freeinode - 1)).map Layout.cost).sum =
      fs.blocks := by
    rw [lengths, List.map_map]
    rfl
  rw [blocks]
  constructor
  · rintro ⟨each, enough, running⟩
    refine ⟨fun length member => ?_, enough, running⟩
    obtain ⟨inum, range, rfl⟩ := List.mem_map.mp member
    rw [List.mem_range'_1] at range
    exact each inum range.1 (by omega)
  · rintro ⟨each, enough, running⟩
    refine ⟨fun inum positive below => each _ (List.mem_map_of_mem ?_), enough,
      running⟩
    rw [List.mem_range'_1]
    omega

section Build

variable (descriptors : Nat) {fileTreeRoot : HostDir}
  (steady : Steady fileTreeRoot.calls)
  (terminated : Terminated fileTreeRoot.calls)

include steady terminated

/-- What is built for a host tree is what the tree needs. -/
theorem tally_build :
    (build descriptors fileTreeRoot).freeinode =
        2 + (fileTreeRoot.stored .start).length ∧
      (build descriptors fileTreeRoot).lengths 1
        (1 + (fileTreeRoot.stored .start).length) =
          fileTreeRoot.bytes :: fileTreeRoot.stored .start ∧
      ((build descriptors fileTreeRoot).stopped = false ↔
        fileTreeRoot.opens .start ≤ descriptors) := by
  have shape := shape_root descriptors
  have head := congrArg List.length (congrArg Body.bytes (congrArg Inode.body
    (show (((initial descriptors).create (.directory [])).addDirHead 1
      1).inodes 1 = ⟨2, 32, .directory [⟨1, dotName⟩, ⟨1, dotdotName⟩]⟩ from
        rfl)))
  have bytes := shape.bytes_addEntries fileTreeRoot
  rw [head, bytes_head] at bytes
  have tally := @tally_addEntries _ 1 [] [] [] [] shape (Tracks.empty rfl)
    fileTreeRoot (by simpa using steady) (by simpa using terminated)
  obtain ⟨-, freeinode, lengths, running, -⟩ := tally
  have same : ∀ first count, (build descriptors fileTreeRoot).lengths first
      count = ((((initial descriptors).create (.directory [])).addDirHead 1
        1).addEntries 1 fileTreeRoot).lengths first count :=
    fun first count => List.map_congr_left fun inum _ =>
      congrArg (fun body => (Body.bytes body).length)
        (body_modify Inode.fixSize (fun _ => rfl) 1 inum)
  refine ⟨freeinode, ?_, running.trans (and_iff_right rfl)⟩
  rw [same, lengths_add]
  refine congrArg₂ List.cons (bytes.trans ?_) lengths
  rw [HostDir.bytes]
  omega

theorem fits_build_iff :
    (build descriptors fileTreeRoot).Fits ↔
      fileTreeRoot.Fits ∧ fileTreeRoot.opens .start ≤ descriptors := by
  obtain ⟨freeinode, lengths, running⟩ :=
    tally_build descriptors steady terminated
  have count : (build descriptors fileTreeRoot).freeinode - 1 =
      1 + (fileTreeRoot.stored .start).length := by omega
  rw [fits_iff, count, lengths, running]
  exact ⟨fun ⟨each, blocks, enough⟩ => ⟨⟨each, blocks⟩, enough⟩,
    fun ⟨⟨each, blocks⟩, enough⟩ => ⟨each, blocks, enough⟩⟩

end Build

end FileSystem

/-- A name of one byte, neither a zero nor a dot. -/
def byteName (index : Nat) : HostName where
  bytes := [UInt8.ofNat (48 + index % 200)]
  nonempty := by simp
  noNul := by
    have nonzero : ∀ byte : Fin 200, UInt8.ofNat (48 + byte.val) ≠ 0 := by
      decide +kernel
    have this := nonzero ⟨index % 200, Nat.mod_lt _ (by decide)⟩
    exact fun mem => this (List.mem_singleton.1 mem).symm
  notDot := by
    have noDot : ∀ byte : Fin 200, UInt8.ofNat (48 + byte.val) ≠ 46 := by
      decide +kernel
    have this := noDot ⟨index % 200, Nat.mod_lt _ (by decide)⟩
    exact fun same => this (List.singleton_inj.1 same)
  notDotdot := by simp

/-- A file with a second link in a directory. -/
def linkedPair : HostDir :=
  .file (byteName 0) 5 2 [104, 105] (some (Chunk.placed 64 none))
    (.dir (byteName 1) (.file (byteName 2) 5 2 [104, 105] none .nil) .nil)

theorem steady_linkedPair : Steady linkedPair.calls :=
  ⟨by decide, by decide, by decide⟩

/-- A directory of empty directories. -/
def emptyDirs : Nat → HostDir
  | 0 => .nil
  | left + 1 => .dir (byteName left) .nil (emptyDirs left)

theorem emptyDirs_counts (count : Nat) (recent : Stretch) :
    (emptyDirs count).length = count ∧ (emptyDirs count).files = [] ∧
      (emptyDirs count).subdirs = List.replicate count .nil ∧
      (emptyDirs count).stored recent = List.replicate count 32 ∧
      (emptyDirs count).opens recent ≤ 1 := by
  induction count with
  | zero => exact ⟨rfl, rfl, rfl, rfl, Nat.zero_le _⟩
  | succ count ih =>
      obtain ⟨length, files, subdirs, stored, opens⟩ := ih
      have bytes : HostDir.nil.bytes = 32 := rfl
      simp only [emptyDirs, HostDir.length, HostDir.files, HostDir.subdirs,
        HostDir.calls, HostDir.stored, HostDir.opens, HostDir.leaked, bytes,
        length, files, subdirs, stored, List.append_nil, List.nil_append,
        List.foldl_nil, List.replicate_succ]
      exact ⟨trivial, trivial, rfl, trivial, by omega⟩

/-- There is nothing for the hard link map. -/
theorem emptyDirs_linkless (count : Nat) :
    Steady (emptyDirs count).calls ∧ Terminated (emptyDirs count).calls ∧
      Kept (emptyDirs count).calls := by
  have calls : (emptyDirs count).calls = [] := by
    induction count with
    | zero => rfl
    | succ count ih => exact ih
  rw [calls]
  exact ⟨⟨nofun, nofun, nofun⟩, by decide, by decide⟩

end LinuxKernelDev.Mkfs
