import LinuxKernelDev.MkfsDemand
import LinuxKernelDev.MkfsEvents

/-!
# How many inodes a host tree takes

`ialloc` does not compare its number with the size of the inode table.  A
directory takes an inode, and so does the first link of a file; a later link
takes another one if the hard link map does not find it.
-/

namespace LinuxKernelDev.Mkfs

open LinkedChunks

namespace FileSystem

/-- The map has only files with some host inode numbers. -/
def Seen (fs : FileSystem) (seen : Finset UInt32) : Prop :=
  ∀ curr ∈ fs.process.links.used,
    (fs.process.links.cell curr).value.hostINode ∈ seen

/-- The number of inodes grows by the number of new host inode numbers at
least. -/
structure Takes (fs next : FileSystem) (seen more : Finset UInt32)
    (directories most : Nat) : Prop where
  known : next.Seen more
  least : fs.freeinode + more.card + directories ≤ next.freeinode + seen.card
  most : next.freeinode ≤ fs.freeinode + most

section Steps

variable {fs next : FileSystem} {seen : Finset UInt32}

theorem Seen.openFile (known : fs.Seen seen) : fs.openFile.Seen seen := by
  unfold Seen
  rw [openFile_links]
  exact known

/-- A file that the map finds is one that it has seen. -/
theorem Seen.fetch (known : fs.Seen seen) (hostINode nlinks : UInt32)
    (chunk : Option Chunk) :
    Takes fs (fs.fetch hostINode nlinks chunk).2 seen (insert hostINode seen)
      0 1 := by
  have more : seen ⊆ insert hostINode seen := Finset.subset_insert _ _
  have card := Finset.card_insert_le hostINode seen
  cases found : findNode hostINode fs.process.links with
  | none =>
      simp only [FileSystem.fetch, found]
      refine ⟨fun curr member => more (known curr member), ?_, Nat.le_refl _⟩
      simp only [stop, create]
      omega
  | some result =>
    cases result with
    | missing last =>
      cases chunk with
      | none =>
          simp only [FileSystem.fetch, found]
          refine ⟨fun curr member => more (known curr member), ?_,
            Nat.le_refl _⟩
          simp only [stop, create]
          omega
      | some chunk =>
          rw [fetch_new found]
          refine ⟨fun curr member => ?_, ?_, Nat.le_refl _⟩
          · rcases used_addNode member with new | ⟨old, same⟩
            · exact Finset.mem_insert.mpr (.inl (congrArg
                HardLinkMapNode.hostINode new))
            · exact more (same ▸ known curr old)
          · simp only [setLinks, create]
            omega
    | found last curr =>
        obtain ⟨present, number⟩ := Chunks.mem_used_of_search found
        have host := known curr present
        rw [of_decide_eq_true number] at host
        rw [fetch_found found, Finset.insert_eq_of_mem host]
        refine ⟨fun other member => ?_, Nat.le_refl _, Nat.le_succ _⟩
        obtain ⟨old, -, same⟩ := used_useLink member
        exact Eq.mpr (congrArg (· ∈ seen) same) (known other old)

theorem Takes.of_openFile {more : Finset UInt32} {directories most : Nat}
    (takes : Takes fs.openFile next seen more directories most) :
    Takes fs next seen more directories most := by
  obtain ⟨known, least, most⟩ := takes
  rw [openFile_freeinode] at least most
  exact ⟨known, least, most⟩

theorem Takes.trans {middle : FileSystem} {more all : Finset UInt32}
    {directories others most further : Nat}
    (first : Takes fs middle seen more directories most)
    (second : Takes middle next more all others further) :
    Takes fs next seen all (directories + others) (most + further) := by
  have least := first.least
  have leastNext := second.least
  have upper := first.most
  have upperNext := second.most
  exact ⟨second.known, by omega, by omega⟩

theorem Seen.addFile (known : fs.Seen seen) (curInode : Nat) (name : HostName)
    (stIno stNlink : UInt64) (contents : List UInt8) (chunk : Option Chunk) :
    Takes fs (fs.addFile curInode name stIno stNlink contents chunk) seen
      (insert stIno.toUInt32 seen) 0 1 := by
  refine Takes.of_openFile ?_
  have known := known.openFile
  obtain ⟨knownNext, least, most⟩ :=
    known.fetch stIno.toUInt32 stNlink.toUInt32 chunk
  have card := Finset.card_insert_le stIno.toUInt32 seen
  simp only [FileSystem.addFile]
  split_ifs
  · exact ⟨knownNext, least, most⟩
  · exact ⟨knownNext, least, most⟩
  · refine ⟨fun curr member => Finset.mem_insert_of_mem (known curr member), ?_,
      Nat.le_refl _⟩
    simp only [enter, modify, closeFile, setDescriptors, create]
    omega

/-- A directory that is opened takes one inode and leaves the map. -/
theorem Seen.openDirectory (known : fs.Seen seen) (curInode : Nat) :
    Takes fs ((fs.create (.directory [])).addDirHead fs.freeinode curInode)
      seen seen 1 1 := by
  have freeinode := freeinode_open fs curInode
  refine ⟨?_, by omega, freeinode.le⟩
  unfold Seen
  rw [links_addDirHead]
  exact known

theorem Seen.addEntries (known : fs.Seen seen) (curInode : Nat)
    (curDir : HostDir) :
    Takes fs (fs.addEntries curInode curDir) seen
      (seen ∪ (hosts curDir.calls).toFinset) curDir.subdirs.length
      (curDir.files.length + curDir.subdirs.length) := by
  induction curDir generalizing fs seen curInode with
  | nil =>
      have none : seen ∪ (hosts (HostDir.nil).calls).toFinset = seen :=
        Finset.union_empty seen
      rw [none]
      exact ⟨known, Nat.le_refl _, Nat.le_refl _⟩
  | file name stIno stNlink contents chunk rest ih =>
      have first := known.addFile curInode name stIno stNlink contents chunk
      have both := first.trans (ih first.known curInode)
      have more : seen ∪ (hosts (HostDir.file name stIno stNlink contents chunk
          rest).calls).toFinset =
            insert stIno.toUInt32 seen ∪ (hosts rest.calls).toFinset := by
        rw [Finset.insert_union, ← Finset.union_insert, ← List.toFinset_cons]
        rfl
      rw [more]
      refine ⟨both.known, (Nat.zero_add rest.subdirs.length) ▸ both.least,
        both.most.trans (Nat.add_le_add_left ?_ _)⟩
      rw [HostDir.files, HostDir.subdirs, List.length_cons]
      omega
  | dir name children rest childrenIh restIh =>
      have opening := known.openFile.openDirectory curInode
      have inner := childrenIh opening.known fs.openFile.freeinode
      rw [FileSystem.addEntries]
      generalize ((fs.openFile.create (.directory [])).addDirHead
        fs.openFile.freeinode curInode).addEntries fs.openFile.freeinode
          children = full at *
      -- Closing the directory changes neither the numbers nor the map.
      have closed : ((full.modify fs.openFile.freeinode
        Inode.fixSize).closeFile.enter curInode
          ⟨fs.openFile.freeinode, name.field⟩).Seen _ := inner.known
      obtain ⟨knownNext, least, most⟩ := restIh closed curInode
      have all := ((opening.trans inner).trans
        ⟨knownNext, least, most⟩).of_openFile
      have more : seen ∪ (hosts (HostDir.dir name children
          rest).calls).toFinset = seen ∪ (hosts children.calls).toFinset ∪
            (hosts rest.calls).toFinset := by
        rw [HostDir.calls, hosts_append, List.toFinset_append,
          Finset.union_assoc]
      have lower := all.least
      have upper := all.most
      rw [more, HostDir.files, HostDir.subdirs, List.length_append,
        List.length_append, List.length_cons]
      exact ⟨knownNext, by omega, by omega⟩

end Steps

/-- A tree takes an inode for each directory, one at least for each host inode
number, and one at most for each entry. -/
theorem freeinode_build (descriptors : Nat) (fileTreeRoot : HostDir) :
    2 + ((hosts fileTreeRoot.calls).dedup.length +
        fileTreeRoot.subdirs.length) ≤
          (build descriptors fileTreeRoot).freeinode ∧
      (build descriptors fileTreeRoot).freeinode ≤
        2 + (fileTreeRoot.files.length + fileTreeRoot.subdirs.length) := by
  have unused : (((initial descriptors).create (.directory [])).addDirHead 1
      1).Seen ∅ := nofun
  obtain ⟨-, least, most⟩ := unused.addEntries 1 fileTreeRoot
  rw [Finset.empty_union, List.card_toFinset, Finset.card_empty] at least
  have started : (((initial descriptors).create (.directory [])).addDirHead 1
    1).freeinode = 2 := rfl
  have fixed : (build descriptors fileTreeRoot).freeinode =
    ((((initial descriptors).create (.directory [])).addDirHead 1 1).addEntries
      1 fileTreeRoot).freeinode := rfl
  omega

end FileSystem

end LinuxKernelDev.Mkfs
