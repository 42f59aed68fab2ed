import LinuxKernelDev.MkfsLinkCalls
import LinuxKernelDev.MkfsRun
import Mathlib.Data.Finset.Card

/-!
# Hard links get their inodes

From an empty map, successive calls of `fetchHardLink` return one inode for each
host inode exactly if no host inode comes again after the map that had it was
dropped.  This is so whenever the list that the calls search ends with `NULL`;
the source does not see to that, and a list that leads back into itself is
searched for ever.
-/

namespace LinuxKernelDev.Mkfs

open LinkedChunks

/-- Successive calls of `fetchHardLink`.  Returns the inode that each host inode
got, in order. -/
def fetchAll : List LinkCall → State → Option (List (UInt32 × Nat) × State)
  | [], s => some ([], s)
  | call :: calls, s => do
      let (fsINode, s) ←
        fetchHardLink call.hostINode call.nlinks call.chunk s
      let (fetched, s) ← fetchAll calls s
      some ((call.hostINode, fsINode) :: fetched, s)

/-- Two calls return the same inode exactly if they are for the same host
inode. -/
def SameFiles (fetched : List (UInt32 × Nat)) : Prop :=
  ∀ first ∈ fetched, ∀ second ∈ fetched,
    first.2 = second.2 ↔ first.1 = second.1

variable {s next : State} {hostINode nlinks : UInt32} {chunk : Option Chunk}
  {fsINode : Nat} {call : LinkCall} {calls past future : List LinkCall}
  {fetched : List (UInt32 × Nat)}

/-- What a call can do: find a node of the map and use a link of it, or create
a file and add a node for it. -/
theorem fetchHardLink_cases
    (taken : fetchHardLink hostINode nlinks chunk s = some (fsINode, next)) :
    (∃ last curr,
      findNode hostINode s.process.links = some (.found last curr) ∧
      fsINode = (s.process.links.cell curr).value.fsINode ∧
      next = s.setLinks (useLink s.process.links last curr)) ∨
    ∃ last new created,
      findNode hostINode s.process.links = some (.missing last) ∧
      chunk = some new ∧ ialloc 2 s = some (fsINode, created) ∧
      next = created.setLinks (addNode created.process.links last new
        ⟨fsINode, hostINode, nlinks - 1⟩) := by
  obtain ⟨result, searched, rest⟩ := Option.bind_eq_some_iff.mp taken
  cases result with
  | found last curr =>
      obtain ⟨rfl, rfl⟩ := Prod.mk.inj (Option.some.inj rest)
      exact .inl ⟨last, curr, searched, rfl, rfl⟩
  | missing last =>
      obtain ⟨new, isChunk, rest⟩ := Option.bind_eq_some_iff.mp rest
      obtain ⟨⟨inum, created⟩, allocated, same⟩ :=
        Option.bind_eq_some_iff.mp rest
      obtain ⟨rfl, rfl⟩ := Prod.mk.inj (Option.some.inj same)
      exact .inr ⟨last, new, created, searched, isChunk, allocated, rfl⟩

section Ranges

/-- The nodes of the map are for inodes from `base` on. -/
def MapsFrom (base : Nat) (s : State) : Prop :=
  base ≤ s.freeinode ∧ ∀ curr ∈ s.process.links.used,
    base ≤ (s.process.links.cell curr).value.fsINode ∧
      (s.process.links.cell curr).value.fsINode < s.freeinode

variable {base : Nat}

theorem MapsFrom.fetchHardLink (maps : MapsFrom base s)
    (taken : fetchHardLink hostINode nlinks chunk s = some (fsINode, next)) :
    MapsFrom base next ∧ s.freeinode ≤ next.freeinode ∧
      base ≤ fsINode ∧ fsINode < next.freeinode := by
  obtain ⟨start, nodes⟩ := maps
  rcases fetchHardLink_cases taken with
    ⟨last, curr, searched, rfl, rfl⟩ | ⟨last, new, created, -, -, allocated, rfl⟩
  · have found := nodes curr (Chunks.mem_used_of_search searched).1
    refine ⟨⟨start, fun other member => ?_⟩, Nat.le_refl _, found.1, found.2⟩
    obtain ⟨old, same, -⟩ := FileSystem.used_useLink member
    have before := nodes other old
    rw [← same] at before
    exact before
  · obtain ⟨rfl, disk, rfl⟩ := exists_disk_of_ialloc allocated
    refine ⟨⟨Nat.le_succ_of_le start, fun other member => ?_⟩, Nat.le_succ _,
      start, Nat.lt_succ_self _⟩
    rcases FileSystem.used_addNode member with same | ⟨old, same⟩
    · have node := congrArg HardLinkMapNode.fsINode same
      exact ⟨start.trans_eq node.symm, node.trans_lt (Nat.lt_succ_self _)⟩
    · have before := nodes other old
      rw [← same] at before
      exact ⟨before.1, Nat.lt_succ_of_lt before.2⟩

end Ranges

section Histories

theorem SameFiles.sublist {part : List (UInt32 × Nat)}
    (same : SameFiles fetched) (subset : part ⊆ fetched) : SameFiles part :=
  fun first firstMem second secondMem =>
    same first (subset firstMem) second (subset secondMem)

theorem SameFiles.append_found (same : SameFiles fetched)
    {entry : UInt32 × Nat} (known : entry ∈ fetched) :
    SameFiles (fetched ++ [entry]) := by
  refine same.sublist fun other member => ?_
  rcases List.mem_append.mp member with old | new
  · exact old
  · rwa [List.mem_singleton.mp new]

theorem SameFiles.append_new (same : SameFiles fetched) {entry : UInt32 × Nat}
    (fresh : ∀ other ∈ fetched, other.2 ≠ entry.2 ∧ other.1 ≠ entry.1) :
    SameFiles (fetched ++ [entry]) := by
  intro first firstMem second secondMem
  rcases List.mem_append.mp firstMem with firstMem | firstMem <;>
    rcases List.mem_append.mp secondMem with secondMem | secondMem
  · exact same first firstMem second secondMem
  · rw [List.mem_singleton.mp secondMem]
    exact iff_of_false (fresh first firstMem).1 (fresh first firstMem).2
  · rw [List.mem_singleton.mp firstMem]
    exact iff_of_false (fresh second secondMem).1.symm
      (fresh second secondMem).2.symm
  · rw [List.mem_singleton.mp firstMem, List.mem_singleton.mp secondMem]
    exact iff_of_true rfl rfl

/-- The state after some calls, on an image of full size.  The inodes are right
exactly if no file came again after the map that had it was dropped. -/
structure History (base : Nat) (past : List LinkCall)
    (fetched : List (UInt32 × Nat)) (s : State) : Prop where
  whole : s.disk.stSize = 524288
  hosts : fetched.map Prod.fst = Mkfs.hosts past
  below : ∀ entry ∈ fetched, entry.2 < s.freeinode
  tracks : ∃ path, Tracks (stretch past) s.process.links path ∧
    ∀ curr ∈ path, ((s.process.links.cell curr).value.hostINode,
      (s.process.links.cell curr).value.fsINode) ∈ fetched
  same : (SameFiles fetched ∧
      s.freeinode = base + (Mkfs.hosts past).toFinset.card) ↔ Kept past

variable {base : Nat}

theorem ialloc_returns (whole : s.disk.stSize = 524288)
    (room : s.freeinode < 8176) (type : Nat) :
    ∃ next, ialloc type s = some (s.freeinode, next) ∧
      next.disk.stSize = 524288 ∧ next.freeinode = s.freeinode + 1 ∧
      next.process = s.process := by
  have written := @winode_eq { s with freeinode := s.freeinode + 1 }
    s.freeinode whole room
    ⟨type, 0, 0, if type = 1 then 2 else 1, 0, fun _ => 0⟩
  rw [ialloc]
  simp only [written, Option.bind_eq_bind, Option.bind_some]
  exact ⟨_, rfl, whole, rfl, rfl⟩

theorem toFinset_hosts_concat (past : List LinkCall) (call : LinkCall) :
    (hosts (past ++ [call])).toFinset =
      insert call.hostINode (hosts past).toFinset := by
  ext hostINode
  simp [hosts, eq_comm]

theorem History.hosts_concat (history : History base past fetched s)
    (call : LinkCall) (fsINode : Nat) :
    (fetched ++ [(call.hostINode, fsINode)]).map Prod.fst =
      Mkfs.hosts (past ++ [call]) := by
  rw [List.map_append, history.hosts, hosts_append]
  rfl

/-- An inode that was returned before keeps the inodes as right as they are. -/
theorem History.same_found (history : History base past fetched s)
    (known : call.hostINode ∈ Mkfs.hosts (stretch past).calls) {fsINode : Nat}
    (entry : (call.hostINode, fsINode) ∈ fetched) :
    (SameFiles (fetched ++ [(call.hostINode, fsINode)]) ∧
      s.freeinode = base + (Mkfs.hosts (past ++ [call])).toFinset.card) ↔
        Kept (past ++ [call]) := by
  have inPast : call.hostINode ∈ Mkfs.hosts past :=
    ((stretch_suffix past).sublist.map _).subset known
  rw [kept_concat_iff, ← history.same, toFinset_hosts_concat,
    Finset.insert_eq_of_mem (List.mem_toFinset.mpr inPast),
    and_iff_left fun _ => known]
  refine and_congr ⟨fun same => ?_, fun same => ?_⟩ Iff.rfl
  · exact same.sublist (List.subset_append_left _ _)
  · exact same.append_found entry

/-- A new inode is right exactly if the file did not come before. -/
theorem History.same_new (history : History base past fetched s)
    (unknown : call.hostINode ∉ Mkfs.hosts (stretch past).calls) :
    (SameFiles (fetched ++ [(call.hostINode, s.freeinode)]) ∧
      s.freeinode + 1 = base + (Mkfs.hosts (past ++ [call])).toFinset.card) ↔
        Kept (past ++ [call]) := by
  have fetchedNew : ∀ other ∈ fetched, other.2 ≠ s.freeinode :=
    fun other member => (history.below other member).ne
  rw [kept_concat_iff, ← history.same, toFinset_hosts_concat]
  by_cases inPast : call.hostINode ∈ Mkfs.hosts past
  · -- The file had another inode before the map was dropped.
    refine iff_of_false (fun both => ?_) fun both => unknown (both.2 inPast)
    rw [← history.hosts] at inPast
    obtain ⟨entry, member, host⟩ := List.mem_map.mp inPast
    have equal := (both.1 entry (List.mem_append_left _ member)
      (call.hostINode, s.freeinode) (by simp)).mpr host
    exact fetchedNew entry member equal
  · have fresh : ∀ other ∈ fetched, other.1 ≠ call.hostINode :=
      fun other member equal => inPast (by
        rw [← history.hosts, ← equal]
        exact List.mem_map_of_mem member)
    rw [Finset.card_insert_of_notMem (by rwa [List.mem_toFinset]),
      and_iff_left fun known => absurd known inPast, ← Nat.add_assoc,
      Nat.add_right_cancel_iff]
    refine and_congr ⟨fun same => ?_, fun same => ?_⟩ Iff.rfl
    · exact same.sublist (List.subset_append_left _ _)
    · exact same.append_new fun other member =>
        ⟨fetchedNew other member, fresh other member⟩

/-- A call for a file of the stretch returns its inode. -/
theorem History.found (history : History base past fetched s)
    (steady : Steady (past ++ call :: future))
    (known : call.hostINode ∈ Mkfs.hosts (stretch past).calls) :
    ∃ fsINode next,
      fetchHardLink call.hostINode call.nlinks call.chunk s =
        some (fsINode, next) ∧
      next.freeinode = s.freeinode ∧
      History base (past ++ [call])
        (fetched ++ [(call.hostINode, fsINode)]) next := by
  obtain ⟨path, tracks, nodes⟩ := history.tracks
  obtain ⟨last, curr, rest, searched, inPath, host, subset, tracksNext⟩ :=
    tracks.call_found steady known
  have entry := nodes curr inPath
  rw [host] at entry
  refine ⟨(s.process.links.cell curr).value.fsINode,
    s.setLinks (useLink s.process.links last curr), ?_, rfl,
    history.whole, history.hosts_concat _ _, fun other member => ?_,
    ⟨rest, tracksNext, fun other member => ?_⟩,
    history.same_found known entry⟩
  · rw [fetchHardLink, searched]
    rfl
  · rcases List.mem_append.mp member with old | new
    · exact history.below other old
    · rw [List.mem_singleton.mp new]
      exact history.below _ entry
  · obtain ⟨-, sameInode, sameHost⟩ := FileSystem.used_useLink
      (tracksNext.segment.subset member)
    refine List.mem_append_left _ ?_
    simp only [State.setLinks, sameInode, sameHost]
    exact nodes other (subset member)

/-- A call for a file that is not in the stretch creates one. -/
theorem History.new (history : History base past fetched s)
    (steady : Steady (past ++ call :: future))
    (terminated : Terminated (past ++ call :: future))
    (room : s.freeinode < 8176)
    (unknown : call.hostINode ∉ Mkfs.hosts (stretch past).calls) :
    ∃ fsINode next,
      fetchHardLink call.hostINode call.nlinks call.chunk s =
        some (fsINode, next) ∧
      next.freeinode = s.freeinode + 1 ∧
      History base (past ++ [call])
        (fetched ++ [(call.hostINode, fsINode)]) next := by
  obtain ⟨path, tracks, nodes⟩ := history.tracks
  obtain ⟨chunk, allocated, searched, tracksNext⟩ :=
    tracks.call_new steady terminated unknown
  obtain ⟨created, made, whole, free, process⟩ :=
    ialloc_returns history.whole room 2
  refine ⟨s.freeinode, created.setLinks (addNode s.process.links path.getLast?
    chunk ⟨s.freeinode, call.hostINode, call.nlinks - 1⟩), ?_, free,
    whole, history.hosts_concat _ _, fun other member => ?_,
    ⟨_, tracksNext s.freeinode, fun other member => ?_⟩, ?_⟩
  · rw [fetchHardLink, searched, allocated]
    simp only [made, process, Option.bind_eq_bind, Option.bind_some]
  · change other.2 < created.freeinode
    rw [free]
    rcases List.mem_append.mp member with old | new
    · exact Nat.lt_succ_of_lt (history.below other old)
    · rw [List.mem_singleton.mp new]
      exact Nat.lt_succ_self _
  · have inUse := (tracksNext s.freeinode).segment.subset member
    simp only [State.setLinks]
    rcases FileSystem.used_addNode inUse with same | ⟨old, same⟩
    · rw [same]
      exact List.mem_append_right _ List.mem_cons_self
    · rw [same]
      rcases List.mem_append.mp member with inPath | isNew
      · exact List.mem_append_left _ (nodes other inPath)
      · rw [List.mem_singleton.mp isNew] at old
        exact absurd old (chunk.fresh _)
  · change _ ∧ created.freeinode = _ ↔ _
    rw [free]
    exact history.same_new unknown

/-- The calls return as long as there is room for the inodes. -/
theorem History.fetchAll (history : History base past fetched s)
    (steady : Steady (past ++ calls)) (terminated : Terminated (past ++ calls))
    (room : s.freeinode + calls.length ≤ 8176) :
    ∃ later final, fetchAll calls s = some (later, final) ∧
      History base (past ++ calls) (fetched ++ later) final := by
  induction calls generalizing past fetched s with
  | nil =>
      refine ⟨[], s, rfl, ?_⟩
      rwa [List.append_nil, List.append_nil]
  | cons call calls ih =>
      rw [List.length_cons] at room
      obtain ⟨fsINode, next, taken, free, historyNext⟩ :
          ∃ fsINode next, fetchHardLink call.hostINode call.nlinks call.chunk
            s = some (fsINode, next) ∧ next.freeinode ≤ s.freeinode + 1 ∧
            History base (past ++ [call])
              (fetched ++ [(call.hostINode, fsINode)]) next := by
        by_cases known : call.hostINode ∈ Mkfs.hosts (stretch past).calls
        · obtain ⟨fsINode, next, taken, free, rest⟩ :=
            history.found steady known
          exact ⟨fsINode, next, taken, free.trans_le (Nat.le_succ _), rest⟩
        · obtain ⟨fsINode, next, taken, free, rest⟩ :=
            history.new steady terminated (by omega) known
          exact ⟨fsINode, next, taken, free.le, rest⟩
      rw [List.append_cons past] at steady terminated ⊢
      obtain ⟨later, final, others, done⟩ :=
        ih historyNext steady terminated (by omega)
      refine ⟨(call.hostINode, fsINode) :: later, final, ?_, ?_⟩
      · simp [Mkfs.fetchAll, taken, others]
      · rwa [List.append_cons fetched]

end Histories

/-- From an empty map, the calls return one inode for each host inode, and
create one file for each, exactly if no host inode comes again after the map
that had it was dropped. -/
theorem fetchAll_sameFiles_iff (whole : s.disk.stSize = 524288)
    (room : s.freeinode + calls.length ≤ 8176)
    (empty : s.process.links.root = none) (steady : Steady calls)
    (terminated : Terminated calls) :
    ∃ fetched final, fetchAll calls s = some (fetched, final) ∧
      ((SameFiles fetched ∧
          final.freeinode = s.freeinode + (hosts calls).toFinset.card) ↔
        Kept calls) := by
  have start : History s.freeinode [] [] s := by
    refine ⟨whole, rfl, List.forall_mem_nil _, ⟨[], .empty empty,
      List.forall_mem_nil _⟩, iff_of_true ⟨?_, rfl⟩ ?_⟩
    · exact fun _ member => absurd member List.not_mem_nil
    · exact fun before _ _ split => absurd split (by simp)
  obtain ⟨fetched, final, done, history⟩ :=
    start.fetchAll steady terminated room
  exact ⟨fetched, final, done, history.same⟩

/-- Two files whose links come in turn.  The last links of both come before the
map is dropped. -/
def nestedCalls : List LinkCall :=
  [⟨10, 2, some (.placed 1 none)⟩, ⟨11, 3, some (.placed 2 (some 7))⟩,
    ⟨11, 3, none⟩, ⟨10, 2, none⟩]

theorem fetchAll_sameFiles_nestedCalls :
    ∃ s fetched final, mkfs 995 200 1024 = some s ∧
      fetchAll nestedCalls s = some (fetched, final) ∧
        SameFiles fetched ∧ final.freeinode = 3 := by
  obtain ⟨image, whole, -, started⟩ := exists_mkfs
  obtain ⟨fetched, final, done, same⟩ := @fetchAll_sameFiles_iff
    (State.store (State.start image) 512
      ([1024, 995, 200].flatMap (ByteMemory.littleEndian 4))) nestedCalls whole
    (show 1 + 4 ≤ 8176 by decide) rfl ⟨by decide, by decide, by decide⟩
    (by decide)
  exact ⟨_, fetched, final, started, done, same.mpr (by decide)⟩

/-- Two files with two links each, seen in turn: the second link of the first
drops the map, and the second file gets another inode.  With other files, a chunk
that is used again still has the pointer it had in the list, and the next search
does not end. -/
theorem fetchAll_drops_map :
    (((mkfs 995 200 1024).bind (fetchAll
        [⟨10, 2, some (.placed 1 none)⟩, ⟨11, 2, some (.placed 2 none)⟩,
          ⟨10, 2, none⟩, ⟨11, 2, some (.placed 1 (some 2))⟩])).map Prod.fst =
      some [(10, 1), (11, 2), (10, 1), (11, 3)] ∧
    ¬ SameFiles [(10, 1), (11, 2), (10, 1), (11, 3)]) ∧
    ((mkfs 995 200 1024).bind (fetchAll
        [⟨10, 2, some (.placed 1 none)⟩, ⟨11, 2, some (.placed 2 none)⟩,
          ⟨12, 2, some (.placed 3 none)⟩, ⟨11, 2, none⟩,
          ⟨13, 2, some (.placed 2 (some 3))⟩])).isSome ∧
    ((mkfs 995 200 1024).bind (fetchAll
        [⟨10, 2, some (.placed 1 none)⟩, ⟨11, 2, some (.placed 2 none)⟩,
          ⟨12, 2, some (.placed 3 none)⟩, ⟨11, 2, none⟩,
          ⟨13, 2, some (.placed 2 (some 3))⟩,
          ⟨14, 1, some (.placed 4 none)⟩])).isNone := by
  refine ⟨⟨by decide +kernel, fun same => ?_⟩, by decide +kernel,
    by decide +kernel⟩
  have equal := (same (11, 2) (by simp) (11, 3) (by simp)).mpr rfl
  simp at equal

end LinuxKernelDev.Mkfs
