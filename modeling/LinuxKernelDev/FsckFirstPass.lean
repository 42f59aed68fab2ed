import LinuxKernelDev.FsckScanSemantics

/-!
# The tables built by the first pass

The first pass leaves five tables behind.  This file describes them by the
list of all block claims and the list of all directory entries read, in scan
order, and shows that the pass succeeds exactly when the claims are pairwise
distinct and every inode satisfies a condition of its own.
-/

namespace LinuxKernelDev.Fsck

open Function LoopRules

section Records

/-- Whether an entry read for directory `record.1` counts as a reference to
`inum`.  The root's own `.` counts as a reference to the root. -/
def refersTo (inum : Nat) (record : Nat × Dirent) : Bool :=
  (record.2.isChild && record.2.inum == inum) ||
    (record.2.isSelf && record.1 == 1 && inum == 1)

/-- The write to `parentdotdot` caused by an entry. -/
def dotdotWrite (record : Nat × Dirent) : Option (Nat × Int) :=
  if record.2.isParent then some (record.1, record.2.inum) else none

/-- The write to `parententry` caused by an entry. -/
def entryWrite (img : Image) (record : Nat × Dirent) : Option (Nat × Int) :=
  if record.2.isChild ∧ img.inodeType record.2.inum = 1 then
    some (record.2.inum, Int.bmod record.1 4294967296)
  else
    none

/-- The reference tables change as the listed entries prescribe. -/
structure Records (img : Image) (records : List (Nat × Dirent))
    (before after : Scan) : Prop where
  references : ∀ (inum : Nat) (count : Int),
    before.inodeindirent inum = Int.bmod count 4294967296 →
      after.inodeindirent inum =
        Int.bmod (count + records.countP (refersTo inum)) 4294967296
  dotdot : after.parentdotdot =
    applyWrites before.parentdotdot (records.filterMap dotdotWrite)
  entry : after.parententry =
    applyWrites before.parententry (records.filterMap (entryWrite img))

theorem Records.of_eq {img : Image} {before after : Scan}
    (references : after.inodeindirent = before.inodeindirent)
    (dotdot : after.parentdotdot = before.parentdotdot)
    (entry : after.parententry = before.parententry) :
    Records img [] before after where
  references inum count start := by simp [references, start]
  dotdot := by simp [dotdot]
  entry := by simp [entry]

theorem Records.trans {img : Image} {first second : List (Nat × Dirent)}
    {before middle after : Scan} (left : Records img first before middle)
    (right : Records img second middle after) :
    Records img (first ++ second) before after where
  references inum count start := by
    rw [right.references inum _ (left.references inum count start)]
    simp [Int.add_assoc]
  dotdot := by
    rw [right.dotdot, left.dotdot, List.filterMap_append, applyWrites_append]
  entry := by
    rw [right.entry, left.entry, List.filterMap_append, applyWrites_append]

theorem countReference_references {scan : Scan} {inum : Nat} (other : Nat)
    {count : Int}
    (start : scan.inodeindirent inum = Int.bmod count 4294967296) :
    (scan.countReference other).inodeindirent inum =
      Int.bmod (count + if other = inum then 1 else 0) 4294967296 := by
  by_cases same : other = inum
  · subst same
    simp [Scan.countReference, start, Int.bmod_add_bmod]
  · have different : inum ≠ other := Ne.symm same
    simp [Scan.countReference, start, same, different]

theorem applyDirent_records (img : Image) (currinodenum : Nat) (scan : Scan)
    (entry : Dirent) :
    Records img [(currinodenum, entry)] scan
      (applyDirent img currinodenum scan entry) := by
  by_cases unused : entry.inum = 0
  · constructor <;>
      simp +contextual [applyDirent, unused, refersTo, dotdotWrite, entryWrite,
        Dirent.isChild, Dirent.isSelf, Dirent.isParent]
  by_cases dot : isDot entry.name
  · have notDotdot := isDotdot_eq_false_of_isDot dot
    by_cases root : currinodenum = 1
    · refine ⟨fun inum count start => ?_, ?_, ?_⟩
      · have counted := countReference_references 1 start
        by_cases self : inum = 1
        · subst self
          simpa [applyDirent, unused, dot, root, refersTo, Dirent.isChild,
            Dirent.isSelf] using counted
        · simpa [applyDirent, unused, dot, root, refersTo, Dirent.isChild,
            Dirent.isSelf, self, Ne.symm self] using counted
      · simp [applyDirent, unused, dot, notDotdot, dotdotWrite,
          Dirent.isParent]
      · simp [applyDirent, unused, dot, entryWrite, Dirent.isChild]
    · constructor <;>
        simp +contextual [applyDirent, unused, dot, notDotdot, root, refersTo,
          dotdotWrite, entryWrite, Dirent.isChild, Dirent.isSelf,
          Dirent.isParent]
  by_cases dotdot : isDotdot entry.name
  · constructor <;>
      simp +contextual [applyDirent, unused, dot, dotdot, refersTo, dotdotWrite,
        entryWrite, Dirent.isChild, Dirent.isSelf, Dirent.isParent,
        applyWrites]
  · refine ⟨fun inum count start => ?_, ?_, ?_⟩
    · have counted := countReference_references entry.inum start
      by_cases self : entry.inum = inum
      · subst self
        simpa [applyDirent, unused, dot, dotdot, refersTo, Dirent.isChild,
          Dirent.isSelf] using counted
      · simpa [applyDirent, unused, dot, dotdot, refersTo, Dirent.isChild,
          Dirent.isSelf, self] using counted
    · simp [applyDirent, unused, dot, dotdot, dotdotWrite, Dirent.isParent]
    · by_cases directory : img.inodeType entry.inum = 1
      · simp [applyDirent, unused, dot, dotdot, entryWrite, Dirent.isChild,
          directory, applyWrites]
      · simp [applyDirent, unused, dot, dotdot, entryWrite, Dirent.isChild,
          directory]

/-- The counters and the fields a directory entry does not touch. -/
theorem applyDirent_counts (img : Image) (currinodenum : Nat) (scan : Scan)
    (entry : Dirent) :
    (applyDirent img currinodenum scan entry).blkvisited = scan.blkvisited ∧
      (applyDirent img currinodenum scan entry).usedinode =
        scan.usedinode ∧
      (applyDirent img currinodenum scan entry).blkcnt = scan.blkcnt ∧
      (applyDirent img currinodenum scan entry).curcnt =
        scan.curcnt + [entry].countP Dirent.isSelf ∧
      (applyDirent img currinodenum scan entry).parcnt =
        scan.parcnt + [entry].countP Dirent.isParent := by
  by_cases unused : entry.inum = 0
  · simp [applyDirent, unused, Dirent.isSelf, Dirent.isParent]
  by_cases dot : isDot entry.name
  · simp [applyDirent, unused, dot, Dirent.isSelf, Dirent.isParent,
      isDotdot_eq_false_of_isDot dot]
  by_cases dotdot : isDotdot entry.name
  · simp [applyDirent, unused, dot, dotdot, Dirent.isSelf, Dirent.isParent]
  · simp [applyDirent, unused, dot, dotdot, Dirent.isSelf, Dirent.isParent]

end Records

section Visits

/-- What a scan step does apart from claiming blocks: `entries` are read for
the directory `currinodenum`, and `blocks` data blocks are counted. -/
structure Reads (img : Image) (currinodenum : Nat) (entries : List Dirent)
    (blocks : Nat) (before after : Scan) : Prop where
  records : Records img (entries.map (Prod.mk currinodenum)) before after
  usedinode : after.usedinode = before.usedinode
  curcnt : after.curcnt = before.curcnt + entries.countP Dirent.isSelf
  parcnt : after.parcnt = before.parcnt + entries.countP Dirent.isParent
  blkcnt : after.blkcnt = before.blkcnt + blocks

theorem Reads.refl (img : Image) (currinodenum : Nat) (scan : Scan) :
    Reads img currinodenum [] 0 scan scan :=
  ⟨.of_eq rfl rfl rfl, rfl, by simp, by simp, by simp⟩

theorem Reads.trans {img : Image} {currinodenum : Nat}
    {first second : List Dirent} {firstBlocks secondBlocks : Nat}
    {before middle after : Scan}
    (left : Reads img currinodenum first firstBlocks before middle)
    (right : Reads img currinodenum second secondBlocks middle after) :
    Reads img currinodenum (first ++ second) (firstBlocks + secondBlocks)
      before after where
  records := by
    rw [List.map_append]
    exact left.records.trans right.records
  usedinode := right.usedinode.trans left.usedinode
  curcnt := by rw [right.curcnt, left.curcnt, List.countP_append]; omega
  parcnt := by rw [right.parcnt, left.parcnt, List.countP_append]; omega
  blkcnt := by rw [right.blkcnt, left.blkcnt]; omega

theorem foldl_applyDirent_reads (img : Image) (currinodenum : Nat)
    (entries : List Dirent) (scan : Scan) :
    Reads img currinodenum entries 0 scan
        (entries.foldl (applyDirent img currinodenum) scan) ∧
      (entries.foldl (applyDirent img currinodenum) scan).blkvisited =
        scan.blkvisited := by
  induction entries generalizing scan with
  | nil => exact ⟨.refl _ _ _, rfl⟩
  | cons entry entries ih =>
      obtain ⟨visited, used, blocks, current, parent⟩ :=
        applyDirent_counts img currinodenum scan entry
      have head : Reads img currinodenum [entry] 0 scan
          (applyDirent img currinodenum scan entry) :=
        ⟨applyDirent_records img currinodenum scan entry, used, current,
          parent, blocks⟩
      obtain ⟨tail, tailVisited⟩ :=
        ih (applyDirent img currinodenum scan entry)
      exact ⟨head.trans tail, tailVisited.trans visited⟩

/-- The directory entries read on a visit. -/
def visitDirents (img : Image) (type : Int) (visit : Visit) : List Dirent :=
  if visit.data ∧ type = 1 then blockDirents img visit.blknum else []

theorem applyVisit_reads (img : Image) (type : Int) (currinodenum : Nat)
    (scan : Scan) (visit : Visit) :
    Reads img currinodenum (visitDirents img type visit)
      (if visit.data then 1 else 0) scan
      (applyVisit img type currinodenum scan visit) := by
  have marked : ∀ blocks : Nat, Reads img currinodenum [] blocks scan
      { scan.mark visit.blknum with blkcnt := scan.blkcnt + blocks } :=
    fun blocks => ⟨.of_eq rfl rfl rfl, rfl, by simp [Scan.mark],
      by simp [Scan.mark], rfl⟩
  unfold applyVisit visitDirents
  by_cases data : visit.data
  · by_cases directory : type = 1
    · simp only [data, directory, and_self, if_true]
      exact (marked 1).trans
        (foldl_applyDirent_reads img currinodenum _ _).1
    · simpa [data, directory] using marked 1
  · simpa [data, Scan.mark] using marked 0

theorem applyVisit_blkvisited (img : Image) (type : Int) (currinodenum : Nat)
    (scan : Scan) (visit : Visit) (blknum : Nat) :
    (applyVisit img type currinodenum scan visit).blkvisited blknum =
      (scan.blkvisited blknum || decide (blknum ∈ [visit.blknum])) := by
  have marked : ∀ blocks : Nat,
      ({ scan.mark visit.blknum with blkcnt := blocks } : Scan).blkvisited
        blknum =
      (scan.blkvisited blknum || decide (blknum ∈ [visit.blknum])) := by
    intro blocks
    by_cases same : blknum = visit.blknum <;> simp [Scan.mark, same]
  unfold applyVisit
  by_cases data : visit.data
  · by_cases directory : type = 1
    · simp only [data, directory, if_true]
      rw [(foldl_applyDirent_reads img currinodenum _ _).2]
      exact marked (scan.blkcnt + 1)
    · simpa [data, directory] using marked (scan.blkcnt + 1)
  · simpa [data] using marked scan.blkcnt

theorem foldl_applyVisit_reads (img : Image) (type : Int) (currinodenum : Nat)
    (visits : List Visit) (scan : Scan) :
    Reads img currinodenum (visits.flatMap (visitDirents img type))
      (visits.countP Visit.data) scan
      (visits.foldl (applyVisit img type currinodenum) scan) := by
  induction visits generalizing scan with
  | nil => exact .refl _ _ _
  | cons visit visits ih =>
      have joined := (applyVisit_reads img type currinodenum scan visit).trans
        (ih (applyVisit img type currinodenum scan visit))
      simpa [List.countP_cons, Nat.add_comm] using joined

/-- The visits of a list succeed one after the other exactly when each
satisfies its own condition and the blocks are distinct and unclaimed. -/
theorem visitsOk_iff {img : Image} {g : Globals} {type : Int}
    {currinodenum : Nat} {scan : Scan} {visits : List Visit} :
    VisitsOk img g type currinodenum scan visits ↔
      (∀ visit ∈ visits, VisitOk img g type currinodenum visit) ∧
        (visits.map Visit.blknum).Nodup ∧
        ∀ blknum ∈ visits.map Visit.blknum,
          scan.blkvisited blknum = false := by
  have claiming := admits_claiming_iff Scan.blkvisited
    (fun visit => [visit.blknum]) (VisitOk img g type currinodenum)
    (applyVisit_blkvisited img type currinodenum) scan visits
  have keysEq : visits.flatMap (fun visit => [visit.blknum]) =
      visits.map Visit.blknum := by
    simp [← List.map_eq_flatMap]
  rw [keysEq] at claiming
  rw [← claiming]
  simp [VisitsOk]

end Visits

section Inodes

/-- The data blocks of an inode, without its indirect block. -/
def dataBlocks (img : Image) (inum : Nat) : List Nat :=
  img.directAddrs inum ++ indirectBlocks img inum

/-- All blocks an inode claims. -/
def claims (img : Image) (inum : Nat) : List Nat :=
  img.directAddrs inum ++
    if img.inodeAddr inum 12 = 0 then []
    else img.inodeAddr inum 12 :: indirectBlocks img inum

/-- The directory entries read for an inode. -/
def inodeDirents (img : Image) (inum : Nat) : List Dirent :=
  if img.inodeType inum = 1 then
    (dataBlocks img inum).flatMap (blockDirents img)
  else
    []

/-- The inodes for which the first pass scans blocks. -/
def Scanned (img : Image) (inum : Nat) : Prop :=
  inum ≠ 0 ∧ img.inodeType inum ≠ 0

instance (img : Image) (inum : Nat) : Decidable (Scanned img inum) :=
  inferInstanceAs (Decidable (_ ∧ _))

def inodeClaims (img : Image) (inum : Nat) : List Nat :=
  if Scanned img inum then claims img inum else []

def inodeRecords (img : Image) (inum : Nat) : List (Nat × Dirent) :=
  if Scanned img inum then
    (inodeDirents img inum).map (Prod.mk (inum % 65536))
  else
    []

theorem visits_map_blknum (img : Image) (inum : Nat) :
    (visits img inum).map Visit.blknum = claims img inum := by
  unfold visits claims indirectVisits
  split <;> simp [Function.comp_def]

theorem visits_countP_data (img : Image) (inum : Nat) :
    (visits img inum).countP Visit.data = (dataBlocks img inum).length := by
  unfold visits dataBlocks indirectVisits indirectBlocks
  split <;> simp [List.countP_map, Function.comp_def]

theorem visits_flatMap_dirents (img : Image) (inum : Nat) :
    (visits img inum).flatMap (visitDirents img (img.inodeType inum)) =
      inodeDirents img inum := by
  unfold visits inodeDirents dataBlocks indirectVisits visitDirents
  by_cases directory : img.inodeType inum = 1
  · by_cases hole : img.inodeAddr inum 12 = 0
    · simp [directory, hole, List.flatMap_map, indirectBlocks]
    · simp [directory, hole, List.flatMap_map]
  · simp [directory]

theorem scanBlocks_reads (img : Image) (scan : Scan) (inum : Nat) :
    Reads img (inum % 65536) (inodeDirents img inum)
      (dataBlocks img inum).length scan.reset (scanBlocks img scan inum) := by
  have reads := foldl_applyVisit_reads img (img.inodeType inum)
    (inum % 65536) (visits img inum) scan.reset
  rwa [visits_flatMap_dirents, visits_countP_data] at reads

theorem scanBlocks_blkvisited (img : Image) (scan : Scan)
    (inum blknum : Nat) :
    (scanBlocks img scan inum).blkvisited blknum =
      (scan.blkvisited blknum || decide (blknum ∈ claims img inum)) := by
  have claimed := claimed_foldl Scan.blkvisited
    (fun visit : Visit => [visit.blknum])
    (applyVisit_blkvisited img (img.inodeType inum) (inum % 65536))
    scan.reset (visits img inum) blknum
  have keysEq : (visits img inum).flatMap (fun visit => [visit.blknum]) =
      claims img inum := by
    rw [← visits_map_blknum]
    simp [← List.map_eq_flatMap]
  rw [keysEq] at claimed
  exact claimed

/-- The condition on a single inode under which the first pass accepts it,
apart from blocks claimed by other inodes. -/
structure InodeSound (img : Image) (g : Globals) (inum : Nat) : Prop where
  typeMapped : img.Maps (Image.inodeOffset inum) 2
  typeOk : TypeOk (img.inodeType inum)
  addrsMapped : Scanned img inum → AddrsMapped img inum
  visitsOk : Scanned img inum → ∀ visit ∈ visits img inum,
    VisitOk img g (img.inodeType inum) (inum % 65536) visit
  formed : Scanned img inum → img.inodeType inum = 1 →
    (inodeDirents img inum).countP Dirent.isSelf = 1 ∧
      (inodeDirents img inum).countP Dirent.isParent = 1
  sizeMapped : Scanned img inum → img.Maps (Image.inodeOffset inum + 8) 4
  sizeOk : Scanned img inum →
    SizeOk (img.inodeSize inum) (dataBlocks img inum).length
  bound : Scanned img inum → inum < g.tableLen

theorem inodeOk_iff {img : Image} {g : Globals} {scan : Scan} {inum : Nat} :
    InodeOk img g scan inum ↔
      InodeSound img g inum ∧ (inodeClaims img inum).Nodup ∧
        ∀ blknum ∈ inodeClaims img inum,
          scan.blkvisited blknum = false := by
  have reads := scanBlocks_reads img scan inum
  have current : (scanBlocks img scan inum).curcnt =
      (inodeDirents img inum).countP Dirent.isSelf := by
    simpa [Scan.reset] using reads.curcnt
  have parent : (scanBlocks img scan inum).parcnt =
      (inodeDirents img inum).countP Dirent.isParent := by
    simpa [Scan.reset] using reads.parcnt
  have blocks : (scanBlocks img scan inum).blkcnt =
      (dataBlocks img inum).length := by
    simpa [Scan.reset] using reads.blkcnt
  unfold InodeOk inodeClaims
  rw [visitsOk_iff, visits_map_blknum, current, parent, blocks]
  constructor
  · rintro ⟨mapped, typeOk, conditions⟩
    refine ⟨⟨mapped, typeOk, fun scanned => (conditions scanned).1,
      fun scanned => (conditions scanned).2.1.1,
      fun scanned => (conditions scanned).2.2.1,
      fun scanned => (conditions scanned).2.2.2.1,
      fun scanned => (conditions scanned).2.2.2.2.1,
      fun scanned => (conditions scanned).2.2.2.2.2⟩, ?_⟩
    by_cases scanned : Scanned img inum
    · simpa [scanned, Scan.reset] using (conditions scanned).2.1.2
    · simp [scanned]
  · rintro ⟨sound, fresh⟩
    refine ⟨sound.typeMapped, sound.typeOk, fun scanned => ?_⟩
    have isScanned : Scanned img inum := scanned
    rw [if_pos isScanned] at fresh
    exact ⟨sound.addrsMapped scanned, ⟨sound.visitsOk scanned, fresh⟩,
      sound.formed scanned, sound.sizeMapped scanned, sound.sizeOk scanned,
      sound.bound scanned⟩

theorem applyInode_blkvisited (img : Image) (scan : Scan)
    (inum blknum : Nat) :
    (applyInode img scan inum).blkvisited blknum =
      (scan.blkvisited blknum ||
        decide (blknum ∈ inodeClaims img inum)) := by
  unfold applyInode inodeClaims
  by_cases scanned : Scanned img inum
  · have isScanned : inum ≠ 0 ∧ img.inodeType inum ≠ 0 := scanned
    rw [if_pos isScanned, if_pos scanned]
    exact scanBlocks_blkvisited img scan inum blknum
  · have notScanned : ¬(inum ≠ 0 ∧ img.inodeType inum ≠ 0) := scanned
    rw [if_neg notScanned, if_neg scanned]
    simp

theorem applyInode_usedinode (img : Image) (scan : Scan) (inum other : Nat) :
    (applyInode img scan inum).usedinode other =
      (scan.usedinode other ||
        decide (other ∈ if Scanned img inum then [inum] else [])) := by
  unfold applyInode
  by_cases scanned : Scanned img inum
  · have isScanned : inum ≠ 0 ∧ img.inodeType inum ≠ 0 := scanned
    rw [if_pos isScanned, if_pos scanned,
      (scanBlocks_reads img scan inum).usedinode]
    by_cases same : other = inum <;> simp [same, Scan.reset]
  · have notScanned : ¬(inum ≠ 0 ∧ img.inodeType inum ≠ 0) := scanned
    rw [if_neg notScanned, if_neg scanned]
    simp

theorem applyInode_records (img : Image) (scan : Scan) (inum : Nat) :
    Records img (inodeRecords img inum) scan (applyInode img scan inum) := by
  unfold applyInode inodeRecords
  by_cases scanned : Scanned img inum
  · have isScanned : inum ≠ 0 ∧ img.inodeType inum ≠ 0 := scanned
    rw [if_pos isScanned, if_pos scanned]
    have reads := (scanBlocks_reads img scan inum).records
    exact ⟨reads.references, reads.dotdot, reads.entry⟩
  · have notScanned : ¬(inum ≠ 0 ∧ img.inodeType inum ≠ 0) := scanned
    rw [if_neg notScanned, if_neg scanned]
    exact .of_eq rfl rfl rfl

end Inodes

section Pass

/-- All block claims, in scan order. -/
def allClaims (img : Image) (ninodes : Nat) : List Nat :=
  (List.range ninodes).flatMap (inodeClaims img)

/-- All directory entries read, in scan order. -/
def allRecords (img : Image) (ninodes : Nat) : List (Nat × Dirent) :=
  (List.range ninodes).flatMap (inodeRecords img)

/-- The number of a `ushort` is the same as an `int`. -/
theorem bmod_of_lt {number : Nat} (fits : number < 65536) :
    Int.bmod number 4294967296 = number :=
  Int.bmod_eq_of_le_mul_two (by omega) (by omega)

theorem fst_lt_of_mem_allRecords {img : Image} {ninodes : Nat}
    {record : Nat × Dirent} (member : record ∈ allRecords img ninodes) :
    record.1 < 65536 := by
  obtain ⟨inum, -, read⟩ := List.mem_flatMap.mp member
  unfold inodeRecords at read
  split_ifs at read
  · obtain ⟨entry, -, rfl⟩ := List.mem_map.mp read
    exact Nat.mod_lt _ (by omega)
  · simp at read

/-- The contents of the tables after the first pass. -/
structure Describes (img : Image) (g : Globals) (scan : Scan) : Prop where
  visited : ∀ blknum, scan.blkvisited blknum = true ↔
    blknum ∈ allClaims img g.ninodes
  used : ∀ inum, scan.usedinode inum = true ↔
    inum < g.ninodes ∧ Scanned img inum
  references : ∀ inum, scan.inodeindirent inum =
    Int.bmod ((allRecords img g.ninodes).countP (refersTo inum)) 4294967296
  dotdot : scan.parentdotdot = applyWrites (fun _ => -1)
    ((allRecords img g.ninodes).filterMap dotdotWrite)
  entry : scan.parententry = applyWrites (fun _ => -1)
    ((allRecords img g.ninodes).filterMap (entryWrite img))

theorem foldl_applyInode_records (img : Image) (inodes : List Nat)
    (scan : Scan) :
    Records img (inodes.flatMap (inodeRecords img)) scan
      (inodes.foldl (applyInode img) scan) := by
  induction inodes generalizing scan with
  | nil => exact .of_eq rfl rfl rfl
  | cons inum inodes ih =>
      exact (applyInode_records img scan inum).trans (ih _)

theorem blkvisited_foldl (img : Image) (count blknum : Nat) :
    ((List.range count).foldl (applyInode img) Scan.initial).blkvisited
        blknum = true ↔ blknum ∈ allClaims img count := by
  rw [claimed_foldl Scan.blkvisited _ (applyInode_blkvisited img)]
  simp [Scan.initial, allClaims]

theorem describes_foldl (img : Image) (g : Globals) :
    Describes img g
      ((List.range g.ninodes).foldl (applyInode img) Scan.initial) := by
  have records := foldl_applyInode_records img (List.range g.ninodes)
    Scan.initial
  refine ⟨blkvisited_foldl img g.ninodes, fun inum => ?_, fun inum => ?_,
    records.dotdot, records.entry⟩
  · rw [claimed_foldl Scan.usedinode _
      (applyInode_usedinode img)]
    simp only [Scan.initial, Bool.false_or, decide_eq_true_eq,
      List.mem_flatMap, List.mem_range]
    constructor
    · rintro ⟨source, below, member⟩
      by_cases scanned : Scanned img source
      · rw [if_pos scanned, List.mem_singleton] at member
        exact member ▸ ⟨below, scanned⟩
      · simp [scanned] at member
    · rintro ⟨below, scanned⟩
      exact ⟨inum, below, by simp [scanned]⟩
  · simpa [allRecords] using records.references inum 0 (by simp [Scan.initial])

/-- The first iterations of the pass succeed exactly when their inodes are sound
and claim no block twice. -/
theorem scanInodes_eq_ok_iff {img : Image} {g : Globals} {count : Nat}
    {scan : Scan} :
    (List.range count).foldlM (scanInode img g) Scan.initial = .ok scan ↔
      ((∀ inum < count, InodeSound img g inum) ∧
        (allClaims img count).Nodup) ∧
        (List.range count).foldl (applyInode img) Scan.initial = scan := by
  have claiming := admits_claiming_iff Scan.blkvisited _ (InodeSound img g)
    (applyInode_blkvisited img) Scan.initial (List.range count)
  have same : InodeOk img g = fun scan inum =>
      InodeSound img g inum ∧ (inodeClaims img inum).Nodup ∧
        ∀ blknum ∈ inodeClaims img inum, scan.blkvisited blknum = false := by
    funext scan inum
    exact propext inodeOk_iff
  rw [foldlM_eq_ok_iff fun _ _ _ => scanInode_eq_ok_iff, same, claiming]
  simp [allClaims, Scan.initial]

/-- The first pass succeeds exactly when every inode is sound on its own and
no block is claimed twice, and then its tables are as described. -/
theorem firstPass_succeeds_iff {img : Image} {g : Globals} :
    (∃ scan, firstPass img g = .ok scan) ↔
      (∀ inum < g.ninodes, InodeSound img g inum) ∧
        (allClaims img g.ninodes).Nodup := by
  unfold firstPass firstPassWith
  simp only [scanInodes_eq_ok_iff, exists_and_left, exists_eq', and_true]

theorem describes_of_firstPass {img : Image} {g : Globals} {scan : Scan}
    (passed : firstPass img g = .ok scan) : Describes img g scan := by
  obtain ⟨-, rfl⟩ := scanInodes_eq_ok_iff.mp passed
  exact describes_foldl img g

end Pass

end LinuxKernelDev.Fsck
