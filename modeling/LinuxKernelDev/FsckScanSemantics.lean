import LinuxKernelDev.FsckChecker
import LinuxKernelDev.LoopRules

/-!
# Exact success conditions of the inode scan

For every function of the first pass this file gives the condition under which
it succeeds and the pure update it then performs.  The blocks of an inode are
presented as a list of visits, so that the direct and the indirect scan become
one fold over that list.
-/

namespace LinuxKernelDev.Fsck

open Function LoopRules

section Plain

@[simp]
theorem pure_eq_ok {α : Type} (value : α) :
    (pure value : Except Stop α) = .ok value := rfl

@[simp]
theorem stop_eq_error {α : Type} (reason : Stop) :
    (Machine.stop reason : Except Stop α) = .error reason := rfl

theorem load_eq {α : Type} (img : Image) (offset length : Nat) (value : α) :
    load img offset length value =
      if img.Maps offset length then .ok value else .error Stop.unmapped := rfl

theorem access_eq {α : Type} (table : Table) (length index : Nat) (value : α) :
    access table length index value =
      if index < length then .ok value else .error Stop.outOfBounds := by
  change (if (0 : Int) ≤ index ∧ (index : Int) < length then _ else _) = _
  simp

/-- An entry of a directory block does not cross the end of a page. -/
theorem loadDirent_eq (img : Image) (blknum index : Nat) :
    loadDirent img blknum index =
      (load img (Image.blockOffset blknum + 16 * index) 16
        (img.blockDirent blknum index) : Except Stop Dirent) := by
  have whole : img.Maps (Image.blockOffset blknum + 16 * index) 16 ↔
      img.Maps (Image.blockOffset blknum + 16 * index) 2 := by
    unfold Image.Maps Image.mapped Image.blockOffset
    omega
  have compared : img.Maps (Image.blockOffset blknum + 16 * index) 16 →
      img.Maps (Image.blockOffset blknum + 16 * index + 2)
        (comparedBytes (img.blockDirent blknum index).name) := by
    intro mapped
    have few : comparedBytes (img.blockDirent blknum index).name ≤ 3 := by
      unfold comparedBytes
      split <;> omega
    unfold Image.Maps at mapped ⊢
    omega
  unfold loadDirent
  simp only [load_eq]
  by_cases mapped : img.Maps (Image.blockOffset blknum + 16 * index) 16
  · rw [if_pos (whole.mp mapped), if_pos mapped]
    simp [bind, Except.bind, compared mapped]
  · rw [if_neg (mapped ∘ whole.mpr), if_neg mapped]
    rfl

@[simp]
theorem load_eq_ok_iff {α : Type} {img : Image} {offset length : Nat}
    {value result : α} :
    load img offset length value = .ok result ↔
      img.Maps offset length ∧ value = result := by
  rw [load_eq]
  split <;> simp_all

@[simp]
theorem access_eq_ok_iff {α : Type} {table : Table} {length index : Nat}
    {value result : α} :
    access table length index value = .ok result ↔
      index < length ∧ value = result := by
  rw [access_eq]
  split
  · simp_all
  · rename_i outside
    simp [outside]

@[simp]
theorem access_one_eq_ok_iff {α : Type} {table : Table} {length : Nat}
    {value result : α} :
    access table length 1 value = .ok result ↔ 1 < length ∧ value = result :=
  access_eq_ok_iff

@[simp]
theorem load_bind_eq_ok_iff {α β : Type} {img : Image} {offset length : Nat}
    {value : α} {next : α → Except Stop β} {result : β} :
    (load img offset length value >>= next) = .ok result ↔
      img.Maps offset length ∧ next value = .ok result := by
  rw [bind_eq_ok_iff]
  simp [and_assoc]

@[simp]
theorem access_bind_eq_ok_iff {α β : Type} {table : Table}
    {length index : Nat} {value : α} {next : α → Except Stop β} {result : β} :
    (access table length index value >>= next) = .ok result ↔
      index < length ∧ next value = .ok result := by
  rw [bind_eq_ok_iff]
  simp [and_assoc]

@[simp]
theorem fail_ne_ok {α : Type} {message : Message} {result : α} :
    fail message ≠ .ok result := by
  simp [fail]

@[simp]
theorem failIf_eq_ok_iff {condition : Prop} [Decidable condition]
    {message : Message} {result : Unit} :
    failIf condition message = .ok result ↔ ¬condition := by
  unfold failIf
  split <;> simp_all

@[simp]
theorem failIf_bind_eq_ok_iff {β : Type} {condition : Prop}
    [Decidable condition] {message : Message}
    {next : Unit → Except Stop β} {result : β} :
    (failIf condition message >>= next) = .ok result ↔
      ¬condition ∧ next () = .ok result := by
  unfold failIf
  split <;> simp_all [bind, Except.bind, fail]

/-- A load stops a run in no other way than behind the mapping. -/
theorem load_bind_eq_error_iff {α β : Type} {img : Image}
    {offset length : Nat} {value : α} {next : α → Except Stop β} {stop : Stop}
    (other : stop ≠ .unmapped) :
    (load img offset length value >>= next) = .error stop ↔
      img.Maps offset length ∧ next value = .error stop := by
  rw [load_eq]
  split <;> simp_all [bind, Except.bind, Ne.symm other]

theorem failIf_bind_eq_error_iff {β : Type} {condition : Prop}
    [Decidable condition] {message : Message} {next : Unit → Except Stop β}
    {stop : Stop} :
    (failIf condition message >>= next) = .error stop ↔
      condition ∧ .exit (some message) = stop ∨
        ¬condition ∧ next () = .error stop := by
  unfold failIf
  split <;> simp_all [bind, Except.bind, fail]

end Plain

section Dirents

/-- The effect of an accepted directory entry on the tables. -/
def applyDirent (img : Image) (currinodenum : Nat) (scan : Scan)
    (entry : Dirent) : Scan :=
  if entry.inum = 0 then
    scan
  else if isDot entry.name then
    { scan with
      inodeindirent :=
        if currinodenum = 1 then (scan.countReference 1).inodeindirent
        else scan.inodeindirent
      curcnt := scan.curcnt + 1 }
  else if isDotdot entry.name then
    { scan with
      parentdotdot := update scan.parentdotdot currinodenum entry.inum
      parcnt := scan.parcnt + 1 }
  else
    { scan with
      inodeindirent := (scan.countReference entry.inum).inodeindirent
      parententry :=
        if img.inodeType entry.inum = 1 then
          update scan.parententry entry.inum
            (Int.bmod currinodenum 4294967296)
        else scan.parententry }

/-- The condition under which the traversal accepts a directory entry. -/
def DirentOk (img : Image) (g : Globals) (currinodenum : Nat)
    (entry : Dirent) : Prop :=
  entry.inum ≠ 0 →
    if isDot entry.name then
      entry.inum = currinodenum ∧ (currinodenum = 1 → 1 < g.tableLen)
    else if isDotdot entry.name then
      currinodenum < g.tableLen
    else
      entry.inum < g.tableLen ∧
        img.Maps (Image.inodeOffset entry.inum) 2

theorem visitDirent_eq_ok_iff {img : Image} {g : Globals}
    {currinodenum : Nat} {scan result : Scan} {entry : Dirent} :
    visitDirent img g currinodenum scan entry = .ok result ↔
      DirentOk img g currinodenum entry ∧
        applyDirent img currinodenum scan entry = result := by
  unfold visitDirent DirentOk applyDirent
  by_cases unused : entry.inum = 0
  · simp [unused]
  by_cases dot : isDot entry.name
  · by_cases self : entry.inum = currinodenum
    · by_cases root : currinodenum = 1
      · simp only [root] at self
        simp [dot, self, root, bind_eq_ok_iff, Scan.countReference]
      · simp only [self] at unused
        simp [unused, dot, self, root]
    · simp [unused, dot, self]
  by_cases dotdot : isDotdot entry.name
  · simp [unused, dot, dotdot, bind_eq_ok_iff]
  · by_cases directory : img.inodeType entry.inum = 1
    · simp +contextual [unused, dot, dotdot, directory, bind_eq_ok_iff,
        loadType, Scan.countReference, and_assoc]
    · simp [unused, dot, dotdot, directory, bind_eq_ok_iff, loadType,
        Scan.countReference, and_assoc]

/-- The 32 entries of a directory block, as the checker reads them. -/
def blockDirents (img : Image) (blknum : Nat) : List Dirent :=
  (List.range 32).map (img.blockDirent blknum)

/-- The condition under which the traversal of a block succeeds. -/
def DirentsOk (img : Image) (g : Globals) (currinodenum blknum : Nat) : Prop :=
  ∀ index < 32,
    img.Maps (Image.blockOffset blknum + 16 * index) 16 ∧
      DirentOk img g currinodenum (img.blockDirent blknum index)

/-- The first entries of a block, as the traversal comes to them. -/
theorem visitDirents_eq_ok_iff {img : Image} {g : Globals}
    {blknum currinodenum count : Nat} {scan result : Scan} :
    ((List.range count).foldlM (fun scan index => do
        let entry ← loadDirent img blknum index
        visitDirent img g currinodenum scan entry) scan : Except Stop Scan) =
        .ok result ↔
      (∀ index < count,
        img.Maps (Image.blockOffset blknum + 16 * index) 16 ∧
          DirentOk img g currinodenum (img.blockDirent blknum index)) ∧
        ((List.range count).map (img.blockDirent blknum)).foldl
          (applyDirent img currinodenum) scan = result := by
  have exact : ∀ state index result, (do
      let entry ← loadDirent img blknum index
      visitDirent img g currinodenum state entry : Except Stop Scan) =
        .ok result ↔
        (img.Maps (Image.blockOffset blknum + 16 * index) 16 ∧
          DirentOk img g currinodenum (img.blockDirent blknum index)) ∧
        applyDirent img currinodenum state (img.blockDirent blknum index) =
          result := by
    intro state index result
    simp [loadDirent_eq, visitDirent_eq_ok_iff, and_assoc]
  rw [foldlM_eq_ok_iff exact, admits_const_iff]
  simp [List.foldl_map]

theorem traverseDirent_eq_ok_iff {img : Image} {g : Globals}
    {blknum currinodenum : Nat} {scan result : Scan} :
    traverseDirent img g blknum currinodenum scan = .ok result ↔
      DirentsOk img g currinodenum blknum ∧
        (blockDirents img blknum).foldl
          (applyDirent img currinodenum) scan = result :=
  visitDirents_eq_ok_iff

end Dirents

section Blocks

/-- A block address claimed by an inode: of a data block, or of the indirect
block itself. -/
structure Visit where
  data : Bool
  blknum : Nat
  deriving DecidableEq

def Scan.mark (scan : Scan) (blknum : Nat) : Scan :=
  { scan with blkvisited := update scan.blkvisited blknum true }

/-- The conditions on a claimed block that do not depend on earlier claims. -/
def BlockOk (img : Image) (g : Globals) (blknum : Nat) : Prop :=
  g.datblkstnum ≤ blknum ∧ blknum < g.datblkednum ∧ blknum < g.visitedLen ∧
    img.Maps (Image.bitmapOffset g.ninodes blknum) 1 ∧
      img.bitmapBit g.ninodes blknum = true

theorem claimBlock_eq_ok_iff {img : Image} {g : Globals}
    {badAddress usedOnce : Message} {blknum : Nat} {scan result : Scan} :
    claimBlock img g badAddress usedOnce blknum scan = .ok result ↔
      (BlockOk img g blknum ∧ scan.blkvisited blknum = false) ∧
        scan.mark blknum = result := by
  unfold claimBlock BlockOk Scan.mark
  by_cases outside : blknum < g.datblkstnum ∨ blknum ≥ g.datblkednum
  · rw [if_pos outside]
    simp only [fail_ne_ok, false_iff]
    rintro ⟨⟨⟨lower, upper, -⟩, -⟩, -⟩
    omega
  · rw [if_neg outside]
    simp only [bind_eq_ok_iff, access_eq_ok_iff, bitIsUsed]
    cases visited : scan.blkvisited blknum with
    | true => simp
    | false =>
        cases used : img.bitmapBit g.ninodes blknum with
        | true =>
            have inside : g.datblkstnum ≤ blknum ∧ blknum < g.datblkednum := by
              omega
            simp [inside, and_assoc, bind_eq_ok_iff]
        | false => simp [bind_eq_ok_iff]

/-- The condition under which one visit succeeds, apart from earlier claims. -/
def VisitOk (img : Image) (g : Globals) (type : Int) (currinodenum : Nat)
    (visit : Visit) : Prop :=
  BlockOk img g visit.blknum ∧
    (visit.data = true → type = 1 →
      DirentsOk img g currinodenum visit.blknum)

/-- The effect of one visit. -/
def applyVisit (img : Image) (type : Int) (currinodenum : Nat)
    (scan : Scan) (visit : Visit) : Scan :=
  if visit.data then
    if type = 1 then
      (blockDirents img visit.blknum).foldl (applyDirent img currinodenum)
        { scan.mark visit.blknum with blkcnt := scan.blkcnt + 1 }
    else
      { scan.mark visit.blknum with blkcnt := scan.blkcnt + 1 }
  else
    scan.mark visit.blknum

/-- A visit with the messages of its caller. -/
structure Errand where
  badAddress : Message
  usedOnce : Message
  visit : Visit

/-- What is done for one non-zero address. -/
def runErrand {m : Type → Type} [Monad m] [Machine m] (img : Image)
    (g : Globals) (type : Int) (currinodenum : Nat) (scan : Scan)
    (errand : Errand) : m Scan := do
  let scan ← claimBlock img g errand.badAddress errand.usedOnce
    errand.visit.blknum scan
  if errand.visit.data then
    let scan := { scan with blkcnt := scan.blkcnt + 1 }
    if type = 1 then
      traverseDirent img g errand.visit.blknum currinodenum scan
    else
      pure scan
  else
    pure scan

theorem scanDataBlock_eq_runErrand {m : Type → Type} [Monad m] [Machine m]
    {img : Image} {g : Globals} {badAddress usedOnce : Message} {type : Int}
    {currinodenum blknum : Nat} {scan : Scan} (nonzero : blknum ≠ 0) :
    (scanDataBlock img g badAddress usedOnce type currinodenum blknum scan :
        m Scan) =
      runErrand img g type currinodenum scan
        ⟨badAddress, usedOnce, ⟨true, blknum⟩⟩ := by
  rw [scanDataBlock, if_neg nonzero]
  rfl

theorem claimBlock_eq_runErrand {m : Type → Type} [Monad m] [LawfulMonad m]
    [Machine m] {img : Image} {g : Globals} {badAddress usedOnce : Message}
    {type : Int} {currinodenum blknum : Nat} {scan : Scan} :
    (claimBlock img g badAddress usedOnce blknum scan : m Scan) =
      runErrand img g type currinodenum scan
        ⟨badAddress, usedOnce, ⟨false, blknum⟩⟩ := by
  unfold runErrand
  exact (bind_pure _).symm

theorem runErrand_eq_ok_iff {img : Image} {g : Globals} {type : Int}
    {currinodenum : Nat} {scan result : Scan} {errand : Errand} :
    runErrand img g type currinodenum scan errand = .ok result ↔
      (VisitOk img g type currinodenum errand.visit ∧
        scan.blkvisited errand.visit.blknum = false) ∧
        applyVisit img type currinodenum scan errand.visit = result := by
  unfold runErrand VisitOk applyVisit
  rw [bind_eq_ok_iff]
  simp only [claimBlock_eq_ok_iff]
  by_cases data : errand.visit.data
  · by_cases directory : type = 1
    · simp only [if_pos data, if_pos directory]
      constructor
      · rintro ⟨_, ⟨blockOk, rfl⟩, traversed⟩
        obtain ⟨direntsOk, rfl⟩ := traverseDirent_eq_ok_iff.mp traversed
        exact ⟨⟨⟨blockOk.1, fun _ _ => direntsOk⟩, blockOk.2⟩, rfl⟩
      · rintro ⟨⟨⟨blockOk, direntsOk⟩, free⟩, rfl⟩
        exact ⟨_, ⟨⟨blockOk, free⟩, rfl⟩,
          traverseDirent_eq_ok_iff.mpr ⟨direntsOk data directory, rfl⟩⟩
    · simp [data, directory, Scan.mark]
  · simp [data]

theorem scanDataBlock_eq_ok_iff {img : Image} {g : Globals}
    {badAddress usedOnce : Message} {type : Int}
    {currinodenum blknum : Nat} {scan result : Scan} (nonzero : blknum ≠ 0) :
    scanDataBlock img g badAddress usedOnce type currinodenum blknum scan =
        .ok result ↔
      (VisitOk img g type currinodenum ⟨true, blknum⟩ ∧
        scan.blkvisited blknum = false) ∧
        applyVisit img type currinodenum scan ⟨true, blknum⟩ = result := by
  rw [scanDataBlock_eq_runErrand nonzero, runErrand_eq_ok_iff]

/-- Non-zero addresses in the indirect block of an inode, in scan order. -/
def indirectBlocks (img : Image) (inum : Nat) : List Nat :=
  if img.inodeAddr inum 12 = 0 then
    []
  else
    ((List.range 128).map
      (img.indirectWord (img.inodeAddr inum 12))).filter (fun blknum =>
        decide (blknum ≠ 0))

/-- The visits made for the indirect block of an inode and the blocks named
in it. -/
def indirectVisits (img : Image) (inum : Nat) : List Visit :=
  if img.inodeAddr inum 12 = 0 then
    []
  else
    ⟨false, img.inodeAddr inum 12⟩ ::
      (indirectBlocks img inum).map (Visit.mk true)

/-- All visits made for an inode, in scan order. -/
def visits (img : Image) (inum : Nat) : List Visit :=
  (img.directAddrs inum).map (Visit.mk true) ++ indirectVisits img inum

/-- The loads of addresses made for an inode. -/
def AddrsMapped (img : Image) (inum : Nat) : Prop :=
  (∀ index < 13,
    img.Maps (Image.inodeOffset inum + 12 + 4 * index) 4) ∧
    (img.inodeAddr inum 12 ≠ 0 → ∀ index < 128,
      img.Maps (Image.blockOffset (img.inodeAddr inum 12) + 4 * index) 4)

/-- The visits of a list succeed one after the other. -/
def VisitsOk (img : Image) (g : Globals) (type : Int) (currinodenum : Nat)
    (scan : Scan) (visits : List Visit) : Prop :=
  Admits
    (fun scan visit => VisitOk img g type currinodenum visit ∧
      scan.blkvisited visit.blknum = false)
    (applyVisit img type currinodenum) scan visits

/-- A loop that loads block addresses and scans the non-zero ones. -/
theorem scanAddresses_eq_ok_iff {img : Image} {g : Globals}
    {badAddress usedOnce : Message} {type : Int} {currinodenum count : Nat}
    {scan result : Scan} (offset address : Nat → Nat) :
    ((List.range count).foldlM (fun scan index => do
        let blknum ← load img (offset index) 4 (address index)
        scanDataBlock img g badAddress usedOnce type currinodenum blknum scan)
        scan : Except Stop Scan) = .ok result ↔
      ((∀ index < count, img.Maps (offset index) 4) ∧
        VisitsOk img g type currinodenum scan
          ((((List.range count).map address).filter (fun blknum =>
            decide (blknum ≠ 0))).map (Visit.mk true))) ∧
        ((((List.range count).map address).filter (fun blknum =>
            decide (blknum ≠ 0))).map (Visit.mk true)).foldl
              (applyVisit img type currinodenum) scan = result := by
  rw [VisitsOk, admits_map, List.foldl_map, ← foldl_skip]
  simp only [← List.mem_range (m := _)]
  rw [← admits_skip]
  apply foldlM_eq_ok_iff
  intro state index result
  rw [bind_eq_ok_iff]
  simp only [load_eq_ok_iff]
  by_cases hole : address index = 0
  · simp [hole, scanDataBlock]
  · simp [hole, scanDataBlock_eq_ok_iff, and_assoc]

theorem visitsOk_append {img : Image} {g : Globals} {type : Int}
    {currinodenum : Nat} {scan : Scan} {first second : List Visit} :
    VisitsOk img g type currinodenum scan (first ++ second) ↔
      VisitsOk img g type currinodenum scan first ∧
        VisitsOk img g type currinodenum
          (first.foldl (applyVisit img type currinodenum) scan) second :=
  admits_append _ _ _

theorem checkIndirectAddress_eq_ok_iff {img : Image} {g : Globals}
    {inum : Nat} {type : Int} {currinodenum : Nat} {scan result : Scan} :
    checkIndirectAddress img g inum type currinodenum scan = .ok result ↔
      (img.Maps (Image.inodeOffset inum + 12 + 4 * 12) 4 ∧
          (img.inodeAddr inum 12 ≠ 0 → ∀ index < 128,
            img.Maps (Image.blockOffset (img.inodeAddr inum 12) + 4 * index)
              4)) ∧
        VisitsOk img g type currinodenum scan (indirectVisits img inum) ∧
        (indirectVisits img inum).foldl
            (applyVisit img type currinodenum) scan = result := by
  unfold checkIndirectAddress indirectVisits indirectBlocks
  simp only [loadAddr, load_bind_eq_ok_iff]
  by_cases hole : img.inodeAddr inum 12 = 0
  · simp [hole, VisitsOk]
  · simp only [if_neg hole, loadIndirectWord, bind_eq_ok_iff (β := Scan),
      List.foldl_cons]
    constructor
    · rintro ⟨mapped, _, claimed, scanned⟩
      obtain ⟨⟨blockOk, free⟩, rfl⟩ := claimBlock_eq_ok_iff.mp claimed
      obtain ⟨⟨words, admitted⟩, rfl⟩ :=
        (scanAddresses_eq_ok_iff _ _).mp scanned
      exact ⟨⟨mapped, fun _ => words⟩,
        ⟨⟨⟨blockOk, by simp⟩, free⟩, admitted⟩, rfl⟩
    · rintro ⟨⟨mapped, words⟩, ⟨⟨⟨blockOk, -⟩, free⟩, admitted⟩, rfl⟩
      exact ⟨mapped, _, claimBlock_eq_ok_iff.mpr ⟨⟨blockOk, free⟩, rfl⟩,
        (scanAddresses_eq_ok_iff _ _).mpr ⟨⟨words hole, admitted⟩, rfl⟩⟩

/-- The direct scan followed by the indirect scan is one fold over the visits
of the inode. -/
theorem checkAddresses_eq_ok_iff {img : Image} {g : Globals} {inum : Nat}
    {type : Int} {currinodenum : Nat} {scan result : Scan} :
    (checkDirectAddress img g inum type currinodenum scan >>=
        checkIndirectAddress img g inum type currinodenum) = .ok result ↔
      (AddrsMapped img inum ∧
        VisitsOk img g type currinodenum scan (visits img inum)) ∧
        (visits img inum).foldl (applyVisit img type currinodenum) scan =
          result := by
  rw [bind_eq_ok_iff]
  simp only [checkIndirectAddress_eq_ok_iff, checkDirectAddress, loadAddr,
    scanAddresses_eq_ok_iff
      (fun index => Image.inodeOffset inum + 12 + 4 * index)
      (img.inodeAddr inum)]
  have thirteen : AddrsMapped img inum ↔
      (∀ index < 12, img.Maps (Image.inodeOffset inum + 12 + 4 * index) 4) ∧
        img.Maps (Image.inodeOffset inum + 12 + 4 * 12) 4 ∧
          (img.inodeAddr inum 12 ≠ 0 → ∀ index < 128,
            img.Maps (Image.blockOffset (img.inodeAddr inum 12) + 4 * index)
              4) := by
    unfold AddrsMapped
    rw [← and_assoc]
    refine and_congr ⟨fun all => ⟨fun index below => all index (by omega),
      all 12 (by omega)⟩, fun ⟨below, last⟩ index bound => ?_⟩ Iff.rfl
    rcases Nat.lt_succ_iff_lt_or_eq.mp bound with less | rfl
    · exact below index less
    · exact last
  rw [thirteen, visits, visitsOk_append, List.foldl_append]
  constructor
  · rintro ⟨_, ⟨⟨direct, directOk⟩, rfl⟩, mapped, restOk, rfl⟩
    exact ⟨⟨⟨direct, mapped⟩, directOk, restOk⟩, rfl⟩
  · rintro ⟨⟨⟨direct, mapped⟩, directOk, restOk⟩, rfl⟩
    exact ⟨_, ⟨⟨direct, directOk⟩, rfl⟩, mapped, restOk, rfl⟩

end Blocks

section Inodes

/-- The sizes accepted for an inode with `sum` data blocks. -/
def SizeOk (size sum : Nat) : Prop :=
  if sum = 0 then size = 0 else (sum - 1) * 512 < size ∧ size ≤ sum * 512

theorem checkFileSize_eq_ok_iff {img : Image} {inum sum : Nat} :
    checkFileSize img inum sum = .ok () ↔
      img.Maps (Image.inodeOffset inum + 8) 4 ∧
        SizeOk (img.inodeSize inum) sum := by
  unfold checkFileSize SizeOk
  simp only [loadSize, load_bind_eq_ok_iff]
  refine and_congr_right fun _ => ?_
  split_ifs with empty nonzero outside
  · simpa using nonzero
  · simpa using nonzero
  · simp only [fail_ne_ok, false_iff]
    omega
  · simp only [pure_eq_ok, true_iff]
    omega

def TypeOk (type : Int) : Prop :=
  type = 0 ∨ type = 1 ∨ type = 2 ∨ type = 3

theorem checkNodeType_eq_ok_iff {img : Image} {inum : Nat} {result : Unit} :
    checkNodeType img inum = .ok result ↔
      img.Maps (Image.inodeOffset inum) 2 ∧ TypeOk (img.inodeType inum) := by
  unfold checkNodeType TypeOk
  simp only [loadType, load_bind_eq_ok_iff]
  refine and_congr_right fun _ => ?_
  split_ifs with invalid
  · simp only [fail_ne_ok, false_iff]
    omega
  · simp only [pure_eq_ok, true_iff]
    omega

/-- The counters at the start of an iteration over the inodes. -/
def Scan.reset (scan : Scan) : Scan :=
  { scan with curcnt := 0, parcnt := 0, blkcnt := 0 }

/-- The scan of the blocks of an in-use inode. -/
def scanBlocks (img : Image) (scan : Scan) (inum : Nat) : Scan :=
  (visits img inum).foldl
    (applyVisit img (img.inodeType inum) (inum % 65536)) scan.reset

/-- The condition under which an iteration over the inodes succeeds. -/
def InodeOk (img : Image) (g : Globals) (scan : Scan) (inum : Nat) : Prop :=
  img.Maps (Image.inodeOffset inum) 2 ∧ TypeOk (img.inodeType inum) ∧
    (inum ≠ 0 ∧ img.inodeType inum ≠ 0 →
      AddrsMapped img inum ∧
        VisitsOk img g (img.inodeType inum) (inum % 65536) scan.reset
          (visits img inum) ∧
        (img.inodeType inum = 1 →
          (scanBlocks img scan inum).curcnt = 1 ∧
            (scanBlocks img scan inum).parcnt = 1) ∧
        img.Maps (Image.inodeOffset inum + 8) 4 ∧
        SizeOk (img.inodeSize inum) (scanBlocks img scan inum).blkcnt ∧
        inum < g.tableLen)

/-- The effect of an iteration over the inodes. -/
def applyInode (img : Image) (scan : Scan) (inum : Nat) : Scan :=
  if inum ≠ 0 ∧ img.inodeType inum ≠ 0 then
    { scanBlocks img scan inum with
      usedinode :=
        update (scanBlocks img scan inum).usedinode inum true }
  else
    scan

theorem scanInode_eq_ok_iff {img : Image} {g : Globals} {inum : Nat}
    {scan result : Scan} :
    scanInode img g scan inum = .ok result ↔
      InodeOk img g scan inum ∧ applyInode img scan inum = result := by
  unfold scanInode scanInodeWith InodeOk applyInode
  rw [bind_eq_ok_iff]
  simp only [checkNodeType_eq_ok_iff, loadType, load_bind_eq_ok_iff]
  by_cases inUse : inum ≠ 0 ∧ img.inodeType inum ≠ 0
  · simp only [if_pos inUse]
    constructor
    · rintro ⟨_, ⟨mapped, typeOk⟩, -, scanned⟩
      rw [← bind_assoc, bind_eq_ok_iff] at scanned
      obtain ⟨_, blocks, rest⟩ := scanned
      obtain ⟨⟨addrs, visitsOk⟩, rfl⟩ := checkAddresses_eq_ok_iff.mp blocks
      split_ifs at rest with malformed
      · simp at rest
      · rw [bind_eq_ok_iff] at rest
        obtain ⟨_, sized, recorded⟩ := rest
        obtain ⟨sizeMapped, sizeOk⟩ := checkFileSize_eq_ok_iff.mp sized
        simp only [access_bind_eq_ok_iff, pure_eq_ok, Except.ok.injEq]
          at recorded
        refine ⟨⟨mapped, typeOk, fun _ => ⟨addrs, visitsOk, ?_, sizeMapped,
          sizeOk, recorded.1⟩⟩, recorded.2⟩
        intro directory
        by_contra miscounted
        exact malformed ⟨directory, not_and_or.mp miscounted⟩
    · rintro ⟨⟨mapped, typeOk, conditions⟩, rfl⟩
      obtain ⟨addrs, visitsOk, formed, sizeMapped, sizeOk, bound⟩ :=
        conditions inUse
      refine ⟨(), ⟨mapped, typeOk⟩, mapped, ?_⟩
      rw [← bind_assoc, bind_eq_ok_iff]
      refine ⟨_, checkAddresses_eq_ok_iff.mpr ⟨⟨addrs, visitsOk⟩, rfl⟩, ?_⟩
      rw [if_neg, bind_eq_ok_iff]
      · refine ⟨_, checkFileSize_eq_ok_iff.mpr ⟨sizeMapped, sizeOk⟩, ?_⟩
        rw [access_bind_eq_ok_iff]
        exact ⟨bound, rfl⟩
      · rintro ⟨directory, malformed⟩
        obtain ⟨current, parent⟩ := formed directory
        rcases malformed with bad | bad
        · exact bad current
        · exact bad parent
  · simp only [inUse, ↓reduceIte, pure_eq_ok, Except.ok.injEq, false_implies,
      and_true]
    constructor
    · rintro ⟨_, ⟨mapped, typeOk⟩, -, rfl⟩
      exact ⟨⟨mapped, typeOk⟩, rfl⟩
    · rintro ⟨⟨mapped, typeOk⟩, rfl⟩
      exact ⟨(), ⟨mapped, typeOk⟩, mapped, rfl⟩

end Inodes

end LinuxKernelDev.Fsck
