import LinuxKernelDev.FsckAccesses
import LinuxKernelDev.FsckDirectoryTree

/-!
# The accesses of the first pass

For every function of the first pass this file says when its accesses are in
bounds.  A function is asked for room only where it comes to: behind a test that
fails nothing is read any more.
-/

namespace LinuxKernelDev.Fsck

open Function LoopRules Logged

/-- The accesses of a run are in bounds. -/
def Inside {α : Type} (img : Image) (run : Run α) : Prop :=
  Stays (Access.Within img) run

section Primitives

variable {α β : Type} {img : Image}

theorem maps_of_le_stSize {offset length : Nat}
    (inside : offset + length ≤ img.stSize) : img.Maps offset length := by
  unfold Image.Maps Image.mapped
  omega

@[simp]
theorem inside_pure (value : α) : Inside img (pure value) :=
  stays_pure value

theorem inside_bind {first : Run α} {next : α → Run β} :
    Inside img (first >>= next) ↔
      Inside img first ∧
        ∀ value, first.result = .ok value → Inside img (next value) :=
  stays_bind

@[simp]
theorem inside_stop (reason : Stop) :
    Inside img (Machine.stop reason : Run α) := by
  simp [Inside, Stays, Machine.stop, perform]

@[simp]
theorem inside_fail (message : Message) :
    Inside img (fail message : Run α) :=
  inside_stop _

@[simp]
theorem inside_failIf {condition : Prop} [Decidable condition]
    {message : Message} : Inside img (failIf condition message) := by
  unfold failIf
  split_ifs
  · exact inside_fail message
  · exact inside_pure ()

@[simp]
theorem inside_load {offset length : Nat} {value : α} :
    Inside img (load img offset length value) ↔
      offset + length ≤ img.stSize := by
  simp [Inside, Stays, load, perform, Access.Within]

theorem inside_access {table : Table} {length : Nat} {index : Int}
    {value : α} :
    Inside img (access table length index value) ↔
      0 ≤ index ∧ index < length := by
  simp [Inside, Stays, access, perform, Access.Within]

/-- Bytes of the file are mapped, so a load of such bytes gives its value. -/
@[simp]
theorem inside_load_bind {offset length : Nat} {value : α}
    {next : α → Run β} :
    Inside img (load img offset length value >>= next) ↔
      offset + length ≤ img.stSize ∧ Inside img (next value) := by
  rw [inside_bind, inside_load]
  refine and_congr_right fun inside => ?_
  simp [maps_of_le_stSize inside]

theorem inside_access_bind_int {table : Table} {length : Nat} {index : Int}
    {value : α} {next : α → Run β} :
    Inside img (access table length index value >>= next) ↔
      (0 ≤ index ∧ index < length) ∧ Inside img (next value) := by
  rw [inside_bind, inside_access]
  refine and_congr_right fun inside => ?_
  have given : access table length index value = (.ok value : Except Stop α) :=
    if_pos inside
  simp [given]

@[simp]
theorem inside_access_bind {table : Table} {length index : Nat} {value : α}
    {next : α → Run β} :
    Inside img (access table length index value >>= next) ↔
      index < length ∧ Inside img (next value) := by
  simp [inside_access_bind_int]

@[simp]
theorem inside_access_one_bind {table : Table} {length : Nat} {value : α}
    {next : α → Run β} :
    Inside img (access table length 1 value >>= next) ↔
      1 < length ∧ Inside img (next value) :=
  inside_access_bind

@[simp]
theorem inside_failIf_bind {condition : Prop} [Decidable condition]
    {message : Message} {next : Unit → Run β} :
    Inside img (failIf condition message >>= next) ↔
      (¬condition → Inside img (next ())) := by
  rw [inside_bind, and_iff_right inside_failIf]
  simp only [result_failIf, failIf_eq_ok_iff]
  exact ⟨fun all => all (), fun all _ => all⟩

end Primitives

section Dirents

variable {img : Image} {g : Globals} {currinodenum : Nat} {scan : Scan}

/-- What a used entry needs: its own number in the tables, if it is the `.` of
the root; the number of the directory, if it is a `..`; and otherwise the number
that it names, together with the type of that inode. -/
def EntryInside (img : Image) (g : Globals) (currinodenum : Nat)
    (entry : Dirent) : Prop :=
  entry.inum ≠ 0 →
    if isDot entry.name then
      entry.inum = currinodenum → currinodenum = 1 → 1 < g.tableLen
    else if isDotdot entry.name then
      currinodenum < g.tableLen
    else
      entry.inum < g.tableLen ∧
        Image.inodeOffset entry.inum + 2 ≤ img.stSize

theorem inside_visitDirent {entry : Dirent} :
    Inside img (visitDirent img g currinodenum scan entry) ↔
      EntryInside img g currinodenum entry := by
  unfold visitDirent EntryInside
  by_cases unused : entry.inum = 0
  · simp [unused]
  by_cases dot : isDot entry.name
  · by_cases self : entry.inum = currinodenum
    · by_cases root : currinodenum = 1
      · simp [dot, self, root, -bind_pure_comp]
      · rw [self] at unused
        simp [unused, dot, self, root]
    · simp [unused, dot, self]
  by_cases dotdot : isDotdot entry.name
  · simp [unused, dot, dotdot, -bind_pure_comp]
  · by_cases directory : img.inodeType entry.inum = 1
    · simp +contextual [unused, dot, dotdot, directory, loadType,
        -bind_pure_comp]
    · simp [unused, dot, dotdot, directory, loadType]

/-- The bytes of an entry that are read are in the file: the name only if the
entry is used. -/
def BytesInside (img : Image) (blknum index : Nat) : Prop :=
  Image.blockOffset blknum + 16 * index + 2 ≤ img.stSize ∧
    ((img.blockDirent blknum index).inum ≠ 0 →
      Image.blockOffset blknum + 16 * index + 2 +
        comparedBytes (img.blockDirent blknum index).name ≤ img.stSize)

theorem inside_loadDirent_bind {β : Type} {blknum index : Nat}
    {next : Dirent → Run β} :
    Inside img (loadDirent img blknum index >>= next) ↔
      BytesInside img blknum index ∧
        Inside img (next (img.blockDirent blknum index)) := by
  unfold loadDirent BytesInside
  rw [bind_assoc, inside_load_bind, and_assoc]
  refine and_congr_right fun _ => ?_
  by_cases unused : (img.blockDirent blknum index).inum = 0
  · simp [unused]
  · simp [unused]

/-- The entries of a block to which the traversal comes, those before them
passing, are in bounds. -/
def EntriesInside (img : Image) (g : Globals) (currinodenum blknum : Nat) :
    Prop :=
  ∀ index < 32,
    (∀ earlier < index,
      img.Maps (Image.blockOffset blknum + 16 * earlier) 16 ∧
        DirentOk img g currinodenum (img.blockDirent blknum earlier)) →
      BytesInside img blknum index ∧
        EntryInside img g currinodenum (img.blockDirent blknum index)

theorem inside_traverseDirent {blknum : Nat} :
    Inside img (traverseDirent img g blknum currinodenum scan) ↔
      EntriesInside img g currinodenum blknum := by
  unfold traverseDirent EntriesInside
  rw [Inside, stays_foldlM_range]
  refine forall₂_congr fun index _ => ?_
  simp only [result_bind, result_loadDirent, result_visitDirent,
    visitDirents_eq_ok_iff]
  have slot : ∀ scan, Stays (Access.Within img) (do
      let entry ← loadDirent img blknum index
      visitDirent img g currinodenum scan entry : Run Scan) ↔
        BytesInside img blknum index ∧
          EntryInside img g currinodenum (img.blockDirent blknum index) :=
    fun scan => inside_loadDirent_bind.trans
      (and_congr_right fun _ => inside_visitDirent)
  simp only [slot]
  exact ⟨fun all passed => all _ ⟨passed, rfl⟩,
    fun all _ reached => all reached.1⟩

end Dirents

section Blocks

variable {img : Image} {g : Globals} {type : Int} {currinodenum : Nat}
  {scan : Scan}

/-- A block in the data range needs its element of `blkvisited` and, unless it
has been claimed, its byte of the bitmap. -/
def ClaimInside (img : Image) (g : Globals) (claimed : Prop) (blknum : Nat) :
    Prop :=
  g.datblkstnum ≤ blknum → blknum < g.datblkednum →
    blknum < g.visitedLen ∧
      (¬claimed →
        Image.bitmapOffset g.ninodes blknum + 1 ≤ img.stSize)

theorem inside_claimBlock {badAddress usedOnce : Message} {blknum : Nat} :
    Inside img (claimBlock img g badAddress usedOnce blknum scan) ↔
      ClaimInside img g (scan.blkvisited blknum = true) blknum := by
  unfold claimBlock ClaimInside
  by_cases outside : blknum < g.datblkstnum ∨ blknum ≥ g.datblkednum
  · rw [if_pos outside]
    refine iff_of_true (inside_fail _) fun lower upper => ?_
    omega
  · rw [if_neg outside]
    have lower : g.datblkstnum ≤ blknum := by omega
    have upper : blknum < g.datblkednum := by omega
    cases visited : scan.blkvisited blknum with
    | true => simp [lower, upper]
    | false =>
        simp only [inside_access_bind, bitIsUsed]
        cases used : img.bitmapBit g.ninodes blknum <;> simp [lower, upper]

/-- A non-zero address needs what its claim needs and, for a block of a
directory, what the entries need. -/
theorem inside_runErrand {errand : Errand} :
    Inside img (runErrand img g type currinodenum scan errand) ↔
      ClaimInside img g (scan.blkvisited errand.visit.blknum = true)
          errand.visit.blknum ∧
        (BlockOk img g errand.visit.blknum →
          scan.blkvisited errand.visit.blknum = false →
            errand.visit.data = true → type = 1 →
              EntriesInside img g currinodenum errand.visit.blknum) := by
  unfold runErrand
  rw [inside_bind, inside_claimBlock]
  refine and_congr_right fun _ => ?_
  simp only [result_claimBlock, claimBlock_eq_ok_iff]
  have rest : ∀ scan : Scan, Inside img (if errand.visit.data then
      if type = 1 then
        traverseDirent img g errand.visit.blknum currinodenum
          { scan with blkcnt := scan.blkcnt + 1 }
      else pure { scan with blkcnt := scan.blkcnt + 1 }
      else pure scan) ↔
        (errand.visit.data = true → type = 1 →
          EntriesInside img g currinodenum errand.visit.blknum) := by
    intro scan
    by_cases data : errand.visit.data
    · by_cases directory : type = 1
      · simp [data, directory, inside_traverseDirent]
      · simp [data, directory]
    · simp [data]
  exact ⟨fun all ok free => (rest _).mp (all _ ⟨⟨ok, free⟩, rfl⟩),
    fun all _ claimed => (rest _).mpr (all claimed.1.1 claimed.1.2)⟩

end Blocks

section Words

variable {img : Image} {g : Globals} {type : Int} {currinodenum inum : Nat}
  {scan : Scan}

/-- A word with a block address: where it is stored, and the errand on which a
non-zero value sends the scan. -/
structure Word where
  offset : Nat
  errand : Errand

def Word.visit (word : Word) : Visit := word.errand.visit

/-- The address words of an inode, in scan order: the direct ones, the one of
the indirect block, and those in that block. -/
def words (img : Image) (inum : Nat) : List Word :=
  (List.range 12).map (fun index =>
      ⟨Image.inodeOffset inum + 12 + 4 * index, .badDirectAddressError,
        .badDirectAddressOnceError, true, img.inodeAddr inum index⟩) ++
    ⟨Image.inodeOffset inum + 12 + 4 * 12, .badIndirectAddressError,
      .badIndirectAddressOnceError, false, img.inodeAddr inum 12⟩ ::
    if img.inodeAddr inum 12 = 0 then
      []
    else
      (List.range 128).map fun index =>
        ⟨Image.blockOffset (img.inodeAddr inum 12) + 4 * index,
          .badIndirectAddressError, .badIndirectAddressOnceError, true,
          img.indirectWord (img.inodeAddr inum 12) index⟩

/-- The scan of one address word. -/
def scanWord {m : Type → Type} [Monad m] [Machine m] (img : Image)
    (g : Globals) (type : Int) (currinodenum : Nat) (scan : Scan)
    (word : Word) : m Scan := do
  let blknum ← load img word.offset 4 word.visit.blknum
  if blknum = 0 then
    pure scan
  else
    runErrand img g type currinodenum scan word.errand

/-- A load that does not stop a run gives its value. -/
theorem load_bind_congr {α β : Type} {offset length : Nat} {value : α}
    {next other : α → Run β} (same : next value = other value) :
    (load img offset length value >>= next) =
      (load img offset length value >>= other) := by
  change (perform _ (load img offset length value) >>= next) =
    (perform _ (load img offset length value) >>= other)
  rw [load_eq]
  split_ifs
  · exact congrArg (fun run : Run β => (⟨_ ++ run.log, run.result⟩ : Run β)) same
  · rfl

theorem scanDataBlock_eq_scanWord {offset blknum : Nat}
    {badAddress usedOnce : Message} :
    (do
      let blknum ← load img offset 4 blknum
      scanDataBlock img g badAddress usedOnce type currinodenum blknum scan :
        Run Scan) =
      scanWord img g type currinodenum scan
        ⟨offset, badAddress, usedOnce, true, blknum⟩ := by
  refine load_bind_congr ?_
  by_cases hole : blknum = 0
  · rw [scanDataBlock, if_pos hole, if_pos hole]
  · rw [if_neg hole]
    exact scanDataBlock_eq_runErrand hole

/-- The direct scan followed by the indirect scan is one loop over the words of
the inode. -/
theorem checkAddresses_eq_scanWords :
    (checkDirectAddress img g inum type currinodenum scan >>=
        checkIndirectAddress img g inum type currinodenum : Run Scan) =
      (words img inum).foldlM (scanWord img g type currinodenum) scan := by
  rw [words, List.foldlM_append, List.foldlM_map]
  simp only [checkDirectAddress, loadAddr, scanDataBlock_eq_scanWord]
  refine congrArg _ (funext fun scan => ?_)
  rw [List.foldlM_cons, scanWord, bind_assoc, checkIndirectAddress, loadAddr]
  refine load_bind_congr ?_
  by_cases hole : img.inodeAddr inum 12 = 0
  · simp [hole]
  · simp only [if_neg hole, loadIndirectWord, scanDataBlock_eq_scanWord,
      List.foldlM_map]
    rw [claimBlock_eq_runErrand]

/-- The blocks to which words send the scan. -/
def visitsOf (words : List Word) : List Visit :=
  (words.map Word.visit).filter (fun visit => decide (visit.blknum ≠ 0))

theorem scanWord_eq_ok_iff {word : Word} {result : Scan} :
    scanWord img g type currinodenum scan word = .ok result ↔
      (img.Maps word.offset 4 ∧ (word.visit.blknum ≠ 0 →
        VisitOk img g type currinodenum word.visit ∧
          scan.blkvisited word.visit.blknum = false)) ∧
        (if word.visit.blknum ≠ 0 then
          applyVisit img type currinodenum scan word.visit else scan) =
          result := by
  unfold scanWord
  rw [load_bind_eq_ok_iff, and_assoc]
  refine and_congr_right fun _ => ?_
  by_cases hole : word.visit.blknum = 0
  · simp [hole]
  · simp only [hole, if_false, ne_eq, not_false_eq_true, true_implies, if_true]
    exact runErrand_eq_ok_iff

theorem scanWords_eq_ok_iff {words : List Word} {result : Scan} :
    words.foldlM (scanWord img g type currinodenum) scan = .ok result ↔
      ((∀ word ∈ words, img.Maps word.offset 4) ∧
        VisitsOk img g type currinodenum scan (visitsOf words)) ∧
        (visitsOf words).foldl (applyVisit img type currinodenum) scan =
          result := by
  rw [visitsOf, ← foldl_skip, VisitsOk, ← admits_skip]
  exact foldlM_eq_ok_iff (fun _ _ _ => scanWord_eq_ok_iff) _ _ _

@[simp]
theorem result_scanWord (word : Word) :
    (scanWord img g type currinodenum scan word : Run Scan).result =
      scanWord img g type currinodenum scan word := by
  simp [scanWord, runErrand]

/-- What a word needs: its own bytes, and for a non-zero value what the errand
needs. -/
def WordInside (img : Image) (g : Globals) (type : Int) (currinodenum : Nat)
    (claimed : Nat → Prop) (word : Word) : Prop :=
  word.offset + 4 ≤ img.stSize ∧
    (word.visit.blknum ≠ 0 →
      ClaimInside img g (claimed word.visit.blknum) word.visit.blknum ∧
        (BlockOk img g word.visit.blknum → ¬claimed word.visit.blknum →
          word.visit.data = true → type = 1 →
            EntriesInside img g currinodenum word.visit.blknum))

theorem inside_scanWord {word : Word} :
    Inside img (scanWord img g type currinodenum scan word) ↔
      WordInside img g type currinodenum
        (fun blknum => scan.blkvisited blknum = true) word := by
  unfold scanWord WordInside
  rw [inside_load_bind]
  refine and_congr_right fun _ => ?_
  by_cases hole : word.visit.blknum = 0
  · simp [hole]
  · rw [if_neg hole, inside_runErrand]
    simp only [Bool.not_eq_true]
    exact ⟨fun needed _ => needed, fun needed => needed hole⟩

/-- The scan of the addresses needs what the words need to which it comes. -/
theorem inside_checkAddresses :
    Inside img (checkDirectAddress img g inum type currinodenum scan >>=
        checkIndirectAddress img g inum type currinodenum) ↔
      ∀ before word after, words img inum = before ++ word :: after →
        (∀ earlier ∈ before, img.Maps earlier.offset 4) →
        VisitsOk img g type currinodenum scan (visitsOf before) →
          WordInside img g type currinodenum (fun blknum =>
            ((visitsOf before).foldl (applyVisit img type currinodenum)
              scan).blkvisited blknum = true) word := by
  rw [checkAddresses_eq_scanWords, Inside, stays_foldlM]
  simp only [result_scanWord, scanWords_eq_ok_iff]
  refine forall₄_congr fun before word after _ => ?_
  constructor
  · intro all mapped passed
    exact inside_scanWord.mp (all _ ⟨⟨mapped, passed⟩, rfl⟩)
  · rintro all _ ⟨⟨mapped, passed⟩, rfl⟩
    exact inside_scanWord.mpr (all mapped passed)

end Words

section Inodes

variable {img : Image} {g : Globals} {inum : Nat} {scan : Scan}

/-- The first pass comes to an inode: the inodes before it are sound and claim
no block twice. -/
structure Comes (img : Image) (g : Globals) (inum : Nat) : Prop where
  below : inum < g.ninodes
  sound : ∀ earlier < inum, InodeSound img g earlier
  distinct : (allClaims img inum).Nodup

/-- The blocks claimed when the scan of an inode comes behind some of its
words. -/
def claimsBefore (img : Image) (inum : Nat) (before : List Word) : List Nat :=
  allClaims img inum ++ (visitsOf before).map Visit.blknum

/-- The scan of an inode comes to an address word: the words before it pass and
claim new blocks. -/
structure Loads (img : Image) (g : Globals) (inum : Nat) (before : List Word)
    (word : Word) : Prop where
  typeOk : TypeOk (img.inodeType inum)
  scanned : Scanned img inum
  place : ∃ after, words img inum = before ++ word :: after
  mapped : ∀ earlier ∈ before, img.Maps earlier.offset 4
  passed : ∀ visit ∈ visitsOf before,
    VisitOk img g (img.inodeType inum) (inum % 65536) visit
  distinct : (claimsBefore img inum before).Nodup

/-- The scan of an inode comes behind its blocks. -/
structure Fills (img : Image) (g : Globals) (inum : Nat) : Prop where
  typeOk : TypeOk (img.inodeType inum)
  scanned : Scanned img inum
  mapped : AddrsMapped img inum
  passed : ∀ visit ∈ visits img inum,
    VisitOk img g (img.inodeType inum) (inum % 65536) visit
  distinct : (allClaims img inum ++ claims img inum).Nodup
  formed : img.inodeType inum = 1 →
    (inodeDirents img inum).countP Dirent.isSelf = 1 ∧
      (inodeDirents img inum).countP Dirent.isParent = 1

/-- What an inode needs to which the first pass comes: its type, the words to
which the scan comes and, behind its blocks, its size and its element of
`usedinode`. -/
structure InodeInside (img : Image) (g : Globals) (inum : Nat) : Prop where
  type : Image.inodeOffset inum + 2 ≤ img.stSize
  words : ∀ before word, Loads img g inum before word →
    WordInside img g (img.inodeType inum) (inum % 65536)
      (· ∈ claimsBefore img inum before) word
  size : Fills img g inum → Image.inodeOffset inum + 12 ≤ img.stSize ∧
    (SizeOk (img.inodeSize inum) (dataBlocks img inum).length →
      inum < g.tableLen)

theorem inside_checkNodeType :
    Inside img (checkNodeType img inum) ↔
      Image.inodeOffset inum + 2 ≤ img.stSize := by
  unfold checkNodeType loadType
  rw [inside_load_bind, and_iff_left]
  split_ifs <;> simp

theorem inside_checkFileSize {sum : Nat} :
    Inside img (checkFileSize img inum sum) ↔
      Image.inodeOffset inum + 12 ≤ img.stSize := by
  unfold checkFileSize loadSize
  rw [inside_load_bind, and_iff_left]
  split_ifs <;> simp

/-- The visits succeed in a scan that has claimed the blocks of the inodes
before, exactly if they pass and claim new blocks. -/
theorem visitsOk_iff_nodup {type : Int} {currinodenum : Nat}
    {claimed : List Nat} {visits : List Visit}
    (visited : ∀ blknum, scan.blkvisited blknum = true ↔ blknum ∈ claimed)
    (distinct : claimed.Nodup) :
    VisitsOk img g type currinodenum scan visits ↔
      (∀ visit ∈ visits, VisitOk img g type currinodenum visit) ∧
        (claimed ++ visits.map Visit.blknum).Nodup := by
  have free : ∀ blknum, scan.blkvisited blknum = false ↔ blknum ∉ claimed :=
    fun blknum => by rw [← visited, Bool.not_eq_true]
  rw [visitsOk_iff, List.nodup_append']
  simp only [free, and_iff_right distinct]
  refine and_congr_right fun _ => and_congr_right fun _ => ?_
  exact ⟨fun all blknum old new => all blknum new old,
    fun disjoint blknum new old => disjoint old new⟩

theorem blkvisited_foldl_applyVisit {type : Int} {currinodenum : Nat}
    {claimed : List Nat} {visits : List Visit}
    (visited : ∀ blknum, scan.blkvisited blknum = true ↔ blknum ∈ claimed)
    (blknum : Nat) :
    (visits.foldl (applyVisit img type currinodenum) scan).blkvisited blknum =
        true ↔ blknum ∈ claimed ++ visits.map Visit.blknum := by
  rw [claimed_foldl Scan.blkvisited (fun visit => [visit.blknum])
    (applyVisit_blkvisited img type currinodenum), Bool.or_eq_true, visited,
    decide_eq_true_eq, ← List.map_eq_flatMap, List.mem_append]

/-- The words of an inode, in a scan that has claimed the blocks of the inodes
before. -/
theorem inside_checkAddresses_iff (typeOk : TypeOk (img.inodeType inum))
    (scanned : Scanned img inum) (distinct : (allClaims img inum).Nodup)
    (visited : ∀ blknum, scan.blkvisited blknum = true ↔
      blknum ∈ allClaims img inum) :
    Inside img (checkDirectAddress img g inum (img.inodeType inum)
          (inum % 65536) scan >>=
        checkIndirectAddress img g inum (img.inodeType inum) (inum % 65536)) ↔
      ∀ before word, Loads img g inum before word →
        WordInside img g (img.inodeType inum) (inum % 65536)
          (· ∈ claimsBefore img inum before) word := by
  rw [inside_checkAddresses]
  simp only [visitsOk_iff_nodup visited distinct,
    blkvisited_foldl_applyVisit visited]
  constructor
  · rintro all before word ⟨-, -, ⟨after, place⟩, mapped, passed, nodup⟩
    exact all before word after place mapped ⟨passed, nodup⟩
  · intro all before word after place mapped passed
    exact all before word
      ⟨typeOk, scanned, ⟨after, place⟩, mapped, passed.1, passed.2⟩

/-- The rest of an iteration is reached behind words and blocks that pass. -/
theorem inside_checkAddresses_bind {next : Scan → Run Scan}
    (typeOk : TypeOk (img.inodeType inum)) (scanned : Scanned img inum)
    (distinct : (allClaims img inum).Nodup)
    (visited : ∀ blknum, scan.blkvisited blknum = true ↔
      blknum ∈ allClaims img inum) :
    Inside img (do
        let scan ← checkDirectAddress img g inum (img.inodeType inum)
          (inum % 65536) scan.reset
        let scan ← checkIndirectAddress img g inum (img.inodeType inum)
          (inum % 65536) scan
        next scan) ↔
      (∀ before word, Loads img g inum before word →
        WordInside img g (img.inodeType inum) (inum % 65536)
          (· ∈ claimsBefore img inum before) word) ∧
      (AddrsMapped img inum →
        (∀ visit ∈ visits img inum,
          VisitOk img g (img.inodeType inum) (inum % 65536) visit) →
        (allClaims img inum ++ claims img inum).Nodup →
          Inside img (next (scanBlocks img scan inum))) := by
  have reset : ∀ blknum, scan.reset.blkvisited blknum = true ↔
      blknum ∈ allClaims img inum := visited
  rw [← bind_assoc, inside_bind,
    inside_checkAddresses_iff typeOk scanned distinct reset]
  refine and_congr_right fun _ => ?_
  simp only [result_bind, result_checkDirectAddress,
    result_checkIndirectAddress]
  simp only [checkAddresses_eq_ok_iff, visitsOk_iff_nodup reset distinct,
    visits_map_blknum]
  constructor
  · intro all mapped passed nodup
    exact all _ ⟨⟨mapped, passed, nodup⟩, rfl⟩
  · rintro all _ ⟨⟨mapped, passed, nodup⟩, rfl⟩
    exact all mapped passed nodup

/-- What is left of the iteration when the blocks of the inode have been
scanned. -/
theorem inside_checkFilled {filled : Scan} {next : Unit → Run Scan}
    (done : scanBlocks img scan inum = filled)
    (rest : Inside img (next ()) ↔ inum < g.tableLen) :
    Inside img (if img.inodeType inum = 1 ∧
          (filled.curcnt ≠ 1 ∨ filled.parcnt ≠ 1) then
        fail .badDirectoryFormatError
      else checkFileSize img inum filled.blkcnt >>= next) ↔
      ((img.inodeType inum = 1 →
          (inodeDirents img inum).countP Dirent.isSelf = 1 ∧
            (inodeDirents img inum).countP Dirent.isParent = 1) →
        Image.inodeOffset inum + 12 ≤ img.stSize ∧
          (SizeOk (img.inodeSize inum) (dataBlocks img inum).length →
            inum < g.tableLen)) := by
  have reads := scanBlocks_reads img scan inum
  rw [done] at reads
  have current := reads.curcnt
  have parent := reads.parcnt
  have blocks := reads.blkcnt
  simp only [Scan.reset, Nat.zero_add] at current parent blocks
  rw [current, parent, blocks]
  split_ifs with malformed
  · refine iff_of_true (inside_fail _) fun formed => ?_
    have counts := formed malformed.1
    omega
  · have formed : img.inodeType inum = 1 →
        (inodeDirents img inum).countP Dirent.isSelf = 1 ∧
          (inodeDirents img inum).countP Dirent.isParent = 1 := by
      intro directory
      have counts := not_and.mp malformed directory
      omega
    rw [imp_iff_right formed, inside_bind, inside_checkFileSize]
    refine and_congr_right fun sized => ?_
    rw [← rest]
    have mapped : img.Maps (Image.inodeOffset inum + 8) 4 :=
      maps_of_le_stSize (by omega)
    rw [result_checkFileSize]
    exact ⟨fun all fits => all () (checkFileSize_eq_ok_iff.mpr ⟨mapped, fits⟩),
      fun all _ passed => all (checkFileSize_eq_ok_iff.mp passed).2⟩

theorem inside_scanInode (distinct : (allClaims img inum).Nodup)
    (visited : ∀ blknum, scan.blkvisited blknum = true ↔
      blknum ∈ allClaims img inum) :
    Inside img (scanInode img g scan inum) ↔ InodeInside img g inum := by
  unfold scanInode scanInodeWith
  rw [inside_bind, inside_checkNodeType]
  simp only [result_checkNodeType, checkNodeType_eq_ok_iff, loadType,
    inside_load_bind]
  by_cases scanned : inum ≠ 0 ∧ img.inodeType inum ≠ 0
  · simp only [if_pos scanned]
    have blocks (typeOk : TypeOk (img.inodeType inum)) :
        Inside img (do
          let scan ← checkDirectAddress img g inum (img.inodeType inum)
            (inum % 65536) { scan with curcnt := 0, parcnt := 0, blkcnt := 0 }
          let scan ← checkIndirectAddress img g inum (img.inodeType inum)
            (inum % 65536) scan
          if img.inodeType inum = 1 ∧ (scan.curcnt ≠ 1 ∨ scan.parcnt ≠ 1) then
            fail .badDirectoryFormatError
          else do
            checkFileSize img inum scan.blkcnt
            let _ ← access .usedinode g.tableLen inum ()
            pure { scan with
              usedinode := update scan.usedinode inum true }) ↔ _ :=
      (inside_checkAddresses_bind typeOk scanned distinct visited).trans
        (and_congr_right fun _ => forall₃_congr fun _ _ _ =>
          inside_checkFilled (g := g) rfl (by simp [-bind_pure_comp]))
    constructor
    · rintro ⟨type, rest⟩
      have inside typeOk := (blocks typeOk).mp
        (rest () ⟨maps_of_le_stSize type, typeOk⟩).2
      exact ⟨type, fun before word loads =>
        (inside loads.typeOk).1 before word loads, fun fills =>
        (inside fills.typeOk).2 fills.mapped fills.passed fills.distinct
          fills.formed⟩
    · rintro ⟨type, words, size⟩
      refine ⟨type, fun _ checked => ⟨type, (blocks checked.2).mpr
        ⟨words, fun mapped passed nodup formed => ?_⟩⟩⟩
      exact size ⟨checked.2, scanned, mapped, passed, nodup, formed⟩
  · simp only [if_neg scanned, inside_pure, and_true]
    constructor
    · rintro ⟨type, -⟩
      exact ⟨type, fun _ _ loads => absurd loads.scanned scanned,
        fun fills => absurd fills.scanned scanned⟩
    · intro inside
      exact ⟨inside.type, fun _ _ => inside.type⟩

theorem inside_firstPass :
    Inside img (firstPass img g) ↔
      ∀ inum, Comes img g inum → InodeInside img g inum := by
  unfold firstPass firstPassWith
  rw [Inside, stays_foldlM_range]
  simp only [result_scanInode, scanInodes_eq_ok_iff]
  constructor
  · rintro all inum ⟨below, sound, distinct⟩
    exact (inside_scanInode distinct (blkvisited_foldl img inum)).mp
      (all inum below _ ⟨⟨sound, distinct⟩, rfl⟩)
  · rintro all inum below _ ⟨⟨sound, distinct⟩, rfl⟩
    exact (inside_scanInode distinct (blkvisited_foldl img inum)).mpr
      (all inum ⟨below, sound, distinct⟩)

end Inodes

end LinuxKernelDev.Fsck
