import LinuxKernelDev.FsckDirectoryTree
import LinuxKernelDev.RelatedRuns

/-!
# The width of the inode number

The checker passes the number of the inode that it scans as a `ushort`.  This
file compares it with the same checker whose functions take the whole number.
The two runs differ only behind directories with a number from 65536 on, which
no entry can name.  There the wide checker exits, while the narrow one may still
come to a block behind the end of the mapping.
-/

namespace LinuxKernelDev.Fsck

open Function LoopRules RelatedRuns

/-- The checker with inode numbers of 32 bits. -/
def myfsckWide (img : Image) : Outcome :=
  report (mainWith 4294967296 img)

section Narrowed

variable (img : Image) (g : Globals)

/-- For a number below 65536 the conversion changes nothing. -/
theorem scanInodeWith_of_lt {inum : Nat} (narrow : inum < 65536)
    (scan : Scan) :
    scanInodeWith 65536 img g scan inum =
      (scanInodeWith 4294967296 img g scan inum : Except Stop Scan) := by
  have wide : inum < 4294967296 := by omega
  unfold scanInodeWith
  simp only [Nat.mod_eq_of_lt narrow, Nat.mod_eq_of_lt wide]

/-- The number is not used for the blocks of other inodes than directories. -/
theorem scanDataBlock_of_ne (badAddress usedOnce : Message) {type : Int}
    (notDirectory : type ≠ 1) (number other : Nat) :
    scanDataBlock img g badAddress usedOnce type number =
      (scanDataBlock img g badAddress usedOnce type other :
        Nat → Scan → Except Stop Scan) := by
  unfold scanDataBlock
  simp only [if_neg notDirectory]

theorem checkDirectAddress_of_ne (inum : Nat) {type : Int}
    (notDirectory : type ≠ 1) (number other : Nat) :
    checkDirectAddress img g inum type number =
      (checkDirectAddress img g inum type other : Scan → Except Stop Scan) := by
  unfold checkDirectAddress
  rw [scanDataBlock_of_ne img g _ _ notDirectory number other]

theorem checkIndirectAddress_of_ne (inum : Nat) {type : Int}
    (notDirectory : type ≠ 1) (number other : Nat) :
    checkIndirectAddress img g inum type number =
      (checkIndirectAddress img g inum type other :
        Scan → Except Stop Scan) := by
  unfold checkIndirectAddress
  rw [scanDataBlock_of_ne img g _ _ notDirectory number other]

theorem scanInodeWith_of_ne {inum : Nat}
    (notDirectory : img.inodeType inum ≠ 1) (width other : Nat) (scan : Scan) :
    scanInodeWith width img g scan inum =
      (scanInodeWith other img g scan inum : Except Stop Scan) := by
  unfold scanInodeWith
  refine bind_congr_of_ok fun _ _ => bind_congr_of_ok fun type loaded => ?_
  obtain ⟨-, rfl⟩ := load_eq_ok_iff.mp loaded
  simp only [checkDirectAddress_of_ne img g inum notDirectory (inum % width)
      (inum % other),
    checkIndirectAddress_of_ne img g inum notDirectory (inum % width)
      (inum % other)]

end Narrowed

section Aliased

/-- The errors with which the checker exits. -/
def Exits (stop : Stop) : Prop := ∃ message, stop = .exit message

/-- The states of the two checkers in the blocks of a directory whose number
does not fit: they have claimed the same blocks, and the wide one has found no
entry for the directory itself. -/
structure Behind (narrow wide : Scan) : Prop where
  visited : narrow.blkvisited = wide.blkvisited
  unnamed : wide.curcnt = 0

variable {img : Image} {g : Globals} {inum : Nat} {narrow wide : Scan}

theorem Behind.mark (behind : Behind narrow wide) (blknum : Nat) :
    Behind { narrow with blkvisited := update narrow.blkvisited blknum true }
      { wide with blkvisited := update wide.blkvisited blknum true } :=
  ⟨by rw [behind.visited], behind.unnamed⟩

theorem precedes_visitDirent (large : 65536 ≤ inum) (inTable : inum < g.ninodes)
    (bounded : g.ninodes < 4294967296) (behind : Behind narrow wide)
    {entry : Dirent} (short : entry.inum < 65536) :
    Precedes Exits Behind (visitDirent img g (inum % 65536) narrow entry)
      (visitDirent img g inum wide entry) := by
  unfold visitDirent
  by_cases unused : entry.inum = 0
  · rw [if_pos unused, if_pos unused]
    exact .of_ok behind
  rw [if_neg unused, if_neg unused]
  by_cases dot : isDot entry.name
  · -- No entry names the directory, so the wide checker stops at its first dot.
    have different : entry.inum ≠ inum := by omega
    rw [if_pos dot, if_pos dot, if_pos different]
    exact .inl ⟨_, rfl⟩
  rw [if_neg dot, if_neg dot]
  by_cases dotdot : isDotdot entry.name
  · rw [if_pos dotdot, if_pos dotdot]
    have sameAccess : access .parentdotdot g.tableLen (inum % 65536 : Nat) () =
        (access .parentdotdot g.tableLen inum () : Except Stop Unit) := by
      unfold Globals.tableLen
      rw [access_eq, access_eq]
      split_ifs <;> first | rfl | omega
    rw [sameAccess]
    exact .bind_same _ fun _ _ => .of_ok ⟨behind.1, behind.2⟩
  · rw [if_neg dotdot, if_neg dotdot]
    refine .bind_same _ fun _ _ => .bind_same _ fun childType _ => ?_
    split_ifs
    · exact .bind_same _ fun _ _ => .of_ok ⟨behind.1, behind.2⟩
    · exact .of_ok ⟨behind.1, behind.2⟩

theorem precedes_traverseDirent (large : 65536 ≤ inum) (inTable : inum < g.ninodes)
    (bounded : g.ninodes < 4294967296) (blknum : Nat)
    (behind : Behind narrow wide) :
    Precedes Exits Behind (traverseDirent img g blknum (inum % 65536) narrow)
      (traverseDirent img g blknum inum wide) := by
  refine Precedes.foldlM (fun left right behind index _ => ?_) behind
  rw [loadDirent_eq]
  refine .bind_same _ fun entry loaded => ?_
  obtain ⟨-, rfl⟩ := load_eq_ok_iff.mp loaded
  exact precedes_visitDirent large inTable bounded behind (img.word16_lt _)

theorem precedes_claimBlock (badAddress usedOnce : Message) (blknum : Nat)
    (behind : Behind narrow wide) :
    Precedes Exits Behind (claimBlock img g badAddress usedOnce blknum narrow)
      (claimBlock img g badAddress usedOnce blknum wide) := by
  unfold claimBlock
  split_ifs
  · exact .inl ⟨_, rfl⟩
  rw [behind.visited]
  refine .bind_same _ fun visited _ => ?_
  split_ifs
  · exact .inl ⟨_, rfl⟩
  refine .bind_same _ fun used _ => ?_
  split_ifs
  · exact .inl ⟨_, rfl⟩
  · exact .of_ok (behind.visited ▸ behind.mark blknum)

theorem precedes_scanDataBlock (large : 65536 ≤ inum)
    (inTable : inum < g.ninodes) (bounded : g.ninodes < 4294967296)
    (badAddress usedOnce : Message) (type : Int) (blknum : Nat)
    (behind : Behind narrow wide) :
    Precedes Exits Behind
      (scanDataBlock img g badAddress usedOnce type (inum % 65536) blknum
        narrow)
      (scanDataBlock img g badAddress usedOnce type inum blknum wide) := by
  unfold scanDataBlock
  split_ifs with hole directory
  · exact .of_ok behind
  · exact (precedes_claimBlock _ _ blknum behind).bind fun left right behind =>
      precedes_traverseDirent large inTable bounded blknum
        ⟨behind.visited, behind.unnamed⟩
  · exact (precedes_claimBlock _ _ blknum behind).bind fun left right behind =>
      .of_ok ⟨behind.visited, behind.unnamed⟩

theorem precedes_checkDirectAddress (large : 65536 ≤ inum)
    (inTable : inum < g.ninodes) (bounded : g.ninodes < 4294967296)
    (type : Int) (behind : Behind narrow wide) :
    Precedes Exits Behind
      (checkDirectAddress img g inum type (inum % 65536) narrow)
      (checkDirectAddress img g inum type inum wide) := by
  refine Precedes.foldlM (fun left right behind index _ => ?_) behind
  refine .bind_same _ fun blknum _ => ?_
  exact precedes_scanDataBlock large inTable bounded _ _ type blknum behind

theorem precedes_checkIndirectAddress (large : 65536 ≤ inum)
    (inTable : inum < g.ninodes) (bounded : g.ninodes < 4294967296)
    (type : Int) (behind : Behind narrow wide) :
    Precedes Exits Behind
      (checkIndirectAddress img g inum type (inum % 65536) narrow)
      (checkIndirectAddress img g inum type inum wide) := by
  refine .bind_same _ fun ndirblknum _ => ?_
  split_ifs with hole
  · exact .of_ok behind
  refine (precedes_claimBlock _ _ ndirblknum behind).bind
    fun left right behind => ?_
  refine Precedes.foldlM (fun left right behind index _ => ?_) behind
  refine .bind_same _ fun blknum _ => ?_
  exact precedes_scanDataBlock large inTable bounded _ _ type blknum behind

/-- The wide checker exits in a directory whose number does not fit, at the
latest behind its blocks. -/
theorem precedes_scanInode_of_le (large : 65536 ≤ inum)
    (inTable : inum < g.ninodes) (bounded : g.ninodes < 4294967296)
    (directory : img.inodeType inum = 1) (scan : Scan) :
    Precedes Exits Eq (scanInodeWith 65536 img g scan inum)
      (scanInodeWith 4294967296 img g scan inum) := by
  refine .bind_same _ fun _ _ => .bind_same _ fun type loaded => ?_
  obtain ⟨-, rfl⟩ := load_eq_ok_iff.mp loaded
  have scanned : inum ≠ 0 ∧ img.inodeType inum ≠ 0 := by omega
  have whole : inum % 4294967296 = inum := Nat.mod_eq_of_lt (by omega)
  rw [if_pos scanned, if_pos scanned, whole]
  have start : Behind { scan with curcnt := 0, parcnt := 0, blkcnt := 0 }
      { scan with curcnt := 0, parcnt := 0, blkcnt := 0 } := ⟨rfl, rfl⟩
  refine (precedes_checkDirectAddress large inTable bounded _ start).bind
    fun left right behind => ?_
  refine (precedes_checkIndirectAddress large inTable bounded _ behind).bind
    fun left right behind => ?_
  have malformed : img.inodeType inum = 1 ∧
      (right.curcnt ≠ 1 ∨ right.parcnt ≠ 1) :=
    ⟨directory, .inl (by simp [behind.unnamed])⟩
  rw [if_pos malformed]
  exact .inl ⟨_, rfl⟩

theorem precedes_scanInode (inTable : inum < g.ninodes)
    (bounded : g.ninodes < 4294967296) (scan : Scan) :
    Precedes Exits Eq (scanInodeWith 65536 img g scan inum)
      (scanInodeWith 4294967296 img g scan inum) := by
  by_cases fits : inum < 65536
  · rw [scanInodeWith_of_lt img g fits]
    exact .refl _
  by_cases directory : img.inodeType inum = 1
  · exact precedes_scanInode_of_le (by omega) inTable bounded directory scan
  · rw [scanInodeWith_of_ne img g directory _ 4294967296]
    exact .refl _

end Aliased

section Verdict

variable {img : Image} {g : Globals}

theorem precedes_helper (bounded : g.ninodes < 4294967296) :
    Precedes Exits Eq (helperWith 65536 img g)
      (helperWith 4294967296 img g) := by
  have firstPasses : Precedes Exits Eq (firstPassWith 65536 img g)
      (firstPassWith 4294967296 img g) := by
    refine Precedes.foldlM (fun left right same inum member => ?_) rfl
    subst same
    exact precedes_scanInode (List.mem_range.mp member) bounded left
  refine firstPasses.bind fun left right same => ?_
  subst same
  exact .refl _

/-- The runs of the two checkers are the same until the wide one exits. -/
theorem precedes_main (img : Image) :
    Precedes Exits Eq (mainWith 65536 img) (mainWith 4294967296 img) := by
  unfold mainWith
  split_ifs with empty
  · exact .inr rfl
  refine .bind_same _ fun sbsize _ => .bind_same _ fun nblocks _ =>
    .bind_same _ fun ninodes loaded => .bind_same _ fun g layout => ?_
  obtain ⟨-, rfl⟩ := load_eq_ok_iff.mp loaded
  obtain ⟨-, rfl⟩ := checkSize_eq_ok_iff.mp layout
  exact precedes_helper (img.word32_lt 520)

/-- No inode behind the first 65536 is in use if the checker succeeds. -/
theorem lt_of_helper {inum : Nat} (helped : helper img g = .ok ())
    (inTable : inum < g.ninodes) (inUse : Scanned img inum) :
    inum < 65536 := by
  obtain ⟨scan, scanned, -, referenced⟩ := helper_eq_ok_iff.mp helped
  have described := describes_of_firstPass scanned
  have positive : 1 ≤ inum := Nat.one_le_iff_ne_zero.mpr inUse.1
  have conditions := referencePass_eq_ok_iff.mp referenced inum positive inTable
  exact described.lt_of_inodeindirent
    (conditions.found ((described.used inum).mpr ⟨inTable, inUse⟩))

/-- Without such inodes the two checkers take the same steps. -/
theorem helperWith_of_lt
    (fits : ∀ inum < g.ninodes, Scanned img inum → inum < 65536) :
    helperWith 4294967296 img g =
      (helperWith 65536 img g : Except Stop Unit) := by
  unfold helperWith firstPassWith
  rw [foldlM_congr fun scan inum member => ?_]
  by_cases small : inum < 65536
  · exact (scanInodeWith_of_lt img g small scan).symm
  · have notDirectory : img.inodeType inum ≠ 1 := fun directory => small
      (fits inum (List.mem_range.mp member) ⟨by omega, by omega⟩)
    exact scanInodeWith_of_ne img g notDirectory _ _ scan

theorem mainWith_of_main (returned : main img = .ok ()) :
    mainWith 4294967296 img = .ok () := by
  obtain ⟨nonempty, g, layout, helped⟩ := main_eq_ok_iff.mp returned
  rw [mainWith_eq_helperWith nonempty layout, helperWith_of_lt]
  · exact helped
  · exact fun inum inTable inUse => lt_of_helper helped inTable inUse

/-- The exit status of a run, if it has one. -/
def Outcome.status : Outcome → Option Nat
  | .exited status _ => some status
  | .undefined => none

theorem status_report_of_exits {stop : Stop} (exits : Exits stop) :
    (report (.error stop)).status = some 1 := by
  obtain ⟨message, rfl⟩ := exits
  cases message <;> rfl

theorem exits_of_report {stop : Stop}
    (inRange : report (.error stop) ≠ .undefined) : Exits stop := by
  cases stop with
  | exit message => exact ⟨message, rfl⟩
  | outOfBounds => exact absurd rfl inRange
  | unmapped => exact absurd rfl inRange
  | outOfFuel => exact absurd rfl inRange

/-- Passing the inode number as a `ushort` never changes the exit status. -/
theorem status_myfsckWide (img : Image) (inRange : myfsck img ≠ .undefined) :
    (myfsckWide img).status = (myfsck img).status := by
  unfold myfsck main at inRange ⊢
  unfold myfsckWide
  have precedes := precedes_main img
  cases narrowEq : mainWith 65536 img with
  | ok value => rw [mainWith_of_main narrowEq]
  | error stop =>
      rw [narrowEq] at inRange precedes
      cases wideEq : mainWith 4294967296 img with
      | ok value =>
          rw [wideEq] at precedes
          obtain ⟨other, same, -⟩ := precedes
          contradiction
      | error early =>
          rw [wideEq] at precedes
          rcases precedes with exits | same
          · rw [status_report_of_exits exits,
              status_report_of_exits (exits_of_report inRange)]
          · rw [Except.error.inj same]

theorem status_myfsckWide_sample :
    myfsck Image.sample ≠ .undefined ∧
      (myfsckWide Image.sample).status = (myfsck Image.sample).status := by
  have inRange : myfsck Image.sample ≠ .undefined := by decide +kernel
  exact ⟨inRange, status_myfsckWide Image.sample inRange⟩

end Verdict

section Truncated

/-- Inodes that are not in use leave the tables as they are. -/
theorem scanInodes_of_free {img : Image} {g : Globals} {count : Nat}
    (free : ∀ inum < count, img.Maps (Image.inodeOffset inum) 2 ∧
      img.inodeType inum = 0) (width : Nat) (scan : Scan) :
    (List.range count).foldlM (scanInodeWith width img g) scan = .ok scan := by
  induction count with
  | zero => rfl
  | succ count ih =>
      obtain ⟨mapped, unused⟩ := free count (by omega)
      rw [List.range_succ, List.foldlM_append,
        ih fun inum below => free inum (by omega)]
      have step : scanInodeWith width img g scan count = .ok scan := by
        simp [scanInodeWith, checkNodeType, loadType, load_eq, mapped, unused,
          bind, Except.bind]
      simp [bind, Except.bind, step]

/-- An image of 8201 blocks with 65538 inodes, cut off behind block 8198.  The
last inode is a directory with the blocks 8198 and 8200, and the one entry in
block 8198 is a `.` that names inode 1. -/
def aliased : Image where
  stSize := 4197888
  byte offset :=
    if offset < 1024 then
      (([(512, 9), (513, 32), (516, 3), (520, 2), (522, 1)] :
        List (Nat × UInt8)).lookup offset).getD 0
    else if offset < 4195392 then 0
    else
      (([(4195392, 1), (4195404, 6), (4195405, 32), (4195408, 8),
        (4195409, 32), (4196864, 64), (4196865, 1), (4197376, 1),
        (4197378, 46)] : List (Nat × UInt8)).lookup offset).getD 0

theorem aliased_free (inum : Nat) (below : inum < 65537) :
    aliased.Maps (Image.inodeOffset inum) 2 ∧ aliased.inodeType inum = 0 := by
  have zero : ∀ offset, 1024 ≤ offset → offset < 4195392 →
      aliased.mem offset = 0 := by
    intro offset lower upper
    have inside : offset < 4197888 := by omega
    have later : ¬offset < 1024 := by omega
    simp [Image.mem, aliased, inside, later, upper]
  constructor
  · have size : aliased.stSize = 4197888 := rfl
    unfold Image.Maps Image.mapped Image.inodeOffset
    omega
  · unfold Image.inodeType Image.word16 Image.inodeOffset
    rw [zero _ (by omega) (by omega), zero _ (by omega) (by omega)]
    decide

/-- The error that ends a run. -/
def stopOf {α : Type} : Except Stop α → Option Stop
  | .ok _ => none
  | .error stop => some stop

theorem eq_error_of_stopOf {α : Type} {run : Except Stop α} {stop : Stop}
    (ended : stopOf run = some stop) : run = .error stop := by
  cases run with
  | ok value => cases ended
  | error other => rw [Option.some.inj ended]

/-- The run on `aliased` ends at its last inode. -/
theorem mainWith_aliased {width : Nat} {stop : Stop}
    (ended : stopOf (scanInodeWith width aliased ⟨8201, 3, 65538, 8198, 8201⟩
      Scan.initial 65537) = some stop) :
    mainWith width aliased = .error stop := by
  have layout : checkSize aliased.sbSize aliased.sbNblocks aliased.sbNinodes =
      .ok ⟨8201, 3, 65538, 8198, 8201⟩ := by
    have size : aliased.sbSize = 8201 := by decide +kernel
    have blocks : aliased.sbNblocks = 3 := by decide +kernel
    have inodes : aliased.sbNinodes = 65538 := by decide +kernel
    rw [size, blocks, inodes, checkSize_eq_ok_iff]
    exact ⟨rfl, rfl⟩
  have nonempty : aliased.stSize ≠ 0 := by decide
  rw [mainWith_eq_helperWith nonempty layout, helperWith, firstPassWith,
    List.range_succ, List.foldlM_append, scanInodes_of_free aliased_free]
  simp [bind, Except.bind, eq_error_of_stopOf ended]

/-- Every index is in range, but the two exit statuses differ: the narrow
checker takes the `.` for that of the directory and then loads from behind the
mapping, and the wide one exits at the `.`. -/
theorem status_aliased :
    main aliased = .error .unmapped ∧
      mainWith 4294967296 aliased = fail .badDirectoryFormatError ∧
      (myfsck aliased).status = none ∧
      (myfsckWide aliased).status = some 1 := by
  have narrow : mainWith 65536 aliased = .error .unmapped :=
    mainWith_aliased (by decide +kernel)
  have wide : mainWith 4294967296 aliased = fail .badDirectoryFormatError :=
    mainWith_aliased (by decide +kernel)
  refine ⟨narrow, wide, ?_, ?_⟩
  · rw [myfsck, main, narrow]
    rfl
  · rw [myfsckWide, wide]
    rfl

end Truncated

end LinuxKernelDev.Fsck
