import LinuxKernelDev.FsckVerdict

/-!
# Where a run stops with a message

For every function of the checker this file says what it has found when it
exits with a message: which test failed, on which value, and what the loop had
already done.  The blocks claimed earlier by the same inode are part of the
description, because a block may be claimed twice by one inode.
-/

namespace LinuxKernelDev.Fsck

open Function LoopRules ParentChain

section Primitives

variable {α β : Type} {message : Message}

@[simp]
theorem fail_eq_exit_iff {other : Message} :
    (fail other : Except Stop α) = .error (.exit (some message)) ↔
      other = message := by
  simp [fail]

@[simp]
theorem load_ne_exit {img : Image} {offset length : Nat} {value : α} :
    load img offset length value ≠ .error (.exit (some message)) := by
  rw [load_eq]
  split <;> simp

@[simp]
theorem access_ne_exit {table : Table} {length : Nat} {index : Int}
    {value : α} :
    access table length index value ≠ .error (.exit (some message)) := by
  change (if 0 ≤ index ∧ index < length then _ else _) ≠ _
  split <;> simp

@[simp]
theorem load_bind_eq_exit_iff {img : Image} {offset length : Nat} {value : α}
    {next : α → Except Stop β} :
    (load img offset length value >>= next) =
        .error (.exit (some message)) ↔
      img.Maps offset length ∧
        next value = .error (.exit (some message)) :=
  load_bind_eq_error_iff (by simp)

@[simp]
theorem access_bind_eq_exit_iff {table : Table} {length index : Nat}
    {value : α} {next : α → Except Stop β} :
    (access table length index value >>= next) =
        .error (.exit (some message)) ↔
      index < length ∧ next value = .error (.exit (some message)) := by
  rw [bind_eq_error_iff]
  simp [and_assoc]

@[simp]
theorem failIf_eq_exit_iff {condition : Prop} [Decidable condition]
    {other : Message} :
    failIf condition other = .error (.exit (some message)) ↔
      condition ∧ other = message := by
  unfold failIf
  split <;> simp_all

@[simp]
theorem failIf_bind_eq_exit_iff {condition : Prop} [Decidable condition]
    {other : Message} {next : Unit → Except Stop β} :
    (failIf condition other >>= next) = .error (.exit (some message)) ↔
      (condition ∧ other = message) ∨
        (¬condition ∧ next () = .error (.exit (some message))) := by
  simp [failIf_bind_eq_error_iff]

end Primitives

section Blocks

variable {img : Image} {g : Globals} {type : Int} {currinodenum : Nat}
  {message : Message}

theorem visitDirent_exit {scan : Scan} {entry : Dirent}
    (stopped : visitDirent img g currinodenum scan entry =
      .error (.exit (some message))) :
    message = .badDirectoryFormatError ∧ entry.isSelf = true ∧
      entry.inum ≠ currinodenum := by
  unfold visitDirent at stopped
  simp only [pure_eq_ok] at stopped
  split_ifs at stopped with unused dot self root dotdot
  · exact ⟨(fail_eq_exit_iff.mp stopped).symm,
      by simp [Dirent.isSelf, unused, dot], self⟩
  · simp [bind_eq_error_iff] at stopped
  · simp at stopped
  · simp only [loadType, access_bind_eq_exit_iff,
      load_bind_eq_exit_iff] at stopped
    obtain ⟨-, -, stopped⟩ := stopped
    split_ifs at stopped
    simp at stopped

theorem traverseDirent_exit {blknum : Nat} {scan : Scan}
    (stopped : traverseDirent img g blknum currinodenum scan =
      .error (.exit (some message))) :
    message = .badDirectoryFormatError ∧
      ∃ entry ∈ blockDirents img blknum, entry.isSelf = true ∧
        entry.inum ≠ currinodenum := by
  obtain ⟨before, index, after, middle, split, -, here⟩ :=
    foldlM_eq_error_iff.mp stopped
  simp only [loadDirent_eq, load_bind_eq_exit_iff] at here
  obtain ⟨messageEq, self⟩ := visitDirent_exit here.2
  refine ⟨messageEq, _, List.mem_map.mpr ⟨index, ?_, rfl⟩, self⟩
  rw [split]
  simp

/-- What stops the scan at a block: it is outside the data range, or has been
claimed before, by another inode or among the `earlier` blocks of this one, or
its bit is not set, or a `.` entry in it names another inode. -/
inductive Fault (img : Image) (g : Globals) (badAddress usedOnce : Message)
    (type : Int) (currinodenum : Nat) (scan : Scan) (earlier : List Nat)
    (blknum : Nat) : Message → Prop where
  | outside (out : ¬(g.datblkstnum ≤ blknum ∧ blknum < g.datblkednum)) :
      Fault img g badAddress usedOnce type currinodenum scan earlier blknum
        badAddress
  | again (inside : g.datblkstnum ≤ blknum ∧ blknum < g.datblkednum)
      (claimed : scan.blkvisited blknum = true ∨ blknum ∈ earlier) :
      Fault img g badAddress usedOnce type currinodenum scan earlier blknum
        usedOnce
  | unmarked (inside : g.datblkstnum ≤ blknum ∧ blknum < g.datblkednum)
      (free : img.bitmapBit g.ninodes blknum = false) :
      Fault img g badAddress usedOnce type currinodenum scan earlier blknum
        .badUsedAddressError
  | misnamed (inside : g.datblkstnum ≤ blknum ∧ blknum < g.datblkednum)
      (directory : type = 1) {entry : Dirent}
      (member : entry ∈ blockDirents img blknum) (self : entry.isSelf = true)
      (other : entry.inum ≠ currinodenum) :
      Fault img g badAddress usedOnce type currinodenum scan earlier blknum
        .badDirectoryFormatError

variable {badAddress usedOnce : Message} {scan : Scan} {blknum : Nat}

theorem claimBlock_exit (type : Int) (currinodenum : Nat)
    (stopped : claimBlock img g badAddress usedOnce blknum scan =
      .error (.exit (some message))) :
    Fault img g badAddress usedOnce type currinodenum scan [] blknum
      message := by
  unfold claimBlock at stopped
  split_ifs at stopped with outside
  · obtain rfl := fail_eq_exit_iff.mp stopped
    exact .outside (by omega)
  · have inside : g.datblkstnum ≤ blknum ∧ blknum < g.datblkednum := by omega
    simp only [access_bind_eq_exit_iff] at stopped
    obtain ⟨-, stopped⟩ := stopped
    split_ifs at stopped with visited
    · obtain rfl := fail_eq_exit_iff.mp stopped
      exact .again inside (.inl visited)
    · simp only [bitIsUsed, load_bind_eq_exit_iff, pure_eq_ok] at stopped
      obtain ⟨-, stopped⟩ := stopped
      split_ifs at stopped with free
      obtain rfl := fail_eq_exit_iff.mp stopped
      exact .unmarked inside (by simpa using free)

theorem scanDataBlock_exit (nonzero : blknum ≠ 0)
    (stopped : scanDataBlock img g badAddress usedOnce type currinodenum
      blknum scan = .error (.exit (some message))) :
    Fault img g badAddress usedOnce type currinodenum scan [] blknum
      message := by
  unfold scanDataBlock at stopped
  rw [if_neg nonzero, bind_eq_error_iff] at stopped
  rcases stopped with stopped | ⟨marked, claimed, stopped⟩
  · exact claimBlock_exit type currinodenum stopped
  · obtain ⟨⟨blockOk, -⟩, -⟩ := claimBlock_eq_ok_iff.mp claimed
    simp only [pure_eq_ok] at stopped
    split_ifs at stopped with directory
    obtain ⟨rfl, entry, member, self, other⟩ := traverseDirent_exit stopped
    exact .misnamed ⟨blockOk.1, blockOk.2.1⟩ directory member self other

/-- Blocks claimed in the meantime count among the earlier ones. -/
theorem Fault.of_visits (visits : List Visit) (readType : Int)
    {earlier : List Nat}
    (fault : Fault img g badAddress usedOnce type currinodenum
      (visits.foldl (applyVisit img readType currinodenum) scan) earlier
      blknum message) :
    Fault img g badAddress usedOnce type currinodenum scan
      (visits.map Visit.blknum ++ earlier) blknum message := by
  cases fault with
  | outside out => exact .outside out
  | unmarked inside free => exact .unmarked inside free
  | misnamed inside directory member self other =>
      exact .misnamed inside directory member self other
  | again inside claimed =>
      refine .again inside ?_
      rw [claimed_foldl Scan.blkvisited (fun visit => [visit.blknum])
        (applyVisit_blkvisited img readType currinodenum),
        Bool.or_eq_true, decide_eq_true_eq, ← List.map_eq_flatMap] at claimed
      rw [List.mem_append, ← or_assoc]
      exact claimed

/-- A loop over block addresses that stops has scanned the blocks before the
one at which it stops. -/
theorem scanAddresses_exit {count : Nat} (offset address : Nat → Nat)
    (stopped : ((List.range count).foldlM (fun scan index => do
        let blknum ← load img (offset index) 4 (address index)
        scanDataBlock img g badAddress usedOnce type currinodenum blknum scan)
      scan : Except Stop Scan) = .error (.exit (some message))) :
    ∃ earlier blknum later,
      ((List.range count).map address).filter (fun blknum =>
        decide (blknum ≠ 0)) = earlier ++ blknum :: later ∧
        Fault img g badAddress usedOnce type currinodenum scan earlier blknum
          message := by
  obtain ⟨before, index, after, middle, split, passed, here⟩ :=
    foldlM_eq_error_iff.mp stopped
  obtain ⟨rfl, -⟩ := eq_range_of_range_eq split
  obtain ⟨-, rfl⟩ := (scanAddresses_eq_ok_iff offset address).mp passed
  rw [load_bind_eq_exit_iff] at here
  have nonzero : address index ≠ 0 := fun hole => by
    simp [scanDataBlock, hole] at here
  have fault := (scanDataBlock_exit nonzero here.2).of_visits _ _
  rw [List.map_map, List.append_nil] at fault
  refine ⟨_, address index, (after.map address).filter (fun blknum =>
    decide (blknum ≠ 0)), ?_, fault⟩
  rw [split]
  simp [nonzero, Function.comp_def]

/-- What stops the scan of the addresses of an inode. -/
inductive AddressFault (img : Image) (g : Globals) (inum : Nat) (type : Int)
    (currinodenum : Nat) (scan : Scan) (message : Message) : Prop where
  | direct {earlier later : List Nat} {blknum : Nat}
      (split : img.directAddrs inum = earlier ++ blknum :: later)
      (fault : Fault img g .badDirectAddressError .badDirectAddressOnceError
        type currinodenum scan earlier blknum message)
  | indirect (present : img.inodeAddr inum 12 ≠ 0)
      (fault : Fault img g .badIndirectAddressError
        .badIndirectAddressOnceError 0 currinodenum scan
        (img.directAddrs inum) (img.inodeAddr inum 12) message)
  | word (claimed : BlockOk img g (img.inodeAddr inum 12))
      {earlier later : List Nat} {blknum : Nat}
      (split : indirectBlocks img inum = earlier ++ blknum :: later)
      (fault : Fault img g .badIndirectAddressError
        .badIndirectAddressOnceError type currinodenum scan
        (img.directAddrs inum ++ img.inodeAddr inum 12 :: earlier) blknum
        message)

theorem checkAddresses_exit {inum : Nat}
    (stopped : (checkDirectAddress img g inum type currinodenum scan >>=
      checkIndirectAddress img g inum type currinodenum) =
        .error (.exit (some message))) :
    AddressFault img g inum type currinodenum scan message := by
  rw [bind_eq_error_iff] at stopped
  rcases stopped with stopped | ⟨middle, direct, stopped⟩
  · obtain ⟨earlier, blknum, later, split, fault⟩ := scanAddresses_exit
      (fun index => Image.inodeOffset inum + 12 + 4 * index)
      (img.inodeAddr inum) stopped
    exact .direct split fault
  obtain ⟨-, rfl⟩ := (scanAddresses_eq_ok_iff
    (fun index => Image.inodeOffset inum + 12 + 4 * index)
    (img.inodeAddr inum)).mp direct
  have directs : ((img.directAddrs inum).map (Visit.mk true)).map
      Visit.blknum = img.directAddrs inum := by
    simp [Function.comp_def]
  simp only [checkIndirectAddress, loadAddr, load_bind_eq_exit_iff,
    pure_eq_ok] at stopped
  obtain ⟨-, stopped⟩ := stopped
  split_ifs at stopped with hole
  rw [bind_eq_error_iff] at stopped
  rcases stopped with stopped | ⟨marked, claimed, stopped⟩
  · have fault := (claimBlock_exit 0 currinodenum stopped).of_visits _ _
    rw [List.append_nil] at fault
    exact .indirect hole (directs ▸ fault)
  · obtain ⟨⟨blockOk, -⟩, rfl⟩ := claimBlock_eq_ok_iff.mp claimed
    obtain ⟨earlier, blknum, later, split, fault⟩ := scanAddresses_exit
      (fun index =>
        Image.blockOffset (img.inodeAddr inum 12) + 4 * index)
      (img.indirectWord (img.inodeAddr inum 12)) stopped
    have words : indirectBlocks img inum = earlier ++ blknum :: later := by
      rw [indirectBlocks, if_neg hole]
      exact split
    have indirect : Fault img g .badIndirectAddressError
        .badIndirectAddressOnceError type currinodenum
        (((img.directAddrs inum).map (Visit.mk true)).foldl
          (applyVisit img type currinodenum) scan)
        (img.inodeAddr inum 12 :: earlier) blknum message :=
      Fault.of_visits [⟨false, img.inodeAddr inum 12⟩] type fault
    have all := indirect.of_visits _ _
    exact .word blockOk words (directs ▸ all)

end Blocks

section Inodes

variable {img : Image} {g : Globals} {inum : Nat} {scan : Scan}
  {message : Message}

/-- What stops the first pass at an inode. -/
inductive InodeFault (img : Image) (g : Globals) (scan : Scan) (inum : Nat) :
    Message → Prop where
  | type (bad : ¬TypeOk (img.inodeType inum)) :
      InodeFault img g scan inum .badInodeError
  | address {message : Message} (scanned : Scanned img inum)
      (fault : AddressFault img g inum (img.inodeType inum) (inum % 65536)
        scan message) : InodeFault img g scan inum message
  | format (scanned : Scanned img inum) (directory : img.inodeType inum = 1)
      (blocks : ∀ blknum ∈ claims img inum, BlockOk img g blknum)
      (bad : ¬((inodeDirents img inum).countP Dirent.isSelf = 1 ∧
        (inodeDirents img inum).countP Dirent.isParent = 1)) :
      InodeFault img g scan inum .badDirectoryFormatError
  | size (scanned : Scanned img inum)
      (blocks : ∀ blknum ∈ claims img inum, BlockOk img g blknum)
      (bad : ¬SizeOk (img.inodeSize inum) (dataBlocks img inum).length) :
      InodeFault img g scan inum .badFileSizeError

theorem checkNodeType_exit
    (stopped : checkNodeType img inum = .error (.exit (some message))) :
    message = .badInodeError ∧ ¬TypeOk (img.inodeType inum) := by
  simp only [checkNodeType, loadType, load_bind_eq_exit_iff,
    pure_eq_ok] at stopped
  obtain ⟨-, stopped⟩ := stopped
  split_ifs at stopped with invalid
  refine ⟨(fail_eq_exit_iff.mp stopped).symm, fun typeOk => ?_⟩
  unfold TypeOk at typeOk
  omega

theorem checkFileSize_exit {sum : Nat}
    (stopped : checkFileSize img inum sum = .error (.exit (some message))) :
    message = .badFileSizeError ∧ ¬SizeOk (img.inodeSize inum) sum := by
  simp only [checkFileSize, loadSize, load_bind_eq_exit_iff,
    pure_eq_ok] at stopped
  obtain ⟨-, stopped⟩ := stopped
  unfold SizeOk
  split_ifs at stopped ⊢ with empty nonzero outside
  · exact ⟨(fail_eq_exit_iff.mp stopped).symm, nonzero⟩
  · exact ⟨(fail_eq_exit_iff.mp stopped).symm, by omega⟩

theorem AddressFault.of_reset {type : Int} {currinodenum : Nat}
    (fault : AddressFault img g inum type currinodenum scan.reset message) :
    AddressFault img g inum type currinodenum scan message := by
  have same : ∀ {badAddress usedOnce : Message} {type : Int}
      {earlier : List Nat} {blknum : Nat},
      Fault img g badAddress usedOnce type currinodenum scan.reset earlier
        blknum message →
      Fault img g badAddress usedOnce type currinodenum scan earlier blknum
        message := by
    intro badAddress usedOnce type earlier blknum fault
    cases fault with
    | outside out => exact .outside out
    | again inside claimed => exact .again inside claimed
    | unmarked inside free => exact .unmarked inside free
    | misnamed inside directory member self other =>
        exact .misnamed inside directory member self other
  cases fault with
  | direct split fault => exact .direct split (same fault)
  | indirect present fault => exact .indirect present (same fault)
  | word claimed split fault => exact .word claimed split (same fault)

theorem scanInode_exit
    (stopped : scanInode img g scan inum = .error (.exit (some message))) :
    InodeFault img g scan inum message := by
  unfold scanInode scanInodeWith at stopped
  rw [bind_eq_error_iff] at stopped
  rcases stopped with stopped | ⟨-, -, stopped⟩
  · obtain ⟨rfl, bad⟩ := checkNodeType_exit stopped
    exact .type bad
  simp only [loadType, load_bind_eq_exit_iff, pure_eq_ok] at stopped
  obtain ⟨-, stopped⟩ := stopped
  split_ifs at stopped with scanned
  rw [← bind_assoc, bind_eq_error_iff] at stopped
  rcases stopped with stopped | ⟨filled, passed, stopped⟩
  · exact .address scanned (checkAddresses_exit stopped).of_reset
  -- All blocks have been scanned, so the counters are those of the inode.
  obtain ⟨⟨-, visitsOk⟩, filledEq⟩ := checkAddresses_eq_ok_iff.mp passed
  have reads := scanBlocks_reads img scan inum
  rw [show scanBlocks img scan inum = filled from filledEq] at reads
  have blocks : ∀ blknum ∈ claims img inum, BlockOk img g blknum := by
    intro blknum member
    rw [← visits_map_blknum] at member
    obtain ⟨visit, visited, rfl⟩ := List.mem_map.mp member
    exact ((visitsOk_iff.mp visitsOk).1 visit visited).1
  split_ifs at stopped with malformed
  · obtain rfl := fail_eq_exit_iff.mp stopped
    refine .format scanned malformed.1 blocks ?_
    rintro ⟨self, parent⟩
    have current := reads.curcnt
    have parents := reads.parcnt
    rw [self] at current
    rw [parent] at parents
    have counts := malformed.2
    simp only [Scan.reset] at current parents
    omega
  · rw [bind_eq_error_iff] at stopped
    rcases stopped with stopped | ⟨-, -, stopped⟩
    · obtain ⟨rfl, bad⟩ := checkFileSize_exit stopped
      refine .size scanned blocks ?_
      have sum := reads.blkcnt
      simp only [Scan.reset, Nat.zero_add] at sum
      rwa [sum] at bad
    · simp at stopped

/-- The first pass stops at an inode after sound ones. -/
theorem firstPass_exit
    (stopped : firstPass img g = .error (.exit (some message))) :
    ∃ inum < g.ninodes, ∃ scan,
      (∀ earlier < inum, InodeSound img g earlier) ∧
        (∀ blknum, scan.blkvisited blknum = true ↔
          blknum ∈ allClaims img inum) ∧
        InodeFault img g scan inum message := by
  obtain ⟨before, inum, after, scan, split, passed, here⟩ :=
    foldlM_eq_error_iff.mp stopped
  obtain ⟨rfl, below⟩ := eq_range_of_range_eq split
  obtain ⟨⟨sound, -⟩, rfl⟩ := scanInodes_eq_ok_iff.mp passed
  exact ⟨inum, below, _, sound, blkvisited_foldl img inum, scanInode_exit here⟩

theorem bitmapPass_exit
    (stopped : bitmapPass img g scan = .error (.exit (some message))) :
    message = .badBitmapMarkedUsedError ∧ ∃ blknum,
      (g.datblkstnum ≤ blknum ∧ blknum < g.datblkednum) ∧
        img.bitmapBit g.ninodes blknum = true ∧
        scan.blkvisited blknum = false := by
  obtain ⟨before, blknum, after, split, -, here⟩ :=
    forM_eq_error_iff.mp stopped
  have bounds := List.mem_range'_1.mp (split ▸ List.mem_append_cons_self)
  simp only [checkBitmapBlock, bitIsUsed, load_bind_eq_exit_iff,
    pure_eq_ok] at here
  obtain ⟨-, here⟩ := here
  split_ifs at here with used
  rw [access_bind_eq_exit_iff] at here
  obtain ⟨-, here⟩ := here
  split_ifs at here with unvisited
  exact ⟨(fail_eq_exit_iff.mp here).symm, blknum, by omega, used,
    by simpa using unvisited⟩

end Inodes

section References

variable {img : Image} {g : Globals} {scan : Scan} {inum : Nat}
  {message : Message}

/-- What stops the reference pass at an inode. -/
inductive ReferenceFault (img : Image) (g : Globals) (scan : Scan)
    (inum : Nat) : Message → Prop where
  | unfound (used : scan.usedinode inum = true)
      (none : scan.inodeindirent inum = 0) :
      ReferenceFault img g scan inum .badUsedInodeNotFoundError
  | free (unused : scan.usedinode inum = false)
      (named : scan.inodeindirent inum ≠ 0) :
      ReferenceFault img g scan inum .badInodeReferredMarkedError
  | miscounted (regular : img.inodeType inum = 2)
      (differs : img.inodeNlink inum ≠ scan.inodeindirent inum) :
      ReferenceFault img g scan inum .badReferenceCountError
  | again (directory : img.inodeType inum = 1)
      (found : scan.usedinode inum = true → scan.inodeindirent inum ≠ 0)
      (several : scan.inodeindirent inum ≠ 1) :
      ReferenceFault img g scan inum .badDirectoryOnceError
  | parent (directory : img.inodeType inum = 1)
      (once : scan.inodeindirent inum = 1)
      (mismatch : if inum = 1 then scan.parentdotdot inum ≠ 1
        else scan.parententry inum = -1 ∨
          scan.parentdotdot inum ≠ scan.parententry inum) :
      ReferenceFault img g scan inum .badParentDirectoryError
  | unreached (directory : img.inodeType inum = 1)
      (astray : ¬∃ steps, LeadsTo
        (dotdotParent g.tableLen scan.parentdotdot) 1 steps
          (Int.bmod inum 4294967296)) :
      ReferenceFault img g scan inum .badDirectoryError

theorem followDotdot_exit {tableLen fuel : Nat} {parentdotdot : Nat → Int}
    {seen : Nat → Bool} {cur : Int}
    (stopped : followDotdot tableLen parentdotdot fuel seen cur =
      .error (.exit (some message))) : message = .badDirectoryError := by
  induction fuel generalizing seen cur with
  | zero => cases stopped
  | succ fuel ih =>
      rw [followDotdot_succ] at stopped
      split_ifs at stopped
      · cases stopped
      · exact (fail_eq_exit_iff.mp stopped).symm
      · exact ih stopped

theorem checkReferences_exit
    (stopped : checkReferences img g scan inum =
      .error (.exit (some message))) :
    ReferenceFault img g scan inum message := by
  simp only [checkReferences, access_bind_eq_exit_iff,
    failIf_bind_eq_exit_iff, loadType, load_bind_eq_exit_iff,
    pure_eq_ok] at stopped
  rcases stopped with ⟨inside, -, ⟨⟨used, none⟩, rfl⟩ | ⟨found, stopped⟩⟩
  · exact .unfound used none
  rcases stopped with ⟨⟨unused, named⟩, rfl⟩ | ⟨-, -, stopped⟩
  · exact .free unused named
  rw [bind_eq_error_iff] at stopped
  rcases stopped with stopped | ⟨-, -, stopped⟩
  · unfold checkNlink loadNlink at stopped
    simp only [pure_eq_ok] at stopped
    split_ifs at stopped with regular
    rw [load_bind_eq_exit_iff, failIf_eq_exit_iff] at stopped
    obtain ⟨-, differs, rfl⟩ := stopped
    exact .miscounted regular differs
  split_ifs at stopped with directory
  rw [failIf_bind_eq_exit_iff] at stopped
  rcases stopped with ⟨several, rfl⟩ | ⟨once, stopped⟩
  · exact .again directory (fun used none => found ⟨used, none⟩) several
  unfold checkParent at stopped
  rw [compareParents_eq inside, failIf_bind_eq_exit_iff] at stopped
  rcases stopped with ⟨mismatch, rfl⟩ | ⟨-, stopped⟩
  · exact .parent directory (not_not.mp once) mismatch
  · obtain rfl := followDotdot_exit stopped
    refine .unreached directory fun leads => ?_
    rw [followDotdot_eq_ok_iff.mpr leads] at stopped
    cases stopped

theorem referencePass_exit
    (stopped : referencePass img g scan = .error (.exit (some message))) :
    ∃ inum, (1 ≤ inum ∧ inum < g.ninodes) ∧
      ReferenceFault img g scan inum message := by
  obtain ⟨before, inum, after, split, -, here⟩ :=
    forM_eq_error_iff.mp stopped
  have bounds := List.mem_range'_1.mp (split ▸ List.mem_append_cons_self)
  exact ⟨inum, by omega, checkReferences_exit here⟩

end References

end LinuxKernelDev.Fsck
