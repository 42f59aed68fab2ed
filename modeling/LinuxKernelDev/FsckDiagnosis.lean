import LinuxKernelDev.FsckFaults
import LinuxKernelDev.FsckReferences
import Mathlib.Logic.Relation

/-!
# What the messages mean

Every message of the checker names a defect of the metadata.  On images of at
most `2 ^ 23` blocks and `2 ^ 16` inodes, a reported message is never wrong:
the image has the defect.  A test of a later pass is made only after the
earlier ones have been passed by all inodes, which is what makes, for instance,
a wrong count of references a wrong count of entries.
-/

namespace LinuxKernelDev.Fsck

open LoopRules ParentChain

/-- The `..` entry of a directory. -/
def DotdotStep (img : Image) (child parent : Nat) : Prop :=
  img.IsDirectory child ∧ img.DotdotNames child parent

/-- The defect of an image that a message names. -/
def Defect (img : Image) : Message → Prop
  | .superblockError => img.sbSize ≠ img.sbNblocks + img.dataStart
  | .badInodeError => ∃ inum < img.sbNinodes, ¬TypeOk (img.inodeType inum)
  | .badDirectoryFormatError => ∃ inum, img.IsDirectory inum ∧
      ((∃ entry ∈ img.directoryDirents inum,
          entry.isSelf = true ∧ entry.inum ≠ inum) ∨
        (img.directoryDirents inum).countP Dirent.isSelf ≠ 1 ∨
        (img.directoryDirents inum).countP Dirent.isParent ≠ 1)
  | .badDirectAddressError => ∃ inum, img.InUse inum ∧
      ∃ blknum ∈ img.directAddrs inum, ¬img.InDataRange blknum
  | .badDirectAddressOnceError => ∃ inum, img.InUse inum ∧
      ∃ blknum ∈ img.directAddrs inum, 2 ≤ img.blockClaims.count blknum
  | .badInodeReferredMarkedError => ∃ entry ∈ img.entries,
      entry.2.inum < img.sbNinodes ∧ img.inodeType entry.2.inum = 0
  | .badIndirectAddressError => ∃ inum, img.InUse inum ∧
      img.inodeAddr inum 12 ≠ 0 ∧
      ∃ blknum ∈ img.inodeAddr inum 12 :: img.indirectAddrs inum,
        ¬img.InDataRange blknum
  | .badFileSizeError => ∃ inum, img.InUse inum ∧
      ¬Image.SizeFits (img.inodeSize inum) (img.fileBlocks inum).length
  | .badDirectoryOnceError => ∃ inum, img.IsDirectory inum ∧
      if inum = 1 then 1 ≤ img.entriesNaming 1
      else 2 ≤ img.entriesNaming inum
  | .badReferenceCountError => ∃ inum, img.InUse inum ∧
      img.inodeType inum = 2 ∧ img.inodeNlink inum ≠ img.entriesNaming inum
  | .badBitmapMarkedUsedError => ∃ blknum, img.InDataRange blknum ∧
      img.bitmapBit img.sbNinodes blknum = true ∧ blknum ∉ img.blockClaims
  | .badUsedInodeNotFoundError => ∃ inum, img.InUse inum ∧
      img.entriesNaming inum = 0
  | .badUsedAddressError => ∃ inum, img.InUse inum ∧
      ∃ blknum ∈ img.ownedBlocks inum, img.InDataRange blknum ∧
        img.bitmapBit img.sbNinodes blknum = false
  | .badParentDirectoryError =>
      (∃ parent ≠ 1, DotdotStep img 1 parent) ∨
        ∃ inum ≠ 1, img.entriesNaming inum = 1 ∧ ∃ parent holder,
          DotdotStep img inum parent ∧ img.Holds holder inum ∧
            parent ≠ holder
  | .badDirectoryError => ∃ inum, img.IsDirectory inum ∧
      ¬Relation.ReflTransGen (DotdotStep img) inum 1
  | .badIndirectAddressOnceError => ∃ inum, img.InUse inum ∧
      img.inodeAddr inum 12 ≠ 0 ∧
      ∃ blknum ∈ img.inodeAddr inum 12 :: img.indirectAddrs inum,
        2 ≤ img.blockClaims.count blknum

section FirstPass

variable {img : Image} {g : Globals} {scan : Scan} {inum blknum : Nat}
  {message : Message}

/-- A block claimed by another inode, or earlier by the same one, is claimed
twice. -/
theorem two_le_count_blockClaims (inUse : img.InUse inum)
    {earlier later : List Nat}
    (split : img.ownedBlocks inum = earlier ++ blknum :: later)
    (claimed : (∃ other ≠ inum, img.InUse other ∧
      blknum ∈ img.ownedBlocks other) ∨ blknum ∈ earlier) :
    2 ≤ img.blockClaims.count blknum := by
  have member := img.mem_inUseInodes.mpr inUse
  rcases claimed with ⟨other, different, otherInUse, owned⟩ | within
  · refine two_le_count_flatMap img.ownedBlocks different
      (img.mem_inUseInodes.mpr otherInUse) member owned ?_
    rw [split]
    simp
  · refine le_trans ?_ (count_le_count_flatMap img.ownedBlocks member blknum)
    have one := List.count_pos_iff.mpr within
    rw [split, List.count_append, List.count_cons_self]
    omega

variable (globals : Matches img g) (small : img.sbSize ≤ 8388608)
  (narrow : img.sbNinodes ≤ 65536)

include globals small

/-- The blocks visited before an inode belong to other inodes in use. -/
theorem exists_owner (below : inum < img.sbNinodes)
    (sound : ∀ earlier < inum, InodeSound img g earlier)
    (visited : ∀ blknum, scan.blkvisited blknum = true ↔
      blknum ∈ allClaims img inum)
    (claimed : scan.blkvisited blknum = true) :
    ∃ other ≠ inum, img.InUse other ∧ blknum ∈ img.ownedBlocks other := by
  obtain ⟨other, member, inClaims⟩ :=
    List.mem_flatMap.mp ((visited blknum).mp claimed)
  have before := List.mem_range.mp member
  unfold inodeClaims at inClaims
  split_ifs at inClaims with scanned
  · have indirect := (sound other before).indirect_lt globals small scanned
    rw [claims_eq indirect] at inClaims
    exact ⟨other, by omega,
      (scanned_iff_inUse (by omega)).mp scanned, inClaims⟩
  · cases inClaims

include narrow

/-- A fault at a block of an inode is a defect.  The first two hypotheses on the
block depend on where the inode names it. -/
theorem Fault.defect {badAddress usedOnce : Message} {type : Int}
    {earlier later : List Nat}
    (fault : Fault img g badAddress usedOnce type (inum % 65536) scan earlier
      blknum message)
    (outside : ¬img.InDataRange blknum → Defect img badAddress)
    (again : 2 ≤ img.blockClaims.count blknum → Defect img usedOnce)
    (inUse : img.InUse inum)
    (split : img.ownedBlocks inum = earlier ++ blknum :: later)
    (owner : scan.blkvisited blknum = true → ∃ other ≠ inum,
      img.InUse other ∧ blknum ∈ img.ownedBlocks other)
    (data : type = 1 → img.inodeType inum = 1 ∧
      blknum ∈ img.fileBlocks inum) : Defect img message := by
  have range : img.InDataRange blknum ↔ _ := globals.inDataRange_iff
  cases fault with
  | outside out => exact outside fun inside => out (range.mp inside)
  | again inside claimed =>
      exact again (two_le_count_blockClaims inUse split
        (claimed.imp_left owner))
  | unmarked inside free =>
      refine ⟨inum, inUse, blknum, ?_, range.mpr inside, ?_⟩
      · rw [split]
        simp
      · rwa [← globals.ninodes]
  | @misnamed inside isType entry member self other =>
      obtain ⟨directory, block⟩ := data isType
      have upper := (range.mpr inside).2
      have slot := inUse.2.1
      rw [blockDirents_eq (by omega)] at member
      rw [Nat.mod_eq_of_lt (by omega)] at other
      exact ⟨inum, ⟨inUse, directory⟩, .inl ⟨entry,
        List.mem_flatMap.mpr ⟨blknum, block, member⟩, self, other⟩⟩

theorem AddressFault.defect
    (fault : AddressFault img g inum (img.inodeType inum) (inum % 65536) scan
      message)
    (inUse : img.InUse inum)
    (owner : ∀ blknum, scan.blkvisited blknum = true → ∃ other ≠ inum,
      img.InUse other ∧ blknum ∈ img.ownedBlocks other) :
    Defect img message := by
  cases fault with
  | @direct earlier later blknum split fault =>
      have member : blknum ∈ img.directAddrs inum := by
        rw [split]
        simp
      have owned : img.ownedBlocks inum = earlier ++ blknum :: (later ++
          if img.inodeAddr inum 12 = 0 then []
          else img.inodeAddr inum 12 :: img.indirectAddrs inum) := by
        rw [Image.ownedBlocks, split, List.append_assoc, List.cons_append]
      exact fault.defect globals small narrow
        (fun out => ⟨inum, inUse, blknum, member, out⟩)
        (fun twice => ⟨inum, inUse, blknum, member, twice⟩) inUse owned
        (owner blknum)
        fun directory => ⟨directory, List.mem_append_left _ member⟩
  | indirect present fault =>
      have owned : img.ownedBlocks inum = img.directAddrs inum ++
          img.inodeAddr inum 12 :: img.indirectAddrs inum := by
        rw [Image.ownedBlocks, if_neg present]
      exact fault.defect globals small narrow
        (fun out => ⟨inum, inUse, present, _, List.mem_cons_self, out⟩)
        (fun twice => ⟨inum, inUse, present, _, List.mem_cons_self, twice⟩)
        inUse owned (owner _) (by simp)
  | @word claimed earlier later blknum split fault =>
      have upper := (globals.inDataRange_iff.mpr ⟨claimed.1, claimed.2.1⟩).2
      rw [indirectBlocks_eq (by omega)] at split
      have present : img.inodeAddr inum 12 ≠ 0 := fun hole => by
        simp [Image.indirectAddrs, hole] at split
      have member : blknum ∈ img.indirectAddrs inum := by
        rw [split]
        simp
      have owned : img.ownedBlocks inum = img.directAddrs inum ++
          img.inodeAddr inum 12 :: earlier ++ blknum :: later := by
        rw [Image.ownedBlocks, if_neg present, split, List.append_assoc,
          List.cons_append]
      exact fault.defect globals small narrow
        (fun out => ⟨inum, inUse, present, blknum,
          List.mem_cons_of_mem _ member, out⟩)
        (fun twice => ⟨inum, inUse, present, blknum,
          List.mem_cons_of_mem _ member, twice⟩) inUse owned (owner blknum)
        fun directory => ⟨directory, List.mem_append_right _ member⟩

theorem InodeFault.defect (fault : InodeFault img g scan inum message)
    (below : inum < img.sbNinodes)
    (sound : ∀ earlier < inum, InodeSound img g earlier)
    (visited : ∀ blknum, scan.blkvisited blknum = true ↔
      blknum ∈ allClaims img inum) : Defect img message := by
  have inUseOf := (scanned_iff_inUse below).mp
  -- If all blocks of the inode are in range, the checker reads it exactly.
  have inside : (∀ blknum ∈ claims img inum, BlockOk img g blknum) →
      ∀ blknum ∈ claims img inum, blknum < 8388608 := by
    intro blocks blknum member
    have ok := blocks blknum member
    have upper := (globals.inDataRange_iff.mpr ⟨ok.1, ok.2.1⟩).2
    omega
  have indirect : (∀ blknum ∈ claims img inum, BlockOk img g blknum) →
      img.inodeAddr inum 12 < 8388608 := by
    intro blocks
    by_cases hole : img.inodeAddr inum 12 = 0
    · omega
    · exact inside blocks _ (by simp [claims, hole])
  cases fault with
  | type bad => exact ⟨inum, below, bad⟩
  | address scanned fault =>
      exact fault.defect globals small narrow (inUseOf scanned)
        fun blknum => exists_owner globals small below sound visited
  | format scanned directory blocks bad =>
      refine ⟨inum, ⟨inUseOf scanned, directory⟩, .inr ?_⟩
      have same : inodeDirents img inum = img.directoryDirents inum := by
        unfold inodeDirents Image.directoryDirents
        rw [if_pos directory, ← dataBlocks_eq (indirect blocks)]
        refine List.flatMap_congr fun blknum member => ?_
        refine blockDirents_eq (inside blocks blknum ?_)
        rw [claims_eq (indirect blocks)]
        rw [dataBlocks_eq (indirect blocks)] at member
        exact img.fileBlocks_subset_ownedBlocks inum member
      rw [same] at bad
      exact not_and_or.mp bad
  | size scanned blocks bad =>
      refine ⟨inum, inUseOf scanned, fun fits => bad ?_⟩
      rw [dataBlocks_eq (indirect blocks)]
      unfold SizeOk
      split_ifs with empty
      · exact fits.1 empty
      · exact fits.2 (by omega)

end FirstPass

section LaterPasses

variable {img : Image} {g : Globals} {scan : Scan}

theorem completed_of_firstPass (globals : Matches img g)
    (small : img.sbSize ≤ 8388608) (narrow : img.sbNinodes ≤ 65536)
    (passed : firstPass img g = .ok scan) : Completed img g scan := by
  have sound : ∀ inum < img.sbNinodes, InodeSound img g inum :=
    globals.ninodes ▸ (firstPass_succeeds_iff.mp ⟨scan, passed⟩).1
  refine ⟨globals, sound, describes_of_firstPass passed,
    fun inum inUse => inUse.2.1.trans_le narrow,
    fun inum inUse blknum member => ?_⟩
  have scanned := (scanned_iff_inUse inUse.2.1).mpr inUse
  have indirect := (sound inum inUse.2.1).indirect_lt globals small scanned
  rw [← claims_eq indirect, ← visits_map_blknum] at member
  obtain ⟨visit, visited, rfl⟩ := List.mem_map.mp member
  have ok := ((sound inum inUse.2.1).visitsOk scanned visit visited).1
  have upper := (globals.inDataRange_iff.mpr ⟨ok.1, ok.2.1⟩).2
  omega

namespace Completed

variable (completed : Completed img g scan)

include completed

theorem exists_dotdotStep {inum : Nat} (directory : img.IsDirectory inum) :
    ∃ parent, DotdotStep img inum parent := by
  obtain ⟨parent, names⟩ :=
    img.exists_dotdotNames (completed.formed directory).2
  exact ⟨parent, directory, names⟩

theorem leadsTo_of_reflTransGen (narrow : img.sbNinodes ≤ 65536) {inum : Nat}
    (reaches : Relation.ReflTransGen (DotdotStep img) inum 1) :
    ∃ steps, LeadsTo (dotdotParent g.tableLen scan.parentdotdot) 1 steps
      (inum : Int) := by
  induction reaches using Relation.ReflTransGen.head_induction_on with
  | refl => exact ⟨0, .root⟩
  | @head child parent step _ ih =>
      by_cases root : child = 1
      · subst root
        exact ⟨0, .root⟩
      obtain ⟨steps, rest⟩ := ih
      refine ⟨steps + 1, .step (by omega) ?_ rest⟩
      have recorded := completed.parentdotdot_eq step.1 step.2
      have below := step.1.1.2.1
      have ninodes := completed.globals.ninodes
      rw [dotdotParent_eq_some_iff, Int.toNat_natCast, recorded]
      refine ⟨⟨by omega, ?_, by omega⟩, rfl⟩
      unfold Globals.tableLen
      omega

theorem notMem_blockClaims {blknum : Nat}
    (unvisited : scan.blkvisited blknum = false) :
    blknum ∉ img.blockClaims := by
  intro member
  rw [← allClaims_eq fun inum inUse => completed.exact.indirect_lt inUse,
    ← completed.globals.ninodes, ← completed.described.visited,
    unvisited] at member
  cases member

theorem parent_defect {inum : Nat} (directory : img.IsDirectory inum)
    (once : scan.inodeindirent inum = 1)
    (mismatch : if inum = 1 then scan.parentdotdot inum ≠ 1
      else scan.parententry inum = -1 ∨
        scan.parentdotdot inum ≠ scan.parententry inum) :
    Defect img .badParentDirectoryError := by
  obtain ⟨parent, step⟩ := completed.exists_dotdotStep directory
  have recorded := completed.parentdotdot_eq step.1 step.2
  by_cases root : inum = 1
  · subst root
    rw [if_pos rfl] at mismatch
    exact .inl ⟨parent, by omega, step⟩
  · rw [if_neg root] at mismatch
    have naming : img.entriesNaming inum = 1 := by
      rw [completed.references_eq, if_neg fun both => root both.1] at once
      omega
    obtain ⟨holder, held⟩ :=
      img.exists_holds_of_entriesNaming (by rw [naming]; omega)
    have entry := completed.parententry_eq directory naming held
    refine .inr ⟨inum, root, naming, parent, holder, step, held, ?_⟩
    rintro rfl
    omega

theorem reference_defect (narrow : img.sbNinodes ≤ 65536) {inum : Nat}
    {message : Message} (positive : 1 ≤ inum) (below : inum < img.sbNinodes)
    (fault : ReferenceFault img g scan inum message) : Defect img message := by
  have references := completed.references_eq inum
  have used : scan.usedinode inum = true ↔ img.InUse inum :=
    usedinode_iff completed.globals.ninodes completed.described
  have directoryOf : img.inodeType inum = 1 → img.IsDirectory inum :=
    fun directory => ⟨⟨positive, below, by rw [directory]; decide⟩, directory⟩
  have free : ∀ {inum}, ¬img.IsDirectory inum →
      ¬(inum = 1 ∧ img.IsDirectory 1) := by
    rintro inum other ⟨rfl, directory⟩
    exact other directory
  cases fault with
  | unfound isUsed none =>
      refine ⟨inum, used.mp isUsed, ?_⟩
      omega
  | free unused named =>
      have typeZero : img.inodeType inum = 0 := by
        by_contra nonzero
        rw [used.mpr ⟨positive, below, nonzero⟩] at unused
        cases unused
      rw [if_neg (free fun directory => directory.1.2.2 typeZero)]
        at references
      obtain ⟨holder, entry, member, -, rfl⟩ :=
        @Image.exists_holds_of_entriesNaming img inum (by omega)
      exact ⟨entry, member, below, typeZero⟩
  | miscounted regular differs =>
      have inUse : img.InUse inum :=
        ⟨positive, below, by rw [regular]; decide⟩
      refine ⟨inum, inUse, regular, ?_⟩
      rw [if_neg (free fun directory => by
        rw [directory.2] at regular; cases regular)] at references
      rwa [references, Nat.add_zero] at differs
  | again isDirectory found several =>
      have directory := directoryOf isDirectory
      have some := found (used.mpr directory.1)
      refine ⟨inum, directory, ?_⟩
      by_cases root : inum = 1
      · subst root
        rw [if_pos ⟨rfl, directory⟩] at references
        rw [if_pos rfl]
        omega
      · rw [if_neg fun both => root both.1] at references
        rw [if_neg root]
        omega
  | parent isDirectory once mismatch =>
      exact completed.parent_defect (directoryOf isDirectory) once mismatch
  | unreached isDirectory astray =>
      refine ⟨inum, directoryOf isDirectory, fun reaches => astray ?_⟩
      rw [Int.bmod_eq_of_le_mul_two (by omega) (by omega)]
      exact completed.leadsTo_of_reflTransGen narrow reaches

end Completed

end LaterPasses

theorem Message.text_injective : Function.Injective Message.text := by
  intro first second same
  cases first <;> cases second <;> first | rfl | simp [Message.text] at same

/-- A reported message is the one with which `main` stops. -/
theorem main_eq_of_reported {img : Image} {message : Message}
    (reported : myfsck img = .exited 1 message.text) :
    main img = .error (.exit (some message)) := by
  unfold myfsck report at reported
  cases result : main img with
  | ok value => simp [result] at reported
  | error stop =>
      cases stop with
      | exit other =>
          cases other with
          | none =>
              rw [result] at reported
              cases message <;> simp [Message.text] at reported
          | some other =>
              simp only [result, Outcome.exited.injEq, true_and] at reported
              rw [Message.text_injective reported]
      | _ => simp [result] at reported

/-- On images of at most `2 ^ 23` blocks and `2 ^ 16` inodes, an image has the
defect that the checker reports. -/
theorem defect_of_reported (img : Image) (message : Message)
    (small : img.sbSize ≤ 8388608) (narrow : img.sbNinodes ≤ 65536)
    (reported : myfsck img = .exited 1 message.text) :
    Defect img message := by
  have stopped := main_eq_of_reported reported
  unfold main mainWith at stopped
  split_ifs at stopped
  · cases stopped
  simp only [load_bind_eq_exit_iff] at stopped
  obtain ⟨-, -, -, stopped⟩ := stopped
  rw [bind_eq_error_iff] at stopped
  rcases stopped with stopped | ⟨g, sized, stopped⟩
  · simp only [checkSize, pure_eq_ok] at stopped
    split_ifs at stopped with different
    obtain rfl := fail_eq_exit_iff.mp stopped
    intro equation
    have size : img.sbSize < 4294967296 := img.word32_lt 512
    unfold Image.dataStart at equation
    omega
  have globals := matches_of_checkSize sized
  unfold helperWith at stopped
  rw [bind_eq_error_iff] at stopped
  rcases stopped with stopped | ⟨scan, passed, stopped⟩
  · obtain ⟨inum, below, scan, sound, visited, fault⟩ := firstPass_exit stopped
    exact fault.defect globals small narrow (globals.ninodes ▸ below) sound
      visited
  have completed := completed_of_firstPass globals small narrow passed
  rw [bind_eq_error_iff] at stopped
  rcases stopped with stopped | ⟨-, -, stopped⟩
  · obtain ⟨rfl, blknum, inside, marked, unvisited⟩ := bitmapPass_exit stopped
    exact ⟨blknum, globals.inDataRange_iff.mpr inside,
      globals.ninodes ▸ marked, completed.notMem_blockClaims unvisited⟩
  · obtain ⟨inum, bounds, fault⟩ := referencePass_exit stopped
    rw [globals.ninodes] at bounds
    exact completed.reference_defect narrow bounds.1 bounds.2 fault

/-- The sample image with a `..` entry that names its own directory. -/
def selfParent : Image where
  stSize := 3584
  byte offset := if offset = 3088 then 3 else Image.sample.byte offset

theorem defect_selfParent :
    myfsck selfParent = .exited 1 "MP4_ERR: parent directory mismatch.\n" ∧
      Defect selfParent .badParentDirectoryError := by
  have reported : myfsck selfParent =
      .exited 1 Message.badParentDirectoryError.text := by decide +kernel
  exact ⟨reported, defect_of_reported selfParent .badParentDirectoryError
    (by decide +kernel) (by decide +kernel) reported⟩

end LinuxKernelDev.Fsck
