import LinuxKernelDev.FsckMetadataOnly
import LinuxKernelDev.RelatedRuns

/-!
# Corrupted bookkeeping of an accepted image

The bitmap and the link counts repeat what the inodes and the directories
already say.  An image that differs from an accepted one in nothing but these
is compared with it run against run: the checker accepts it exactly if no mark
of a data block and no link count of a file was changed, and otherwise it
reports the first kind of change that it comes to.
-/

namespace LinuxKernelDev.Fsck

open LoopRules RelatedRuns

/-- Two images of the same length agree on their metadata, the bitmap and the
link counts apart. -/
structure SameOutline (left right : Image) : Prop where
  stSize : left.stSize = right.stSize
  sbSize : left.sbSize = right.sbSize
  sbNblocks : left.sbNblocks = right.sbNblocks
  sbNinodes : left.sbNinodes = right.sbNinodes
  types : ∀ inum ≤ left.sbNinodes, left.inodeType inum = right.inodeType inum
  sizes : ∀ inum, left.InUse inum →
    left.inodeSize inum = right.inodeSize inum
  addrs : ∀ inum, left.InUse inum → ∀ index < 13,
    left.inodeAddr inum index = right.inodeAddr inum index
  indirectBlocks : ∀ inum, left.InUse inum →
    left.InDataRange (left.inodeAddr inum 12) →
      SameBlock left right (left.inodeAddr inum 12)
  directoryBlocks : ∀ inum, left.IsDirectory inum →
    ∀ blknum ∈ left.fileBlocks inum, left.InDataRange blknum →
      SameBlock left right blknum

/-- A data block is marked in the first bitmap and free in the second one. -/
def MarkLost (left right : Image) : Prop :=
  ∃ blknum, left.InDataRange blknum ∧
    left.bitmapBit left.sbNinodes blknum = true ∧
      right.bitmapBit left.sbNinodes blknum = false

/-- A data block is free in the first bitmap and marked in the second one. -/
def MarkGained (left right : Image) : Prop :=
  ∃ blknum, left.InDataRange blknum ∧
    left.bitmapBit left.sbNinodes blknum = false ∧
      right.bitmapBit left.sbNinodes blknum = true

/-- A regular file has another link count in the second image. -/
def CountChanged (left right : Image) : Prop :=
  ∃ inum, left.InUse inum ∧ left.inodeType inum = 2 ∧
    left.inodeNlink inum ≠ right.inodeNlink inum

/-- The stops of a run that reports `message` because of a change. -/
def Reports (message : Message) (changed : Prop) (stop : Stop) : Prop :=
  stop = .exit (some message) ∧ changed

/-- A run that cannot succeed after a change reports exactly the change. -/
theorem Reports.of_retraces {α : Type} {message : Message} {changed : Prop}
    {first second : Except Stop α} {result : α}
    (retraces : Retraces (Reports message changed) first second)
    (succeeded : first = .ok result)
    (unchanged : second = .ok result → ¬changed) :
    (changed → second = fail message) ∧ (¬changed → second = .ok result) := by
  rcases retraces result succeeded with done | ⟨stop, ⟨rfl, moved⟩, stopped⟩
  · exact ⟨fun moved => absurd moved (unchanged done), fun _ => done⟩
  · exact ⟨fun _ => stopped, fun kept => absurd moved kept⟩

theorem failIf_retraces {first second expected : Int} {message : Message}
    {changed : Prop} (differ : first ≠ second → changed) :
    Retraces (Reports message changed) (failIf (first ≠ expected) message)
      (failIf (second ≠ expected) message) := by
  intro result passed
  have firstEq := not_not.mp (failIf_eq_ok_iff.mp passed)
  by_cases kept : second = expected
  · exact .inl (failIf_eq_ok_iff.mpr (not_not.mpr kept))
  · have moved : changed := differ fun unchanged =>
      kept (unchanged.symm.trans firstEq)
    exact .inr ⟨_, ⟨rfl, moved⟩, if_pos kept⟩

section Runs

variable {left right : Image} {g : Globals}

variable (same : SameOutline left right)

include same

namespace SameOutline

theorem maps_iff (offset length : Nat) :
    left.Maps offset length ↔ right.Maps offset length := by
  unfold Image.Maps Image.mapped
  rw [same.stSize]

theorem load_congr {α : Type} {offset length : Nat} {first second : α}
    (values : first = second) :
    load left offset length first = load right offset length second := by
  rw [load_eq, load_eq, values]
  exact if_congr (same.maps_iff offset length) rfl rfl

theorem loadType_eq {inum : Nat} (inside : inum ≤ left.sbNinodes) :
    loadType left inum = loadType right inum :=
  same.load_congr (same.types inum inside)

/-- Loads of values that may differ, followed by related runs. -/
theorem load_bind_retraces {α β : Type} {early : Stop → Prop}
    {offset length : Nat} {first second : α}
    {firstNext secondNext : α → Except Stop β}
    (later : Retraces early (firstNext first) (secondNext second)) :
    Retraces early (load left offset length first >>= firstNext)
      (load right offset length second >>= secondNext) := by
  intro result succeeded
  obtain ⟨mapped, succeeded⟩ := load_bind_eq_ok_iff.mp succeeded
  rw [load_eq, if_pos ((same.maps_iff offset length).mp mapped)]
  exact later result succeeded

theorem checkNlink_retraces {inum : Nat} (positive : 1 ≤ inum)
    (below : inum < left.sbNinodes) (references : Int) :
    Retraces (Reports .badReferenceCountError (CountChanged left right))
      (checkNlink left inum (left.inodeType inum) references)
      (checkNlink right inum (left.inodeType inum) references) := by
  unfold checkNlink loadNlink
  split_ifs with regular
  · refine same.load_bind_retraces (failIf_retraces fun changed => ?_)
    exact ⟨inum, ⟨positive, below, by rw [regular]; decide⟩, regular, changed⟩
  · exact .refl _

variable (globals : Matches left g)

include globals

theorem visitDirent_eq (currinodenum : Nat) (scan : Scan) (entry : Dirent) :
    visitDirent left g currinodenum scan entry =
      visitDirent right g currinodenum scan entry := by
  unfold visitDirent
  split_ifs
  · rfl
  · rfl
  · rfl
  · rfl
  · rfl
  · refine bind_congr_of_ok fun _ inside => ?_
    have bound := (access_eq_ok_iff.mp inside).1
    have ninodes := globals.ninodes
    unfold Globals.tableLen at bound
    have below : entry.inum ≤ left.sbNinodes := by omega
    rw [same.loadType_eq below]

/-- The second run claims a block as the first one does, or finds that the
block has lost its mark. -/
theorem claimBlock_retraces (badAddress usedOnce : Message) (blknum : Nat)
    (scan : Scan) :
    Retraces (Reports .badUsedAddressError (MarkLost left right))
      (claimBlock left g badAddress usedOnce blknum scan)
      (claimBlock right g badAddress usedOnce blknum scan) := by
  intro result claimed
  obtain ⟨⟨⟨lower, upper, bound, mapped, marked⟩, fresh⟩, rfl⟩ :=
    claimBlock_eq_ok_iff.mp claimed
  have mappedRight := (same.maps_iff _ _).mp mapped
  cases mark : right.bitmapBit g.ninodes blknum with
  | true =>
      refine .inl (claimBlock_eq_ok_iff.mpr ⟨⟨?_, fresh⟩, rfl⟩)
      exact ⟨lower, upper, bound, mappedRight, mark⟩
  | false =>
      have inside := globals.inDataRange_iff.mpr ⟨lower, upper⟩
      have lost : MarkLost left right :=
        ⟨blknum, inside, globals.ninodes ▸ marked, globals.ninodes ▸ mark⟩
      refine .inr ⟨_, ⟨rfl, lost⟩, ?_⟩
      have range : ¬(blknum < g.datblkstnum ∨ blknum ≥ g.datblkednum) := by
        omega
      unfold claimBlock bitIsUsed
      rw [access_eq, load_eq, if_neg range, if_pos bound, if_pos mappedRight, fresh, mark]
      rfl

variable (small : left.sbSize ≤ 8388608)

include small

theorem traverseDirent_eq {blknum : Nat} (inside : left.InDataRange blknum)
    (block : SameBlock left right blknum) (currinodenum : Nat) (scan : Scan) :
    traverseDirent left g blknum currinodenum scan =
      traverseDirent right g blknum currinodenum scan := by
  refine foldlM_congr (fun scan index member => ?_) scan
  have below := List.mem_range.mp member
  have entries : left.blockDirent blknum index =
      right.blockDirent blknum index := by
    unfold Image.blockDirent
    rw [blockOffset_of_lt (inside.2.trans_le small)]
    exact block.sameBytes.direntAt_eq (16 * index) (by omega)
  rw [loadDirent_eq, loadDirent_eq, same.load_congr entries]
  simp only [same.visitDirent_eq globals]

theorem scanDataBlock_retraces (badAddress usedOnce : Message) (type : Int)
    (currinodenum blknum : Nat) (scan : Scan)
    (block : type = 1 → blknum ≠ 0 → left.InDataRange blknum →
      SameBlock left right blknum) :
    Retraces (Reports .badUsedAddressError (MarkLost left right))
      (scanDataBlock left g badAddress usedOnce type currinodenum blknum scan)
      (scanDataBlock right g badAddress usedOnce type currinodenum blknum
        scan) := by
  unfold scanDataBlock
  split_ifs with hole directory
  · exact .refl _
  · refine (same.claimBlock_retraces globals _ _ _ _).bind
      fun marked claimed => ?_
    obtain ⟨⟨⟨lower, upper, -⟩, -⟩, -⟩ := claimBlock_eq_ok_iff.mp claimed
    have inside := globals.inDataRange_iff.mpr ⟨lower, upper⟩
    have block := block directory hole inside
    rw [same.traverseDirent_eq globals small inside block]
    exact .refl _
  · exact (same.claimBlock_retraces globals _ _ _ _).bind fun _ _ => .refl _

theorem checkDirectAddress_retraces {inum : Nat} (inUse : left.InUse inum)
    (currinodenum : Nat) (scan : Scan) :
    Retraces (Reports .badUsedAddressError (MarkLost left right))
      (checkDirectAddress left g inum (left.inodeType inum) currinodenum scan)
      (checkDirectAddress right g inum (left.inodeType inum) currinodenum
        scan) := by
  refine Retraces.foldlM (fun scan index member => ?_) scan
  have below := List.mem_range.mp member
  rw [loadAddr, loadAddr,
    ← same.load_congr (same.addrs inum inUse index (by omega))]
  refine (Retraces.refl _).bind fun blknum loaded => ?_
  obtain ⟨-, rfl⟩ := load_eq_ok_iff.mp loaded
  refine same.scanDataBlock_retraces globals small _ _ _ _ _ _
    fun directory nonzero inside => ?_
  refine same.directoryBlocks inum ⟨inUse, directory⟩ _ ?_ inside
  refine List.mem_append_left _ (List.mem_filter.mpr ⟨?_, ?_⟩)
  · exact List.mem_map.mpr ⟨index, List.mem_range.mpr below, rfl⟩
  · simpa using nonzero

theorem checkIndirectAddress_retraces {inum : Nat} (inUse : left.InUse inum)
    (currinodenum : Nat) (scan : Scan) :
    Retraces (Reports .badUsedAddressError (MarkLost left right))
      (checkIndirectAddress left g inum (left.inodeType inum) currinodenum
        scan)
      (checkIndirectAddress right g inum (left.inodeType inum) currinodenum
        scan) := by
  unfold checkIndirectAddress
  rw [loadAddr, loadAddr,
    ← same.load_congr (same.addrs inum inUse 12 (by omega))]
  refine (Retraces.refl _).bind fun ndirblknum loaded => ?_
  obtain ⟨-, rfl⟩ := load_eq_ok_iff.mp loaded
  split_ifs with hole
  · exact .refl _
  refine (same.claimBlock_retraces globals _ _ _ _).bind fun marked claimed => ?_
  obtain ⟨⟨⟨lower, upper, -⟩, -⟩, -⟩ := claimBlock_eq_ok_iff.mp claimed
  have inside := globals.inDataRange_iff.mpr ⟨lower, upper⟩
  have offset := blockOffset_of_lt (inside.2.trans_le small)
  refine Retraces.foldlM (fun scan index member => ?_) marked
  have below := List.mem_range.mp member
  have words : left.indirectWord (left.inodeAddr inum 12) index =
      right.indirectWord (left.inodeAddr inum 12) index := by
    unfold Image.indirectWord
    rw [offset]
    exact (same.indirectBlocks inum inUse inside).sameBytes.word32_eq
      (4 * index) (by omega)
  rw [loadIndirectWord, loadIndirectWord, ← same.load_congr words]
  refine (Retraces.refl _).bind fun blknum loaded => ?_
  obtain ⟨-, rfl⟩ := load_eq_ok_iff.mp loaded
  refine same.scanDataBlock_retraces globals small _ _ _ _ _ _
    fun directory nonzero blockInside => ?_
  refine same.directoryBlocks inum ⟨inUse, directory⟩ _ ?_ blockInside
  refine List.mem_append_right _ ?_
  rw [Image.indirectAddrs, if_neg hole]
  refine List.mem_filter.mpr ⟨List.mem_map.mpr ⟨index, member, ?_⟩, ?_⟩
  · rw [Image.indirectWord, offset]
  · simpa using nonzero

theorem scanInode_retraces {inum : Nat} (below : inum < g.ninodes)
    (scan : Scan) :
    Retraces (Reports .badUsedAddressError (MarkLost left right))
      (scanInode left g scan inum) (scanInode right g scan inum) := by
  have slot : inum < left.sbNinodes := globals.ninodes ▸ below
  unfold scanInode scanInodeWith checkNodeType
  rw [← same.loadType_eq slot.le]
  refine (Retraces.refl _).bind fun _ _ =>
    (Retraces.refl _).bind fun type loaded => ?_
  obtain ⟨-, rfl⟩ := load_eq_ok_iff.mp loaded
  split_ifs with scanned
  · have inUse : left.InUse inum :=
      ⟨Nat.pos_of_ne_zero scanned.1, slot, scanned.2⟩
    refine (same.checkDirectAddress_retraces globals small inUse _ _).bind
      fun direct _ => ?_
    refine (same.checkIndirectAddress_retraces globals small inUse _ _).bind
      fun both _ => ?_
    unfold checkFileSize loadSize
    rw [same.load_congr (same.sizes inum inUse)]
    exact .refl _
  · exact .refl _

theorem firstPass_retraces :
    Retraces (Reports .badUsedAddressError (MarkLost left right))
      (firstPass left g) (firstPass right g) :=
  Retraces.foldlM (fun scan _ member =>
    same.scanInode_retraces globals small (List.mem_range.mp member) scan) _

theorem bitmapPass_retraces (scan : Scan) :
    Retraces (Reports .badBitmapMarkedUsedError (MarkGained left right))
      (bitmapPass left g scan) (bitmapPass right g scan) := by
  refine Retraces.forM fun blknum member => ?_
  have bounds := List.mem_range'_1.mp member
  have inside : left.InDataRange blknum :=
    globals.inDataRange_iff.mpr (by omega)
  have bound : blknum < g.visitedLen := by
    have upper := inside.2
    rw [Globals.visitedLen, globals.sbsize]
    omega
  refine same.load_bind_retraces fun result passed => ?_
  cases mark : right.bitmapBit g.ninodes blknum with
  | false => exact .inl rfl
  | true =>
      cases visited : scan.blkvisited blknum with
      | true => exact .inl (by simp [access_eq, bound, bind, Except.bind])
      | false =>
          have free : left.bitmapBit g.ninodes blknum = false := by
            by_contra marked
            simp [marked, visited] at passed
          have gained : MarkGained left right :=
            ⟨blknum, inside, globals.ninodes ▸ free, globals.ninodes ▸ mark⟩
          refine .inr ⟨_, ⟨rfl, gained⟩, ?_⟩
          simp [access_eq, bound, bind, Except.bind, fail]

omit small

theorem referencePass_retraces (scan : Scan) :
    Retraces (Reports .badReferenceCountError (CountChanged left right))
      (referencePass left g scan) (referencePass right g scan) := by
  refine Retraces.forM fun inum member => ?_
  have bounds := List.mem_range'_1.mp member
  have ninodes := globals.ninodes
  have slot : inum < left.sbNinodes := by omega
  unfold checkReferences
  rw [← same.loadType_eq slot.le]
  refine (Retraces.refl _).bind fun used _ => (Retraces.refl _).bind fun _ _ =>
    (Retraces.refl _).bind fun _ _ => (Retraces.refl _).bind fun _ _ =>
      (Retraces.refl _).bind fun type loaded => ?_
  obtain ⟨-, rfl⟩ := load_eq_ok_iff.mp loaded
  exact (same.checkNlink_retraces bounds.1 slot _).bind fun _ _ => .refl _

end SameOutline

end Runs

/-- The first pass visits marked blocks only. -/
theorem marked_of_visited {img : Image} {g : Globals} {scan : Scan}
    (passed : firstPass img g = .ok scan) {blknum : Nat}
    (visited : scan.blkvisited blknum = true) :
    img.bitmapBit g.ninodes blknum = true := by
  have claimed := ((describes_of_firstPass passed).visited blknum).mp visited
  obtain ⟨inum, inside, member⟩ := List.mem_flatMap.mp claimed
  have sound := (firstPass_succeeds_iff.mp ⟨scan, passed⟩).1 inum
    (List.mem_range.mp inside)
  unfold inodeClaims at member
  split_ifs at member with scanned
  · rw [← visits_map_blknum, List.mem_map] at member
    obtain ⟨visit, made, rfl⟩ := member
    exact (sound.visitsOk scanned visit made).1.2.2.2.2
  · cases member

section Verdict

variable {left right : Image} {g : Globals} {scan : Scan}

variable (same : SameOutline left right) (globals : Matches left g)

variable (passed : firstPass left g = .ok scan)

include same globals passed

namespace SameOutline

theorem firstPass_verdict (small : left.sbSize ≤ 8388608)
    (bitmap : bitmapPass left g scan = .ok ()) :
    (MarkLost left right → firstPass right g = fail .badUsedAddressError) ∧
      (¬MarkLost left right → firstPass right g = .ok scan) := by
  refine Reports.of_retraces (same.firstPass_retraces globals small) passed ?_
  rintro done ⟨blknum, inside, marked, free⟩
  obtain ⟨lower, upper⟩ := globals.inDataRange_iff.mp inside
  rw [← globals.ninodes] at marked free
  have visited :=
    ((bitmapPass_eq_ok_iff.mp bitmap blknum lower upper).2 marked).2
  rw [marked_of_visited done visited] at free
  cases free

theorem bitmapPass_verdict (small : left.sbSize ≤ 8388608)
    (bitmap : bitmapPass left g scan = .ok ()) :
    (MarkGained left right →
        bitmapPass right g scan = fail .badBitmapMarkedUsedError) ∧
      (¬MarkGained left right → bitmapPass right g scan = .ok ()) := by
  refine Reports.of_retraces (same.bitmapPass_retraces globals small scan)
    bitmap ?_
  rintro done ⟨blknum, inside, free, marked⟩
  obtain ⟨lower, upper⟩ := globals.inDataRange_iff.mp inside
  rw [← globals.ninodes] at marked free
  have visited :=
    ((bitmapPass_eq_ok_iff.mp done blknum lower upper).2 marked).2
  rw [marked_of_visited passed visited] at free
  cases free

omit passed in
theorem referencePass_verdict
    (references : referencePass left g scan = .ok ()) :
    (CountChanged left right →
        referencePass right g scan = fail .badReferenceCountError) ∧
      (¬CountChanged left right → referencePass right g scan = .ok ()) := by
  refine Reports.of_retraces (same.referencePass_retraces globals scan)
    references ?_
  rintro done ⟨inum, ⟨positive, below, -⟩, regular, changed⟩
  have regularRight := (same.types inum below.le).symm.trans regular
  rw [← globals.ninodes] at below
  have counted := referencePass_eq_ok_iff.mp references inum positive below
  have countedRight := referencePass_eq_ok_iff.mp done inum positive below
  exact changed ((counted.nlink regular).2.trans
    (countedRight.nlink regularRight).2.symm)

end SameOutline

end Verdict

/-- Apart from changed marks and link counts, an image like an accepted one is
accepted; a lost mark is reported before a gained one, and both before a
changed link count. -/
theorem corruption_reported (left right : Image)
    (small : left.sbSize ≤ 8388608)
    (accepted : myfsck left = .exited 0 "") (same : SameOutline left right) :
    (MarkLost left right →
      myfsck right = .exited 1 Message.badUsedAddressError.text) ∧
    (¬MarkLost left right → MarkGained left right →
      myfsck right = .exited 1 Message.badBitmapMarkedUsedError.text) ∧
    (¬MarkLost left right → ¬MarkGained left right → CountChanged left right →
      myfsck right = .exited 1 Message.badReferenceCountError.text) ∧
    (¬MarkLost left right → ¬MarkGained left right →
      ¬CountChanged left right → myfsck right = .exited 0 "") := by
  obtain ⟨returned, -⟩ := myfsck_eq_exited_zero_iff.mp accepted
  obtain ⟨nonempty, g, layout, helped⟩ := main_eq_ok_iff.mp returned
  obtain ⟨scan, passed, bitmap, references⟩ := helper_eq_ok_iff.mp helped
  have globals := matches_of_checkSize layout
  obtain ⟨lost, kept⟩ := same.firstPass_verdict globals passed small bitmap
  obtain ⟨gained, clear⟩ := same.bitmapPass_verdict globals passed small bitmap
  obtain ⟨changed, counted⟩ := same.referencePass_verdict globals references
  have run : main right = helper right g := by
    rw [same.stSize] at nonempty
    rw [same.sbSize, same.sbNblocks, same.sbNinodes] at layout
    exact mainWith_eq_helperWith nonempty layout _
  have reported : ∀ {message : Message}, helper right g = fail message →
      myfsck right = .exited 1 message.text := by
    intro message stopped
    unfold myfsck
    rw [run, stopped]
    rfl
  refine ⟨fun isLost => reported ?_, fun notLost isGained => reported ?_,
    fun notLost notGained isChanged => reported ?_,
    fun notLost notGained notChanged => ?_⟩
  · exact bind_eq_error_iff.mpr (.inl (lost isLost))
  · refine bind_eq_error_iff.mpr (.inr ⟨scan, kept notLost, ?_⟩)
    exact bind_eq_error_iff.mpr (.inl (gained isGained))
  · refine bind_eq_error_iff.mpr (.inr ⟨scan, kept notLost, ?_⟩)
    exact bind_eq_error_iff.mpr
      (.inr ⟨(), clear notGained, changed isChanged⟩)
  · rw [myfsck_eq_exited_zero_iff, run, helper_eq_ok_iff]
    exact ⟨⟨scan, kept notLost, clear notGained, counted notChanged⟩, rfl⟩

/-- The sample image without the mark of block 6. -/
def unmarked : Image where
  stSize := 3584
  byte offset := if offset = 1536 then 63 else Image.sample.byte offset

theorem sameOutline_unmarked : SameOutline Image.sample unmarked := by
  have ninodes : Image.sample.sbNinodes = 4 := by decide +kernel
  have slot : ∀ {inum}, Image.sample.InUse inum → inum < 4 := fun inUse =>
    ninodes ▸ inUse.2.1
  have sizes : ∀ inum < 4, Image.sample.inodeSize inum =
      unmarked.inodeSize inum := by decide +kernel
  have addrs : ∀ inum < 4, ∀ index < 13, Image.sample.inodeAddr inum index =
      unmarked.inodeAddr inum index := by decide +kernel
  have blocks : ∀ blknum, Image.sample.InDataRange blknum →
      SameBlock Image.sample unmarked blknum := by
    intro blknum inside position below
    have start : Image.sample.dataStart = 4 := by decide +kernel
    have lower := inside.1
    have bytes : unmarked.byte (blknum * 512 + position) =
        Image.sample.byte (blknum * 512 + position) := if_neg (by omega)
    rw [Image.mem, Image.mem, bytes]
    rfl
  exact
    { stSize := rfl
      sbSize := by decide +kernel
      sbNblocks := by decide +kernel
      sbNinodes := by decide +kernel
      types := by rw [ninodes]; decide +kernel
      sizes := fun inum inUse => sizes inum (slot inUse)
      addrs := fun inum inUse => addrs inum (slot inUse)
      indirectBlocks := fun inum _ inside => blocks _ inside
      directoryBlocks := fun _ _ blknum _ inside => blocks blknum inside }

theorem corruption_reported_unmarked :
    myfsck Image.sample = .exited 0 "" ∧ MarkLost Image.sample unmarked ∧
      myfsck unmarked = .exited 1
        "MP4_ERR: address used by inode but marked free in bitmap.\n" := by
  have accepted : myfsck Image.sample = .exited 0 "" := by decide +kernel
  have lost : MarkLost Image.sample unmarked :=
    ⟨6, ⟨by decide +kernel, by decide +kernel⟩, by decide +kernel,
      by decide +kernel⟩
  exact ⟨accepted, lost, (corruption_reported Image.sample unmarked
    (by decide +kernel) accepted sameOutline_unmarked).1 lost⟩

end LinuxKernelDev.Fsck
