import LinuxKernelDev.FsckReach

/-!
# Bounds of the checker

The later passes, and the run as a whole.  All accesses of a run are in bounds
exactly if the file and the arrays have room for those to which the run comes.
The checker does not see to this: an entry may name an inode number behind the
tables, a `..` may lead there, and the file may end before its tables do.
-/

namespace LinuxKernelDev.Fsck

open Function LoopRules ParentChain Logged

section Bitmap

variable {img : Image} {g : Globals} {scan : Scan}

/-- The first pass succeeds. -/
structure Passes (img : Image) (g : Globals) : Prop where
  sound : ∀ inum < g.ninodes, InodeSound img g inum
  distinct : (allClaims img g.ninodes).Nodup

/-- A block passes the bitmap loop: if it is marked, an inode claims it. -/
def MarkOk (img : Image) (g : Globals) (blknum : Nat) : Prop :=
  img.Maps (Image.bitmapOffset g.ninodes blknum) 1 ∧
    (img.bitmapBit g.ninodes blknum = true →
      blknum < g.visitedLen ∧ blknum ∈ allClaims img g.ninodes)

/-- The bitmap loop comes to a block. -/
structure Marks (img : Image) (g : Globals) (blknum : Nat) : Prop where
  passes : Passes img g
  range : g.datblkstnum ≤ blknum ∧ blknum < g.datblkednum
  earlier : ∀ other, g.datblkstnum ≤ other → other < blknum →
    MarkOk img g other

/-- A block of the bitmap loop needs its byte of the bitmap and, if it is
marked, its element of `blkvisited`. -/
def MarkInside (img : Image) (g : Globals) (blknum : Nat) : Prop :=
  Image.bitmapOffset g.ninodes blknum + 1 ≤ img.stSize ∧
    (img.bitmapBit g.ninodes blknum = true → blknum < g.visitedLen)

theorem inside_checkBitmapBlock {blknum : Nat} :
    Inside img (checkBitmapBlock img g scan blknum) ↔
      MarkInside img g blknum := by
  unfold checkBitmapBlock bitIsUsed MarkInside
  rw [inside_load_bind]
  refine and_congr_right fun _ => ?_
  cases img.bitmapBit g.ninodes blknum with
  | false => simp
  | true => cases scan.blkvisited blknum <;> simp

theorem inside_bitmapPass (passes : Passes img g)
    (described : Describes img g scan) :
    Inside img (bitmapPass img g scan) ↔
      ∀ blknum, Marks img g blknum → MarkInside img g blknum := by
  unfold bitmapPass
  rw [Inside, stays_forM_range']
  have passed : ∀ other, (checkBitmapBlock img g scan other :
      Run Unit).result = .ok () ↔ MarkOk img g other := by
    intro other
    rw [result_checkBitmapBlock, checkBitmapBlock_eq_ok_iff,
      described.visited]
    rfl
  simp only [passed]
  constructor
  · rintro all blknum ⟨-, range, earlier⟩
    exact inside_checkBitmapBlock.mp (all blknum range.1 (by omega) earlier)
  · intro all blknum lower upper earlier
    exact inside_checkBitmapBlock.mpr
      (all blknum ⟨passes, ⟨lower, by omega⟩, earlier⟩)

end Bitmap

section Walk

variable {tableLen fuel : Nat} {parentdotdot : Nat → Int} {cur : Int}

/-- A walk leaves the table at an element to which its chain leads. -/
theorem leadsTo_of_followDotdot_eq_outOfBounds {seen : Nat → Bool}
    (escaped : followDotdot tableLen parentdotdot fuel seen cur =
      .error .outOfBounds) :
    ∃ goal steps, LeadsTo (walkParent tableLen parentdotdot) goal steps cur ∧
      goal ≠ 1 ∧ (goal < 0 ∨ (tableLen : Int) ≤ goal) := by
  induction fuel generalizing seen cur with
  | zero => simp [followDotdot] at escaped
  | succ fuel ih =>
      rw [followDotdot_succ] at escaped
      split_ifs at escaped with atRoot outside ended
      · exact ⟨cur, 0, .root, atRoot, outside⟩
      · simp [fail] at escaped
      · obtain ⟨goal, steps, rest, notRoot, beyond⟩ := ih escaped
        refine ⟨goal, steps + 1, .step (by omega) ?_ rest, notRoot, beyond⟩
        rw [walkParent_eq_some_iff, dotdotParent_eq_some_iff]
        exact ⟨atRoot, ⟨by omega, by omega, (not_or.mp ended).2⟩, rfl⟩

theorem followDotdot_eq_outOfBounds_iff :
    followDotdot tableLen parentdotdot (tableLen + 1) (fun _ => false) cur =
        .error .outOfBounds ↔
      ∃ goal steps, LeadsTo (walkParent tableLen parentdotdot) goal steps
        cur ∧ goal ≠ 1 ∧ (goal < 0 ∨ (tableLen : Int) ≤ goal) := by
  constructor
  · exact leadsTo_of_followDotdot_eq_outOfBounds
  · rintro ⟨goal, steps, leads, notRoot, outside⟩
    refine followDotdot_arrives (fun fuel seen => ?_) leads
    rw [followDotdot_succ, if_neg notRoot, if_pos outside]

/-- A walk stops at the first index that is out of bounds. -/
theorem inside_followDotdot_iff_ne {img : Image} {seen : Nat → Bool} :
    Inside img (followDotdot tableLen parentdotdot fuel seen cur) ↔
      followDotdot tableLen parentdotdot fuel seen cur ≠
        .error .outOfBounds := by
  induction fuel generalizing seen cur with
  | zero =>
      simp [followDotdot]
  | succ fuel ih =>
      rw [followDotdot_succ, followDotdot]
      by_cases atRoot : cur = 1
      · simp [atRoot]
      rw [if_neg atRoot, if_neg atRoot, inside_access_bind_int]
      by_cases outside : cur < 0 ∨ (tableLen : Int) ≤ cur
      · rw [if_pos outside]
        exact iff_of_false (by omega) (by simp)
      have inside : 0 ≤ cur ∧ cur < tableLen := by omega
      rw [if_neg outside, and_iff_right inside]
      cases again : seen cur.toNat with
      | true => simp [fail]
      | false =>
          simp only [Bool.false_eq_true, if_false, false_or,
            inside_access_bind_int, and_iff_right inside]
          split_ifs with missing
          · simp [fail]
          · exact ih

/-- The walk from an element needs all elements but the root to which the chain
leads. -/
theorem inside_followDotdot {img : Image} :
    Inside img (followDotdot tableLen parentdotdot (tableLen + 1)
        (fun _ => false) cur) ↔
      ∀ goal steps, LeadsTo (walkParent tableLen parentdotdot) goal steps cur →
        goal ≠ 1 → 0 ≤ goal ∧ goal < tableLen := by
  rw [inside_followDotdot_iff_ne, ne_eq, followDotdot_eq_outOfBounds_iff]
  constructor
  · intro none goal steps leads notRoot
    by_contra outside
    exact none ⟨goal, steps, leads, notRoot, by omega⟩
  · rintro all ⟨goal, steps, leads, notRoot, outside⟩
    have := all goal steps leads notRoot
    omega

end Walk

section References

variable {img : Image} {g : Globals} {scan : Scan} {inum : Nat}

/-- The last loop comes to an inode: the first two loops succeed, and so do the
tests on the inodes before it. -/
structure Checks (img : Image) (g : Globals) (scan : Scan) (inum : Nat) :
    Prop where
  passes : Passes img g
  marks : ∀ blknum, g.datblkstnum ≤ blknum → blknum < g.datblkednum →
    MarkOk img g blknum
  described : Describes img g scan
  range : 1 ≤ inum ∧ inum < g.ninodes
  earlier : ∀ other, 1 ≤ other → other < inum → ReferencesOk img g scan other

/-- The last loop comes behind the tests on the use of an inode. -/
structure Referred (scan : Scan) (inum : Nat) : Prop where
  found : scan.usedinode inum = true → scan.inodeindirent inum ≠ 0
  notFree : scan.usedinode inum = false → scan.inodeindirent inum = 0

/-- The last loop follows the `..` chain of a directory: one entry names it, and
the parents recorded for it agree. -/
structure Follows (img : Image) (scan : Scan) (inum : Nat) : Prop where
  referred : Referred scan inum
  directory : img.inodeType inum = 1
  once : scan.inodeindirent inum = 1
  root : inum = 1 → scan.parentdotdot 1 = 1
  agree : inum ≠ 1 → scan.parententry inum ≠ -1 ∧
    scan.parentdotdot inum = scan.parententry inum

/-- What an inode of the last loop needs: its elements of the arrays, its type,
the link count of a regular file, and for a directory the elements to which its
chain leads. -/
structure ReferenceInside (img : Image) (g : Globals) (scan : Scan)
    (inum : Nat) : Prop where
  bound : inum < g.tableLen
  type : Referred scan inum → Image.inodeOffset inum + 2 ≤ img.stSize
  nlink : Referred scan inum → img.inodeType inum = 2 →
    Image.inodeOffset inum + 8 ≤ img.stSize
  chain : Follows img scan inum → ∀ goal steps,
    LeadsTo (walkParent g.tableLen scan.parentdotdot) goal steps
      (Int.bmod inum 4294967296) →
      goal ≠ 1 → 0 ≤ goal ∧ goal < g.tableLen

theorem inside_compareParents (inside : inum < g.tableLen) :
    Inside img (compareParents g scan inum) := by
  unfold compareParents
  split_ifs <;> simp [inside]

theorem inside_checkParent (inside : inum < g.tableLen) :
    Inside img (checkParent g scan inum) ↔
      ((inum = 1 → scan.parentdotdot 1 = 1) →
        (inum ≠ 1 → scan.parententry inum ≠ -1 ∧
          scan.parentdotdot inum = scan.parententry inum) →
        ∀ goal steps,
          LeadsTo (walkParent g.tableLen scan.parentdotdot) goal steps
            (Int.bmod inum 4294967296) →
            goal ≠ 1 → 0 ≤ goal ∧ goal < g.tableLen) := by
  unfold checkParent
  rw [inside_bind, and_iff_right (inside_compareParents inside),
    result_compareParents, compareParents_eq inside]
  simp only [failIf_eq_ok_iff, inside_followDotdot]
  by_cases root : inum = 1
  · subst root
    simp
  · simp [root]

theorem inside_checkNlink {type references : Int} :
    Inside img (checkNlink img inum type references) ↔
      (type = 2 → Image.inodeOffset inum + 8 ≤ img.stSize) := by
  unfold checkNlink loadNlink
  split_ifs with regular
  · simp [regular]
  · simp [regular]

/-- Behind the tests on its use, an inode needs its link count or its chain. -/
theorem inside_checkLinks :
    Inside img (do
        checkNlink img inum (img.inodeType inum) (scan.inodeindirent inum)
        if img.inodeType inum = 1 then do
          failIf (scan.inodeindirent inum ≠ 1) .badDirectoryOnceError
          checkParent g scan inum
        else
          pure ()) ↔
      (img.inodeType inum = 2 →
        Image.inodeOffset inum + 8 ≤ img.stSize) ∧
      (img.inodeType inum = 1 → scan.inodeindirent inum = 1 →
        Inside img (checkParent g scan inum)) := by
  rw [inside_bind, inside_checkNlink]
  refine and_congr_right fun _ => ?_
  by_cases directory : img.inodeType inum = 1
  · have passed : checkNlink img inum (img.inodeType inum)
        (scan.inodeindirent inum) = (.ok () : Except Stop Unit) := by
      simp [checkNlink, directory]
    rw [directory] at passed
    simp [directory, passed]
  · simp [directory]

theorem inside_checkReferences :
    Inside img (checkReferences img g scan inum) ↔
      ReferenceInside img g scan inum := by
  unfold checkReferences
  simp only [inside_access_bind, inside_failIf_bind, loadType,
    inside_load_bind]
  constructor
  · rintro ⟨bound, -, rest⟩
    have tested (referred : Referred scan inum) := rest
      (fun both => referred.found both.1 both.2)
      (fun both => both.2 (referred.notFree both.1))
    have links (referred : Referred scan inum) :=
      inside_checkLinks.mp (tested referred).2
    refine ⟨bound, fun referred => (tested referred).1,
      fun referred => (links referred).1, fun follows => ?_⟩
    exact (inside_checkParent bound).mp ((links follows.referred).2
      follows.directory follows.once) follows.root follows.agree
  · rintro ⟨bound, type, nlink, chain⟩
    refine ⟨bound, bound, fun found notFree => ?_⟩
    have referred : Referred scan inum :=
      ⟨fun used zero => found ⟨used, zero⟩, fun unused => by
        by_contra nonzero
        exact notFree ⟨unused, nonzero⟩⟩
    refine ⟨type referred, inside_checkLinks.mpr ⟨nlink referred,
      fun directory once => (inside_checkParent bound).mpr
        fun root agree => ?_⟩⟩
    exact chain ⟨referred, directory, once, root, agree⟩

/-- The image determines the tables, apart from the counters. -/
theorem Describes.unique {other : Scan} (left : Describes img g scan)
    (right : Describes img g other) :
    ∃ curcnt parcnt blkcnt, other = { scan with curcnt, parcnt, blkcnt } := by
  have visited : other.blkvisited = scan.blkvisited := by
    funext blknum
    rw [Bool.eq_iff_iff, left.visited, right.visited]
  have used : other.usedinode = scan.usedinode := by
    funext inum
    rw [Bool.eq_iff_iff, left.used, right.used]
  have references : other.inodeindirent = scan.inodeindirent := by
    funext inum
    rw [left.references, right.references]
  have dotdot := right.dotdot.trans left.dotdot.symm
  have entry := right.entry.trans left.entry.symm
  refine ⟨other.curcnt, other.parcnt, other.blkcnt, ?_⟩
  cases other
  simp_all

theorem inside_referencePass (passes : Passes img g)
    (marks : ∀ blknum, g.datblkstnum ≤ blknum → blknum < g.datblkednum →
      MarkOk img g blknum) (described : Describes img g scan) :
    Inside img (referencePass img g scan) ↔
      ∀ scan inum, Checks img g scan inum → ReferenceInside img g scan inum := by
  unfold referencePass
  rw [Inside, stays_forM_range']
  simp only [result_checkReferences, checkReferences_eq_ok_iff]
  constructor
  · rintro all _ inum ⟨-, -, other, range, earlier⟩
    obtain ⟨curcnt, parcnt, blkcnt, rfl⟩ := described.unique other
    have inside := inside_checkReferences.mp (all inum range.1 (by omega)
      fun other lower upper => by
        obtain ⟨bound, found, notFree, mapped, nlink, only, parent⟩ :=
          earlier other lower upper
        exact ⟨bound, found, notFree, mapped, nlink, only, parent⟩)
    exact ⟨inside.bound, fun referred => inside.type ⟨referred.1, referred.2⟩,
      fun referred => inside.nlink ⟨referred.1, referred.2⟩,
      fun follows => inside.chain ⟨⟨follows.referred.1, follows.referred.2⟩,
        follows.directory, follows.once, follows.root, follows.agree⟩⟩
  · intro all inum lower upper earlier
    exact inside_checkReferences.mpr (all scan inum
      ⟨passes, marks, described, ⟨lower, by omega⟩, earlier⟩)

end References

section Run

variable {img : Image} {g : Globals}

/-- The file and the arrays have room for everything to which the run comes:
the superblock, the inodes that the first pass scans, the blocks of the bitmap
loop, and the inodes of the last loop. -/
structure InBounds (img : Image) (g : Globals) : Prop where
  superblock : 524 ≤ img.stSize
  inodes : ∀ inum, Comes img g inum → InodeInside img g inum
  bitmap : ∀ blknum, Marks img g blknum → MarkInside img g blknum
  references : ∀ scan inum, Checks img g scan inum →
    ReferenceInside img g scan inum

theorem bitmapPass_eq_ok_iff_markOk {scan : Scan}
    (described : Describes img g scan) :
    bitmapPass img g scan = .ok () ↔
      ∀ blknum, g.datblkstnum ≤ blknum → blknum < g.datblkednum →
        MarkOk img g blknum := by
  simp only [bitmapPass_eq_ok_iff, described.visited, MarkOk]

/-- What the later passes need, from the tables of the first one. -/
theorem inside_laterPasses {scan : Scan} (passed : firstPass img g = .ok scan) :
    Inside img (bitmapPass img g scan >>= fun _ => referencePass img g scan) ↔
      (∀ blknum, Marks img g blknum → MarkInside img g blknum) ∧
      ∀ scan inum, Checks img g scan inum →
        ReferenceInside img g scan inum := by
  have described := describes_of_firstPass passed
  obtain ⟨sound, distinct⟩ := firstPass_succeeds_iff.mp ⟨scan, passed⟩
  have passes : Passes img g := ⟨sound, distinct⟩
  have marked := bitmapPass_eq_ok_iff_markOk described
  rw [inside_bind, inside_bitmapPass passes described, result_bitmapPass]
  refine and_congr_right fun _ => ⟨fun all other inum checks => ?_,
    fun all _ done => ?_⟩
  · exact (inside_referencePass passes checks.marks described).mp
      (all () (marked.mpr checks.marks)) other inum checks
  · exact (inside_referencePass passes (marked.mp done) described).mpr all

theorem inside_helper :
    Inside img (helper img g) ↔
      (∀ inum, Comes img g inum → InodeInside img g inum) ∧
      (∀ blknum, Marks img g blknum → MarkInside img g blknum) ∧
      ∀ scan inum, Checks img g scan inum →
        ReferenceInside img g scan inum := by
  unfold helper helperWith
  rw [inside_bind, inside_firstPass, result_firstPass]
  refine and_congr_right fun _ => ⟨fun all => ?_, fun later scan passed =>
    (inside_laterPasses passed).mpr later⟩
  have reached (passes : Passes img g) :
      (∀ blknum, Marks img g blknum → MarkInside img g blknum) ∧
      ∀ scan inum, Checks img g scan inum →
        ReferenceInside img g scan inum := by
    obtain ⟨scan, passed⟩ := firstPass_succeeds_iff.mpr
      ⟨passes.sound, passes.distinct⟩
    exact (inside_laterPasses passed).mp (all scan passed)
  exact ⟨fun blknum marks => (reached marks.passes).1 blknum marks,
    fun scan inum checks => (reached checks.passes).2 scan inum checks⟩

/-- A file without bytes has a superblock of zeros. -/
theorem stSize_ne_zero_of_checkSize
    (layout : checkSize img.sbSize img.sbNblocks img.sbNinodes = .ok g) :
    img.stSize ≠ 0 := by
  intro empty
  have zero : ∀ offset, img.word32 offset = 0 := by
    intro offset
    simp [Image.word32, Image.word16, Image.mem, empty]
  have size : img.sbSize = 0 := zero 512
  have blocks : img.sbNblocks = 0 := zero 516
  have inodes : img.sbNinodes = 0 := zero 520
  rw [size, blocks, inodes, checkSize_eq_ok_iff] at layout
  omega

theorem inside_checkSize {sbsize nblocks ninodes : Nat} {β : Type}
    {next : Globals → Run β}
    (layout : checkSize sbsize nblocks ninodes = .ok g) :
    Inside img (checkSize sbsize nblocks ninodes >>= next) ↔
      Inside img (next g) := by
  rw [inside_bind]
  have inside : Inside img (checkSize sbsize nblocks ninodes) := by
    unfold checkSize
    simp only
    split_ifs <;> simp
  have result : (checkSize sbsize nblocks ninodes : Run Globals).result =
      checkSize sbsize nblocks ninodes := by
    simp [checkSize]
  rw [and_iff_right inside, result, layout]
  simp

end Run

/-- All accesses of the checker are in bounds exactly if the file and the arrays
have room where the run comes to. -/
theorem safe_iff (img : Image) (g : Globals)
    (layout : checkSize img.sbSize img.sbNblocks img.sbNinodes = .ok g) :
    Safe img ↔ InBounds img g := by
  have nonempty := stSize_ne_zero_of_checkSize layout
  change Inside img (main img) ↔ _
  unfold main mainWith
  rw [if_neg nonempty]
  simp only [inside_load_bind]
  rw [inside_checkSize layout, inside_helper]
  constructor
  · rintro ⟨-, -, superblock, inodes, bitmap, references⟩
    exact ⟨superblock, inodes, bitmap, references⟩
  · rintro ⟨superblock, inodes, bitmap, references⟩
    exact ⟨by omega, by omega, superblock, inodes, bitmap, references⟩

/-- The sample image up to the type of its first inode, which is not one. -/
def badType : Image where
  stSize := 1026
  byte offset := if offset = 1024 then 9 else Image.sample.byte offset

/-- The sample is as long as its tables; of `badType` only the superblock and
two bytes of the inode table are there, and no more is read. -/
theorem safe_sample :
    (Safe Image.sample ∧ InBounds Image.sample ⟨7, 3, 4, 4, 7⟩) ∧
      Safe badType ∧ InBounds badType ⟨7, 3, 4, 4, 7⟩ := by
  have layout : ∀ img : Image, img.sbSize = 7 ∧ img.sbNblocks = 3 ∧
      img.sbNinodes = 4 →
        checkSize img.sbSize img.sbNblocks img.sbNinodes =
          .ok ⟨7, 3, 4, 4, 7⟩ := by
    rintro img ⟨size, blocks, inodes⟩
    rw [size, blocks, inodes]
    rfl
  have sample : Safe Image.sample := by decide +kernel
  have short : Safe badType := by decide +kernel
  exact ⟨⟨sample, (safe_iff Image.sample _
      (layout _ (by decide +kernel))).mp sample⟩,
    short, (safe_iff badType _ (layout _ (by decide +kernel))).mp short⟩

/-- The sample image with a third entry in its root directory, which names
inode 9. -/
def strayEntry : Image where
  stSize := 3584
  byte offset :=
    if offset = 2112 then 9 else if offset = 2114 then 99
    else Image.sample.byte offset

/-- Inode 2 is a directory held by directory 3, whose `..` names inode 9. -/
def strayParent : Image where
  stSize := 3584
  byte offset := (([(1152, 1), (1160, 0), (1161, 2), (2080, 0),
    (2560, 2), (2562, 46), (2576, 3), (2578, 46), (2579, 46), (3088, 9),
    (3104, 2), (3106, 97)] : List (Nat × UInt8)).lookup offset).getD
      (Image.sample.byte offset)

/-- The first two blocks of the sample image. -/
def truncated : Image where
  stSize := 1024
  byte := Image.sample.byte

/-- The index 9 into tables of length 5, once from an entry and once from a
`..` chain, and loads behind the end of a file that the checker accepts. -/
theorem escapes_stray :
    (Access.element .inodeindirent 5 9 ∈ (main strayEntry : Run Unit).log ∧
      ¬Safe strayEntry) ∧
    (Access.element .seen 5 9 ∈ (main strayParent : Run Unit).log ∧
      ¬Safe strayParent) ∧
    (Access.bytes 1024 2 ∈ (main truncated : Run Unit).log ∧
      ¬Safe truncated ∧ myfsck truncated = .exited 0 "") := by
  decide +kernel

end LinuxKernelDev.Fsck
