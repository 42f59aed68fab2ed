import LinuxKernelDev.FsckFirstPass
import LinuxKernelDev.ParentChain

/-!
# Exact conditions of the verdict

The bitmap pass, the reference pass and `main` are given exact success
conditions, so that exit status 0 is equivalent to a list of conditions on the
image and on the tables of the first pass.
-/

namespace LinuxKernelDev.Fsck

open Function LoopRules ParentChain

theorem checkBitmapBlock_eq_ok_iff {img : Image} {g : Globals} {scan : Scan}
    {blknum : Nat} {result : Unit} :
    checkBitmapBlock img g scan blknum = .ok result ↔
      img.Maps (Image.bitmapOffset g.ninodes blknum) 1 ∧
        (img.bitmapBit g.ninodes blknum = true →
          blknum < g.visitedLen ∧ scan.blkvisited blknum = true) := by
  unfold checkBitmapBlock bitIsUsed
  simp only [load_bind_eq_ok_iff]
  refine and_congr_right fun _ => ?_
  cases used : img.bitmapBit g.ninodes blknum with
  | false => simp
  | true => cases visited : scan.blkvisited blknum <;> simp

theorem bitmapPass_eq_ok_iff {img : Image} {g : Globals} {scan : Scan} :
    bitmapPass img g scan = .ok () ↔
      ∀ blknum, g.datblkstnum ≤ blknum → blknum < g.datblkednum →
        img.Maps (Image.bitmapOffset g.ninodes blknum) 1 ∧
          (img.bitmapBit g.ninodes blknum = true →
            blknum < g.visitedLen ∧ scan.blkvisited blknum = true) := by
  unfold bitmapPass
  rw [forM_eq_ok_iff]
  simp only [checkBitmapBlock_eq_ok_iff, List.mem_range'_1]
  constructor
  · intro all blknum lower upper
    exact all blknum ⟨lower, by omega⟩
  · intro all blknum inside
    exact all blknum inside.1 (by omega)

section Walk

/-- One step of the `..` walk: the element must be in the table and have a
recorded parent. -/
def dotdotParent (tableLen : Nat) (parentdotdot : Nat → Int) (cur : Int) :
    Option Int :=
  if 0 ≤ cur ∧ cur < tableLen ∧ parentdotdot cur.toNat ≠ -1 then
    some (parentdotdot cur.toNat)
  else
    none

theorem dotdotParent_eq_some_iff {tableLen : Nat} {parentdotdot : Nat → Int}
    {cur next : Int} :
    dotdotParent tableLen parentdotdot cur = some next ↔
      (0 ≤ cur ∧ cur < tableLen ∧ parentdotdot cur.toNat ≠ -1) ∧
        parentdotdot cur.toNat = next := by
  unfold dotdotParent
  split <;> simp_all

/-- One turn of the `while` loop. -/
theorem followDotdot_succ (tableLen : Nat) (parentdotdot : Nat → Int)
    (fuel : Nat) (seen : Nat → Bool) (cur : Int) :
    followDotdot tableLen parentdotdot (fuel + 1) seen cur =
      if cur = 1 then
        .ok ()
      else if cur < 0 ∨ (tableLen : Int) ≤ cur then
        .error .outOfBounds
      else if seen cur.toNat ∨ parentdotdot cur.toNat = -1 then
        fail .badDirectoryError
      else
        followDotdot tableLen parentdotdot fuel
          (update seen cur.toNat true) (parentdotdot cur.toNat) := by
  rw [followDotdot]
  by_cases outside : cur < 0 ∨ (tableLen : Int) ≤ cur
  · have notIn : ¬(0 ≤ cur ∧ cur < tableLen) := by omega
    simp [access, notIn, outside, bind, Except.bind]
  · have inside : 0 ≤ cur ∧ cur < tableLen := by omega
    cases seen cur.toNat <;>
      simp [access, inside, outside, bind, Except.bind]

theorem leadsTo_of_followDotdot {tableLen : Nat} {parentdotdot : Nat → Int}
    {fuel : Nat} {seen : Nat → Bool} {cur : Int}
    (reached : followDotdot tableLen parentdotdot fuel seen cur = .ok ()) :
    ∃ steps, LeadsTo (dotdotParent tableLen parentdotdot) 1 steps cur := by
  induction fuel generalizing seen cur with
  | zero => simp [followDotdot] at reached
  | succ fuel ih =>
      rw [followDotdot_succ] at reached
      split_ifs at reached with atRoot outside ended
      · exact ⟨0, atRoot ▸ .root⟩
      · simp at reached
      · obtain ⟨steps, rest⟩ := ih reached
        refine ⟨steps + 1, .step atRoot ?_ rest⟩
        rw [dotdotParent_eq_some_iff]
        exact ⟨⟨by omega, by omega, (not_or.mp ended).2⟩, rfl⟩

/-- One step of the `..` walk, which ends at the root. -/
def walkParent (tableLen : Nat) (parentdotdot : Nat → Int) (cur : Int) :
    Option Int :=
  if cur = 1 then none else dotdotParent tableLen parentdotdot cur

theorem walkParent_eq_some_iff {tableLen : Nat} {parentdotdot : Nat → Int}
    {cur next : Int} :
    walkParent tableLen parentdotdot cur = some next ↔
      cur ≠ 1 ∧ dotdotParent tableLen parentdotdot cur = some next := by
  unfold walkParent
  split <;> simp_all

/-- With enough fuel, a walk arrives at the goal of its chain as long as every
element already seen is farther from the goal than the current one. -/
theorem followDotdot_of_leadsTo {tableLen : Nat} {parentdotdot : Nat → Int}
    {fuel steps : Nat} {seen : Nat → Bool} {cur goal : Int}
    {outcome : Except Stop Unit}
    (arrived : ∀ fuel seen,
      followDotdot tableLen parentdotdot (fuel + 1) seen goal = outcome)
    (leads : LeadsTo (walkParent tableLen parentdotdot) goal steps cur)
    (enough : steps < fuel)
    (farther : ∀ other : Nat, seen other = true → ∃ distance, steps < distance ∧
      LeadsTo (walkParent tableLen parentdotdot) goal distance other) :
    followDotdot tableLen parentdotdot fuel seen cur = outcome := by
  induction leads generalizing fuel seen with
  | root =>
      obtain ⟨fuel, rfl⟩ : ∃ rest, fuel = rest + 1 := ⟨fuel - 1, by omega⟩
      exact arrived fuel seen
  | @step steps child next notGoal parentEq rest ih =>
      obtain ⟨fuel, rfl⟩ : ∃ remaining, fuel = remaining + 1 :=
        ⟨fuel - 1, by omega⟩
      obtain ⟨notRoot, dotdotEq⟩ := walkParent_eq_some_iff.mp parentEq
      obtain ⟨⟨lower, upper, present⟩, nextEq⟩ :=
        dotdotParent_eq_some_iff.mp dotdotEq
      have childEq : ((child.toNat : Nat) : Int) = child :=
        Int.toNat_of_nonneg lower
      have chain : LeadsTo (walkParent tableLen parentdotdot) goal (steps + 1)
          child := .step notGoal parentEq rest
      have unseen : seen child.toNat = false := by
        by_contra again
        obtain ⟨distance, less, otherChain⟩ :=
          farther child.toNat (by simpa using again)
        rw [childEq] at otherChain
        have := chain.steps_unique otherChain
        omega
      have inside : ¬(child < 0 ∨ (tableLen : Int) ≤ child) := by omega
      rw [followDotdot_succ, if_neg notRoot, if_neg inside,
        if_neg (by simp [unseen, present]), nextEq]
      apply ih (by omega)
      intro other otherSeen
      by_cases same : other = child.toNat
      · subst same
        rw [childEq]
        exact ⟨steps + 1, by omega, chain⟩
      · rw [update_of_ne same] at otherSeen
        obtain ⟨distance, less, otherChain⟩ := farther other otherSeen
        exact ⟨distance, by omega, otherChain⟩

/-- Elements with a parent on a `..` walk lie in the table. -/
theorem walkParent_mem {tableLen : Nat} {parentdotdot : Nat → Int}
    (child next : Int)
    (parentEq : walkParent tableLen parentdotdot child = some next) :
    child ∈ (Finset.range tableLen).image (fun index : Nat => (index : Int)) := by
  obtain ⟨-, dotdotEq⟩ := walkParent_eq_some_iff.mp parentEq
  obtain ⟨⟨lower, upper, -⟩, -⟩ := dotdotParent_eq_some_iff.mp dotdotEq
  refine Finset.mem_image.mpr ⟨child.toNat, ?_, Int.toNat_of_nonneg lower⟩
  rw [Finset.mem_range]
  omega

/-- The walk of the checker arrives at the goal of its chain. -/
theorem followDotdot_arrives {tableLen steps : Nat}
    {parentdotdot : Nat → Int} {cur goal : Int} {outcome : Except Stop Unit}
    (arrived : ∀ fuel seen,
      followDotdot tableLen parentdotdot (fuel + 1) seen goal = outcome)
    (leads : LeadsTo (walkParent tableLen parentdotdot) goal steps cur) :
    followDotdot tableLen parentdotdot (tableLen + 1) (fun _ => false) cur =
      outcome := by
  have bound : steps ≤ tableLen := by
    have card := leads.steps_le_card walkParent_mem
    have image := Finset.card_image_le (s := Finset.range tableLen)
      (f := fun index : Nat => (index : Int))
    rw [Finset.card_range] at image
    omega
  exact followDotdot_of_leadsTo arrived leads (by omega) (by simp)

/-- The walk of the checker succeeds exactly when the chain of `..` entries
leads to the root. -/
theorem followDotdot_eq_ok_iff {tableLen : Nat} {parentdotdot : Nat → Int}
    {cur : Int} :
    followDotdot tableLen parentdotdot (tableLen + 1) (fun _ => false) cur =
        .ok () ↔
      ∃ steps, LeadsTo (dotdotParent tableLen parentdotdot) 1 steps cur := by
  constructor
  · exact leadsTo_of_followDotdot
  · rintro ⟨steps, leads⟩
    refine followDotdot_arrives (fun fuel seen => by simp [followDotdot])
      (leads.mono fun child next notRoot parentEq => ?_)
    exact walkParent_eq_some_iff.mpr ⟨notRoot, parentEq⟩

end Walk

section References

/-- The condition of the extra checks on a directory. -/
def ParentOk (g : Globals) (scan : Scan) (inum : Nat) : Prop :=
  (inum = 1 → scan.parentdotdot 1 = 1) ∧
    (inum ≠ 1 → scan.parententry inum ≠ -1 ∧
      scan.parentdotdot inum = scan.parententry inum) ∧
    ∃ steps, LeadsTo (dotdotParent g.tableLen scan.parentdotdot) 1 steps
      (Int.bmod inum 4294967296)

/-- In the tables, the two tests on the parents are one. -/
theorem compareParents_eq {g : Globals} {inum : Nat} (inside : inum < g.tableLen)
    (scan : Scan) :
    compareParents g scan inum =
      failIf (if inum = 1 then scan.parentdotdot inum ≠ 1
        else scan.parententry inum = -1 ∨
          scan.parentdotdot inum ≠ scan.parententry inum)
        .badParentDirectoryError := by
  unfold compareParents failIf
  by_cases root : inum = 1
  · simp only [root, if_true]
    rw [← root, access_eq, if_pos inside]
    rfl
  · by_cases missing : scan.parententry inum = -1 <;>
      simp [root, access_eq, inside, missing, bind, Except.bind, fail]

theorem checkParent_eq_ok_iff {g : Globals} {scan : Scan} {inum : Nat}
    (inside : inum < g.tableLen) :
    checkParent g scan inum = .ok () ↔ ParentOk g scan inum := by
  unfold checkParent ParentOk
  rw [compareParents_eq inside, failIf_bind_eq_ok_iff, followDotdot_eq_ok_iff]
  by_cases root : inum = 1
  · subst root
    simp
  · simp only [root, if_false, not_or, not_not, ne_eq, false_implies,
      not_false_eq_true, true_implies, true_and]

/-- The condition of the reference checks on an inode. -/
structure ReferencesOk (img : Image) (g : Globals) (scan : Scan)
    (inum : Nat) : Prop where
  bound : inum < g.tableLen
  found : scan.usedinode inum = true → scan.inodeindirent inum ≠ 0
  notFree : scan.usedinode inum = false → scan.inodeindirent inum = 0
  typeMapped : img.Maps (Image.inodeOffset inum) 2
  nlink : img.inodeType inum = 2 →
    img.Maps (Image.inodeOffset inum + 6) 2 ∧
      img.inodeNlink inum = scan.inodeindirent inum
  once : img.inodeType inum = 1 → scan.inodeindirent inum = 1
  parent : img.inodeType inum = 1 → ParentOk g scan inum

theorem checkReferences_eq_ok_iff {img : Image} {g : Globals} {scan : Scan}
    {inum : Nat} :
    checkReferences img g scan inum = .ok () ↔
      ReferencesOk img g scan inum := by
  have nlinkOk : checkNlink img inum (img.inodeType inum)
      (scan.inodeindirent inum) = .ok () ↔
        (img.inodeType inum = 2 →
          img.Maps (Image.inodeOffset inum + 6) 2 ∧
            img.inodeNlink inum = scan.inodeindirent inum) := by
    unfold checkNlink loadNlink
    split <;> simp_all
  have directoryOk (inside : inum < g.tableLen) :
      (if img.inodeType inum = 1 then do
        failIf (scan.inodeindirent inum ≠ 1) .badDirectoryOnceError
        checkParent g scan inum
      else pure () : Except Stop Unit) = .ok () ↔
        (img.inodeType inum = 1 →
          scan.inodeindirent inum = 1 ∧ ParentOk g scan inum) := by
    split <;> simp_all [checkParent_eq_ok_iff inside]
  unfold checkReferences
  simp only [access_bind_eq_ok_iff, failIf_bind_eq_ok_iff, loadType,
    load_bind_eq_ok_iff]
  rw [bind_eq_ok_iff]
  constructor
  · rintro ⟨bound, -, found, notFree, typeMapped, _, nlink, directory⟩
    have directory := (directoryOk bound).mp directory
    refine ⟨bound, fun used zero => found ⟨used, zero⟩, fun unused => ?_,
      typeMapped, nlinkOk.mp nlink, fun type => (directory type).1,
      fun type => (directory type).2⟩
    by_contra nonzero
    exact notFree ⟨unused, nonzero⟩
  · intro conditions
    exact ⟨conditions.bound, conditions.bound,
      fun both => conditions.found both.1 both.2,
      fun both => both.2 (conditions.notFree both.1), conditions.typeMapped,
      (), nlinkOk.mpr conditions.nlink, (directoryOk conditions.bound).mpr
        fun type => ⟨conditions.once type, conditions.parent type⟩⟩

theorem referencePass_eq_ok_iff {img : Image} {g : Globals} {scan : Scan} :
    referencePass img g scan = .ok () ↔
      ∀ inum, 1 ≤ inum → inum < g.ninodes →
        ReferencesOk img g scan inum := by
  unfold referencePass
  rw [forM_eq_ok_iff]
  simp only [checkReferences_eq_ok_iff, List.mem_range'_1]
  constructor
  · intro all inum lower upper
    exact all inum ⟨lower, by omega⟩
  · intro all inum inside
    exact all inum inside.1 (by omega)

end References

/-- `helper` succeeds exactly when the three passes do. -/
theorem helper_eq_ok_iff {img : Image} {g : Globals} :
    helper img g = .ok () ↔
      ∃ scan, firstPass img g = .ok scan ∧ bitmapPass img g scan = .ok () ∧
        referencePass img g scan = .ok () := by
  unfold helper helperWith
  rw [bind_eq_ok_iff]
  refine exists_congr fun scan => and_congr_right fun _ => ?_
  rw [bind_eq_ok_iff]
  constructor
  · rintro ⟨_, bitmap, references⟩
    exact ⟨bitmap, references⟩
  · rintro ⟨bitmap, references⟩
    exact ⟨(), bitmap, references⟩

/-- Values of the globals after `check_size` accepts a superblock. -/
theorem checkSize_eq_ok_iff {sbsize nblocks ninodes : Nat} {g : Globals} :
    checkSize sbsize nblocks ninodes = .ok g ↔
      sbsize = (nblocks + (ninodes / 8 + 1 + (sbsize / 4096 + 1) + 2) %
          4294967296) % 4294967296 ∧
        g = ⟨sbsize, nblocks, ninodes,
          (ninodes / 8 + 1 + (sbsize / 4096 + 1) + 2) % 4294967296,
          sbsize⟩ := by
  unfold checkSize
  simp only
  split_ifs with different
  · simp only [fail_ne_ok, false_iff]
    rintro ⟨same, -⟩
    exact different same
  · have same := not_not.mp different
    simp only [pure_eq_ok, Except.ok.injEq]
    rw [← same]
    constructor
    · rintro rfl
      exact ⟨rfl, rfl⟩
    · rintro ⟨-, rfl⟩
      rfl

/-- An image that passes `check_size` is left to `helper`. -/
theorem mainWith_eq_helperWith {img : Image} {g : Globals}
    (nonempty : img.stSize ≠ 0)
    (layout : checkSize img.sbSize img.sbNblocks img.sbNinodes = .ok g)
    (width : Nat) : mainWith width img = helperWith width img g := by
  have mapped : ∀ offset, offset + 4 ≤ 4096 → img.Maps offset 4 := by
    intro offset bound
    unfold Image.Maps Image.mapped
    omega
  unfold mainWith
  rw [if_neg nonempty, load_eq, load_eq, load_eq, if_pos (mapped 512 (by omega)),
    if_pos (mapped 516 (by omega)), if_pos (mapped 520 (by omega))]
  change (checkSize img.sbSize img.sbNblocks img.sbNinodes >>=
    helperWith width img) = _
  rw [layout]
  rfl

theorem main_eq_ok_iff {img : Image} :
    main img = .ok () ↔
      img.stSize ≠ 0 ∧ ∃ g,
        checkSize img.sbSize img.sbNblocks img.sbNinodes = .ok g ∧
          helper img g = .ok () := by
  unfold main mainWith
  by_cases empty : img.stSize = 0
  · simp [empty]
  · have mapped : ∀ offset, offset + 4 ≤ 4096 → img.Maps offset 4 := by
      intro offset bound
      unfold Image.Maps Image.mapped
      omega
    rw [if_neg empty]
    simp [bind_eq_ok_iff (α := Globals), mapped, empty]

/-- Exit status 0 is the case in which `main` returns. -/
theorem myfsck_eq_exited_zero_iff {img : Image} {stderr : String} :
    myfsck img = .exited 0 stderr ↔ main img = .ok () ∧ stderr = "" := by
  unfold myfsck report
  cases result : main img with
  | ok value => simp [eq_comm]
  | error stop => cases stop with
    | exit message => cases message <;> simp
    | _ => simp

end LinuxKernelDev.Fsck
