import LinuxKernelDev.AccessLog
import LinuxKernelDev.FsckVerdict

/-!
# The accesses of the checker

The checker is run with a log of its accesses: every index into one of the
arrays of `helper`, and every range of image bytes that is read.  Without the
log it is the checker as it runs.
-/

namespace LinuxKernelDev.Fsck

open Function Logged

/-- An index into an array of a length, or bytes of the image. -/
inductive Access where
  | element (table : Table) (length : Nat) (index : Int)
  | bytes (offset length : Nat)
  deriving DecidableEq

/-- The index is in the array, or the bytes are in the file. -/
def Access.Within (img : Image) : Access → Prop
  | .element _ length index => 0 ≤ index ∧ index < length
  | .bytes offset length => offset + length ≤ img.stSize

instance (img : Image) : DecidablePred (Access.Within img)
  | .element _ _ _ => inferInstanceAs (Decidable (_ ∧ _))
  | .bytes _ _ => inferInstanceAs (Decidable (_ ≤ _))

/-- A run with its accesses. -/
abbrev Run := Logged Access Stop

instance : Machine Run where
  stop reason := perform [] (.error reason)
  load img offset length value :=
    perform [.bytes offset length] (load img offset length value)
  access table length index value :=
    perform [.element table length index] (access table length index value)

section Result

variable {α : Type}

@[simp]
theorem result_stop (reason : Stop) :
    (Machine.stop reason : Run α).result = Machine.stop reason := rfl

@[simp]
theorem result_load (img : Image) (offset length : Nat) (value : α) :
    (load img offset length value : Run α).result =
      load img offset length value := rfl

@[simp]
theorem result_access (table : Table) (length : Nat) (index : Int)
    (value : α) :
    (access table length index value : Run α).result =
      access table length index value := rfl

@[simp]
theorem result_fail (message : Message) :
    (fail message : Run α).result = fail message := rfl

@[simp]
theorem result_failIf (condition : Prop) [Decidable condition]
    (message : Message) :
    (failIf condition message : Run Unit).result =
      failIf condition message := by
  simp [failIf]

variable (img : Image) (g : Globals) (scan : Scan)

@[simp]
theorem result_loadDirent (blknum index : Nat) :
    (loadDirent img blknum index : Run Dirent).result =
      loadDirent img blknum index := by
  simp [loadDirent]

@[simp]
theorem result_visitDirent (currinodenum : Nat) (entry : Dirent) :
    (visitDirent img g currinodenum scan entry : Run Scan).result =
      visitDirent img g currinodenum scan entry := by
  simp only [visitDirent, loadType, result_ite, result_bind, result_pure,
    result_fail, result_load, result_access]

@[simp]
theorem result_traverseDirent (blknum currinodenum : Nat) :
    (traverseDirent img g blknum currinodenum scan : Run Scan).result =
      traverseDirent img g blknum currinodenum scan := by
  simp [traverseDirent]

@[simp]
theorem result_claimBlock (badAddress usedOnce : Message) (blknum : Nat) :
    (claimBlock img g badAddress usedOnce blknum scan : Run Scan).result =
      claimBlock img g badAddress usedOnce blknum scan := by
  simp [claimBlock, bitIsUsed]

@[simp]
theorem result_scanDataBlock (badAddress usedOnce : Message) (type : Int)
    (currinodenum blknum : Nat) :
    (scanDataBlock img g badAddress usedOnce type currinodenum blknum scan :
        Run Scan).result =
      scanDataBlock img g badAddress usedOnce type currinodenum blknum
        scan := by
  simp [scanDataBlock]

@[simp]
theorem result_checkDirectAddress (inum : Nat) (type : Int)
    (currinodenum : Nat) :
    (checkDirectAddress img g inum type currinodenum scan : Run Scan).result =
      checkDirectAddress img g inum type currinodenum scan := by
  simp [checkDirectAddress, loadAddr]

@[simp]
theorem result_checkIndirectAddress (inum : Nat) (type : Int)
    (currinodenum : Nat) :
    (checkIndirectAddress img g inum type currinodenum scan :
        Run Scan).result =
      checkIndirectAddress img g inum type currinodenum scan := by
  simp [checkIndirectAddress, loadAddr, loadIndirectWord]

@[simp]
theorem result_checkNodeType (inum : Nat) :
    (checkNodeType img inum : Run Unit).result = checkNodeType img inum := by
  simp [checkNodeType, loadType]

@[simp]
theorem result_checkFileSize (inum sum : Nat) :
    (checkFileSize img inum sum : Run Unit).result =
      checkFileSize img inum sum := by
  simp [checkFileSize, loadSize]

@[simp]
theorem result_scanInode (inum : Nat) :
    (scanInode img g scan inum : Run Scan).result =
      scanInode img g scan inum := by
  simp only [scanInode, scanInodeWith, loadType, result_ite, result_bind,
    result_pure, result_fail, result_load, result_access,
    result_checkNodeType, result_checkDirectAddress,
    result_checkIndirectAddress, result_checkFileSize]

@[simp]
theorem result_firstPass :
    (firstPass img g : Run Scan).result = firstPass img g := by
  simp [firstPass, firstPassWith]

@[simp]
theorem result_checkBitmapBlock (blknum : Nat) :
    (checkBitmapBlock img g scan blknum : Run Unit).result =
      checkBitmapBlock img g scan blknum := by
  simp [checkBitmapBlock, bitIsUsed]

@[simp]
theorem result_bitmapPass :
    (bitmapPass img g scan : Run Unit).result = bitmapPass img g scan := by
  simp [bitmapPass]

@[simp]
theorem result_followDotdot (tableLen fuel : Nat) (parentdotdot : Nat → Int)
    (seen : Nat → Bool) (cur : Int) :
    (followDotdot tableLen parentdotdot fuel seen cur : Run Unit).result =
      followDotdot tableLen parentdotdot fuel seen cur := by
  induction fuel generalizing seen cur with
  | zero => rfl
  | succ fuel ih => simp [followDotdot, ih]

@[simp]
theorem result_compareParents (inum : Nat) :
    (compareParents g scan inum : Run Unit).result =
      compareParents g scan inum := by
  simp [compareParents]

@[simp]
theorem result_checkNlink (inum : Nat) (type references : Int) :
    (checkNlink img inum type references : Run Unit).result =
      checkNlink img inum type references := by
  simp [checkNlink, loadNlink]

@[simp]
theorem result_checkReferences (inum : Nat) :
    (checkReferences img g scan inum : Run Unit).result =
      checkReferences img g scan inum := by
  simp [checkReferences, loadType, checkParent]

@[simp]
theorem result_referencePass :
    (referencePass img g scan : Run Unit).result =
      referencePass img g scan := by
  simp [referencePass]

/-- Without its log, a run is the checker as it runs. -/
theorem result_main : (main img : Run Unit).result = main img := by
  simp [main, mainWith, checkSize, helperWith]

end Result

/-- Every access of the checker is in bounds. -/
def Safe (img : Image) : Prop :=
  Stays (Access.Within img) (main img : Run Unit)

instance (img : Image) : Decidable (Safe img) :=
  inferInstanceAs (Decidable (Stays _ _))

end LinuxKernelDev.Fsck
