import LinuxKernelDev.MkfsProgram

/-!
# The inodes that are allocated and written

Every inode that is written has been allocated before, and the inodes that have
been allocated are those below `freeinode`.
-/

namespace LinuxKernelDev.Mkfs

/-- The inode table has 200 inodes, and is the blocks from 2 to 27. -/
def Event.InTable : Event → Prop
  | allocated inum => inum < 200
  | wrote inum => 2 ≤ i2b inum ∧ i2b inum ≤ 27

instance (event : Event) : Decidable event.InTable := by
  cases event <;> unfold Event.InTable <;> infer_instance

/-- The events are about the inodes below `freeinode`. -/
structure Recorded (s : State) : Prop where
  positive : 1 ≤ s.freeinode
  allocated : ∀ inum, .allocated inum ∈ s.events ↔
    1 ≤ inum ∧ inum < s.freeinode
  wrote : ∀ inum, .wrote inum ∈ s.events → 1 ≤ inum ∧ inum < s.freeinode

namespace Recorded

variable {s next : State} {inum : Nat}

/-- An allocated inode is written. -/
theorem winode {ip : Dinode} (recorded : Recorded s)
    (valid : 1 ≤ inum ∧ inum < s.freeinode)
    (done : Mkfs.winode inum ip s = some next) : Recorded next := by
  obtain ⟨disk, rfl⟩ := exists_disk_of_winode done
  refine ⟨recorded.positive, fun other => ?_, fun other member => ?_⟩
  · refine Iff.trans ?_ (recorded.allocated other)
    simp [State.note]
  · rcases List.mem_append.mp member with old | new
    · exact recorded.wrote other old
    · obtain rfl : other = inum := by simpa using new
      exact valid

theorem ialloc {type : Nat} (recorded : Recorded s)
    (done : Mkfs.ialloc type s = some (inum, next)) : Recorded next := by
  obtain ⟨rfl, disk, rfl⟩ := exists_disk_of_ialloc done
  have positive := recorded.positive
  refine ⟨Nat.le_succ_of_le positive, fun other => ?_, fun other member => ?_⟩
  · simp only [List.mem_append, recorded.allocated, List.mem_cons,
      reduceCtorEq, Event.allocated.injEq, List.not_mem_nil, or_false,
      false_or]
    omega
  · simp only [List.mem_append, List.mem_cons, reduceCtorEq,
      Event.wrote.injEq, List.not_mem_nil, or_false] at member
    rcases member with old | rfl
    · have valid := recorded.wrote other old
      exact ⟨valid.1, Nat.lt_succ_of_lt valid.2⟩
    · exact ⟨positive, Nat.lt_succ_self _⟩

theorem silent (recorded : Recorded s) (silent : Silent s next) :
    Recorded next := by
  obtain ⟨⟨freeinode, -⟩, events⟩ := silent
  obtain ⟨positive, allocated, wrote⟩ := recorded
  rw [← freeinode] at positive allocated wrote
  rw [← events] at allocated wrote
  exact ⟨positive, allocated, wrote⟩

theorem change {modify : Dinode → Dinode} (recorded : Recorded s)
    (valid : 1 ≤ inum ∧ inum < s.freeinode)
    (done : Mkfs.change inum modify s = some next) : Recorded next := by
  obtain ⟨din, -, written⟩ := Option.bind_eq_some_iff.mp done
  exact recorded.winode valid written

/-- Every operation is recorded. -/
theorem step {op : Op} (recorded : Recorded s)
    (stepped : op.step s = some next) : Recorded next := by
  rw [Op.step] at stepped
  split_ifs at stepped with valid
  cases op with
  | ialloc type =>
      obtain ⟨⟨inum, created⟩, done, rfl⟩ := Option.map_eq_some_iff.mp stepped
      exact recorded.ialloc done
  | iappend inum p =>
      obtain ⟨middle, ip, silent, written⟩ := exists_silent_of_iappend stepped
      exact (recorded.silent silent).winode (silent.1.1.symm ▸ valid) written
  | setNlink inum nlink => exact recorded.change valid stepped
  | setSize inum size => exact recorded.change valid stepped
  | setProcess process =>
      obtain rfl := Option.some.inj stepped
      exact ⟨recorded.positive, recorded.allocated, recorded.wrote⟩

/-- All events are in the table exactly if the table has all inodes. -/
theorem inTable_iff (recorded : Recorded s) :
    (∀ event ∈ s.events, event.InTable) ↔ s.freeinode ≤ 200 := by
  have positive := recorded.positive
  constructor
  · intro inTable
    by_contra more
    have last := inTable _ ((recorded.allocated (s.freeinode - 1)).mpr
      (by omega))
    have small : s.freeinode - 1 < 200 := last
    omega
  · intro few event member
    cases event with
    | allocated inum =>
        have below := ((recorded.allocated inum).mp member).2
        exact Nat.lt_of_lt_of_le below few
    | wrote inum =>
        have valid := recorded.wrote inum member
        unfold Event.InTable i2b
        omega

end Recorded

/-- A finished run has written the inodes that it allocated. -/
theorem recorded_written {descriptors : Nat} {fileTreeRoot : HostDir}
    {final : State} (done : written descriptors fileTreeRoot = some final) :
    Recorded final := by
  obtain ⟨ops, s, performed, marked⟩ := exists_perform_written done
  obtain ⟨start, started, reached⟩ := Option.bind_eq_some_iff.mp performed
  have first : Recorded start := by
    obtain ⟨image, -, -, same⟩ := exists_mkfs
    obtain rfl := Option.some.inj (started.symm.trans same)
    refine ⟨Nat.le_refl 1, fun inum => ⟨nofun, fun valid => ?_⟩, nofun⟩
    exact absurd (Nat.lt_of_lt_of_le valid.2 valid.1) (Nat.lt_irrefl _)
  have last : Recorded s := Transition.invariant_of_run Recorded
    (fun _ _ _ recorded stepped => recorded.step stepped) first reached
  unfold balloc at marked
  split_ifs at marked
  obtain rfl := Option.some.inj marked
  exact last.silent ⟨⟨rfl, rfl⟩, rfl⟩

end LinuxKernelDev.Mkfs
