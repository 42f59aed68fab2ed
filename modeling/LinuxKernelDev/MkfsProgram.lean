import LinuxKernelDev.MkfsFileContents
import LinuxKernelDev.MkfsHardLinks

/-!
# The program as a sequence of operations

Everything that `mkfs.c` does for a host directory tree is a sequence of
operations on inodes that have been allocated, so that what holds after any
such sequence holds of the image that the program writes.
-/

namespace LinuxKernelDev.Mkfs

open ByteMemory

/-- Operations lead from one state to another, in which the hard link map names
allocated inodes. -/
structure Performs (s next : State) : Prop where
  ops : ∃ ops, Transition.run Op.step s ops = some next
  maps : MapsFrom 1 next
  grown : s.freeinode ≤ next.freeinode

section Steps

variable {s next : State} {inum : Nat}

theorem Performs.trans {middle : State} (first : Performs s middle)
    (second : Performs middle next) : Performs s next := by
  obtain ⟨ops, reached⟩ := first.ops
  obtain ⟨more, finished⟩ := second.ops
  refine ⟨⟨ops ++ more, ?_⟩, second.maps, first.grown.trans second.grown⟩
  rw [Transition.run_append, reached]
  exact finished

theorem Performs.refl (maps : MapsFrom 1 s) : Performs s s :=
  ⟨⟨[], rfl⟩, maps, Nat.le_refl _⟩

theorem MapsFrom.keeps (maps : MapsFrom 1 s) (kept : Keeps s next) :
    MapsFrom 1 next := by
  unfold MapsFrom at maps ⊢
  rwa [kept.1, kept.2]

/-- An operation that allocates no inode. -/
theorem performs_of_keeps {op : Op} (maps : MapsFrom 1 s) (kept : Keeps s next)
    (valid : op.Valid s) (done : op.perform s = some next) :
    Performs s next := by
  refine ⟨⟨[op], ?_⟩, maps.keeps kept, kept.1.ge⟩
  rw [Transition.run, Op.step, if_pos valid, done]
  rfl

theorem performs_process {process : Process}
    (maps : MapsFrom 1 { s with process := process }) :
    Performs s { s with process := process } :=
  ⟨⟨[.setProcess process], rfl⟩, maps, Nat.le_refl _⟩

/-- The inode is still allocated after other operations. -/
theorem Performs.valid (performs : Performs s next)
    (valid : 1 ≤ inum ∧ inum < s.freeinode) :
    1 ≤ inum ∧ inum < next.freeinode :=
  ⟨valid.1, valid.2.trans_le performs.grown⟩

variable (maps : MapsFrom 1 s) (valid : 1 ≤ inum ∧ inum < s.freeinode)

include maps

theorem performs_ialloc {type : UInt16}
    (done : ialloc type.toNat s = some (inum, next)) :
    Performs s next ∧ inum = s.freeinode ∧
      next.freeinode = s.freeinode + 1 := by
  have stepped : (Op.ialloc type).step s = some next := by
    rw [Op.step, if_pos (show (Op.ialloc type).Valid s from trivial),
      Op.perform, done]
    rfl
  obtain ⟨rfl, disk, rfl⟩ := exists_disk_of_ialloc done
  refine ⟨⟨⟨[.ialloc type], ?_⟩, ⟨Nat.le_succ_of_le maps.1, ?_⟩, Nat.le_succ _⟩,
    rfl, rfl⟩
  · rw [Transition.run, stepped]
    rfl
  · exact fun node mem =>
      ⟨(maps.2 node mem).1, (maps.2 node mem).2.trans (Nat.lt_succ_self _)⟩

theorem performs_fetchHardLink {hostINode nlinks : UInt32}
    {chunk : Option Chunk}
    (done : fetchHardLink hostINode nlinks chunk s = some (inum, next)) :
    Performs s next ∧ 1 ≤ inum ∧ inum < next.freeinode := by
  obtain ⟨mapsNext, grown, positive, below⟩ := maps.fetchHardLink done
  refine ⟨?_, positive, below⟩
  rcases fetchHardLink_cases done with
    ⟨last, curr, -, -, rfl⟩ | ⟨last, new, created, -, -, allocated, rfl⟩
  · exact performs_process mapsNext
  · have first := (@performs_ialloc s created inum maps 2 allocated).1
    exact first.trans (performs_process mapsNext)

theorem performs_openFile (done : openFile s = some next) :
    Performs s next := by
  unfold openFile at done
  split_ifs at done
  obtain rfl := Option.some.inj done
  exact performs_process maps

theorem performs_closeFile : Performs s (closeFile s) :=
  performs_process maps

include valid

theorem performs_iappend {p : List UInt8}
    (done : iappend inum p s = some next) : Performs s next :=
  @performs_of_keeps s next (.iappend inum p) maps (keeps_iappend done) valid
    done

/-- A link count is stored in 16 bits. -/
theorem performs_addLink (done : addLink inum s = some next) :
    Performs s next := by
  obtain ⟨din, read, written⟩ := Option.bind_eq_some_iff.mp done
  have same : (UInt16.ofNat (din.nlink + 1)).toNat =
      (din.nlink + 1) % 256 ^ 2 := UInt16.toNat_ofNat'
  have bytes : Dinode.bytes { din with
        nlink := (UInt16.ofNat (din.nlink + 1)).toNat } =
      Dinode.bytes { din with nlink := din.nlink + 1 } := by
    simp only [Dinode.bytes, List.flatMap_cons, same, littleEndian_mod]
  refine @performs_of_keeps s next
    (.setNlink inum (UInt16.ofNat (din.nlink + 1))) maps (keeps_addLink done)
    valid ?_
  rw [Op.perform, change, read, Option.bind_eq_bind, Option.bind_some]
  rw [winode] at written ⊢
  rw [bytes]
  exact written

/-- A size is stored in 32 bits. -/
theorem performs_fixSize (done : fixSize inum s = some next) :
    Performs s next := by
  obtain ⟨din, read, written⟩ := Option.bind_eq_some_iff.mp done
  have same : (UInt32.ofNat ((din.size / 512 + 1) * 512)).toNat =
      (din.size / 512 + 1) * 512 % 256 ^ 4 := UInt32.toNat_ofNat'
  have bytes : Dinode.bytes { din with
        size := (UInt32.ofNat ((din.size / 512 + 1) * 512)).toNat } =
      Dinode.bytes { din with size := (din.size / 512 + 1) * 512 } := by
    simp only [Dinode.bytes, List.flatMap_cons, same, littleEndian_mod]
  refine @performs_of_keeps s next
    (.setSize inum (UInt32.ofNat ((din.size / 512 + 1) * 512))) maps
    (keeps_fixSize done) valid ?_
  rw [Op.perform, change, read, Option.bind_eq_bind, Option.bind_some]
  rw [winode] at written ⊢
  rw [bytes]
  exact written

theorem performs_copyFile {contents : List UInt8}
    (done : copyFile inum contents s = some next) : Performs s next := by
  fun_induction copyFile inum contents s with
  | case1 s =>
      obtain rfl := Option.some.inj done
      exact .refl maps
  | case2 contents s nonempty ih =>
      obtain ⟨middle, appended, rest⟩ := Option.bind_eq_some_iff.mp done
      have first := performs_iappend maps valid appended
      exact first.trans (ih middle first.maps (first.valid valid) rest)

theorem performs_addFile {name : HostName} {stIno stNlink : UInt64}
    {contents : List UInt8} {chunk : Option Chunk}
    (done : addFile inum name stIno stNlink contents chunk s = some next) :
    Performs s next := by
  obtain ⟨opened, open_eq, done⟩ := Option.bind_eq_some_iff.mp done
  have zeroth := performs_openFile maps open_eq
  have maps := zeroth.maps
  have valid := zeroth.valid valid
  refine zeroth.trans ?_
  split_ifs at done with linked
  · obtain ⟨⟨child, middle⟩, fetched, rest⟩ := Option.bind_eq_some_iff.mp done
    obtain ⟨first, childValid⟩ := performs_fetchHardLink maps fetched
    dsimp only at rest
    split_ifs at rest
    · obtain ⟨other, changed, entered⟩ := Option.bind_eq_some_iff.mp rest
      have second := performs_addLink first.maps childValid changed
      exact (first.trans second).trans (performs_iappend second.maps
        (second.valid (first.valid valid)) entered)
    · obtain ⟨other, changed, entered⟩ := Option.bind_eq_some_iff.mp rest
      have second := performs_copyFile first.maps childValid changed
      have third := performs_closeFile second.maps
      exact ((first.trans second).trans third).trans (performs_iappend
        third.maps (third.valid (second.valid (first.valid valid))) entered)
  · obtain ⟨⟨child, middle⟩, created, rest⟩ := Option.bind_eq_some_iff.mp done
    obtain ⟨first, childEq, free⟩ :=
      @performs_ialloc opened middle child maps 2 created
    obtain ⟨other, changed, entered⟩ := Option.bind_eq_some_iff.mp rest
    have positive : 1 ≤ opened.freeinode := maps.1
    have second := performs_copyFile first.maps
      (show 1 ≤ child ∧ child < middle.freeinode by omega) changed
    have third := performs_closeFile second.maps
    exact ((first.trans second).trans third).trans (performs_iappend
      third.maps (third.valid (second.valid (first.valid valid))) entered)

theorem performs_addDirHead {parentInode : Nat}
    (parentValid : 1 ≤ parentInode ∧ parentInode < s.freeinode)
    (done : addDirHead inum parentInode s = some next) :
    Performs s next := by
  obtain ⟨middle, appended, rest⟩ := Option.bind_eq_some_iff.mp done
  have first := performs_iappend maps valid appended
  dsimp only at rest
  split_ifs at rest
  · obtain ⟨other, linked, entered⟩ := Option.bind_eq_some_iff.mp rest
    have second := performs_addLink first.maps (first.valid parentValid) linked
    exact (first.trans second).trans (performs_iappend second.maps
      (second.valid (first.valid valid)) entered)
  · exact first.trans (performs_iappend first.maps (first.valid valid) rest)

theorem performs_addEntries {curDir : HostDir}
    (done : addEntries inum curDir s = some next) : Performs s next := by
  induction curDir generalizing inum s next with
  | nil =>
      obtain rfl := Option.some.inj done
      exact .refl maps
  | file name stIno stNlink contents chunk rest ih =>
      obtain ⟨middle, added, later⟩ := Option.bind_eq_some_iff.mp done
      have first := performs_addFile maps valid added
      exact first.trans (ih first.maps (first.valid valid) later)
  | dir name children rest childrenIh restIh =>
      obtain ⟨started, open_eq, later⟩ := Option.bind_eq_some_iff.mp done
      have zeroth := performs_openFile maps open_eq
      have maps := zeroth.maps
      have valid := zeroth.valid valid
      obtain ⟨⟨child, created⟩, allocated, later⟩ :=
        Option.bind_eq_some_iff.mp later
      obtain ⟨first, childEq, free⟩ :=
        @performs_ialloc started created child maps 1 allocated
      have positive : 1 ≤ started.freeinode := maps.1
      have childValid : 1 ≤ child ∧ child < created.freeinode := by omega
      obtain ⟨opened, headed, later⟩ := Option.bind_eq_some_iff.mp later
      have second := performs_addDirHead first.maps childValid
        (first.valid valid) headed
      obtain ⟨filled, added, later⟩ := Option.bind_eq_some_iff.mp later
      have third := childrenIh second.maps (second.valid childValid) added
      obtain ⟨sized, fixed, later⟩ := Option.bind_eq_some_iff.mp later
      have fourth := performs_fixSize third.maps
        (third.valid (second.valid childValid)) fixed
      have fifth := performs_closeFile fourth.maps
      obtain ⟨entered, appended, later⟩ := Option.bind_eq_some_iff.mp later
      have before := (((first.trans second).trans third).trans fourth).trans
        fifth
      have sixth := performs_iappend before.maps (before.valid valid) appended
      exact (zeroth.trans (before.trans sixth)).trans
        (restIh sixth.maps (sixth.valid (before.valid valid)) later)

end Steps

/-- The program writes the image that some operations and `balloc` leave. -/
theorem exists_perform_written {descriptors : Nat} {fileTreeRoot : HostDir}
    {final : State} (done : written descriptors fileTreeRoot = some final) :
    ∃ ops s, perform ops = some s ∧ balloc s.usedblocks s = some final := by
  unfold written at done
  obtain ⟨start, started, afterStart⟩ := Option.bind_eq_some_iff.mp done
  obtain ⟨⟨root, created⟩, allocated, afterAlloc⟩ :=
    Option.bind_eq_some_iff.mp afterStart
  have maps : MapsFrom 1 start := by
    obtain ⟨image, -, -, same⟩ := exists_mkfs
    obtain rfl := Option.some.inj (started.symm.trans same)
    exact ⟨Nat.le_refl 1, List.forall_mem_nil _⟩
  obtain ⟨first, rootEq, free⟩ :=
    @performs_ialloc start created root maps 1 allocated
  dsimp only at afterAlloc
  split_ifs at afterAlloc with isRoot
  obtain ⟨filled, added, marked⟩ := Option.bind_eq_some_iff.mp afterAlloc
  have rootValid : 1 ≤ root ∧ root < created.freeinode := by omega
  have second : Performs created
      { created with process := Process.initial descriptors } :=
    performs_process ⟨first.maps.1, List.forall_mem_nil _⟩
  obtain ⟨opened, headed, afterHead⟩ := Option.bind_eq_some_iff.mp added
  have third := performs_addDirHead second.maps rootValid rootValid headed
  obtain ⟨entered, entries, sized⟩ := Option.bind_eq_some_iff.mp afterHead
  have fourth := performs_addEntries third.maps (third.valid rootValid) entries
  have fifth := performs_fixSize fourth.maps
    (fourth.valid (third.valid rootValid)) sized
  obtain ⟨ops, reached⟩ := ((((first.trans second).trans third).trans
    fourth).trans fifth).ops
  refine ⟨ops, filled, ?_, marked⟩
  rw [perform, started, Option.bind_some, reached]

end LinuxKernelDev.Mkfs
