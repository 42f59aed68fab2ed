import LinuxKernelDev.MkfsAppends
import LinuxKernelDev.MkfsImage
import LinuxKernelDev.TransitionRuns

/-!
# Sequences of operations on an image

Between `mkfs` and `balloc`, the program allocates inodes, appends to them and
changes their link counts and sizes.  After any sequence of these operations
that completes, the blocks that have been counted are those that the inodes
hold, and an append to an inode appends to its contents.
-/

namespace LinuxKernelDev.Mkfs

open ByteMemory Function

namespace State

variable {s : State} {inum other : Nat} {din : Dinode}

/-- An inode as it is on the disk. -/
def dinode (s : State) (inum : Nat) : Dinode :=
  Dinode.read s.disk.mem (Image.inodeOffset inum)

/-- The addresses of an inode as they are on the disk. -/
def table (s : State) (inum : Nat) : Fin 13 → Nat := (s.dinode inum).addrs

/-- The state with an inode record replaced. -/
def record (s : State) (inum : Nat) (din : Dinode) : State :=
  (s.store (Image.inodeOffset inum) din.bytes).note (.wrote inum)

theorem record_mem (whole : s.disk.stSize = 524288) (inside : inum < 208)
    (din : Dinode) :
    (s.record inum din).disk.mem =
      patch s.disk.mem (Image.inodeOffset inum) din.bytes :=
  store_mem whole (by rw [Dinode.bytes_length, Image.inodeOffset]; omega)

/-- The inode table is the blocks from 2 to 27. -/
theorem record_outside (whole : s.disk.stSize = 524288) (inside : inum < 208)
    (din : Dinode) {address : Nat}
    (outside : address < 1024 ∨ 14336 ≤ address) :
    (s.record inum din).disk.mem address = s.disk.mem address := by
  rw [record_mem whole inside]
  unfold Image.inodeOffset
  rcases outside with before | behind
  · exact patch_of_lt (by omega)
  · exact patch_of_le (by rw [Dinode.bytes_length]; omega)

theorem record_self (whole : s.disk.stSize = 524288) (inside : inum < 208)
    (inRange : din.InRange) : (s.record inum din).dinode inum = din := by
  rw [dinode, record_mem whole inside, Dinode.read_patch _ _ inRange]

theorem record_of_ne (whole : s.disk.stSize = 524288) (inside : inum < 208)
    (different : other ≠ inum) (din : Dinode) :
    (s.record inum din).dinode other = s.dinode other :=
  read_store_of_ne whole inside different din

end State

theorem Dinode.read_inRange (memory : Nat → UInt8) (offset : Nat) :
    (Dinode.read memory offset).InRange :=
  ⟨word_lt _ 2 _, word_lt _ 2 _, word_lt _ 2 _, word_lt _ 2 _, word_lt _ 4 _,
    fun _ => word_lt _ 4 _⟩

section Records

variable {memory other : Nat → UInt8} {freeinode freeblock : Nat}
  {table newTable : Nat → Fin 13 → Nat}

/-- Blocks and files depend on the addresses of the inodes, and on block 0 and
the data blocks. -/
theorem Allocated.congr (allocated : Allocated memory freeinode freeblock table)
    (agree : ∀ blknum, blknum = 0 ∨ 29 ≤ blknum → AgreeOn other memory blknum)
    (same : ∀ inum, 1 ≤ inum ∧ inum < freeinode → newTable inum = table inum) :
    Allocated other freeinode freeblock newTable ∧
      (∀ inum, 1 ≤ inum ∧ inum < freeinode → ∀ key < 141,
        slot other (newTable inum) key = slot memory (table inum) key) ∧
      ∀ inum, 1 ≤ inum ∧ inum < freeinode →
        Reads other (newTable inum) (fileByte memory (table inum)) := by
  have first := allocated.first
  have places : ∀ inum, 1 ≤ inum ∧ inum < freeinode → ∀ key < 141,
      slot other (newTable inum) key = slot memory (table inum) key := by
    intro inum valid key small
    rw [same inum valid]
    refine slot_congr (fun indexed => agree _ (.inr ?_)) small
    have index : slot memory (table inum) 12 = table inum 12 := slot_twelve
    have range := allocated.slot_range valid (show 12 < 141 by decide)
      (index.symm ▸ indexed)
    omega
  refine ⟨⟨first, allocated.last, fun position below => ?_,
    fun blknum above inside position below => ?_, ?_⟩, places,
    fun inum valid position below => ?_⟩
  · have null := agree 0 (.inl rfl) position below
    rw [Nat.zero_mul, Nat.zero_add] at null
    rw [null, allocated.null position below]
  · rw [agree blknum (by omega) position below]
    exact allocated.blank blknum above inside position below
  · exact allocated.packed.congr fun key mem => places key.1 mem.1 key.2 mem.2
  · have small := dataSlot_lt (show position / 512 < 140 by omega)
    rw [fileByte, places inum valid _ small]
    refine agree _ ?_ _ (Nat.mod_lt _ (by decide))
    rcases allocated.slot_le valid small with hole | range
    · exact .inl hole
    · exact .inr range.1

variable {s : State} {inum : Nat} {din : Dinode}

/-- Writing the record of an inode, after its blocks have been filled. -/
theorem Sound.record (sound : Sound s table) (inside : inum < 208)
    (inRange : din.InRange) (own : din.addrs = table inum)
    (others : ∀ holder, 1 ≤ holder ∧ holder < s.freeinode → holder ≠ inum →
      s.table holder = table holder) :
    Sound (s.record inum din) (s.record inum din).table ∧
      (∀ holder, 1 ≤ holder ∧ holder < s.freeinode → ∀ key < 141,
        slot (s.record inum din).disk.mem ((s.record inum din).table holder)
          key = slot s.disk.mem (table holder) key) ∧
      ∀ holder, 1 ≤ holder ∧ holder < s.freeinode →
        Reads (s.record inum din).disk.mem ((s.record inum din).table holder)
          (fileByte s.disk.mem (table holder)) := by
  have agree : ∀ blknum, blknum = 0 ∨ 29 ≤ blknum →
      AgreeOn (s.record inum din).disk.mem s.disk.mem blknum :=
    fun blknum outside position below =>
      State.record_outside sound.whole inside din (by omega)
  have same : ∀ holder, 1 ≤ holder ∧ holder < s.freeinode →
      (s.record inum din).table holder = table holder := by
    intro holder valid
    by_cases self : holder = inum
    · subst self
      rw [State.table, State.record_self sound.whole inside inRange, own]
    · rw [State.table, State.record_of_ne sound.whole inside self]
      exact others holder valid self
  obtain ⟨allocated, files⟩ := sound.allocated.congr agree same
  exact ⟨⟨sound.whole, sound.used, allocated⟩, files⟩

/-- The table is only read at the allocated inodes. -/
theorem Sound.congr (sound : Sound s table)
    (same : ∀ holder, 1 ≤ holder ∧ holder < s.freeinode →
      newTable holder = table holder) : Sound s newTable :=
  ⟨sound.whole, sound.used,
    (sound.allocated.congr (fun _ _ _ _ => rfl) same).1⟩

theorem Sound.addrs_lt (sound : Sound s table)
    (valid : 1 ≤ inum ∧ inum < s.freeinode) (index : Fin 13) :
    table inum index < 4294967296 := by
  have last := sound.allocated.last
  rw [← @slot_record s.disk.mem (table inum) index.val index.isLt]
  rcases sound.allocated.slot_le valid (index.isLt.trans (by decide)) with
    hole | range
  · omega
  · omega

end Records

section Append

variable {s next : State} {inum : Nat}

/-- The record of another inode is not written. -/
theorem SameOthers.dinode {other : Nat} (same : SameOthers inum s next)
    (small : other < 208) (different : other ≠ inum) :
    next.dinode other = s.dinode other := by
  refine Dinode.read_congr fun index below => same.memory _ ?_ ?_
  · unfold Image.inodeOffset
    omega
  · unfold Image.inodeOffset
    omega

/-- After the bytes, the record of the inode is written. -/
theorem Writes.record {keys : Finset Nat} {offset : Nat} {values : List UInt8}
    {addrs : Fin 13 → Nat} {din : Dinode}
    (written : Writes s s.table inum keys offset values next addrs)
    (few : s.freeinode ≤ 208) (valid : 1 ≤ inum ∧ inum < s.freeinode)
    (inRange : din.InRange) (own : din.addrs = addrs) :
    Sound (next.record inum din) (next.record inum din).table ∧
      Writes s s.table inum keys offset values (next.record inum din)
        ((next.record inum din).table inum) := by
  have inside : inum < 208 := by omega
  have free := written.same.freeinode
  have whole := written.sound.whole
  have here : update s.table inum addrs inum = addrs := update_self ..
  have kept : ∀ holder, 1 ≤ holder ∧ holder < s.freeinode → holder ≠ inum →
      next.table holder = s.table holder := fun holder holderValid different =>
    congrArg Dinode.addrs (written.same.dinode (by omega) different)
  obtain ⟨sound, places, files⟩ := written.sound.record inside inRange
    (own.trans here.symm) fun holder holderValid different => by
      rw [update_of_ne different]
      exact kept holder (free ▸ holderValid) different
  have recorded : ∀ holder, 1 ≤ holder ∧ holder < s.freeinode →
      holder ≠ inum → (next.record inum din).table holder = s.table holder :=
    fun holder holderValid different => (congrArg Dinode.addrs
      (State.record_of_ne whole inside different din)).trans
        (kept holder holderValid different)
  rw [← free] at valid
  refine ⟨sound, sound.congr fun holder holderValid => ?_, fun key small => ?_,
    written.freeblock, fun position below => ?_,
    fun holder holderValid different position below => ?_,
    written.same.trans ⟨fun address below outside => ?_, rfl, rfl⟩⟩
  · by_cases self : holder = inum
    · rw [self, update_self]
    · rw [update_of_ne self]
      exact (recorded holder (free ▸ holderValid) self).symm
  · rw [places inum valid key small, here]
    exact written.zero key small
  · rw [files inum valid position below, here]
    exact written.own position below
  · have same := files holder (free.symm ▸ holderValid) position below
    rw [update_of_ne different, recorded holder holderValid different] at same
    exact same.trans
      (written.others holder holderValid different position below)
  · rw [State.record_mem whole inside]
    rcases outside with before | behind
    · exact patch_of_lt before
    · exact patch_of_le (by rw [Dinode.bytes_length]; exact behind)

/-- `iappend` succeeds exactly if there is room, and then it has written the
bytes behind the end of the file. -/
theorem iappend_spec (sound : Sound s s.table) (few : s.freeinode ≤ 208)
    (valid : 1 ≤ inum ∧ inum < s.freeinode) (p : List UInt8) :
    let size := (s.dinode inum).size
    match iappend inum p s with
    | some next => Room s (s.table inum) size p.length ∧
        Sound next next.table ∧
        Writes s s.table inum (touched size p.length) size p next
          (next.table inum) ∧
        next.dinode inum = { s.dinode inum with
          size := size + p.length, addrs := next.table inum }
    | none => ¬Room s (s.table inum) size p.length := by
  intro size
  have inside : inum < 208 := by omega
  have loop := @iappendLoop_spec s s.table inum (s.dinode inum) size p sound
    valid rfl
  have read : rinode inum s = some (s.dinode inum) :=
    rinode_eq sound.whole (by omega)
  rw [iappend, read, Option.bind_eq_bind, Option.bind_some]
  cases finished : iappendLoop (s.dinode inum) size p s with
  | none =>
      rw [finished] at loop
      exact loop
  | some result =>
      obtain ⟨newDin, newOff, middle⟩ := result
      rw [finished] at loop
      obtain ⟨room, rfl, newAddrs, rfl, written⟩ := loop
      have old := Dinode.read_inRange s.disk.mem (Image.inodeOffset inum)
      let din : Dinode :=
        { s.dinode inum with size := size + p.length, addrs := newAddrs }
      have inRange : din.InRange := by
        refine ⟨old.type, old.major, old.minor, old.nlink, ?_, fun index => ?_⟩
        · have bound : size < 4294967296 := old.size
          show size + p.length < 4294967296
          by_cases positive : 0 < p.length
          · have short := room.1 positive
            omega
          · omega
        · have bound := written.sound.addrs_lt
            (written.same.freeinode.symm ▸ valid) index
          rwa [update_self] at bound
      obtain ⟨nextSound, recorded⟩ := written.record few valid inRange rfl
      have self : (middle.record inum din).dinode inum = din :=
        State.record_self written.sound.whole inside inRange
      have code : winode inum din middle = some (middle.record inum din) :=
        winode_eq written.sound.whole (by omega) din
      dsimp only [Option.bind_eq_bind, Option.bind_some]
      rw [code]
      refine ⟨room, nextSound, recorded, ?_⟩
      rw [State.table, self]

end Append

section Create

variable {s : State}

/-- The places of a new inode are all zero. -/
theorem Allocated.create {memory : Nat → UInt8} {freeinode freeblock : Nat}
    {table : Nat → Fin 13 → Nat}
    (allocated : Allocated memory freeinode freeblock table) :
    Allocated memory (freeinode + 1) freeblock
      (update table freeinode fun _ => 0) := by
  refine ⟨allocated.first, allocated.last, allocated.null, allocated.blank,
    allocated.packed.extend ?_ ?_ ?_⟩
  · rintro key ⟨valid, small⟩
    exact ⟨⟨valid.1, valid.2.trans (Nat.lt_succ_self _)⟩, small⟩
  · rintro ⟨inum, key⟩ ⟨valid, -⟩
    have different : inum ≠ freeinode := valid.2.ne
    simp only [slotValue, update_of_ne different]
  · rintro ⟨inum, key⟩ ⟨valid, small⟩ new
    have last : inum = freeinode := by
      by_contra different
      exact new ⟨⟨valid.1, by have := valid.2; dsimp only at *; omega⟩, small⟩
    simp only [slotValue, last, update_self]
    by_cases record : key < 13
    · exact slot_record record
    · exact slot_of_unindexed rfl (by omega)

/-- A new inode has no blocks, and the others keep theirs. -/
theorem exists_ialloc (sound : Sound s s.table) (room : s.freeinode < 208)
    {type : Nat} (small : type < 65536) :
    ∃ next, ialloc type s = some (s.freeinode, next) ∧
      Sound next next.table ∧ next.freeinode = s.freeinode + 1 ∧
      next.freeblock = s.freeblock ∧
      next.dinode s.freeinode =
        ⟨type, 0, 0, if type = 1 then 2 else 1, 0, fun _ => 0⟩ := by
  let din : Dinode := ⟨type, 0, 0, if type = 1 then 2 else 1, 0, fun _ => 0⟩
  let opened : State := { s with freeinode := s.freeinode + 1 }
  have inRange : din.InRange := by
    refine ⟨small, Nat.zero_lt_succ _, Nat.zero_lt_succ _, ?_,
      Nat.zero_lt_succ _, fun _ => Nat.zero_lt_succ _⟩
    show (if type = 1 then 2 else 1) < 65536
    split_ifs <;> decide
  have openedSound : Sound opened (update s.table s.freeinode fun _ => 0) :=
    ⟨sound.whole, sound.used, sound.allocated.create⟩
  have code : winode s.freeinode din opened =
      some (opened.record s.freeinode din) :=
    @winode_eq opened s.freeinode sound.whole (by omega) din
  have created := (openedSound.record room inRange
    (update_self s.freeinode (fun _ => 0) s.table).symm
    fun holder valid different => (update_of_ne different _ _).symm).1
  refine ⟨(opened.record s.freeinode din).note (.allocated s.freeinode), ?_,
    ⟨created.whole, created.used, created.allocated⟩, rfl, rfl,
    State.record_self sound.whole room inRange⟩
  show (winode s.freeinode din opened).bind _ = _
  rw [code]
  rfl

end Create

/-- Reads an inode, changes it and writes it back. -/
def change (inum : Nat) (modify : Dinode → Dinode) (s : State) :
    Option State := do
  let din ← rinode inum s
  winode inum (modify din) s

/-- The operations between `mkfs` and `balloc`.  The hard link map and the
descriptors, which are not on the disk, may be replaced at any time. -/
inductive Op where
  | ialloc (type : UInt16)
  | iappend (inum : Nat) (p : List UInt8)
  | setNlink (inum : Nat) (nlink : UInt16)
  | setSize (inum : Nat) (size : UInt32)
  | setProcess (process : Process)

namespace Op

/-- An operation on an inode is for one that has been allocated. -/
def Valid (s : State) : Op → Prop
  | iappend inum _ | setNlink inum _ | setSize inum _ =>
      1 ≤ inum ∧ inum < s.freeinode
  | _ => True

instance (s : State) (op : Op) : Decidable (op.Valid s) := by
  cases op <;> unfold Valid <;> infer_instance

def isIalloc : Op → Bool
  | ialloc _ => true
  | _ => false

def perform (s : State) : Op → Option State
  | ialloc type => (Mkfs.ialloc type.toNat s).map Prod.snd
  | iappend inum p => Mkfs.iappend inum p s
  | setNlink inum nlink => change inum ({ · with nlink := nlink.toNat }) s
  | setSize inum size => change inum ({ · with size := size.toNat }) s
  | setProcess process => some { s with process := process }

def step (s : State) (op : Op) : Option State :=
  if op.Valid s then op.perform s else none

end Op

/-- The state after `mkfs` and a sequence of operations. -/
def perform (ops : List Op) : Option State :=
  (mkfs 995 200 1024).bind fun s => Transition.run Op.step s ops

section Runs

variable {s next : State}

theorem sound_change (sound : Sound s s.table) (few : s.freeinode ≤ 208)
    {inum : Nat} (valid : 1 ≤ inum ∧ inum < s.freeinode)
    {modify : Dinode → Dinode} (changed : change inum modify s = some next)
    (inRange : ∀ din : Dinode, din.InRange → (modify din).InRange)
    (addrs : ∀ din, (modify din).addrs = din.addrs) :
    Sound next next.table ∧ next.freeinode = s.freeinode := by
  have read : rinode inum s = some (s.dinode inum) :=
    rinode_eq sound.whole (by omega)
  have code : winode inum (modify (s.dinode inum)) s =
      some (s.record inum (modify (s.dinode inum))) :=
    winode_eq sound.whole (by omega) _
  rw [change, read, Option.bind_eq_bind, Option.bind_some, code] at changed
  obtain rfl := Option.some.inj changed
  exact ⟨(sound.record (by omega) (inRange _ (Dinode.read_inRange ..))
    (addrs _) fun _ _ _ => rfl).1, rfl⟩

/-- One operation keeps the blocks allocated exactly. -/
theorem sound_step (sound : Sound s s.table) {op : Op}
    (few : s.freeinode + [op].countP Op.isIalloc ≤ 208)
    (stepped : op.step s = some next) :
    Sound next next.table ∧
      next.freeinode = s.freeinode + [op].countP Op.isIalloc := by
  rw [Op.step] at stepped
  split_ifs at stepped with valid
  cases op with
  | ialloc type =>
      obtain ⟨created, allocated, createdSound, free, -⟩ :=
        exists_ialloc sound (Nat.lt_of_succ_le few) type.toNat_lt
      rw [Op.perform, allocated] at stepped
      obtain rfl := Option.some.inj stepped
      exact ⟨createdSound, free⟩
  | iappend inum p =>
      have spec := iappend_spec sound few valid p
      rw [Op.perform] at stepped
      rw [stepped] at spec
      exact ⟨spec.2.1, spec.2.2.1.same.freeinode⟩
  | setNlink inum nlink =>
      rw [Op.perform] at stepped
      refine sound_change sound few valid stepped (fun din inRange => ?_)
        fun _ => rfl
      exact ⟨inRange.type, inRange.major, inRange.minor, nlink.toNat_lt,
        inRange.size, inRange.addrs⟩
  | setSize inum size =>
      rw [Op.perform] at stepped
      refine sound_change sound few valid stepped (fun din inRange => ?_)
        fun _ => rfl
      exact ⟨inRange.type, inRange.major, inRange.minor, inRange.nlink,
        size.toNat_lt, inRange.addrs⟩
  | setProcess process =>
      obtain rfl := Option.some.inj stepped
      exact ⟨⟨sound.whole, sound.used, sound.allocated⟩, rfl⟩

theorem sound_run {ops : List Op} (sound : Sound s s.table)
    (few : s.freeinode + ops.countP Op.isIalloc ≤ 208)
    (reached : Transition.run Op.step s ops = some next) :
    Sound next next.table ∧
      next.freeinode = s.freeinode + ops.countP Op.isIalloc := by
  induction ops generalizing s with
  | nil =>
      obtain rfl := Option.some.inj reached
      exact ⟨sound, rfl⟩
  | cons op ops ih =>
      obtain ⟨middle, stepped, rest⟩ :=
        Transition.run_cons_eq_some_iff.mp reached
      have counted : (op :: ops).countP Op.isIalloc =
          [op].countP Op.isIalloc + ops.countP Op.isIalloc := by
        rw [← List.countP_append, List.singleton_append]
      obtain ⟨middleSound, free⟩ := sound_step sound (by omega) stepped
      obtain ⟨nextSound, total⟩ := ih middleSound (by omega) rest
      exact ⟨nextSound, by omega⟩

/-- The image after `mkfs` has no blocks allocated. -/
theorem exists_start :
    ∃ s, mkfs 995 200 1024 = some s ∧ Sound s s.table ∧ s.freeinode = 1 ∧
      s.freeblock = 29 := by
  obtain ⟨image, whole, clear, started⟩ := exists_mkfs
  have zero : ∀ address, (State.start image).disk.mem address = 0 := clear
  have lengths : ([1024, 995, 200].flatMap (littleEndian 4)).length = 12 := by
    rw [length_flatMap_littleEndian]
    rfl
  have memory := @State.store_mem (State.start image) whole 512
    ([1024, 995, 200].flatMap (littleEndian 4)) (by omega)
  refine ⟨_, started, ⟨whole, rfl, ⟨Nat.le_refl _, show 29 ≤ 1024 by decide,
    fun position below => ?_, fun blknum above _ position below => ?_, ?_⟩⟩,
    rfl, rfl⟩
  · rw [memory, patch_of_lt below, zero]
  · have first : 29 ≤ blknum := above
    rw [memory, patch_of_le (by omega), zero]
  · have none : slots 1 = ∅ := by
      refine Set.eq_empty_of_forall_notMem fun key mem => ?_
      have valid := mem.1
      omega
    show BumpAllocation.Packed (slots 1) _ 29 29
    rw [none]
    exact BumpAllocation.packed_empty _ _

theorem sound_perform {ops : List Op}
    (few : ops.countP Op.isIalloc < 200) (reached : perform ops = some s) :
    Sound s s.table ∧ s.freeinode = 1 + ops.countP Op.isIalloc := by
  obtain ⟨start, started, sound, free, -⟩ := exists_start
  rw [perform, started, Option.bind_some] at reached
  have final := sound_run sound (by omega) reached
  rwa [free] at final

end Runs

section Images

variable {s : State} {inum : Nat}

theorem inodeAddr_eq_table {index : Nat} (small : index < 13) :
    s.disk.inodeAddr inum index = s.table inum ⟨index, small⟩ :=
  Image.word32_eq_word ..

/-- The blocks of an inode are those at its places. -/
theorem ownedBlocks_eq (s : State) (inum : Nat) :
    s.disk.ownedBlocks inum =
      ((List.range 141).map (slot s.disk.mem (s.table inum))).filter
        fun blknum => decide (blknum ≠ 0) := by
  have direct : (List.range 12).map (s.disk.inodeAddr inum) =
      (List.range 12).map (slot s.disk.mem (s.table inum)) := by
    refine List.map_congr_left fun index mem => ?_
    have small := List.mem_range.1 mem
    rw [inodeAddr_eq_table (by omega), slot_record (by omega)]
  have index : s.disk.inodeAddr inum 12 = s.table inum 12 :=
    inodeAddr_eq_table (by decide)
  have places : List.range 141 =
      List.range 12 ++ 12 :: (List.range 128).map (13 + ·) := by
    rw [show 141 = 12 + (1 + 128) from rfl, List.range_add, List.range_add,
      List.map_append, List.map_map]
    rfl
  rw [places, List.map_append, List.filter_append, ← direct, List.map_cons,
    slot_twelve, ← index, List.map_map]
  unfold Image.ownedBlocks Image.directAddrs Image.indirectAddrs
  rw [List.append_cancel_left_eq]
  by_cases unindexed : s.disk.inodeAddr inum 12 = 0
  · rw [if_pos unindexed, List.filter_cons_of_neg (by simp [unindexed])]
    refine (List.filter_eq_nil_iff.2 fun blknum mem => ?_).symm
    obtain ⟨word, -, rfl⟩ := List.mem_map.1 mem
    simp [slot_of_unindexed (index ▸ unindexed)
      (show 12 ≤ 13 + word by omega)]
  · have words : (List.range 128).map (fun word =>
        s.disk.word32 (s.disk.inodeAddr inum 12 * 512 + 4 * word)) =
          (List.range 128).map
            (slot s.disk.mem (s.table inum) ∘ (13 + ·)) := by
      refine List.map_congr_left fun word _ => ?_
      rw [Image.word32_eq_word, index]
      exact (slot_word (index ▸ unindexed) word).symm
    rw [if_neg unindexed, if_neg unindexed, words,
      List.filter_cons_of_pos (by simp [unindexed])]

/-- The blocks of all inodes are those that have been counted. -/
theorem Sound.ownedBlocks_perm (sound : Sound s s.table) :
    ((List.range' 1 (s.freeinode - 1)).flatMap s.disk.ownedBlocks).Perm
      (List.range' 29 (s.freeblock - 29)) := by
  have listed : (List.range' 1 (s.freeinode - 1)).flatMap s.disk.ownedBlocks =
      (((List.range' 1 (s.freeinode - 1)).product (List.range 141)).map
        (slotValue s.disk.mem s.table)).filter
          fun blknum => decide (blknum ≠ 0) := by
    rw [List.product, List.map_flatMap, List.filter_flatMap]
    congr 1
    funext inum
    rw [ownedBlocks_eq, List.map_map]
    rfl
  rw [listed]
  refine sound.allocated.packed.perm_range'
    ((List.nodup_range' ..).product (List.nodup_range ..)) fun key => ?_
  rw [← Prod.mk.eta (p := key), List.pair_mem_product, List.mem_range'_1,
    List.mem_range]
  exact and_congr_left' (by omega)

/-- The bitmap block holds no inode and no file. -/
theorem Sound.wsect_bitmap (sound : Sound s s.table) (few : s.freeinode ≤ 208)
    (buf : Sector) : Sound (wsect 28 buf s) (wsect 28 buf s).table := by
  have size : (wsect 28 buf s).disk.stSize = 524288 :=
    (congrArg (max · 14848) sound.whole).trans rfl
  have kept : ∀ address, address / 512 ≠ 28 →
      (wsect 28 buf s).disk.mem address = s.disk.mem address :=
    fun address other => wsect_of_ne sound.whole (by decide) buf other
  refine ⟨size, sound.used, (sound.allocated.congr
    (fun blknum outside position below => kept _ (by omega))
    fun holder valid => ?_).1⟩
  exact congrArg Dinode.addrs (Dinode.read_congr fun index below => kept _ (by
    unfold Image.inodeOffset
    omega))

end Images

theorem missing_le_card (memory : Nat → UInt8) (addrs : Fin 13 → Nat)
    (keys : Finset Nat) : missing memory addrs keys ≤ keys.card :=
  Finset.card_filter_le _ _

/-- A new file on an empty image. -/
theorem exists_perform_ialloc :
    ∃ s, perform [.ialloc 2] = some s ∧ Sound s s.table ∧ s.freeinode = 2 ∧
      s.freeblock = 29 ∧ (s.dinode 1).size = 0 := by
  obtain ⟨start, started, sound, free, blocks⟩ := exists_start
  obtain ⟨s, allocated, created, next, same, dinode⟩ :=
    exists_ialloc sound (by omega) (show 2 < 65536 by decide)
  rw [free] at dinode next
  refine ⟨s, ?_, created, next, same.trans blocks,
    congrArg Dinode.size dinode⟩
  have stepped : (Op.ialloc 2).step start = some s := by
    show (ialloc 2 start).map Prod.snd = some s
    rw [allocated]
    rfl
  rw [perform, started, Option.bind_some, Transition.run, stepped]
  rfl

/-- After any operations that complete, with fewer than 200 inodes allocated,
`balloc` marks the blocks up to `freeblock`.  They are the blocks before the
data and the blocks of the inodes, each of which is in one place. -/
theorem balloc_marks_ownedBlocks {ops : List Op} {s : State}
    (few : ops.countP Op.isIalloc < 200) (reached : perform ops = some s) :
    ∃ final, balloc s.usedblocks s = some final ∧
      final.freeinode = 1 + ops.countP Op.isIalloc ∧
      final.freeblock = final.usedblocks ∧ final.freeblock ≤ 1024 ∧
      ((List.range' 1 (final.freeinode - 1)).flatMap
        final.disk.ownedBlocks).Perm
          (List.range' 29 (final.freeblock - 29)) ∧
      ∀ blknum < 4096, final.disk.bitmapBit 200 blknum =
        decide (blknum < final.freeblock) := by
  obtain ⟨sound, free⟩ := sound_perform few reached
  have last := sound.allocated.last
  have used := sound.used
  have written : balloc s.usedblocks s =
      some (wsect 28 (bitmap s.usedblocks) s) := if_pos (by omega)
  have final := sound.wsect_bitmap (by omega) (bitmap s.usedblocks)
  refine ⟨_, written, free, used.symm, last, final.ownedBlocks_perm,
    fun blknum below => ?_⟩
  have position : Image.bitmapOffset 200 blknum = 28 * 512 + blknum / 8 := by
    unfold Image.bitmapOffset
    omega
  rw [Image.bitmapBit, position, wsect_self _ _ _ (by omega), testBit_bitmap,
    used]
  rfl

/-- Appends to two files in turn. -/
def interleaved : List Op :=
  [.ialloc 2, .ialloc 2, .iappend 1 (List.replicate 512 7),
    .iappend 2 (List.replicate 600 8), .iappend 1 [9]]

theorem balloc_marks_ownedBlocks_interleaved :
    ∃ s final, perform interleaved = some s ∧
      balloc s.usedblocks s = some final ∧ final.freeinode = 3 ∧
      s.disk.ownedBlocks 1 = [29, 32] ∧ s.disk.ownedBlocks 2 = [30, 31] ∧
      ((List.range' 1 2).flatMap final.disk.ownedBlocks).Perm
        (List.range' 29 (final.freeblock - 29)) := by
  have computed : (perform interleaved).map (fun s =>
      (s.disk.ownedBlocks 1, s.disk.ownedBlocks 2)) =
        some ([29, 32], [30, 31]) := by
    decide +kernel
  obtain ⟨s, reached, blocks⟩ := Option.map_eq_some_iff.mp computed
  obtain ⟨first, second⟩ := Prod.mk.inj blocks
  obtain ⟨final, marked, count, -, -, owned, -⟩ :=
    balloc_marks_ownedBlocks (by decide) reached
  rw [count] at owned
  exact ⟨s, final, reached, marked, count, first, second, owned⟩

end LinuxKernelDev.Mkfs
