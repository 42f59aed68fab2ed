import LinuxKernelDev.MkfsOperations

/-!
# Contents of files after appends

The bytes of a file as a reader finds them, through the size of the inode, its
addresses and its indirect block.  An append adds to the contents of one file
and to nothing else, so that a sequence of appends stores the concatenation,
however the bytes are cut.
-/

namespace LinuxKernelDev.Mkfs

open ByteMemory Function

/-- Bytes have been appended to one inode.  Nothing else of what the image
says has changed: the records and the contents of the other inodes, as far as
their places reach, the superblock and the bitmap. -/
structure Appended (s : State) (inum : Nat) (p : List UInt8) (next : State) :
    Prop where
  contents : next.disk.contents inum = s.disk.contents inum ++ p
  size : next.disk.inodeSize inum = s.disk.inodeSize inum + p.length
  records : ∀ other, 1 ≤ other ∧ other < s.freeinode → other ≠ inum →
    next.dinode other = s.dinode other
  others : ∀ other, 1 ≤ other ∧ other < s.freeinode → other ≠ inum →
    (next.disk.contents other).take 71680 =
      (s.disk.contents other).take 71680
  superblock : ∀ position < 512,
    next.disk.mem (512 + position) = s.disk.mem (512 + position)
  bitmap : ∀ position < 512,
    next.disk.mem (28 * 512 + position) = s.disk.mem (28 * 512 + position)

section Reading

variable {s : State} {inum : Nat}

theorem inodeSize_eq_dinode (s : State) (inum : Nat) :
    s.disk.inodeSize inum = (s.dinode inum).size :=
  Image.word32_eq_word ..

variable (sound : Sound s s.table)

include sound

/-- A reader finds the blocks of a file at its places. -/
theorem Sound.fileBlock_eq {fbn : Nat} (small : fbn < 140) :
    s.disk.fileBlock inum fbn =
      slot s.disk.mem (s.table inum) (dataSlot fbn) := by
  have index : s.disk.inodeAddr inum 12 = s.table inum 12 :=
    inodeAddr_eq_table (by decide)
  unfold Image.fileBlock dataSlot
  split_ifs with direct
  · rw [inodeAddr_eq_table (by omega), slot_record (by omega)]
  · obtain ⟨word, rfl⟩ := Nat.exists_eq_add_of_le (Nat.le_of_not_lt direct)
    rw [Nat.add_sub_cancel_left, Image.word32_eq_word, index,
      Nat.add_right_comm]
    by_cases unindexed : s.table inum 12 = 0
    · -- Without an indirect block, the words are read from block 0.
      rw [slot_of_unindexed unindexed (by omega), unindexed]
      refine word_eq_zero fun byte below => ?_
      rw [Nat.zero_mul, Nat.zero_add]
      exact sound.allocated.null _ (by omega)
    · rw [slot_word unindexed]

theorem Sound.contents_take :
    (s.disk.contents inum).take 71680 =
      (List.range (min 71680 (s.dinode inum).size)).map
        (fileByte s.disk.mem (s.table inum)) := by
  rw [Image.contents, ← List.map_take, List.take_range, inodeSize_eq_dinode]
  refine List.map_congr_left fun position mem => ?_
  have below := List.mem_range.1 mem
  rw [sound.fileBlock_eq (by omega)]
  rfl

theorem Sound.contents_eq (short : (s.dinode inum).size ≤ 71680) :
    s.disk.contents inum = (List.range (s.dinode inum).size).map
      (fileByte s.disk.mem (s.table inum)) := by
  have length : (s.disk.contents inum).length ≤ 71680 := by
    rw [Image.contents, List.length_map, List.length_range,
      inodeSize_eq_dinode]
    exact short
  rw [← List.take_of_length_le length, sound.contents_take,
    Nat.min_eq_right short]

end Reading

section Appending

variable {s next : State} {inum : Nat} {p : List UInt8}

theorem Writes.appended {keys : Finset Nat} (sound : Sound s s.table)
    (few : s.freeinode ≤ 208) (valid : 1 ≤ inum ∧ inum < s.freeinode)
    (written : Writes s s.table inum keys (s.dinode inum).size p next
      (next.table inum))
    (nextSound : Sound next next.table)
    (size : (next.dinode inum).size = (s.dinode inum).size + p.length)
    (short : (s.dinode inum).size + p.length ≤ 71680) :
    Appended s inum p next := by
  have record : ∀ other, 1 ≤ other ∧ other < s.freeinode → other ≠ inum →
      next.dinode other = s.dinode other := fun other otherValid different =>
    written.same.dinode (by omega) different
  refine ⟨?_, ?_, record, fun other otherValid different => ?_,
    fun position below => written.same.memory _ (by omega) (.inl ?_),
    fun position below => written.same.memory _ (by omega) (.inr ?_)⟩
  · rw [nextSound.contents_eq (by omega), sound.contents_eq (by omega), size,
      ← map_range_patch]
    refine List.map_congr_left fun position mem => ?_
    exact written.own position (by have := List.mem_range.1 mem; omega)
  · rw [inodeSize_eq_dinode, inodeSize_eq_dinode, size]
  · have table : next.table other = s.table other :=
      congrArg Dinode.addrs (record other otherValid different)
    rw [nextSound.contents_take, sound.contents_take,
      record other otherValid different, table]
    refine List.map_congr_left fun position mem => ?_
    exact written.others other otherValid different position
      (by have := List.mem_range.1 mem; omega)
  · unfold Image.inodeOffset
    omega
  · unfold Image.inodeOffset
    omega

/-- The table is only read at the allocated inodes. -/
theorem Writes.congr_table {table : Nat → Fin 13 → Nat}
    {keys : Finset Nat} {offset : Nat} {addrs : Fin 13 → Nat}
    (written : Writes s table inum keys offset p next addrs)
    (valid : 1 ≤ inum ∧ inum < s.freeinode) (newTable : Nat → Fin 13 → Nat)
    (same : ∀ holder, 1 ≤ holder ∧ holder < s.freeinode →
      newTable holder = table holder) :
    Writes s newTable inum keys offset p next addrs := by
  have own := same inum valid
  refine ⟨written.sound.congr fun holder holderValid => ?_, own ▸ written.zero,
    own ▸ written.freeblock, own ▸ written.own,
    fun holder holderValid different => ?_, written.same⟩
  · by_cases self : holder = inum
    · rw [self, update_self, update_self]
    · rw [update_of_ne self, update_of_ne self,
        same holder (written.same.freeinode ▸ holderValid)]
  · rw [same holder holderValid]
    exact written.others holder holderValid different

/-- Bytes that are appended in pieces. -/
def appendAll (inum : Nat) (chunks : List (List UInt8)) (s : State) :
    Option State :=
  chunks.foldlM (fun s chunk => iappend inum chunk s) s

theorem Room.mono {addrs : Fin 13 → Nat} {off count more : Nat}
    (room : Room s addrs off (count + more)) : Room s addrs off count := by
  refine ⟨fun positive => ?_, ?_⟩
  · have bound := room.1 (by omega)
    omega
  · refine (Nat.add_le_add_left (Finset.card_le_card
      (Finset.filter_subset_filter _ ?_)) _).trans room.2
    rw [touched_add]
    exact Finset.subset_union_left

theorem exists_appendAll (sound : Sound s s.table) (few : s.freeinode ≤ 208)
    (valid : 1 ≤ inum ∧ inum < s.freeinode) (chunks : List (List UInt8))
    (short : (s.dinode inum).size + chunks.flatten.length ≤ 71680)
    (room : Room s (s.table inum) (s.dinode inum).size
      chunks.flatten.length) :
    ∃ next, appendAll inum chunks s = some next ∧ Sound next next.table ∧
      Writes s s.table inum
        (touched (s.dinode inum).size chunks.flatten.length)
        (s.dinode inum).size chunks.flatten next (next.table inum) ∧
      (next.dinode inum).size =
        (s.dinode inum).size + chunks.flatten.length := by
  induction chunks generalizing s with
  | nil =>
      refine ⟨s, rfl, sound, ?_, rfl⟩
      exact writes_nothing sound (by simp [touched]) _
  | cons chunk chunks ih =>
      rw [List.flatten_cons, List.length_append] at short room
      have spec := iappend_spec sound few valid chunk
      cases appended : iappend inum chunk s with
      | none =>
          rw [appended] at spec
          exact absurd room.mono spec
      | some middle =>
          rw [appended] at spec
          obtain ⟨-, middleSound, written, dinode⟩ := spec
          have free := written.same.freeinode
          have size : (middle.dinode inum).size =
              (s.dinode inum).size + chunk.length :=
            congrArg Dinode.size dinode
          rw [written.room_iff (by omega)] at room
          obtain ⟨next, finished, nextSound, later, total⟩ := ih middleSound
            (by omega) (free.symm ▸ valid) (by omega) (by rwa [size])
          rw [size] at later total
          have behind := later.congr_table (free.symm ▸ valid)
            (update s.table inum (middle.table inum)) fun holder holderValid => by
              by_cases self : holder = inum
              · rw [self, update_self]
              · rw [update_of_ne self]
                exact (congrArg Dinode.addrs
                  (written.same.dinode (by omega) self)).symm
          have both := written.trans behind fun key mem =>
            touched_lt (by omega) mem
          rw [← touched_add] at both
          refine ⟨next, ?_, nextSound, ?_, ?_⟩
          · show (iappend inum chunk s).bind _ = _
            rw [appended]
            exact finished
          · rw [List.flatten_cons, List.length_append]
            exact both
          · rw [List.flatten_cons, List.length_append, total]
            omega

end Appending

/-- In every state that is reached with fewer than 200 inodes, if a file stays
within `MAXFILE` blocks and the image has blocks for the places that are still
zero, `iappend` appends the bytes, and so does any sequence of appends that
make up the bytes. -/
theorem iappend_appends {ops : List Op} {s : State}
    (few : ops.countP Op.isIalloc < 200) (reached : perform ops = some s)
    {inum : Nat} (valid : 1 ≤ inum ∧ inum < s.freeinode) {p : List UInt8}
    (short : s.disk.inodeSize inum + p.length ≤ 71680)
    (blocks : s.freeblock + missing s.disk.mem (s.table inum)
      (touched (s.disk.inodeSize inum) p.length) ≤ 1024) :
    (∃ next, iappend inum p s = some next ∧ Appended s inum p next) ∧
      ∀ chunks : List (List UInt8), chunks.flatten = p →
        ∃ next, appendAll inum chunks s = some next ∧
          Appended s inum p next := by
  obtain ⟨sound, free⟩ := sound_perform few reached
  rw [inodeSize_eq_dinode] at short blocks
  have all : ∀ chunks : List (List UInt8), chunks.flatten = p →
      ∃ next, appendAll inum chunks s = some next ∧
        Appended s inum p next := by
    rintro chunks rfl
    obtain ⟨next, finished, nextSound, written, size⟩ := exists_appendAll sound
      (by omega) valid chunks short ⟨fun _ => short, blocks⟩
    exact ⟨next, finished,
      written.appended sound (by omega) valid nextSound size short⟩
  refine ⟨?_, all⟩
  obtain ⟨next, finished, appended⟩ := all [p] (by simp)
  refine ⟨next, ?_, appended⟩
  rw [← finished]
  exact (Option.bind_fun_some _).symm

/-- Two bytes are appended to a new file, at once or one by one. -/
theorem iappend_appends_new :
    ∃ s, perform [.ialloc 2] = some s ∧ s.freeinode = 2 ∧
      (∃ next, iappend 1 [7, 8] s = some next ∧ Appended s 1 [7, 8] next) ∧
      ∃ next, appendAll 1 [[7], [8]] s = some next ∧
        Appended s 1 [7, 8] next := by
  obtain ⟨s, reached, -, free, blocks, size⟩ := exists_perform_ialloc
  rw [← inodeSize_eq_dinode] at size
  have few : missing s.disk.mem (s.table 1) (touched 0 [7, 8].length) ≤ 1 :=
    missing_le_card _ _ _
  have appends := iappend_appends (by decide) reached
    (show 1 ≤ 1 ∧ 1 < s.freeinode by omega) (p := [7, 8])
    (by rw [size]; decide) (by rw [size]; omega)
  exact ⟨s, reached, free, appends.1, appends.2 [[7], [8]] rfl⟩

end LinuxKernelDev.Mkfs
