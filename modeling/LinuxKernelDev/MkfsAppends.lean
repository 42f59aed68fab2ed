import LinuxKernelDev.MkfsBlockAppends
import LinuxKernelDev.MkfsSlots
import Mathlib.Data.Finset.Card
import Mathlib.Data.Finset.Union
import Mathlib.Order.Interval.Finset.Nat

/-!
# Appending to a file with holes

`iappend` fills the places on the way to the bytes that it writes and writes
the bytes.  It succeeds exactly if the file stays within its places and the
image has enough blocks for those that were zero.
-/

namespace LinuxKernelDev.Mkfs

open ByteMemory Function

/-- The disk is whole, and its blocks are allocated to the places of the
inodes, whose addresses are given by a table. -/
structure Sound (s : State) (table : Nat → Fin 13 → Nat) : Prop where
  whole : s.disk.stSize = 524288
  used : s.usedblocks = s.freeblock
  allocated : Allocated s.disk.mem s.freeinode s.freeblock table

/-- The places on the way to block `fbn` of a file. -/
def path (fbn : Nat) : Finset Nat :=
  if fbn < 12 then {fbn} else {12, fbn + 1}

/-- The places on the way to `count` bytes of a file. -/
def touched (offset count : Nat) : Finset Nat :=
  (Finset.Ico offset (offset + count)).biUnion fun position =>
    path (position / 512)

/-- How many of the places are still zero. -/
def missing (memory : Nat → UInt8) (addrs : Fin 13 → Nat)
    (keys : Finset Nat) : Nat :=
  (keys.filter fun key => slot memory addrs key = 0).card

/-- Nothing before the data blocks changes but the record of one inode. -/
structure SameOthers (inum : Nat) (s next : State) : Prop where
  memory : ∀ address < 14848, (address < Image.inodeOffset inum ∨
    Image.inodeOffset inum + 64 ≤ address) →
      next.disk.mem address = s.disk.mem address
  freeinode : next.freeinode = s.freeinode
  process : next.process = s.process

theorem SameTable.others {s next : State} (same : SameTable s next)
    (inum : Nat) : SameOthers inum s next :=
  ⟨fun address below _ => same.memory address below, same.freeinode,
    same.process⟩

theorem SameOthers.trans {s middle next : State} {inum : Nat}
    (first : SameOthers inum s middle) (second : SameOthers inum middle next) :
    SameOthers inum s next where
  memory address below outside := (second.memory address below outside).trans
    (first.memory address below outside)
  freeinode := second.freeinode.trans first.freeinode
  process := second.process.trans first.process

/-- The places `keys` of a file are filled, and bytes are written to it; the
other files do not change. -/
structure Writes (s : State) (table : Nat → Fin 13 → Nat) (inum : Nat)
    (keys : Finset Nat) (offset : Nat) (values : List UInt8) (next : State)
    (addrs : Fin 13 → Nat) : Prop where
  sound : Sound next (update table inum addrs)
  zero : ∀ key < 141, slot next.disk.mem addrs key = 0 ↔
    slot s.disk.mem (table inum) key = 0 ∧ key ∉ keys
  freeblock : next.freeblock =
    s.freeblock + missing s.disk.mem (table inum) keys
  own : Reads next.disk.mem addrs
    (patch (fileByte s.disk.mem (table inum)) offset values)
  others : ∀ holder, 1 ≤ holder ∧ holder < s.freeinode → holder ≠ inum →
    Reads next.disk.mem (table holder) (fileByte s.disk.mem (table holder))
  same : SameOthers inum s next

theorem path_lt {fbn key : Nat} (small : fbn < 140) (mem : key ∈ path fbn) :
    key < 141 := by
  unfold path at mem
  split_ifs at mem <;> simp at mem <;> omega

theorem touched_lt {offset count key : Nat} (inside : offset + count ≤ 71680)
    (mem : key ∈ touched offset count) : key < 141 := by
  obtain ⟨position, within, onPath⟩ := Finset.mem_biUnion.1 mem
  rw [Finset.mem_Ico] at within
  exact path_lt (by omega) onPath

/-- Bytes that lie in one block. -/
theorem touched_block {offset count : Nat} (positive : 0 < count)
    (inside : offset + count ≤ (offset / 512 + 1) * 512) :
    touched offset count = path (offset / 512) := by
  ext key
  rw [touched, Finset.mem_biUnion]
  constructor
  · rintro ⟨position, within, onPath⟩
    rw [Finset.mem_Ico] at within
    rwa [show position / 512 = offset / 512 by omega] at onPath
  · exact fun onPath =>
      ⟨offset, Finset.mem_Ico.2 ⟨Nat.le_refl _, by omega⟩, onPath⟩

theorem touched_add (offset first second : Nat) :
    touched offset (first + second) =
      touched offset first ∪ touched (offset + first) second := by
  rw [touched, touched, touched, ← Finset.union_biUnion, ← Nat.add_assoc,
    Finset.Ico_union_Ico_eq_Ico (Nat.le_add_right ..) (Nat.le_add_right ..)]

namespace Writes

variable {s middle next : State} {table : Nat → Fin 13 → Nat} {inum : Nat}
  {first second : Finset Nat} {offset : Nat} {values more : List UInt8}
  {addrs newAddrs : Fin 13 → Nat}

/-- The blocks for all places are those for the first ones and for those that
are then left. -/
theorem missing_union
    (written : Writes s table inum first offset values middle addrs)
    (bounded : ∀ key ∈ second, key < 141) :
    missing s.disk.mem (table inum) (first ∪ second) =
      missing s.disk.mem (table inum) first +
        missing middle.disk.mem addrs second := by
  have left : second.filter (fun key => slot middle.disk.mem addrs key = 0) =
      (second.filter fun key => slot s.disk.mem (table inum) key = 0) \
        first := by
    ext key
    simp only [Finset.mem_filter, Finset.mem_sdiff]
    constructor
    · rintro ⟨mem, empty⟩
      have before := (written.zero key (bounded key mem)).1 empty
      exact ⟨⟨mem, before.1⟩, before.2⟩
    · rintro ⟨⟨mem, empty⟩, new⟩
      exact ⟨mem, (written.zero key (bounded key mem)).2 ⟨empty, new⟩⟩
  unfold missing
  rw [left, ← Finset.card_union_of_disjoint]
  · congr 1
    ext key
    simp only [Finset.mem_filter, Finset.mem_union, Finset.mem_sdiff]
    tauto
  · rw [Finset.disjoint_left]
    exact fun key held rest =>
      (Finset.mem_sdiff.1 rest).2 (Finset.mem_filter.1 held).1

theorem trans (written : Writes s table inum first offset values middle addrs)
    (later : Writes middle (update table inum addrs) inum second
      (offset + values.length) more next newAddrs)
    (bounded : ∀ key ∈ second, key < 141) :
    Writes s table inum (first ∪ second) offset (values ++ more) next
      newAddrs := by
  have zero := later.zero
  have counted := later.freeblock
  have own := later.own
  rw [update_self] at zero counted own
  refine ⟨?_, ?_, ?_, ?_, ?_, written.same.trans later.same⟩
  · have sound := later.sound
    rwa [update_idem] at sound
  · intro key small
    rw [zero key small, written.zero key small, Finset.mem_union]
    tauto
  · rw [counted, written.freeblock, written.missing_union bounded]
    omega
  · intro position below
    rw [own position below, patch_append]
    unfold patch at own ⊢
    rw [written.own position below]
    rfl
  · intro holder valid different position below
    have step := later.others holder (written.same.freeinode.symm ▸ valid)
      different position below
    rw [update_of_ne different] at step
    rw [step, written.others holder valid different position below]

end Writes

section Filling

variable {s : State} {table : Nat → Fin 13 → Nat} {inum : Nat}

/-- Places that are filled already. -/
theorem writes_nothing (sound : Sound s table) {keys : Finset Nat}
    (filled : ∀ key ∈ keys, slot s.disk.mem (table inum) key ≠ 0)
    (offset : Nat) :
    Writes s table inum keys offset [] s (table inum) := by
  refine ⟨by rwa [update_eq_self], fun key small => ?_, ?_, ?_,
    fun _ _ _ _ _ => rfl, (SameTable.refl s).others inum⟩
  · exact ⟨fun empty => ⟨empty, fun mem => filled key mem empty⟩, And.left⟩
  · have none : keys.filter (fun key => slot s.disk.mem (table inum) key = 0) =
        ∅ :=
      Finset.filter_eq_empty_iff.2 fun key mem => filled key mem
    rw [missing, none, Finset.card_empty, Nat.add_zero]
  · intro position _
    rw [patch_nil]

/-- One place was zero and is filled, and no other place changes. -/
theorem missing_singleton {memory : Nat → UInt8} {addrs : Fin 13 → Nat}
    {key : Nat} (empty : slot memory addrs key = 0) :
    missing memory addrs {key} = 1 := by
  rw [missing, Finset.filter_singleton, if_pos empty, Finset.card_singleton]

/-- An address of the inode that is zero takes the next block. -/
theorem writes_address (sound : Sound s table)
    (valid : 1 ≤ inum ∧ inum < s.freeinode) (room : s.freeblock < 1024)
    {index : Fin 13} (free : table inum index = 0) (offset : Nat) :
    Writes s table inum {index.val} offset [] s.takeBlock
      (update (table inum) index s.freeblock) := by
  obtain ⟨others, allocated, files⟩ :=
    sound.allocated.claim_address room valid free
  have first := sound.allocated.first
  have record := @slot_record s.disk.mem (table inum) index.val index.isLt
  refine ⟨⟨sound.whole, congrArg (· + 1) sound.used, allocated⟩,
    fun key small => ?_, ?_, ?_, ?_,
    (SameTable.refl s).takeBlock.others inum⟩
  · rw [Finset.mem_singleton]
    by_cases here : key = index.val
    · subst here
      have taken : slot s.takeBlock.disk.mem
          (update (table inum) index s.freeblock) index.val = s.freeblock :=
        (slot_record index.isLt).trans (update_self ..)
      rw [taken]
      constructor
      · intro empty
        omega
      · exact fun empty => absurd rfl empty.2
    · exact (iff_of_eq (congrArg (· = 0) (others key small here))).trans
        ⟨fun empty => ⟨empty, here⟩, And.left⟩
  · rw [missing_singleton (record.trans free)]
    rfl
  · intro position below
    have same := files inum valid position below
    rw [update_self] at same
    rw [patch_nil, ← same]
    rfl
  · intro holder holderValid different position below
    have same := files holder holderValid position below
    rwa [update_of_ne different] at same

/-- A word of the indirect block that is zero takes the next block. -/
theorem writes_word (sound : Sound s table)
    (valid : 1 ≤ inum ∧ inum < s.freeinode) (room : s.freeblock < 1024)
    (indexed : table inum 12 ≠ 0) {word : Nat} (inside : word < 128)
    (free : slot s.disk.mem (table inum) (13 + word) = 0) (offset : Nat) :
    let next := s.takeBlock.store (table inum 12 * 512 + 4 * word)
      (littleEndian 4 s.freeblock)
    slot next.disk.mem (table inum) (13 + word) = s.freeblock ∧
      Writes s table inum {13 + word} offset [] next (table inum) := by
  intro next
  obtain ⟨others, allocated, files⟩ :=
    sound.allocated.claim_word room valid indexed inside free
  have first := sound.allocated.first
  have last := sound.allocated.last
  have range := sound.allocated.slot_range valid (show 12 < 141 by decide)
    (slot_twelve.symm ▸ indexed)
  rw [slot_twelve] at range
  have fits : 4 * word + (littleEndian 4 s.freeblock).length ≤ 512 := by
    rw [littleEndian_length]
    omega
  have memory : next.disk.mem = patch s.disk.mem
      (table inum 12 * 512 + 4 * word) (littleEndian 4 s.freeblock) :=
    @State.store_mem s.takeBlock sound.whole _ _ (by omega)
  constructor
  · rw [memory, others _ (by omega), update_self]
  refine ⟨⟨sound.whole, congrArg (· + 1) sound.used, ?_⟩, fun key small => ?_,
    ?_, ?_, ?_, ((SameTable.refl s).takeBlock.store sound.whole range.1
      (by omega) fits).others inum⟩
  · rw [memory, update_eq_self]
    exact allocated
  · rw [memory, others key small, Finset.mem_singleton]
    by_cases here : key = 13 + word
    · rw [here, update_self]
      constructor
      · intro empty
        omega
      · exact fun empty => absurd rfl empty.2
    · rw [update_of_ne here]
      exact ⟨fun empty => ⟨empty, here⟩, And.left⟩
  · rw [missing_singleton free]
    rfl
  · rw [memory, patch_nil]
    exact files inum valid
  · intro holder holderValid different
    rw [memory]
    exact files holder holderValid

/-- Bytes are written within a block of the file. -/
theorem writes_data (sound : Sound s table)
    (valid : 1 ≤ inum ∧ inum < s.freeinode) {fbn : Nat} (small : fbn < 140)
    (present : slot s.disk.mem (table inum) (dataSlot fbn) ≠ 0)
    {offset : Nat} {values : List UInt8}
    (inside : offset + values.length ≤ 512) :
    Writes s table inum ∅ (fbn * 512 + offset) values
      (s.store (slot s.disk.mem (table inum) (dataSlot fbn) * 512 + offset)
        values) (table inum) := by
  obtain ⟨places, allocated, own, others⟩ :=
    sound.allocated.write valid small present inside
  have range := sound.allocated.slot_range valid (dataSlot_lt small) present
  have last := sound.allocated.last
  have memory := State.store_mem sound.whole
    (show slot s.disk.mem (table inum) (dataSlot fbn) * 512 + offset +
      values.length ≤ 524288 by omega)
  refine ⟨⟨sound.whole, sound.used, ?_⟩, fun key keySmall => ?_, ?_, ?_, ?_,
    ((SameTable.refl s).store sound.whole range.1 (by omega) inside).others
      inum⟩
  · rw [memory, update_eq_self]
    exact allocated
  · rw [memory, places inum valid key keySmall]
    simp
  · rw [missing, Finset.filter_empty]
    rfl
  · rw [memory]
    exact own
  · rw [memory]
    exact others

end Filling

section Blocks

variable {s : State} {table : Nat → Fin 13 → Nat} {inum fbn : Nat}
  {din : Dinode}

theorem missing_path_direct {memory : Nat → UInt8} {addrs : Fin 13 → Nat}
    (index : Fin 13) (direct : index.val < 12) :
    missing memory addrs (path index) = if addrs index = 0 then 1 else 0 := by
  rw [path, if_pos direct, missing, Finset.filter_singleton,
    slot_record index.isLt]
  split_ifs <;> rfl

theorem missing_path_indirect {memory : Nat → UInt8} {addrs : Fin 13 → Nat}
    (indirect : 12 ≤ fbn) :
    missing memory addrs (path fbn) =
      if addrs 12 = 0 then 2
      else if slot memory addrs (fbn + 1) = 0 then 1 else 0 := by
  rw [path, if_neg (by omega), missing, Finset.filter_insert, slot_twelve,
    Finset.filter_singleton]
  by_cases unindexed : addrs 12 = 0
  · rw [if_pos unindexed, if_pos unindexed,
      if_pos (slot_of_unindexed unindexed (by omega)), Finset.card_pair]
    omega
  · rw [if_neg unindexed, if_neg unindexed]
    split_ifs <;> rfl

/-- Finding or allocating a word of an indirect block. -/
theorem exists_indirectBlock (sound : Sound s table)
    (valid : 1 ≤ inum ∧ inum < s.freeinode) (indexed : table inum 12 ≠ 0)
    {word : Nat} (inside : word < 128)
    (room : s.freeblock + missing s.disk.mem (table inum) {13 + word} ≤ 1024)
    (offset : Nat) :
    ∃ next, indirectBlock (table inum 12) word s =
        some (slot next.disk.mem (table inum) (13 + word), next) ∧
      slot next.disk.mem (table inum) (13 + word) ≠ 0 ∧
      Writes s table inum {13 + word} offset [] next (table inum) := by
  have range := sound.allocated.slot_range valid (show 12 < 141 by decide)
    (slot_twelve.symm ▸ indexed)
  rw [slot_twelve] at range
  have last := sound.allocated.last
  have first := sound.allocated.first
  have read := @slot_word s.disk.mem (table inum) indexed word
  by_cases free : slot s.disk.mem (table inum) (13 + word) = 0
  · rw [missing_singleton free] at room
    obtain ⟨taken, written⟩ := writes_word sound valid (by omega) indexed inside
      free offset
    refine ⟨_, ?_, ?_, written⟩
    · rw [indirectBlock_new sound.whole (by omega) inside (read ▸ free), taken]
    · rw [taken]
      omega
  · refine ⟨s, ?_, free, writes_nothing sound (by simpa using free) offset⟩
    rw [indirectBlock, rsect_eq sound.whole (by omega)]
    simp only [Option.bind_eq_bind, Option.bind_some, word_window, ← read,
      if_neg free]

/-- Finding or allocating a block of a file. -/
theorem writes_iappendBlock (sound : Sound s table)
    (valid : 1 ≤ inum ∧ inum < s.freeinode) (addrs : din.addrs = table inum)
    (small : fbn < 140)
    (room : s.freeblock + missing s.disk.mem (table inum) (path fbn) ≤ 1024)
    (offset : Nat) :
    ∃ newAddrs next, iappendBlock fbn din s =
        some (slot next.disk.mem newAddrs (dataSlot fbn),
          { din with addrs := newAddrs }, next) ∧
      slot next.disk.mem newAddrs (dataSlot fbn) ≠ 0 ∧
      Writes s table inum (path fbn) offset [] next newAddrs := by
  have first := sound.allocated.first
  by_cases direct : fbn < 12
  · rw [missing_path_direct ⟨fbn, by omega⟩ direct] at room
    rw [iappendBlock, dif_pos direct, addrs, path, if_pos direct, dataSlot,
      if_pos direct]
    by_cases free : table inum ⟨fbn, by omega⟩ = 0
    · rw [if_pos free] at room ⊢
      have record : slot s.takeBlock.disk.mem (update (table inum)
          ⟨fbn, by omega⟩ s.freeblock) fbn = s.freeblock :=
        (slot_record (by omega)).trans (update_self ..)
      refine ⟨_, _, ?_, ?_, writes_address sound valid room free offset⟩
      · rw [record]
      · rw [record]
        omega
    · have record := @slot_record s.disk.mem (table inum) fbn (by omega)
      have filled : slot s.disk.mem (table inum) fbn ≠ 0 := record ▸ free
      rw [if_neg free]
      refine ⟨table inum, s, ?_, filled,
        writes_nothing sound (by simpa using filled) offset⟩
      rw [record, ← addrs]
  · obtain ⟨word, rfl⟩ := Nat.exists_eq_add_of_le (Nat.le_of_not_lt direct)
    have places : path (12 + word) = {12} ∪ {13 + word} := by
      rw [path, if_neg direct, Nat.add_right_comm]
      rfl
    have block : dataSlot (12 + word) = 13 + word := by
      rw [dataSlot, if_neg direct, Nat.add_right_comm]
    -- The indirect block is found or allocated first.
    obtain ⟨newAddrs, middle, indexed, opened, code⟩ :
        ∃ newAddrs middle, newAddrs 12 ≠ 0 ∧
          Writes s table inum {12} offset [] middle newAddrs ∧
          iappendBlock (12 + word) din s =
            (indirectBlock (newAddrs 12) word middle).bind fun found =>
              some (found.1, { din with addrs := newAddrs }, found.2) := by
      rw [iappendBlock, dif_neg direct, addrs, Nat.add_sub_cancel_left]
      by_cases free : table inum 12 = 0
      · rw [missing_path_indirect (by omega), if_pos free] at room
        refine ⟨_, _, ?_, writes_address sound valid (by omega) free offset, ?_⟩
        · rw [update_self]
          omega
        · rw [if_pos free, update_self]
          rfl
      · refine ⟨table inum, s, free,
          writes_nothing sound (by simpa [slot_twelve] using free) offset, ?_⟩
        rw [if_neg free, ← addrs]
        rfl
    have middleValid : 1 ≤ inum ∧ inum < middle.freeinode :=
      opened.same.freeinode.symm ▸ valid
    have bounded : ∀ key ∈ ({13 + word} : Finset Nat), key < 141 := by
      simp
      omega
    rw [places, opened.missing_union bounded, ← Nat.add_assoc,
      ← opened.freeblock] at room
    obtain ⟨next, found, filled, written⟩ := exists_indirectBlock
      opened.sound middleValid (by rwa [update_self])
      (show word < 128 by omega) (by rwa [update_self])
      (offset + ([] : List UInt8).length)
    rw [update_self] at found filled written
    rw [code, found, block, places]
    exact ⟨newAddrs, next, rfl, filled, opened.trans written bounded⟩

/-- Without enough blocks, `iappend` goes on to read a sector behind the end of
the image. -/
theorem rsect_iappendBlock_full (sound : Sound s table)
    (valid : 1 ≤ inum ∧ inum < s.freeinode) (addrs : din.addrs = table inum)
    (small : fbn < 140)
    (full : 1024 < s.freeblock + missing s.disk.mem (table inum) (path fbn))
    {x : Nat} {newDin : Dinode} {next : State}
    (found : iappendBlock fbn din s = some (x, newDin, next)) :
    rsect x next = none := by
  have last := sound.allocated.last
  rcases Nat.lt_or_ge fbn 12 with direct | indirect
  · rw [missing_path_direct ⟨fbn, by omega⟩ direct] at full
    split_ifs at full with free
    · exact rsect_direct_full sound.whole direct (addrs ▸ free) (by omega) found
    · omega
  · rw [missing_path_indirect indirect] at full
    split_ifs at full with free empty
    · exact rsect_indexing_full sound.whole indirect small (addrs ▸ free)
        (by omega) (sound.allocated.blank s.freeblock le_rfl) found
    · have range := sound.allocated.slot_range valid (show 12 < 141 by decide)
        (slot_twelve.symm ▸ free)
      rw [slot_twelve] at range
      rw [show fbn + 1 = 13 + (fbn - 12) by omega, slot_word free,
        ← addrs] at empty
      exact rsect_indexed_full sound.whole indirect small (addrs ▸ free)
        (by rw [addrs]; omega) empty (by omega) found
    · omega

end Blocks

section Loop

variable {s : State} {table : Nat → Fin 13 → Nat} {inum : Nat} {din : Dinode}
  {off : Nat} {p : List UInt8}

/-- The bytes stay within the places of a file, and the image has blocks for
those places that are zero. -/
def Room (s : State) (addrs : Fin 13 → Nat) (off count : Nat) : Prop :=
  (0 < count → off + count ≤ 71680) ∧
    s.freeblock + missing s.disk.mem addrs (touched off count) ≤ 1024

/-- One turn of the loop writes the bytes that go to one block. -/
theorem exists_writing_turn (sound : Sound s table)
    (valid : 1 ≤ inum ∧ inum < s.freeinode) (addrs : din.addrs = table inum)
    (more : p ≠ []) (small : off / 512 < 140)
    (room : s.freeblock + missing s.disk.mem (table inum)
      (path (off / 512)) ≤ 1024) :
    let n := min p.length ((off / 512 + 1) * 512 - off)
    ∃ newAddrs next,
      iappendLoop din off p s =
        iappendLoop { din with addrs := newAddrs } (off + n) (p.drop n) next ∧
      Writes s table inum (touched off n) off (p.take n) next newAddrs := by
  intro n
  have nonempty := List.length_pos_iff.mpr more
  have lengthTake : (p.take n).length = n := by
    rw [List.length_take]
    omega
  have inside : off - off / 512 * 512 + (p.take n).length ≤ 512 := by omega
  obtain ⟨newAddrs, middle, found, present, filled⟩ :=
    writes_iappendBlock sound valid addrs small room off
  have middleValid : 1 ≤ inum ∧ inum < middle.freeinode :=
    filled.same.freeinode.symm ▸ valid
  have here : update table inum newAddrs inum = newAddrs := update_self ..
  have range := filled.sound.allocated.slot_range middleValid
    (dataSlot_lt small) (here.symm ▸ present)
  rw [here] at range
  have last := filled.sound.allocated.last
  have written := writes_data filled.sound middleValid small
    (here.symm ▸ present) inside
  rw [here, show off / 512 * 512 + (off - off / 512 * 512) =
    off + ([] : List UInt8).length by simp; omega] at written
  have both := filled.trans written (by simp)
  rw [Finset.union_empty, ← touched_block (show 0 < n by omega)
    (by omega)] at both
  refine ⟨newAddrs, _, ?_, both⟩
  rw [iappendLoop, if_neg more, if_pos small, found, Option.bind_eq_bind,
    Option.bind_some]
  simp only [rsect_eq filled.sound.whole (show slot middle.disk.mem newAddrs
    (dataSlot (off / 512)) < 1024 by omega)]
  rw [Option.bind_eq_bind, Option.bind_some,
    wsect_patch filled.sound.whole (by omega) inside]

/-- A turn for which there is no place or no block ends the run. -/
theorem iappendLoop_eq_none (sound : Sound s table)
    (valid : 1 ≤ inum ∧ inum < s.freeinode) (addrs : din.addrs = table inum)
    (more : p ≠ [])
    (full : off / 512 < 140 → 1024 < s.freeblock +
      missing s.disk.mem (table inum) (path (off / 512))) :
    iappendLoop din off p s = none := by
  rw [iappendLoop, if_neg more]
  split_ifs with small
  · cases found : iappendBlock (off / 512) din s with
    | none => rfl
    | some result =>
        obtain ⟨x, newDin, next⟩ := result
        have behind := rsect_iappendBlock_full sound valid addrs small
          (full small) found
        simp [behind]
  · rfl

/-- There is room for all bytes if there is for those behind the first ones,
once these have been written. -/
theorem Writes.room_iff {next : State} {newAddrs : Fin 13 → Nat}
    {values : List UInt8} {first : Nat}
    (written : Writes s table inum (touched off first) off values next newAddrs)
    (within : off + first ≤ 71680) (second : Nat) :
    Room s (table inum) off (first + second) ↔
      Room next newAddrs (off + first) second := by
  have counted := written.freeblock
  have split : off + first + second ≤ 71680 →
      missing s.disk.mem (table inum) (touched off (first + second)) =
        missing s.disk.mem (table inum) (touched off first) +
          missing next.disk.mem newAddrs (touched (off + first) second) :=
    fun inside => by
      rw [touched_add]
      exact written.missing_union fun key mem => touched_lt inside mem
  constructor
  · rintro ⟨inside, blocks⟩
    have bound : off + first + second ≤ 71680 := by
      by_cases positive : 0 < first + second
      · have := inside positive
        omega
      · omega
    rw [split bound] at blocks
    exact ⟨fun _ => bound, by omega⟩
  · rintro ⟨inside, blocks⟩
    have bound : off + first + second ≤ 71680 := by
      by_cases positive : 0 < second
      · exact inside positive
      · omega
    refine ⟨fun _ => by omega, ?_⟩
    rw [split bound]
    omega

/-- The places on the way to the first byte are among those of all bytes. -/
theorem missing_path_le (memory : Nat → UInt8) (addrs : Fin 13 → Nat)
    {count : Nat} (positive : 0 < count) :
    missing memory addrs (path (off / 512)) ≤
      missing memory addrs (touched off count) := by
  refine Finset.card_le_card (Finset.filter_subset_filter _ fun key mem => ?_)
  exact Finset.mem_biUnion.2
    ⟨off, Finset.mem_Ico.2 ⟨Nat.le_refl _, by omega⟩, mem⟩

/-- The loop of `iappend` succeeds exactly if there is room, and then it has
written all bytes. -/
theorem iappendLoop_spec (sound : Sound s table)
    (valid : 1 ≤ inum ∧ inum < s.freeinode)
    (addrs : din.addrs = table inum) :
    match iappendLoop din off p s with
    | some (newDin, newOff, next) =>
        Room s (table inum) off p.length ∧ newOff = off + p.length ∧
          ∃ newAddrs, newDin = { din with addrs := newAddrs } ∧
            Writes s table inum (touched off p.length) off p next newAddrs
    | none => ¬Room s (table inum) off p.length := by
  induction lengthEq : p.length using Nat.strong_induction_on
    generalizing s table din off p with
  | _ size ih =>
      subst lengthEq
      have last := sound.allocated.last
      by_cases more : p = []
      · subst more
        rw [iappendLoop, if_pos rfl]
        have none : touched off ([] : List UInt8).length = ∅ := by
          simp [touched]
        refine ⟨⟨by simp, ?_⟩, rfl, table inum, ?_, ?_⟩
        · rw [none]
          exact last
        · rw [← addrs]
        · rw [none]
          exact writes_nothing sound (by simp) off
      · have nonempty := List.length_pos_iff.mpr more
        by_cases turn : off / 512 < 140 ∧ s.freeblock +
            missing s.disk.mem (table inum) (path (off / 512)) ≤ 1024
        · obtain ⟨addrsNow, middle, looped, written⟩ := exists_writing_turn
            sound valid addrs more turn.1 turn.2
          generalize block :
            min p.length ((off / 512 + 1) * 512 - off) = n at looped written
          have left : (p.drop n).length = p.length - n := List.length_drop
          have total : n + (p.drop n).length = p.length := by omega
          have rest := @ih (p.drop n).length (by omega) middle
            (update table inum addrsNow) { din with addrs := addrsNow }
            (off + n) (p.drop n) written.sound
            (written.same.freeinode.symm ▸ valid)
            (update_self inum addrsNow table).symm rfl
          rw [update_self, ← looped,
            ← written.room_iff (by omega) (p.drop n).length, total] at rest
          cases finished : iappendLoop din off p s with
          | none =>
              rw [finished] at rest
              exact rest
          | some result =>
              obtain ⟨newDin, newOff, next⟩ := result
              rw [finished] at rest
              obtain ⟨room, offset, newAddrs, dinEq, later⟩ := rest
              have taken : (p.take n).length = n := by
                rw [List.length_take]
                omega
              have inside := room.1 nonempty
              have behind : Writes middle (update table inum addrsNow) inum
                  (touched (off + n) (p.drop n).length)
                  (off + (p.take n).length) (p.drop n) next newAddrs := by
                rwa [taken]
              have both := written.trans behind fun key mem =>
                touched_lt (by omega) mem
              rw [← touched_add, total, List.take_append_drop] at both
              exact ⟨room, by omega, newAddrs, dinEq, both⟩
        · have full : off / 512 < 140 → 1024 < s.freeblock +
              missing s.disk.mem (table inum) (path (off / 512)) :=
            fun small => by
              by_contra enough
              exact turn ⟨small, by omega⟩
          rw [iappendLoop_eq_none sound valid addrs more full]
          rintro ⟨inside, blocks⟩
          have short := inside nonempty
          have least := @missing_path_le off s.disk.mem (table inum) _ nonempty
          have lacking := full (by omega)
          omega

end Loop

end LinuxKernelDev.Mkfs
