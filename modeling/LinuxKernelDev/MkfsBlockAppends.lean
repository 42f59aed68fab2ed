import LinuxKernelDev.MkfsStorage

/-!
# Appending to a file stored in blocks

`iappend` finds or allocates the next block of a file, turn by turn.  Each turn
extends the data of that file and keeps all files stored in disjoint blocks,
until no block is left.
-/

namespace LinuxKernelDev.Mkfs

open ByteMemory LoopRules Function

/-- The disk stores the data of all files. -/
structure Laid (s : State) (data : Nat → List UInt8)
    (layout : Nat → Layout) : Prop where
  whole : s.disk.stSize = 524288
  used : s.usedblocks = s.freeblock
  blocks : Blocks s.disk.mem s.freeinode s.freeblock data layout

/-- Nothing before the data blocks changes. -/
structure SameTable (s next : State) : Prop where
  memory : ∀ address < 14848, next.disk.mem address = s.disk.mem address
  freeinode : next.freeinode = s.freeinode
  process : next.process = s.process

namespace SameTable

theorem refl (s : State) : SameTable s s := ⟨fun _ _ => rfl, rfl, rfl⟩

theorem trans {s middle next : State} (first : SameTable s middle)
    (second : SameTable middle next) : SameTable s next where
  memory address below :=
    (second.memory address below).trans (first.memory address below)
  freeinode := second.freeinode.trans first.freeinode
  process := second.process.trans first.process

theorem takeBlock {s next : State} (same : SameTable s next) :
    SameTable s next.takeBlock :=
  same.trans ⟨fun _ _ => rfl, rfl, rfl⟩

theorem store {s next : State} (same : SameTable s next)
    (whole : next.disk.stSize = 524288) {blknum : Nat}
    (first : 29 ≤ blknum) (last : blknum < 1024) {position : Nat}
    {values : List UInt8} (inside : position + values.length ≤ 512) :
    SameTable s (next.store (blknum * 512 + position) values) := by
  refine same.trans ⟨fun address below => ?_, rfl, rfl⟩
  rw [State.store_mem whole (by omega)]
  exact patch_of_lt (by omega)

end SameTable

section AppendBlock

variable {s : State} {data : Nat → List UInt8} {layout : Nat → Layout}
  {inum fbn : Nat} {din : Dinode}

/-- A block that the file has is found through the inode or its indirect
block. -/
theorem iappendBlock_existing (laid : Laid s data layout)
    (positive : 1 ≤ inum) (below : inum < s.freeinode)
    (addrs : din.addrs = (layout inum).addrs) (small : fbn < 140)
    {blknum : Nat} (block : (layout inum).blocks[fbn]? = some blknum) :
    iappendBlock fbn din s = some (blknum, din, s) := by
  have content := laid.blocks.content inum positive below
  have range := laid.blocks.owned_range positive below
    (Layout.mem_owned_of_block block)
  have nonzero : blknum ≠ 0 := by omega
  by_cases direct : fbn < 12
  · have entry : din.addrs ⟨fbn, by omega⟩ = blknum := by
      rw [addrs, Layout.addrs, if_pos direct, block, Option.getD_some]
    simp only [iappendBlock, dif_pos direct, entry, if_neg nonzero]
  · have beyond := (List.getElem?_eq_some_iff.mp block).1
    have indexed := content.indexed.mpr (by omega)
    have index : din.addrs 12 = (layout inum).index := by
      rw [addrs, Layout.addrs, if_neg (by decide)]
    have indexRange := laid.blocks.owned_range positive below
      (Layout.index_mem_owned indexed)
    have last := laid.blocks.last
    have entry : word s.disk.mem 4
        ((layout inum).index * 512 + 4 * (fbn - 12)) = blknum := by
      rw [content.index indexed _ (by omega),
        show 12 + (fbn - 12) = fbn by omega, block, Option.getD_some]
    rw [iappendBlock, dif_neg direct, index, if_neg indexed, indirectBlock,
      rsect_eq laid.whole (by omega)]
    simp only [Option.bind_eq_bind, Option.bind_some, word_window, entry,
      if_neg nonzero]

/-- A file with less than twelve blocks gets a direct block. -/
theorem iappendBlock_direct (laid : Laid s data layout)
    (positive : 1 ≤ inum) (below : inum < s.freeinode)
    (addrs : din.addrs = (layout inum).addrs)
    (direct : (layout inum).blocks.length < 12) (room : s.freeblock < 1024) :
    iappendBlock (layout inum).blocks.length din s =
      some (s.freeblock,
        { din with
          addrs := Layout.addrs
            ⟨(layout inum).blocks ++ [s.freeblock], (layout inum).index⟩ },
        s.takeBlock) ∧
    Laid s.takeBlock data (update layout inum
      ⟨(layout inum).blocks ++ [s.freeblock], (layout inum).index⟩) := by
  have content := laid.blocks.content inum positive below
  have unindexed : (layout inum).index = 0 :=
    by_contra fun indexed => by
      have long := content.indexed.mp indexed
      omega
  constructor
  · have entry : din.addrs ⟨(layout inum).blocks.length, by omega⟩ = 0 := by
      rw [addrs, Layout.addrs, if_pos direct, List.getElem?_eq_none le_rfl,
        Option.getD_none]
    simp only [iappendBlock, dif_pos direct, entry, if_true, addrs,
      Layout.addrs_direct s.freeblock
        (rfl : (⟨(layout inum).blocks.length, by omega⟩ : Fin 13).val = _)
        direct]
  · refine ⟨laid.whole, congrArg (· + 1) laid.used, ?_⟩
    rw [← update_eq_self inum data]
    refine laid.blocks.change positive below (Nat.le_succ _) room ?_
      (content.grow (fun _ _ _ _ => rfl)
        (laid.blocks.blank s.freeblock le_rfl room) (by omega) ?_)
      (fun _ _ _ _ => rfl)
    · simp [Layout.owned, unindexed]
    · exact fun indexed => absurd unindexed indexed

theorem indirectBlock_new (whole : s.disk.stSize = 524288) {index : Nat}
    (inside : index < 1024) {entry : Nat} (below : entry < 128)
    (free : word s.disk.mem 4 (index * 512 + 4 * entry) = 0) :
    indirectBlock index entry s =
      some (s.freeblock, s.takeBlock.store (index * 512 + 4 * entry)
        (littleEndian 4 s.freeblock)) := by
  have fits : 4 * entry + (littleEndian 4 s.freeblock).length ≤ 512 := by
    rw [littleEndian_length]
    omega
  rw [indirectBlock, rsect_eq whole inside]
  simp only [Option.bind_eq_bind, Option.bind_some, word_window, free,
    if_true]
  exact congrArg (fun next => some (s.freeblock, next))
    (@wsect_patch s.takeBlock index whole inside _ _ fits)

/-- A block that `taken` allocates is entered in an indirect block. -/
theorem Laid.enter (laid : Laid s data layout) (positive : 1 ≤ inum)
    (below : inum < s.freeinode) (full : 12 ≤ (layout inum).blocks.length)
    (short : (layout inum).blocks.length < 140) (taken : State)
    (disk : taken.disk = s.disk) (freeinode : taken.freeinode = s.freeinode)
    (used : taken.usedblocks = taken.freeblock)
    (grows : s.freeblock ≤ taken.freeblock) (room : taken.freeblock < 1024)
    {index : Nat} (first : 29 ≤ index) (last : index < 1024)
    (owned : (Layout.owned
      ⟨(layout inum).blocks ++ [taken.freeblock], index⟩).Perm
        ((layout inum).owned ++ List.range' s.freeblock
          (taken.freeblock + 1 - s.freeblock)))
    (words : ∀ position < 128,
      word s.disk.mem 4 (index * 512 + 4 * position) =
        (layout inum).blocks[12 + position]?.getD 0)
    (apart : index ∉ (layout inum).blocks)
    (different : taken.freeblock ≠ index) :
    Laid
      (taken.takeBlock.store
        (index * 512 + 4 * ((layout inum).blocks.length - 12))
        (littleEndian 4 taken.freeblock))
      data (update layout inum
        ⟨(layout inum).blocks ++ [taken.freeblock], index⟩) := by
  have whole : taken.takeBlock.disk.stSize = 524288 :=
    (congrArg Image.stSize disk).trans laid.whole
  have memory : taken.takeBlock.disk.mem = s.disk.mem :=
    congrArg Image.mem disk
  have inside : 4 * ((layout inum).blocks.length - 12) +
      (littleEndian 4 taken.freeblock).length ≤ 512 := by
    rw [littleEndian_length]
    omega
  have nonzero : index ≠ 0 := by omega
  refine ⟨whole, congrArg (· + 1) used, ?_⟩
  rw [State.store_mem whole (by omega), memory, ← update_eq_self inum data]
  change Blocks _ taken.freeinode _ _ _
  rw [freeinode]
  refine laid.blocks.change positive below
    (grows.trans (Nat.le_succ _)) room owned
    ((laid.blocks.content inum positive below).enter full short nonzero words
      apart different (by omega)
      (laid.blocks.blank _ grows room))
    fun blknum unowned => agreeOn_patch _ inside ?_
  rintro rfl
  exact unowned (Layout.index_mem_owned nonzero)

theorem Laid.blocks_lt (laid : Laid s data layout) (positive : 1 ≤ inum)
    (below : inum < s.freeinode) {blknum : Nat}
    (member : blknum ∈ (layout inum).blocks) : blknum < s.freeblock :=
  (laid.blocks.owned_range positive below (List.mem_append_right _ member)).2

/-- The thirteenth block of a file is entered in an indirect block, which is
allocated first. -/
theorem iappendBlock_indexing (laid : Laid s data layout)
    (positive : 1 ≤ inum) (below : inum < s.freeinode)
    (addrs : din.addrs = (layout inum).addrs)
    (full : 12 ≤ (layout inum).blocks.length)
    (unindexed : (layout inum).index = 0) (room : s.freeblock + 2 ≤ 1024) :
    ∃ blknum index next,
      iappendBlock (layout inum).blocks.length din s =
        some (blknum,
          { din with
            addrs := Layout.addrs
              ⟨(layout inum).blocks ++ [blknum], index⟩ }, next) ∧
      Laid next data (update layout inum
        ⟨(layout inum).blocks ++ [blknum], index⟩) ∧
      next.freeblock = s.freeblock + 2 ∧ SameTable s next := by
  have first := laid.blocks.first
  have slot : (layout inum).addrs 12 = (layout inum).index :=
    if_neg (by decide)
  have exactly : (layout inum).blocks.length = 12 := by
    have notLong : ¬12 < (layout inum).blocks.length := fun long =>
      (laid.blocks.content inum positive below).indexed.mpr long unindexed
    omega
  have words : ∀ position < 128,
      word s.disk.mem 4 (s.freeblock * 512 + 4 * position) =
        (layout inum).blocks[12 + position]?.getD 0 :=
    fun position small => by
      rw [List.getElem?_eq_none (by omega), word_eq_zero fun index within => by
        rw [Nat.add_assoc]
        exact laid.blocks.blank s.freeblock le_rfl (by omega) _ (by omega)]
      rfl
  have found : indirectBlock s.freeblock ((layout inum).blocks.length - 12)
      s.takeBlock = _ :=
    @indirectBlock_new s.takeBlock laid.whole s.freeblock (by omega)
      ((layout inum).blocks.length - 12) (by omega) (by
        rw [show s.takeBlock.disk = s.disk from rfl, words _ (by omega),
          List.getElem?_eq_none (by omega)]
        rfl)
  refine ⟨_, s.freeblock, _, ?_, laid.enter positive below full (by omega)
    s.takeBlock rfl rfl (congrArg (· + 1) laid.used) (Nat.le_succ _) room
    first (by omega) ?_ words
    (fun member => (laid.blocks_lt positive below member).false)
    (Nat.succ_ne_self _), rfl, (SameTable.refl s).takeBlock.takeBlock.store
      laid.whole first (by omega) (by rw [littleEndian_length]; omega)⟩
  · rw [iappendBlock, dif_neg (by omega), addrs, slot, if_pos unindexed, found,
      Layout.addrs_indirect _ full]
    rfl
  · have two : s.freeblock + 1 + 1 - s.freeblock = 2 := by omega
    simp only [Layout.owned, State.takeBlock, unindexed, if_true, two,
      if_neg (show s.freeblock ≠ 0 by omega), List.nil_append]
    exact (@List.perm_middle _ s.freeblock (layout inum).blocks
      [s.freeblock + 1]).symm

/-- A later block of a file is entered in its indirect block. -/
theorem iappendBlock_indexed (laid : Laid s data layout)
    (positive : 1 ≤ inum) (below : inum < s.freeinode)
    (addrs : din.addrs = (layout inum).addrs)
    (full : 12 ≤ (layout inum).blocks.length)
    (short : (layout inum).blocks.length < 140)
    (indexed : (layout inum).index ≠ 0) (room : s.freeblock + 1 ≤ 1024) :
    ∃ blknum index next,
      iappendBlock (layout inum).blocks.length din s =
        some (blknum,
          { din with
            addrs := Layout.addrs
              ⟨(layout inum).blocks ++ [blknum], index⟩ }, next) ∧
      Laid next data (update layout inum
        ⟨(layout inum).blocks ++ [blknum], index⟩) ∧
      next.freeblock = s.freeblock + 1 ∧ SameTable s next := by
  have slot : (layout inum).addrs 12 = (layout inum).index :=
    if_neg (by decide)
  have range := laid.blocks.owned_range positive below
    (Layout.index_mem_owned indexed)
  have nodup := laid.blocks.owned_nodup positive below
  have apart : (layout inum).index ∉ (layout inum).blocks := by
    simp only [Layout.owned, if_neg indexed] at nodup
    exact (List.nodup_cons.mp nodup).1
  have words := (laid.blocks.content inum positive below).index indexed
  have found : indirectBlock (layout inum).index
      ((layout inum).blocks.length - 12) s = _ :=
    indirectBlock_new laid.whole (by omega) (by omega) (by
      rw [words _ (by omega), List.getElem?_eq_none (by omega)]
      rfl)
  refine ⟨_, (layout inum).index, _, ?_, laid.enter positive below full short
    s rfl rfl laid.used le_rfl room range.1 (by omega) ?_ words apart
    (by omega), rfl, (SameTable.refl s).takeBlock.store laid.whole range.1
      (by omega) (by rw [littleEndian_length]; omega)⟩
  · rw [iappendBlock, dif_neg (by omega), addrs, slot, if_neg indexed, found,
      Layout.addrs_indirect _ full, ← slot, update_eq_self, ← addrs]
    rfl
  · have one : s.freeblock + 1 - s.freeblock = 1 := by omega
    simp [Layout.owned, indexed, one]

/-- Finding or allocating a block of a file. -/
theorem exists_iappendBlock (laid : Laid s data layout)
    (positive : 1 ≤ inum) (below : inum < s.freeinode)
    (addrs : din.addrs = (layout inum).addrs) (small : fbn < 140)
    (reach : fbn ≤ (layout inum).blocks.length)
    (room : s.freeblock + Layout.claim (fbn + 1) ≤
      1024 + Layout.claim (layout inum).blocks.length) :
    ∃ blknum newLayout next,
      iappendBlock fbn din s =
        some (blknum, { din with addrs := newLayout.addrs }, next) ∧
      Laid next data (update layout inum newLayout) ∧
      newLayout.blocks[fbn]? = some blknum ∧
      newLayout.blocks.length = max (layout inum).blocks.length (fbn + 1) ∧
      next.freeblock + Layout.claim (layout inum).blocks.length =
        s.freeblock + Layout.claim newLayout.blocks.length ∧
      SameTable s next := by
  have content := laid.blocks.content inum positive below
  rcases Nat.lt_or_ge fbn (layout inum).blocks.length with has | lacks
  · refine ⟨_, layout inum, s, ?_, ?_, List.getElem?_eq_getElem has, by omega,
      rfl, SameTable.refl s⟩
    · rw [← addrs]
      exact iappendBlock_existing laid positive below addrs small
        (List.getElem?_eq_getElem has)
    · rw [update_eq_self]
      exact laid
  · obtain rfl : fbn = (layout inum).blocks.length := by omega
    unfold Layout.claim at room ⊢
    rcases Nat.lt_or_ge (layout inum).blocks.length 12 with direct | full
    · obtain ⟨found, kept⟩ := iappendBlock_direct laid positive below addrs
        direct (by split_ifs at room <;> omega)
      refine ⟨_, _, _, found, kept, by simp, by simp, ?_,
        (SameTable.refl s).takeBlock⟩
      simp only [List.length_append, List.length_singleton, State.takeBlock]
      split_ifs <;> omega
    · have indexed := content.indexed
      have grown : ∃ blknum index next,
          iappendBlock (layout inum).blocks.length din s =
            some (blknum,
              { din with
                addrs := Layout.addrs
                  ⟨(layout inum).blocks ++ [blknum], index⟩ }, next) ∧
          Laid next data (update layout inum
            ⟨(layout inum).blocks ++ [blknum], index⟩) ∧
          next.freeblock =
            s.freeblock + (if (layout inum).index = 0 then 2 else 1) ∧
          SameTable s next := by
        split_ifs with unindexed
        · exact iappendBlock_indexing laid positive below addrs full unindexed
            (by split_ifs at room <;> omega)
        · exact iappendBlock_indexed laid positive below addrs full small
            unindexed (by split_ifs at room <;> omega)
      obtain ⟨blknum, index, next, found, kept, counted, same⟩ := grown
      refine ⟨_, _, _, found, kept, by simp, by simp, ?_, same⟩
      simp only [List.length_append, List.length_singleton, counted]
      split_ifs <;> omega

end AppendBlock

section Full

variable {s next : State} {fbn x : Nat} {din newDin : Dinode}

theorem rsect_eq_none {sec : Nat} (whole : s.disk.stSize = 524288)
    (behind : 1024 ≤ sec) : rsect sec s = none :=
  if_neg (by omega)

theorem rsect_indirectBlock_full (whole : s.disk.stSize = 524288)
    (full : 1024 ≤ s.freeblock) {index entry : Nat} (inside : index < 1024)
    (small : entry < 128)
    (free : word s.disk.mem 4 (index * 512 + 4 * entry) = 0)
    (found : indirectBlock index entry s = some (x, next)) :
    rsect x next = none := by
  rw [indirectBlock_new whole inside small free] at found
  obtain ⟨rfl, rfl⟩ := Prod.mk.inj (Option.some.inj found)
  exact rsect_eq_none whole full

/-- With no block left, a new direct block lies behind the image. -/
theorem rsect_direct_full (whole : s.disk.stSize = 524288)
    {index : Fin 13} (direct : index.val < 12) (free : din.addrs index = 0)
    (full : 1024 ≤ s.freeblock)
    (found : iappendBlock index din s = some (x, newDin, next)) :
    rsect x next = none := by
  simp only [iappendBlock, dif_pos direct, Fin.eta, if_pos free,
    Option.some.injEq, Prod.mk.injEq] at found
  obtain ⟨rfl, -, rfl⟩ := found
  exact rsect_eq_none whole full

/-- With one block left, it becomes the indirect block, and the block entered
in it lies behind the image. -/
theorem rsect_indexing_full (whole : s.disk.stSize = 524288)
    (indirect : 12 ≤ fbn) (small : fbn < 140) (free : din.addrs 12 = 0)
    (full : 1023 ≤ s.freeblock)
    (blank : s.freeblock < 1024 →
      ∀ position < 512, s.disk.mem (s.freeblock * 512 + position) = 0)
    (found : iappendBlock fbn din s = some (x, newDin, next)) :
    rsect x next = none := by
  rw [iappendBlock, dif_neg (by omega), if_pos free] at found
  obtain ⟨⟨y, taken⟩, allocated, same⟩ := Option.bind_eq_some_iff.mp found
  obtain ⟨rfl, -, rfl⟩ : y = x ∧ _ ∧ taken = next := by
    simpa using same
  rcases Nat.lt_or_ge s.freeblock 1024 with one | none
  · have empty : word s.disk.mem 4 (s.freeblock * 512 + 4 * (fbn - 12)) = 0 :=
      word_eq_zero fun index within => by
        rw [Nat.add_assoc]
        exact blank one _ (by omega)
    exact @rsect_indirectBlock_full s.takeBlock _ _ whole
      (Nat.succ_le_succ full) _ _ one (by omega) empty allocated
  · rw [indirectBlock, @rsect_eq_none s.takeBlock _ whole none] at allocated
    cases allocated

/-- With no block left, a block entered in the indirect block lies behind the
image. -/
theorem rsect_indexed_full (whole : s.disk.stSize = 524288)
    (indirect : 12 ≤ fbn) (small : fbn < 140) (indexed : din.addrs 12 ≠ 0)
    (inside : din.addrs 12 < 1024)
    (free : word s.disk.mem 4 (din.addrs 12 * 512 + 4 * (fbn - 12)) = 0)
    (full : 1024 ≤ s.freeblock)
    (found : iappendBlock fbn din s = some (x, newDin, next)) :
    rsect x next = none := by
  rw [iappendBlock, dif_neg (by omega), if_neg indexed] at found
  obtain ⟨⟨y, taken⟩, allocated, same⟩ := Option.bind_eq_some_iff.mp found
  obtain ⟨rfl, -, rfl⟩ : y = x ∧ _ ∧ taken = next := by
    simpa using same
  exact rsect_indirectBlock_full whole full inside (by omega) free allocated

/-- Without room for a new block, `iappend` goes on to read a sector behind the
end of the image. -/
theorem rsect_eq_none_of_full {data : Nat → List UInt8} {layout : Nat → Layout}
    {inum : Nat} (laid : Laid s data layout)
    (positive : 1 ≤ inum) (below : inum < s.freeinode)
    (addrs : din.addrs = (layout inum).addrs) (small : fbn < 140)
    (reach : fbn ≤ (layout inum).blocks.length)
    (full : 1024 + Layout.claim (layout inum).blocks.length <
      s.freeblock + Layout.claim (fbn + 1))
    (found : iappendBlock fbn din s = some (x, newDin, next)) :
    rsect x next = none := by
  have content := laid.blocks.content inum positive below
  have last := laid.blocks.last
  obtain rfl : fbn = (layout inum).blocks.length := by
    by_contra lacks
    have less := @Layout.claim_le_claim (fbn + 1)
      (layout inum).blocks.length (by omega)
    omega
  have slot : din.addrs 12 = (layout inum).index := by
    rw [addrs]
    exact if_neg (by decide)
  have indexed := content.indexed
  unfold Layout.claim at full
  rcases Nat.lt_or_ge (layout inum).blocks.length 12 with direct | indirect
  · have free : din.addrs ⟨(layout inum).blocks.length, by omega⟩ = 0 := by
      rw [addrs, Layout.addrs, if_pos direct, List.getElem?_eq_none le_rfl,
        Option.getD_none]
    exact rsect_direct_full laid.whole direct free
      (by split_ifs at full <;> omega) found
  · by_cases unindexed : (layout inum).index = 0
    · exact rsect_indexing_full laid.whole indirect small
        (slot.trans unindexed) (by split_ifs at full <;> omega)
        (laid.blocks.blank s.freeblock le_rfl) found
    · have range := laid.blocks.owned_range positive below
        (Layout.index_mem_owned unindexed)
      have free : word s.disk.mem 4 (din.addrs 12 * 512 +
          4 * ((layout inum).blocks.length - 12)) = 0 := by
        rw [slot, content.index unindexed _ (by omega),
          List.getElem?_eq_none (by omega)]
        rfl
      have long := indexed.mp unindexed
      exact rsect_indexed_full laid.whole indirect small (slot ▸ unindexed)
        (by omega) free (by split_ifs at full <;> omega) found

end Full

section AppendLoop

variable {s : State} {data : Nat → List UInt8} {layout : Nat → Layout}
  {inum : Nat} {din : Dinode}

/-- Writing behind the data of a file in its last block. -/
theorem Laid.write (laid : Laid s data layout) (positive : 1 ≤ inum)
    (below : inum < s.freeinode) {fbn blknum position : Nat}
    (block : (layout inum).blocks[fbn]? = some blknum)
    (length : (data inum).length = 512 * fbn + position)
    {values : List UInt8} (inside : position + values.length ≤ 512) :
    Laid (s.store (blknum * 512 + position) values)
      (update data inum (data inum ++ values)) layout := by
  have owned := Layout.mem_owned_of_block block
  have range := laid.blocks.owned_range positive below owned
  have last := laid.blocks.last
  refine ⟨laid.whole, laid.used, ?_⟩
  rw [State.store_mem laid.whole (by omega)]
  have changed := laid.blocks.change positive below le_rfl last
    (by rw [Nat.sub_self, List.range'_zero, List.append_nil])
    ((laid.blocks.content inum positive below).append
      (laid.blocks.owned_nodup positive below) block length inside)
    fun other unowned => agreeOn_patch _ inside
      (fun equal => unowned (equal ▸ owned))
  rwa [update_eq_self] at changed

/-- One turn of the loop appends to the data within one block. -/
theorem exists_turn (laid : Laid s data layout) (positive : 1 ≤ inum)
    (below : inum < s.freeinode) (addrs : din.addrs = (layout inum).addrs)
    {off : Nat} (length : (data inum).length = off)
    (full : (layout inum).blocks.length = (off + 511) / 512)
    {p : List UInt8} (more : p ≠ []) (small : off / 512 < 140)
    (room : s.freeblock + Layout.claim (off / 512 + 1) ≤
      1024 + Layout.cost off) :
    ∃ n newLayout next, 0 < n ∧ n ≤ p.length ∧
      off / 512 + 1 = (off + n + 511) / 512 ∧
      iappendLoop din off p s =
        iappendLoop { din with addrs := newLayout.addrs } (off + n) (p.drop n)
          next ∧
      Laid next (update data inum (data inum ++ p.take n))
        (update layout inum newLayout) ∧
      newLayout.blocks.length = (off + n + 511) / 512 ∧
      next.freeblock + Layout.cost off =
        s.freeblock + Layout.cost (off + n) ∧
      SameTable s next := by
  have nonempty := List.length_pos_iff.mpr more
  obtain ⟨blknum, newLayout, taken, found, kept, block, blocks, counted,
    same⟩ := exists_iappendBlock laid positive below addrs small (by omega)
      (by rw [full]; exact room)
  have newBelow : inum < taken.freeinode := same.freeinode ▸ below
  have here : (update layout inum newLayout inum).blocks[off / 512]? =
      some blknum := by
    rw [update_self]
    exact block
  have range := kept.blocks.owned_range positive newBelow
    (Layout.mem_owned_of_block here)
  have last := kept.blocks.last
  have position : off - off / 512 * 512 + (p.take (min p.length
      ((off / 512 + 1) * 512 - off))).length ≤ 512 := by
    rw [List.length_take]
    omega
  refine ⟨min p.length ((off / 512 + 1) * 512 - off), newLayout, _, by omega,
    by omega, by omega, ?_, ?_, by omega, ?_,
    same.store kept.whole range.1 (by omega) position⟩
  · rw [iappendLoop, if_neg more, if_pos small, found,
      Option.bind_eq_bind, Option.bind_some]
    simp only [rsect_eq kept.whole (show blknum < 1024 by omega)]
    rw [Option.bind_eq_bind, Option.bind_some,
      wsect_patch kept.whole (by omega) position]
  · exact kept.write positive newBelow here (by omega) position
  · have final : newLayout.blocks.length = (off + min p.length
        ((off / 512 + 1) * 512 - off) + 511) / 512 := by omega
    unfold Layout.cost
    rw [← final, ← full]
    exact counted

/-- The loop of `iappend` appends all bytes to the data of a file. -/
theorem exists_iappendLoop (laid : Laid s data layout) (positive : 1 ≤ inum)
    (below : inum < s.freeinode) (addrs : din.addrs = (layout inum).addrs)
    {off : Nat} (length : (data inum).length = off)
    (full : (layout inum).blocks.length = (off + 511) / 512)
    {p : List UInt8} (bound : off + p.length ≤ 71680)
    (room : s.freeblock + Layout.cost (off + p.length) ≤
      1024 + Layout.cost off) :
    ∃ newLayout next,
      iappendLoop din off p s =
        some ({ din with addrs := newLayout.addrs }, off + p.length, next) ∧
      Laid next (update data inum (data inum ++ p))
        (update layout inum newLayout) ∧
      newLayout.blocks.length = (off + p.length + 511) / 512 ∧
      next.freeblock + Layout.cost off =
        s.freeblock + Layout.cost (off + p.length) ∧
      SameTable s next := by
  induction lengthEq : p.length using Nat.strong_induction_on
    generalizing s data layout din off p with
  | _ size ih =>
      subst lengthEq
      by_cases more : p = []
      · subst more
        refine ⟨layout inum, s, ?_, ?_, full, rfl, SameTable.refl s⟩
        · rw [iappendLoop, if_pos rfl, ← addrs]
          rfl
        · rw [List.append_nil, update_eq_self, update_eq_self]
          exact laid
      · have nonempty := List.length_pos_iff.mpr more
        have monotone : Layout.claim (off / 512 + 1) ≤
            Layout.cost (off + p.length) := Layout.claim_le_claim (by omega)
        obtain ⟨n, turned, middle, positiveTurn, within, -, looped, kept,
          blocks, counted, same⟩ := exists_turn laid positive below addrs
            length full more (by omega) (by omega)
        have left : (p.drop n).length = p.length - n := List.length_drop
        have total : off + n + (p.drop n).length = off + p.length := by omega
        obtain ⟨newLayout, next, finished, stored, final, balance, kept'⟩ :=
          ih (p.drop n).length (by omega) kept (same.freeinode ▸ below)
            (show ({ din with addrs := turned.addrs } : Dinode).addrs = _ by
              rw [update_self])
            (show (update data inum (data inum ++ p.take n) inum).length =
                off + n by
              rw [update_self, List.length_append, List.length_take]
              omega)
            (by rw [update_self]; exact blocks) (by omega)
            (by rw [total]; omega) rfl
        rw [total] at finished final balance
        rw [update_self, List.append_assoc, List.take_append_drop,
          update_idem, update_idem] at stored
        exact ⟨newLayout, next, looped.trans finished, stored, final,
          by omega, same.trans kept'⟩

/-- The loop of `iappend` succeeds only if the file stays short enough and the
image has enough blocks. -/
theorem fits_of_iappendLoop (laid : Laid s data layout) (positive : 1 ≤ inum)
    (below : inum < s.freeinode) (addrs : din.addrs = (layout inum).addrs)
    {off : Nat} (length : (data inum).length = off)
    (full : (layout inum).blocks.length = (off + 511) / 512)
    (short : off ≤ 71680) {p : List UInt8} {result : Dinode × Nat × State}
    (finished : iappendLoop din off p s = some result) :
    off + p.length ≤ 71680 ∧
      s.freeblock + Layout.cost (off + p.length) ≤
        1024 + Layout.cost off := by
  induction lengthEq : p.length using Nat.strong_induction_on
    generalizing s data layout din off p with
  | _ size ih =>
      subst lengthEq
      have last := laid.blocks.last
      by_cases more : p = []
      · subst more
        exact ⟨short, Nat.add_le_add_right last _⟩
      · by_cases small : off / 512 < 140
        · by_cases room : s.freeblock + Layout.claim (off / 512 + 1) ≤
              1024 + Layout.cost off
          · obtain ⟨n, turned, middle, positiveTurn, within, one, looped, kept,
              blocks, counted, same⟩ := exists_turn laid positive below addrs
                length full more small room
            have left : (p.drop n).length = p.length - n := List.length_drop
            have total : off + n + (p.drop n).length = off + p.length := by
              omega
            obtain ⟨bound, rest⟩ :=
              ih (p.drop n).length (by omega) kept (same.freeinode ▸ below)
                (show ({ din with addrs := turned.addrs } : Dinode).addrs = _
                  by rw [update_self])
                (show (update data inum (data inum ++ p.take n) inum).length =
                    off + n by
                  rw [update_self, List.length_append, List.length_take]
                  omega)
                (by rw [update_self]; exact blocks) (by omega)
                (looped ▸ finished) rfl
            rw [total] at bound rest
            exact ⟨bound, by omega⟩
          · rw [iappendLoop, if_neg more, if_pos small] at finished
            obtain ⟨⟨x, newDin, next⟩, found, rest⟩ :=
              Option.bind_eq_some_iff.mp finished
            have none := rsect_eq_none_of_full laid positive below addrs small
              (by omega) (by rw [full]; unfold Layout.cost at room; omega)
              found
            simp [none] at rest
        · rw [iappendLoop, if_neg more, if_neg small] at finished
          cases finished

end AppendLoop

end LinuxKernelDev.Mkfs
