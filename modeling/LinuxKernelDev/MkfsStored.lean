import LinuxKernelDev.MkfsTreeSteps
import Mathlib.Algebra.BigOperators.Ring.List
import Mathlib.Algebra.Order.BigOperators.Group.List

/-!
# An image that stores a file system

`Stored` relates the state of `mkfs` to a file system: every inode record and
its blocks hold what the file system says, and the blocks in use are those that
its files and directories own.  The relation is kept when the record of an
inode is written back after its data.
-/

namespace LinuxKernelDev.Mkfs

open ByteMemory Function LoopRules

/-- The inode record of a file or directory. -/
def Inode.dinode (inode : Inode) (layout : Layout) : Dinode :=
  ⟨inode.body.type, 0, 0, inode.nlink, inode.size, layout.addrs⟩

namespace FileSystem

/-- Number of blocks that all files and directories own. -/
def blocks (fs : FileSystem) : Nat :=
  ((List.range' 1 (fs.freeinode - 1)).map fun inum =>
    Layout.cost (fs.inodes inum).body.bytes.length).sum

/-- Every file and directory has a length that the format allows, there are
enough blocks for all of them, and nothing else stopped the run. -/
structure Fits (fs : FileSystem) : Prop where
  lengths : ∀ inum, 1 ≤ inum → inum < fs.freeinode →
    (fs.inodes inum).body.bytes.length ≤ 71680
  blocks : fs.blocks ≤ 995
  running : fs.stopped = false

variable {fs next : FileSystem}

/-- An extension has at least the blocks of the old inodes and of the new
ones. -/
theorem blocks_add_le (grown : fs.Extends next) :
    fs.blocks + ((List.range' (1 + (fs.freeinode - 1))
      (next.freeinode - 1 - (fs.freeinode - 1))).map fun inum =>
        Layout.cost (next.inodes inum).body.bytes.length).sum ≤
      next.blocks := by
  have step : ∀ inum ∈ List.range' 1 (fs.freeinode - 1),
      Layout.cost (fs.inodes inum).body.bytes.length ≤
        Layout.cost (next.inodes inum).body.bytes.length :=
    fun inum member => by
      rw [List.mem_range'_1] at member
      have bytes := (grown.inodes inum (by omega)).bytes
      exact Layout.claim_le_claim (by omega)
  have split : List.range' 1 (next.freeinode - 1) =
      List.range' 1 (fs.freeinode - 1) ++
        List.range' (1 + (fs.freeinode - 1))
          (next.freeinode - 1 - (fs.freeinode - 1)) := by
    have grows := grown.freeinode
    rw [List.range'_append_1]
    congr 1
    omega
  unfold blocks
  rw [split, List.map_append, List.sum_append]
  exact Nat.add_le_add_right (List.sum_le_sum step) _

theorem blocks_le (grown : fs.Extends next) : fs.blocks ≤ next.blocks :=
  (Nat.le_add_right _ _).trans (blocks_add_le grown)

/-- A new inode adds its blocks. -/
theorem blocks_add_cost_le (grown : fs.Extends next) {inum : Nat}
    (positive : 1 ≤ fs.freeinode) (added : fs.freeinode ≤ inum)
    (below : inum < next.freeinode) :
    fs.blocks + Layout.cost (next.inodes inum).body.bytes.length ≤
      next.blocks := by
  refine (Nat.add_le_add_left ?_ _).trans (blocks_add_le grown)
  refine List.le_sum_of_mem (List.mem_map.mpr ⟨inum, ?_, rfl⟩)
  rw [List.mem_range'_1]
  omega

theorem Fits.of_extends (fits : next.Fits) (grown : fs.Extends next) :
    fs.Fits where
  lengths inum positive below := (grown.inodes inum below).bytes.trans
    (fits.lengths inum positive (below.trans_le grown.freeinode))
  blocks := (blocks_le grown).trans fits.blocks
  running := grown.running fits.running

theorem blocks_modify {inum : Nat} (positive : 1 ≤ inum)
    (below : inum < fs.freeinode) (change : Inode → Inode) :
    (fs.modify inum change).blocks +
        Layout.cost (fs.inodes inum).body.bytes.length =
      fs.blocks +
        Layout.cost (change (fs.inodes inum)).body.bytes.length := by
  have weights : (fun other => Layout.cost
      ((fs.modify inum change).inodes other).body.bytes.length) =
        update (fun other =>
          Layout.cost (fs.inodes other).body.bytes.length) inum
          (Layout.cost (change (fs.inodes inum)).body.bytes.length) :=
    funext fun other => apply_update
      (fun _ inode => Layout.cost (Inode.body inode).bytes.length) fs.inodes
      inum (change (fs.inodes inum)) other
  unfold blocks
  rw [weights]
  exact sum_map_update (List.nodup_range' ..) _
    (Blocks.mem_inodes positive below) _

end FileSystem

theorem Blocks.congr {memory other : Nat → UInt8} {freeinode freeblock : Nat}
    {data : Nat → List UInt8} {layout : Nat → Layout}
    (blocks : Blocks memory freeinode freeblock data layout)
    (agree : ∀ blknum, 29 ≤ blknum → AgreeOn other memory blknum) :
    Blocks other freeinode freeblock data layout where
  first := blocks.first
  last := blocks.last
  content inum positive below :=
    (blocks.content inum positive below).congr fun blknum member =>
      agree blknum (blocks.owned_range positive below member).1
  owned := blocks.owned
  blank blknum above inside position within := by
    rw [agree blknum (blocks.first.trans above) position within]
    exact blocks.blank blknum above inside position within

namespace Laid

variable {s : State} {data : Nat → List UInt8} {layout : Nat → Layout}

/-- Writing before the data blocks leaves the files alone. -/
theorem table (laid : Laid s data layout) {offset : Nat} {values : List UInt8}
    (inside : offset + values.length ≤ 14848) :
    Laid (s.store offset values) data layout := by
  refine ⟨laid.whole, laid.used, ?_⟩
  rw [State.store_mem laid.whole (by omega)]
  exact laid.blocks.congr fun blknum first position _ =>
    patch_of_le (by omega)

theorem addrs_lt (laid : Laid s data layout) {inum : Nat}
    (positive : 1 ≤ inum) (below : inum < s.freeinode) (slot : Fin 13) :
    (layout inum).addrs slot < 4294967296 := by
  have last := laid.blocks.last
  unfold Layout.addrs
  split_ifs with direct
  · cases block : (layout inum).blocks[slot.val]? with
    | none => exact Nat.zero_lt_succ _
    | some blknum =>
        have range := laid.blocks.owned_range positive below
          (Layout.mem_owned_of_block block)
        rw [Option.getD_some]
        omega
  · by_cases indexed : (layout inum).index = 0
    · omega
    · have range := laid.blocks.owned_range positive below
        (Layout.index_mem_owned indexed)
      omega

end Laid

/-- The image stores the file system, with the given blocks. -/
structure Stored (s : State) (fs : FileSystem) (layout : Nat → Layout) :
    Prop where
  laid : Laid s (fun inum => (fs.inodes inum).body.bytes) layout
  freeinode : s.freeinode = fs.freeinode
  process : s.process = fs.process
  running : fs.stopped = false
  positive : 1 ≤ fs.freeinode
  table : fs.freeinode ≤ 208
  record : ∀ inum, 1 ≤ inum → inum < fs.freeinode →
    Dinode.read s.disk.mem (Image.inodeOffset inum) =
      (fs.inodes inum).dinode (layout inum)
  full : ∀ inum, 1 ≤ inum → inum < fs.freeinode →
    (layout inum).blocks.length =
      ((fs.inodes inum).body.bytes.length + 511) / 512
  lengths : ∀ inum, 1 ≤ inum → inum < fs.freeinode →
    (fs.inodes inum).body.bytes.length ≤ 71680
  free : ∀ inum < 208, inum = 0 ∨ fs.freeinode ≤ inum →
    word s.disk.mem 2 (Image.inodeOffset inum) = 0
  size : word s.disk.mem 4 512 = 1024
  nblocks : word s.disk.mem 4 516 = 995
  ninodes : word s.disk.mem 4 520 = 200

/-- Some blocks store the file system. -/
def Refines (s : State) (fs : FileSystem) : Prop := ∃ layout, Stored s fs layout

/-- A step succeeds with an image of the file system, or stops because the
file system does not fit. -/
def Outcome (fs : FileSystem) : Option State → Prop
  | some s => Refines s fs
  | none => ¬fs.Fits

namespace Stored

variable {s : State} {fs : FileSystem} {layout : Nat → Layout} {inum : Nat}

section Records

variable (stored : Stored s fs layout) (positive : 1 ≤ inum)
  (below : inum < fs.freeinode)

include stored positive below

theorem content :
    Content s.disk.mem (layout inum) (fs.inodes inum).body.bytes :=
  stored.laid.blocks.content inum positive (stored.freeinode ▸ below)

theorem nlink_lt : (fs.inodes inum).nlink < 65536 := by
  have read := congrArg Dinode.nlink (stored.record inum positive below)
  have bound : (Dinode.read s.disk.mem (Image.inodeOffset inum)).nlink <
      65536 := word_lt _ 2 _
  rwa [read] at bound

theorem size_lt : (fs.inodes inum).size < 4294967296 := by
  have read := congrArg Dinode.size (stored.record inum positive below)
  have bound : (Dinode.read s.disk.mem (Image.inodeOffset inum)).size <
      4294967296 := word_lt _ 4 _
  rwa [read] at bound

theorem rinode_eq :
    rinode inum s = some ((fs.inodes inum).dinode (layout inum)) := by
  have table := stored.table
  rw [Mkfs.rinode_eq stored.laid.whole (by omega),
    stored.record inum positive below]

theorem owned_length :
    (layout inum).owned.length =
      Layout.cost (fs.inodes inum).body.bytes.length := by
  have full := stored.full inum positive below
  have indexed := (stored.content positive below).indexed
  simp only [Layout.owned, Layout.cost, Layout.claim, ← full,
    List.length_append]
  by_cases unindexed : (layout inum).index = 0
  · rw [if_pos unindexed, if_neg fun long => indexed.mpr long unindexed,
      List.length_nil, Nat.zero_add]
  · rw [if_neg unindexed, if_pos (indexed.mp unindexed), List.length_singleton,
      Nat.add_comm]

end Records

/-- The allocated blocks are those that the files and directories own. -/
theorem freeblock_eq (stored : Stored s fs layout) :
    s.freeblock = 29 + fs.blocks := by
  have lengths := stored.laid.blocks.owned.length_eq
  have first := stored.laid.blocks.first
  rw [List.length_flatMap, List.length_range', stored.freeinode] at lengths
  have same : (List.range' 1 (fs.freeinode - 1)).map (fun inum =>
      (layout inum).owned.length) =
        (List.range' 1 (fs.freeinode - 1)).map fun inum =>
          Layout.cost (fs.inodes inum).body.bytes.length := by
    refine List.map_congr_left fun inum member => ?_
    rw [List.mem_range'_1] at member
    exact stored.owned_length member.1 (by omega)
  rw [same] at lengths
  unfold FileSystem.blocks
  omega

/-- A new inode has no blocks yet. -/
theorem laid_create (stored : Stored s fs layout) {body : Body}
    (empty : body.bytes = []) :
    Laid { s with freeinode := s.freeinode + 1 }
      (fun inum => ((fs.create body).inodes inum).body.bytes)
      (update layout fs.freeinode ⟨[], 0⟩) := by
  have positive := stored.positive
  have blocks := stored.laid.blocks
  rw [stored.freeinode] at blocks
  refine ⟨stored.laid.whole, stored.laid.used, ?_⟩
  rw [stored.freeinode]
  refine ⟨blocks.first, blocks.last, fun inum inumPositive below => ?_, ?_,
    blocks.blank⟩
  · rcases Nat.lt_succ_iff_lt_or_eq.mp below with less | rfl
    · have old : (fs.create body).inodes inum = fs.inodes inum :=
        update_of_ne less.ne _ _
      rw [update_of_ne less.ne, old]
      exact blocks.content inum inumPositive less
    · have new : (fs.create body).inodes fs.freeinode = Inode.fresh body :=
        update_self _ _ _
      have freshBody : (Inode.fresh body).body = body := by cases body <;> rfl
      rw [update_self, new, freshBody, empty]
      exact Content.nil _
  · have range : List.range' 1 (fs.freeinode + 1 - 1) =
        List.range' 1 (fs.freeinode - 1) ++ [fs.freeinode] := by
      rw [show fs.freeinode + 1 - 1 = fs.freeinode - 1 + 1 by omega,
        List.range'_1_concat]
      congr 2
      omega
    have lists : (List.range' 1 (fs.freeinode - 1)).flatMap (fun inum =>
        (update layout fs.freeinode ⟨[], 0⟩ inum).owned) =
          (List.range' 1 (fs.freeinode - 1)).flatMap fun inum =>
            (layout inum).owned := by
      refine List.flatMap_congr fun inum member => ?_
      rw [List.mem_range'_1] at member
      rw [update_of_ne (by omega)]
    rw [range, List.flatMap_append, lists, List.flatMap_singleton,
      update_self]
    simpa [Layout.owned] using blocks.owned

theorem fits (stored : Stored s fs layout) : fs.Fits := by
  have last := stored.laid.blocks.last
  have total := stored.freeblock_eq
  exact ⟨stored.lengths, by omega, stored.running⟩

theorem note (stored : Stored s fs layout) (event : Event) :
    Stored (s.note event) fs layout :=
  { stored with
    laid := ⟨stored.laid.whole, stored.laid.used, stored.laid.blocks⟩ }

theorem withProcess (stored : Stored s fs layout) (process : Process) :
    Stored { s with process := process } { fs with process := process }
      layout :=
  { stored with
    laid := ⟨stored.laid.whole, stored.laid.used, stored.laid.blocks⟩
    process := rfl }

end Stored

section Writing

variable {s next : State} {fs : FileSystem} {layout : Nat → Layout}
  {inum other : Nat}

/-- A record keeps its value when another one is written. -/
theorem read_store_of_ne (whole : next.disk.stSize = 524288)
    (inside : inum < 208) (different : other ≠ inum) (din : Dinode) :
    Dinode.read (next.store (Image.inodeOffset inum) din.bytes).disk.mem
        (Image.inodeOffset other) =
      Dinode.read next.disk.mem (Image.inodeOffset other) := by
  refine Dinode.read_congr fun index below => ?_
  unfold Image.inodeOffset
  rw [State.store_mem whole (by rw [Dinode.bytes_length]; omega)]
  rcases Nat.lt_or_gt_of_ne different with before | behind
  · exact patch_of_lt (by omega)
  · exact patch_of_le (by rw [Dinode.bytes_length]; omega)

/-- A field of the superblock keeps its value when a record is written. -/
theorem word_store_superblock (whole : next.disk.stSize = 524288)
    (inside : inum < 208) (din : Dinode) {address : Nat}
    (before : address + 4 ≤ 1024) :
    word (next.store (Image.inodeOffset inum) din.bytes).disk.mem 4 address =
      word next.disk.mem 4 address := by
  refine word_congr fun index below => ?_
  unfold Image.inodeOffset
  rw [State.store_mem whole (by rw [Dinode.bytes_length]; omega)]
  exact patch_of_lt (by omega)

/-- Writing the record of an inode that is new or has changed, after its data
has been written. -/
theorem Stored.store (stored : Stored s fs layout) {final : FileSystem}
    {newLayout : Layout}
    (memory : ∀ address < 14848, next.disk.mem address = s.disk.mem address)
    (laid : Laid next (fun other => (final.inodes other).body.bytes)
      (update layout inum newLayout))
    (freeinode : next.freeinode = final.freeinode)
    (process : next.process = final.process) (running : final.stopped = false)
    (table : final.freeinode ≤ 208) (grown : fs.freeinode ≤ final.freeinode)
    (positive : 1 ≤ inum) (below : inum < final.freeinode)
    (others : ∀ other < final.freeinode, other ≠ inum →
      other < fs.freeinode ∧ final.inodes other = fs.inodes other)
    (full : newLayout.blocks.length =
      ((final.inodes inum).body.bytes.length + 511) / 512)
    (short : (final.inodes inum).body.bytes.length ≤ 71680)
    (nlink : (final.inodes inum).nlink < 65536)
    (size : (final.inodes inum).size < 4294967296) :
    Stored (next.store (Image.inodeOffset inum)
        ((final.inodes inum).dinode newLayout).bytes) final
      (update layout inum newLayout) := by
  have whole := laid.whole
  have inside : inum < 208 := by omega
  have fits : Image.inodeOffset inum +
      ((final.inodes inum).dinode newLayout).bytes.length ≤ 14848 := by
    rw [Dinode.bytes_length, Image.inodeOffset]
    omega
  have inRange : ((final.inodes inum).dinode newLayout).InRange := by
    refine ⟨?_, Nat.zero_lt_succ _, Nat.zero_lt_succ _, nlink, size,
      fun slot => ?_⟩
    · cases body : (final.inodes inum).body <;>
        simp [Inode.dinode, Body.type, body]
    · have bound := laid.addrs_lt positive (freeinode ▸ below) slot
      rwa [update_self] at bound
  have kept : ∀ other < 208, other ≠ inum →
      Dinode.read (next.store (Image.inodeOffset inum)
        ((final.inodes inum).dinode newLayout).bytes).disk.mem
          (Image.inodeOffset other) =
        Dinode.read s.disk.mem (Image.inodeOffset other) := by
    intro other small different
    rw [read_store_of_ne whole inside different]
    refine Dinode.read_congr fun index within => memory _ ?_
    unfold Image.inodeOffset
    omega
  have superblock : ∀ address, address + 4 ≤ 1024 →
      word (next.store (Image.inodeOffset inum)
        ((final.inodes inum).dinode newLayout).bytes).disk.mem 4 address =
        word s.disk.mem 4 address := by
    intro address before
    rw [word_store_superblock whole inside _ before]
    exact word_congr fun index within => memory _ (by omega)
  refine
    { laid := laid.table fits
      freeinode := freeinode
      process := process
      running := running
      positive := stored.positive.trans grown
      table := table
      record := fun other otherPositive otherBelow => ?_
      full := fun other otherPositive otherBelow => ?_
      lengths := fun other otherPositive otherBelow => ?_
      free := fun other small unused => ?_
      size := (superblock 512 (by omega)).trans stored.size
      nblocks := (superblock 516 (by omega)).trans stored.nblocks
      ninodes := (superblock 520 (by omega)).trans stored.ninodes }
  · by_cases self : other = inum
    · subst self
      rw [State.store_mem whole (by omega), Dinode.read_patch _ _ inRange,
        update_self]
    · obtain ⟨old, same⟩ := others other otherBelow self
      rw [kept other (otherBelow.trans_le table) self, same, update_of_ne self]
      exact stored.record other otherPositive old
  · by_cases self : other = inum
    · subst self
      rwa [update_self]
    · obtain ⟨old, same⟩ := others other otherBelow self
      rw [same, update_of_ne self]
      exact stored.full other otherPositive old
  · by_cases self : other = inum
    · subst self
      exact short
    · obtain ⟨old, same⟩ := others other otherBelow self
      rw [same]
      exact stored.lengths other otherPositive old
  · have same := congrArg Dinode.type (kept other small (by omega))
    exact same.trans (stored.free other small (by omega))

/-- Writing back the record of an inode that has changed. -/
theorem Stored.winode (stored : Stored s fs layout) (same : SameTable s next)
    (positive : 1 ≤ inum) (below : inum < fs.freeinode)
    {change : Inode → Inode} {newLayout : Layout}
    (laid : Laid next
      (fun other => ((fs.modify inum change).inodes other).body.bytes)
      (update layout inum newLayout))
    (full : newLayout.blocks.length =
      ((change (fs.inodes inum)).body.bytes.length + 511) / 512)
    (short : (change (fs.inodes inum)).body.bytes.length ≤ 71680)
    (nlink : (change (fs.inodes inum)).nlink < 65536)
    (size : (change (fs.inodes inum)).size < 4294967296) :
    ∃ final,
      Mkfs.winode inum ((change (fs.inodes inum)).dinode newLayout) next =
        some final ∧
      Stored final (fs.modify inum change) (update layout inum newLayout) := by
  have table := stored.table
  have self : (fs.modify inum change).inodes inum = change (fs.inodes inum) :=
    FileSystem.modify_self inum change
  rw [← self] at full short nlink size ⊢
  refine ⟨_, winode_eq laid.whole (by omega) _, Stored.note ?_ _⟩
  exact stored.store same.memory laid (same.freeinode.trans stored.freeinode)
    (same.process.trans stored.process) stored.running table le_rfl positive
    below (fun other otherBelow different =>
      ⟨otherBelow, FileSystem.modify_of_ne different change⟩) full short nlink
    size

end Writing

end LinuxKernelDev.Mkfs
