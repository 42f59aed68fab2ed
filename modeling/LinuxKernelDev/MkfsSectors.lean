import LinuxKernelDev.Mkfs

/-!
# Sectors and inodes as patches of the disk

On an image of 1024 blocks, reading a sector, changing a part of it and writing
it back patches the bytes of the disk.  In these terms `winode` replaces an
inode record and `rinode` reads it back.
-/

namespace LinuxKernelDev.Mkfs

open ByteMemory

namespace State

variable {s : State}

/-- The state with bytes written at an offset of the disk. -/
def store (s : State) (offset : Nat) (values : List UInt8) : State :=
  { s with disk := { s.disk with byte := patch s.disk.mem offset values } }

theorem store_mem (whole : s.disk.stSize = 524288) {offset : Nat}
    {values : List UInt8} (inside : offset + values.length ≤ 524288) :
    (s.store offset values).disk.mem = patch s.disk.mem offset values := by
  funext address
  simp only [Image.mem, store, whole]
  split_ifs with below
  · rfl
  · rw [patch_of_le (by omega), Image.mem, whole, if_neg below]

end State

section Sectors

variable {s : State} {sec : Nat}

theorem rsect_eq (whole : s.disk.stSize = 524288) (inside : sec < 1024) :
    rsect sec s = some fun index => s.disk.mem (sec * 512 + index) := by
  rw [rsect, if_pos (by omega)]

/-- A changed copy of a sector, written back. -/
theorem wsect_patch (whole : s.disk.stSize = 524288) (inside : sec < 1024)
    {position : Nat} {values : List UInt8}
    (fits : position + values.length ≤ 512) :
    wsect sec (patch (fun index => s.disk.mem (sec * 512 + index)) position
        values) s =
      s.store (sec * 512 + position) values := by
  have size : max s.disk.stSize ((sec + 1) * 512) = s.disk.stSize := by omega
  simp only [wsect, State.store, size, writeBlock_patch s.disk.mem sec fits
    (by decide : 0 < 512)]

/-- Writing a sector leaves the others alone. -/
theorem wsect_of_ne (whole : s.disk.stSize = 524288) (inside : sec < 1024)
    (buf : Sector) {address : Nat} (other : address / 512 ≠ sec) :
    (wsect sec buf s).disk.mem address = s.disk.mem address := by
  have size : max s.disk.stSize ((sec + 1) * 512) = s.disk.stSize := by omega
  simp only [wsect, Image.mem, size, writeBlock, if_neg other]
  split_ifs <;> rfl

theorem wsect_self (s : State) (sec : Nat) (buf : Sector) {position : Nat}
    (below : position < 512) :
    (wsect sec buf s).disk.mem (sec * 512 + position) = buf position := by
  have inside : sec * 512 + position <
      max s.disk.stSize ((sec + 1) * 512) := by omega
  simp only [wsect, Image.mem, if_pos inside, writeBlock,
    if_pos (show (sec * 512 + position) / 512 = sec by omega),
    show (sec * 512 + position) % 512 = position by omega]

end Sectors

namespace Dinode

/-- Every field has the width of its type. -/
structure InRange (din : Dinode) : Prop where
  type : din.type < 65536
  major : din.major < 65536
  minor : din.minor < 65536
  nlink : din.nlink < 65536
  size : din.size < 4294967296
  addrs : ∀ index, din.addrs index < 4294967296

@[simp]
theorem bytes_length (din : Dinode) : din.bytes.length = 64 := by
  simp [bytes]

theorem read_congr {memory other : Nat → UInt8} {offset : Nat}
    (agree : ∀ index < 64, memory (offset + index) =
      other (offset + index)) :
    Dinode.read memory offset = Dinode.read other offset := by
  have same : ∀ width position, position + width ≤ 64 →
      word memory width (offset + position) =
        word other width (offset + position) :=
    fun width position inside => word_congr fun index below => by
      rw [Nat.add_assoc]
      exact agree _ (by omega)
  have addrs : ∀ index : Fin 13,
      word memory 4 (offset + 12 + 4 * index) =
        word other 4 (offset + 12 + 4 * index) := fun index => by
    rw [Nat.add_assoc]
    exact same 4 _ (by omega)
  simp only [Dinode.read, addrs, same 2 2 (by decide), same 2 4 (by decide),
    same 2 6 (by decide), same 4 8 (by decide),
    show word memory 2 offset = word other 2 offset from
      same 2 0 (by decide)]

/-- A record is read back as it was written. -/
theorem read_patch (memory : Nat → UInt8) (offset : Nat) {din : Dinode}
    (inRange : din.InRange) :
    Dinode.read (patch memory offset din.bytes) offset = din := by
  have shorts : ∀ index value,
      [din.type, din.major, din.minor, din.nlink][index]? = some value →
        word (patch memory offset din.bytes) 2 (offset + 2 * index) =
          value % 65536 := fun index value found => by
    have below := (List.getElem?_eq_some_iff.mp found).1
    rw [bytes, patch_append, length_flatMap_littleEndian,
      word_patch_of_disjoint (.inl (by simp at below ⊢; omega))]
    exact word_patch_flatMap memory offset 2 found
  have longs : ∀ index value,
      (din.size :: List.ofFn din.addrs)[index]? = some value →
        word (patch memory offset din.bytes) 4 (offset + 8 + 4 * index) =
          value % 4294967296 := fun index value found => by
    rw [bytes, patch_append, length_flatMap_littleEndian]
    exact word_patch_flatMap _ (offset + 8) 4 found
  have addrs : ∀ index : Fin 13,
      word (patch memory offset din.bytes) 4 (offset + 12 + 4 * index) =
        din.addrs index := fun index => by
    have read := longs (index + 1) (din.addrs index) (by
      rw [List.getElem?_cons_succ, List.getElem?_ofFn, dif_pos index.isLt])
    rw [Nat.mod_eq_of_lt (inRange.addrs index), Nat.mul_add] at read
    rw [← read]
    congr 1
    omega
  have type := shorts 0 _ rfl
  have major := shorts 1 _ rfl
  have minor := shorts 2 _ rfl
  have nlink := shorts 3 _ rfl
  have size := longs 0 _ rfl
  rw [Nat.mod_eq_of_lt inRange.type] at type
  rw [Nat.mod_eq_of_lt inRange.major] at major
  rw [Nat.mod_eq_of_lt inRange.minor] at minor
  rw [Nat.mod_eq_of_lt inRange.nlink] at nlink
  rw [Nat.mod_eq_of_lt inRange.size] at size
  simp only [Nat.mul_zero, Nat.add_zero, Nat.reduceMul]
    at type major minor nlink size
  simp only [Dinode.read, type, major, minor, nlink, size, addrs]

end Dinode

section Inodes

variable {s : State} {inum : Nat}

theorem inode_position (inum : Nat) :
    i2b inum * 512 + inum % 8 * 64 = Image.inodeOffset inum := by
  unfold i2b Image.inodeOffset
  omega

/-- Writing an inode changes nothing but the disk. -/
theorem exists_disk_of_winode {din : Dinode} {next : State}
    (written : winode inum din s = some next) :
    ∃ disk, next = State.note (.wrote inum) { s with disk := disk } := by
  obtain ⟨buf, -, stored⟩ := Option.bind_eq_some_iff.mp written
  exact ⟨_, (Option.some.inj stored).symm⟩

/-- A new inode has the number `freeinode`. -/
theorem exists_disk_of_ialloc {type : Nat} {next : State}
    (allocated : ialloc type s = some (inum, next)) :
    inum = s.freeinode ∧
      ∃ disk, next = { s with
        disk := disk
        freeinode := s.freeinode + 1
        events := s.events ++ [.wrote inum, .allocated inum] } := by
  obtain ⟨written, stored, same⟩ := Option.bind_eq_some_iff.mp allocated
  obtain ⟨rfl, rfl⟩ := Prod.mk.inj (Option.some.inj same)
  obtain ⟨disk, rfl⟩ := exists_disk_of_winode stored
  exact ⟨rfl, disk, by simp [State.note]⟩

theorem winode_eq (whole : s.disk.stSize = 524288) (inside : inum < 8176)
    (din : Dinode) :
    winode inum din s =
      some ((s.store (Image.inodeOffset inum) din.bytes).note
        (.wrote inum)) := by
  have sector : i2b inum < 1024 := by
    unfold i2b
    omega
  have fits : inum % 8 * 64 + din.bytes.length ≤ 512 := by
    rw [Dinode.bytes_length]
    omega
  rw [winode, rsect_eq whole sector, ← inode_position, ← wsect_patch whole
    sector fits]
  rfl

theorem rinode_eq (whole : s.disk.stSize = 524288) (inside : inum < 8176) :
    rinode inum s =
      some (Dinode.read s.disk.mem (Image.inodeOffset inum)) := by
  have sector : i2b inum < 1024 := by
    unfold i2b
    omega
  rw [rinode, rsect_eq whole sector, ← inode_position]
  simp [Dinode.read, word_window, Nat.add_assoc]

end Inodes

section Kept

variable {s next : State} {inum : Nat}

/-- The allocation of inodes is as before. -/
def Keeps (s next : State) : Prop :=
  next.freeinode = s.freeinode ∧ next.process = s.process

theorem Keeps.refl (s : State) : Keeps s s := ⟨rfl, rfl⟩

theorem Keeps.trans {middle : State} (first : Keeps s middle)
    (second : Keeps middle next) : Keeps s next :=
  ⟨second.1.trans first.1, second.2.trans first.2⟩

theorem keeps_winode {ip : Dinode}
    (done : winode inum ip s = some next) : Keeps s next := by
  obtain ⟨disk, rfl⟩ := exists_disk_of_winode done
  exact ⟨rfl, rfl⟩

/-- Only blocks are taken and written. -/
def Silent (s next : State) : Prop :=
  Keeps s next ∧ next.events = s.events

theorem Silent.refl (s : State) : Silent s s := ⟨.refl s, rfl⟩

theorem Silent.trans {middle : State} (first : Silent s middle)
    (second : Silent middle next) : Silent s next :=
  ⟨first.1.trans second.1, second.2.trans first.2⟩

theorem silent_takeBlock (s : State) : Silent s s.takeBlock :=
  ⟨⟨rfl, rfl⟩, rfl⟩

theorem silent_indirectBlock {index entry x : Nat}
    (done : indirectBlock index entry s = some (x, next)) : Silent s next := by
  obtain ⟨indirect, -, rest⟩ := Option.bind_eq_some_iff.mp done
  split at rest <;> obtain ⟨-, rfl⟩ := Prod.mk.inj (Option.some.inj rest) <;>
    exact ⟨⟨rfl, rfl⟩, rfl⟩

theorem silent_iappendBlock {fbn x : Nat} {din din' : Dinode}
    (done : iappendBlock fbn din s = some (x, din', next)) : Silent s next := by
  unfold iappendBlock at done
  by_cases direct : fbn < 12
  · rw [dif_pos direct] at done
    dsimp only at done
    split at done
    · obtain ⟨-, -, rfl⟩ : _ ∧ _ ∧ s.takeBlock = next := by simpa using done
      exact silent_takeBlock s
    · obtain ⟨-, -, rfl⟩ : _ ∧ _ ∧ s = next := by simpa using done
      exact .refl s
  · rw [dif_neg direct] at done
    split at done <;>
      obtain ⟨⟨x, middle⟩, found, same⟩ := Option.bind_eq_some_iff.mp done <;>
      obtain ⟨-, -, rfl⟩ : _ ∧ _ ∧ middle = next := by simpa using same
    · exact (silent_takeBlock s).trans (silent_indirectBlock found)
    · exact silent_indirectBlock found

theorem silent_iappendLoop {din : Dinode} {off : Nat} {p : List UInt8}
    {result : Dinode × Nat × State}
    (done : iappendLoop din off p s = some result) : Silent s result.2.2 := by
  induction lengthEq : p.length using Nat.strong_induction_on
    generalizing s din off p with
  | _ length ih =>
      rw [iappendLoop] at done
      split_ifs at done with empty small
      · obtain rfl := Option.some.inj done
        exact .refl s
      · obtain ⟨⟨x, din', middle⟩, found, rest⟩ :=
          Option.bind_eq_some_iff.mp done
        obtain ⟨buf, -, rest⟩ := Option.bind_eq_some_iff.mp rest
        have positive := List.length_pos_iff.mpr empty
        have shorter : (p.drop (min p.length
            ((off / 512 + 1) * 512 - off))).length < length := by
          rw [List.length_drop]
          omega
        have written := ih _ shorter rest rfl
        exact (silent_iappendBlock found).trans written

/-- `iappend` writes one inode, after the blocks. -/
theorem exists_silent_of_iappend {p : List UInt8}
    (done : iappend inum p s = some next) :
    ∃ middle ip, Silent s middle ∧ winode inum ip middle = some next := by
  obtain ⟨din, -, rest⟩ := Option.bind_eq_some_iff.mp done
  obtain ⟨⟨din', off, middle⟩, looped, written⟩ :=
    Option.bind_eq_some_iff.mp rest
  exact ⟨middle, _, silent_iappendLoop looped, written⟩

theorem keeps_iappend {p : List UInt8}
    (done : iappend inum p s = some next) : Keeps s next := by
  obtain ⟨middle, ip, silent, written⟩ := exists_silent_of_iappend done
  exact silent.1.trans (keeps_winode written)

theorem keeps_copyFile {contents : List UInt8}
    (done : copyFile inum contents s = some next) : Keeps s next := by
  fun_induction copyFile inum contents s with
  | case1 s =>
      obtain rfl := Option.some.inj done
      exact .refl s
  | case2 contents s nonempty ih =>
      obtain ⟨middle, appended, rest⟩ := Option.bind_eq_some_iff.mp done
      exact (keeps_iappend appended).trans (ih middle rest)

theorem keeps_addLink (done : addLink inum s = some next) :
    Keeps s next := by
  obtain ⟨din, -, written⟩ := Option.bind_eq_some_iff.mp done
  exact keeps_winode written

theorem keeps_fixSize (done : fixSize inum s = some next) :
    Keeps s next := by
  obtain ⟨din, -, written⟩ := Option.bind_eq_some_iff.mp done
  exact keeps_winode written

theorem keeps_addDirHead {parentInode : Nat}
    (done : addDirHead inum parentInode s = some next) :
    Keeps s next := by
  obtain ⟨first, appended, rest⟩ := Option.bind_eq_some_iff.mp done
  dsimp only at rest
  split_ifs at rest
  · obtain ⟨second, linked, entered⟩ := Option.bind_eq_some_iff.mp rest
    exact ((keeps_iappend appended).trans (keeps_addLink linked)).trans
      (keeps_iappend entered)
  · exact (keeps_iappend appended).trans (keeps_iappend rest)

end Kept

end LinuxKernelDev.Mkfs
