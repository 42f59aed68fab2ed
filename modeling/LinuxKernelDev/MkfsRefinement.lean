import LinuxKernelDev.MkfsStored

/-!
# The operations on an image refine those on the file system

Each function of `mkfs` that changes inodes does on the image what the same
step does on the file system, or stops because the result does not fit the
format: a file or directory has more than 140 blocks, or all of them have more
than 995 blocks.  This holds as long as all inode numbers are below 208, the
number of slots in the inode region.
-/

namespace LinuxKernelDev.Mkfs

open ByteMemory Function LoopRules LinkedChunks

theorem Outcome.bind {fs grown : FileSystem} {result : Option State}
    {next : State → Option State} (first : Outcome fs result)
    (extends' : fs.Extends grown)
    (second : ∀ s, Refines s fs → Outcome grown (next s)) :
    Outcome grown (result.bind next) := by
  cases result with
  | none => exact fun fits => first (fits.of_extends extends')
  | some s => exact second s first

namespace Refines

variable {s : State} {fs : FileSystem} {inum : Nat}

theorem iappend (refines : Refines s fs) (positive : 1 ≤ inum)
    (below : inum < fs.freeinode)
    (size : (fs.inodes inum).size = (fs.inodes inum).body.bytes.length)
    {p : List UInt8} {change : Inode → Inode}
    (type : (change (fs.inodes inum)).body.type = (fs.inodes inum).body.type)
    (bytes : (change (fs.inodes inum)).body.bytes =
      (fs.inodes inum).body.bytes ++ p)
    (nlink : (change (fs.inodes inum)).nlink = (fs.inodes inum).nlink)
    (grows : (change (fs.inodes inum)).size =
      (fs.inodes inum).size + p.length) :
    Outcome (fs.modify inum change) (Mkfs.iappend inum p s) := by
  obtain ⟨layout, stored⟩ := refines
  have read := stored.rinode_eq positive below
  have full := stored.full inum positive below
  have short := stored.lengths inum positive below
  have narrow := stored.nlink_lt positive below
  have running : inum < s.freeinode := stored.freeinode.symm ▸ below
  have counted := stored.freeblock_eq
  have balance := FileSystem.blocks_modify positive below change
  have length : (change (fs.inodes inum)).body.bytes.length =
      (fs.inodes inum).size + p.length := by
    rw [bytes, List.length_append, size]
  rw [← size] at full short
  rw [length, ← size] at balance
  unfold Mkfs.iappend
  rw [read, Option.bind_eq_bind, Option.bind_some]
  by_cases room : (fs.inodes inum).size + p.length ≤ 71680 ∧
      s.freeblock + Layout.cost ((fs.inodes inum).size + p.length) ≤
        1024 + Layout.cost (fs.inodes inum).size
  · obtain ⟨newLayout, next, finished, laid, blocks, -, same⟩ :=
      exists_iappendLoop stored.laid positive running
        (rfl : ((fs.inodes inum).dinode (layout inum)).addrs = _) size.symm
        full room.1 room.2
    have data : update (fun other => (fs.inodes other).body.bytes) inum
        ((fs.inodes inum).body.bytes ++ p) =
          fun other => ((fs.modify inum change).inodes other).body.bytes := by
      rw [← bytes]
      exact funext fun other => (apply_update
        (fun _ inode => (Inode.body inode).bytes) fs.inodes inum
        (change (fs.inodes inum)) other).symm
    rw [data] at laid
    obtain ⟨final, written, kept⟩ := stored.winode same positive below laid
      (by rw [blocks, length]) (by omega) (by omega) (by omega)
    have record : ({ (fs.inodes inum).dinode (layout inum) with
        addrs := newLayout.addrs
        size := (fs.inodes inum).size + p.length } : Dinode) =
          (change (fs.inodes inum)).dinode newLayout := by
      simp only [Inode.dinode, type, nlink, grows]
    rw [show ((fs.inodes inum).dinode (layout inum)).size =
      (fs.inodes inum).size from rfl, finished]
    simp only [Option.bind_eq_bind, Option.bind_some, record, written]
    exact ⟨_, kept⟩
  · have stops : iappendLoop ((fs.inodes inum).dinode (layout inum))
        ((fs.inodes inum).dinode (layout inum)).size p s = none := by
      by_contra some
      obtain ⟨result, finished⟩ := Option.ne_none_iff_exists'.mp some
      exact room (fits_of_iappendLoop stored.laid positive running rfl
        size.symm full short finished)
    rw [stops]
    intro fits
    have bound := fits.lengths inum positive below
    have total := fits.blocks
    rw [FileSystem.modify_self, length] at bound
    exact room ⟨bound, by omega⟩

theorem enter (refines : Refines s fs) (directory : fs.IsDirectory inum)
    (size : (fs.inodes inum).size = (fs.inodes inum).body.bytes.length)
    (entry : Dirent) :
    Outcome (fs.enter inum entry) (Mkfs.iappend inum entry.bytes s) := by
  obtain ⟨positive, below, isDirectory⟩ := directory
  refine refines.iappend positive below size ?_ ?_ rfl rfl
  · cases body : (fs.inodes inum).body <;> simp [Inode.enter, Body.enter, body]
    rfl
  · cases body : (fs.inodes inum).body with
    | file data => simp [body, Body.type] at isDirectory
    | directory dirents =>
        simp [Inode.enter, Body.enter, Body.bytes, body]

theorem append (refines : Refines s fs) (file : fs.IsFile inum)
    (size : (fs.inodes inum).size = (fs.inodes inum).body.bytes.length)
    (added : List UInt8) :
    Outcome (fs.modify inum (Inode.append added))
      (Mkfs.iappend inum added s) := by
  obtain ⟨positive, below, isFile⟩ := file
  refine refines.iappend positive below size ?_ ?_ rfl rfl
  · cases body : (fs.inodes inum).body <;>
      simp [Inode.append, Body.append, body]
    rfl
  · cases body : (fs.inodes inum).body with
    | file data => simp [Inode.append, Body.append, Body.bytes, body]
    | directory dirents => simp [body, Body.type] at isFile

/-- The bytes of a file are appended in blocks of 512. -/
theorem copyFile (refines : Refines s fs) (file : fs.IsFile inum)
    (size : (fs.inodes inum).size = (fs.inodes inum).body.bytes.length)
    (contents : List UInt8) :
    Outcome (fs.modify inum (Inode.append contents))
      (Mkfs.copyFile inum contents s) := by
  induction lengthEq : contents.length using Nat.strong_induction_on
    generalizing s fs contents with
  | _ length ih =>
      subst lengthEq
      by_cases more : contents = []
      · subst more
        have same : fs.modify inum (Inode.append []) = fs := by
          have unchanged : (fs.inodes inum).append [] = fs.inodes inum := by
            obtain ⟨nlink, size, data | dirents⟩ := fs.inodes inum <;>
              simp [Inode.append, Body.append]
          simp only [FileSystem.modify, unchanged, update_eq_self]
        rw [Mkfs.copyFile, if_pos rfl, same]
        exact refines
      · have nonempty := List.length_pos_iff.mpr more
        have joined : (fs.modify inum
            (Inode.append (contents.take 512))).modify inum
              (Inode.append (contents.drop 512)) =
            fs.modify inum (Inode.append contents) := by
          have twice : ((fs.inodes inum).append (contents.take 512)).append
              (contents.drop 512) = (fs.inodes inum).append contents := by
            obtain ⟨nlink, size, data | dirents⟩ := fs.inodes inum <;>
              simp [Inode.append, Body.append, Nat.add_assoc,
                ← List.length_append, -List.length_take, -List.length_drop]
          simp only [FileSystem.modify, update_self, update_idem, twice]
        have grown := (FileSystem.Extends.refl (fs.modify inum
          (Inode.append (contents.take 512)))).modify inum
            (Inode.Grows.append (contents.drop 512))
        rw [Mkfs.copyFile, if_neg more, ← joined]
        refine (refines.append file size _).bind grown fun s refines => ?_
        refine ih (contents.drop 512).length
          (by rw [List.length_drop]; omega) refines
          (file.extend ((FileSystem.Extends.refl fs).modify inum
            (Inode.Grows.append _))) ?_ (contents.drop 512) rfl
        rw [FileSystem.modify_self]
        obtain ⟨-, -, isFile⟩ := file
        cases body : (fs.inodes inum).body with
        | file data =>
            simp [Inode.append, Body.append, Body.bytes, body, size]
        | directory dirents => simp [body, Body.type] at isFile

/-- Writing back a record in which only the link count or the size is new. -/
theorem winode (refines : Refines s fs) (positive : 1 ≤ inum)
    (below : inum < fs.freeinode) {change : Inode → Inode}
    (body : (change (fs.inodes inum)).body = (fs.inodes inum).body)
    (nlink : (change (fs.inodes inum)).nlink < 65536)
    (size : (change (fs.inodes inum)).size < 4294967296) :
    ∃ next, (Mkfs.rinode inum s).bind (fun din =>
        Mkfs.winode inum
          { din with
            nlink := (change (fs.inodes inum)).nlink
            size := (change (fs.inodes inum)).size } s) = some next ∧
      Refines next (fs.modify inum change) := by
  obtain ⟨layout, stored⟩ := refines
  have data : (fun other => ((fs.modify inum change).inodes other).body.bytes) =
      fun other => (fs.inodes other).body.bytes := by
    funext other
    by_cases same : other = inum
    · subst same
      rw [FileSystem.modify_self, body]
    · rw [FileSystem.modify_of_ne same]
  have laid : Laid s
      (fun other => ((fs.modify inum change).inodes other).body.bytes)
      (update layout inum (layout inum)) := by
    rw [data, update_eq_self]
    exact stored.laid
  obtain ⟨next, written, kept⟩ := stored.winode (SameTable.refl s) positive
    below laid (by rw [body]; exact stored.full inum positive below)
    (by rw [body]; exact stored.lengths inum positive below) nlink size
  refine ⟨next, ?_, _, kept⟩
  rw [stored.rinode_eq positive below, Option.bind_some, ← written]
  simp only [Inode.dinode, body]

theorem addLink (refines : Refines s fs) (positive : 1 ≤ inum)
    (below : inum < fs.freeinode)
    (narrow : (fs.inodes inum).nlink + 1 < 65536) :
    ∃ next, Mkfs.addLink inum s = some next ∧
      Refines next (fs.modify inum Inode.link) := by
  obtain ⟨layout, stored⟩ := id refines
  obtain ⟨next, written, kept⟩ := refines.winode positive below
    (rfl : (Inode.link (fs.inodes inum)).body = _) narrow
    (stored.size_lt positive below)
  refine ⟨next, ?_, kept⟩
  rw [← written, Mkfs.addLink, stored.rinode_eq positive below,
    Option.bind_eq_bind, Option.bind_some, Option.bind_some]
  rfl

theorem fixSize (refines : Refines s fs) (positive : 1 ≤ inum)
    (below : inum < fs.freeinode)
    (size : (fs.inodes inum).size = (fs.inodes inum).body.bytes.length) :
    ∃ next, Mkfs.fixSize inum s = some next ∧
      Refines next (fs.modify inum Inode.fixSize) := by
  obtain ⟨layout, stored⟩ := id refines
  have short := stored.lengths inum positive below
  obtain ⟨next, written, kept⟩ := refines.winode positive below
    (rfl : (Inode.fixSize (fs.inodes inum)).body = _)
    (stored.nlink_lt positive below)
    (show ((fs.inodes inum).size / 512 + 1) * 512 < 4294967296 by omega)
  refine ⟨next, ?_, kept⟩
  rw [← written, Mkfs.fixSize, stored.rinode_eq positive below,
    Option.bind_eq_bind, Option.bind_some, Option.bind_some]
  rfl

theorem ialloc (refines : Refines s fs) (room : fs.freeinode < 208)
    {body : Body} (empty : body.bytes = []) :
    ∃ next, Mkfs.ialloc body.type s = some (fs.freeinode, next) ∧
      Refines next (fs.create body) := by
  obtain ⟨layout, stored⟩ := refines
  have new : (fs.create body).inodes fs.freeinode = Inode.fresh body :=
    update_self _ _ _
  have emptyNew : (Inode.fresh body).body.bytes = [] := by
    rw [show (Inode.fresh body).body = body by cases body <;> rfl, empty]
  have record : (⟨body.type, 0, 0, if body.type = 1 then 2 else 1, 0,
      fun _ => 0⟩ : Dinode) = (Inode.fresh body).dinode ⟨[], 0⟩ := by
    have addrs : (fun _ => 0) = Layout.addrs ⟨[], 0⟩ := by
      funext slot
      simp [Layout.addrs]
    cases body <;> simp [Inode.dinode, Inode.fresh, Body.type, addrs]
  have created : Stored (State.store { s with freeinode := s.freeinode + 1 }
      (Image.inodeOffset fs.freeinode)
      ((Inode.fresh body).dinode ⟨[], 0⟩).bytes) (fs.create body)
        (update layout fs.freeinode ⟨[], 0⟩) := by
    rw [← new] at emptyNew ⊢
    refine stored.store (fun _ _ => rfl) (stored.laid_create empty)
      (congrArg (· + 1) stored.freeinode) stored.process stored.running room
      (Nat.le_succ _) stored.positive (Nat.lt_succ_self _)
      (fun other below different => ?_) ?_ ?_ ?_ ?_
    · exact ⟨lt_of_le_of_ne (Nat.lt_succ_iff.mp below) different,
        update_of_ne different _ _⟩
    · rw [emptyNew]
      rfl
    · rw [emptyNew]
      exact Nat.zero_le _
    · rw [new]
      cases body <;> simp [Inode.fresh]
    · rw [new]
      cases body <;> simp [Inode.fresh]
  refine ⟨_, ?_, _, (created.note (.wrote fs.freeinode)).note
    (.allocated fs.freeinode)⟩
  have written := @winode_eq { s with freeinode := s.freeinode + 1 }
    fs.freeinode stored.laid.whole (by omega)
    ((Inode.fresh body).dinode ⟨[], 0⟩)
  rw [← stored.freeinode] at written ⊢
  rw [Mkfs.ialloc, record]
  simp only [written, Option.bind_eq_bind, Option.bind_some]

theorem withProcess (refines : Refines s fs) (process : Process) :
    Refines { s with process := process } { fs with process := process } :=
  refines.imp fun _ stored => stored.withProcess process

theorem setLinks (refines : Refines s fs) (links : Chunks HardLinkMapNode) :
    Refines (s.setLinks links) (fs.setLinks links) := by
  obtain ⟨layout, stored⟩ := id refines
  rw [State.setLinks, stored.process]
  exact refines.withProcess _

theorem setDescriptors (refines : Refines s fs) (descriptors : Nat) :
    Refines (s.setDescriptors descriptors)
      (fs.setDescriptors descriptors) := by
  obtain ⟨layout, stored⟩ := id refines
  rw [State.setDescriptors, stored.process]
  exact refines.withProcess _

theorem openFile (refines : Refines s fs) :
    Outcome fs.openFile (Mkfs.openFile s) := by
  obtain ⟨layout, stored⟩ := id refines
  unfold Mkfs.openFile FileSystem.openFile
  rw [stored.process]
  split
  · exact refines.setDescriptors _
  · exact fun fits => Bool.noConfusion fits.running

theorem closeFile (refines : Refines s fs) :
    Refines (Mkfs.closeFile s) fs.closeFile := by
  obtain ⟨layout, stored⟩ := id refines
  rw [Mkfs.closeFile, stored.process]
  exact refines.setDescriptors _

/-- The inode of a host file, unless the search through the map comes to
nothing. -/
theorem fetchHardLink (refines : Refines s fs) (hostINode nlinks : UInt32)
    (chunk : Option Chunk)
    (table : (fs.fetch hostINode nlinks chunk).2.freeinode ≤ 208) :
    (Mkfs.fetchHardLink hostINode nlinks chunk s = none ∧
      (fs.fetch hostINode nlinks chunk).2.stopped = true) ∨
    ∃ next, Mkfs.fetchHardLink hostINode nlinks chunk s =
        some ((fs.fetch hostINode nlinks chunk).1, next) ∧
      Refines next (fs.fetch hostINode nlinks chunk).2 := by
  obtain ⟨layout, stored⟩ := id refines
  unfold Mkfs.fetchHardLink
  rw [stored.process]
  cases found : findNode hostINode fs.process.links with
  | none => exact .inl ⟨rfl, by simp [FileSystem.fetch, found,
      FileSystem.stop]⟩
  | some result =>
    cases result with
    | found last curr =>
        rw [FileSystem.fetch_found found]
        exact .inr ⟨_, rfl, refines.setLinks _⟩
    | missing last =>
      cases chunk with
      | none => exact .inl ⟨rfl, by simp [FileSystem.fetch, found,
          FileSystem.stop]⟩
      | some chunk =>
          rw [FileSystem.fetch_new found] at table ⊢
          obtain ⟨next, allocated, kept⟩ :=
            refines.ialloc table (rfl : (Body.file []).bytes = [])
          obtain ⟨_, keptStored⟩ := id kept
          refine .inr ⟨_, ?_, kept.setLinks _⟩
          simp only [show Mkfs.ialloc 2 s = _ from allocated,
            Option.bind_eq_bind, Option.bind_some, keptStored.process]
          rfl

end Refines

end LinuxKernelDev.Mkfs
