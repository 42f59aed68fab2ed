import LinuxKernelDev.PagedViews
import LinuxKernelDev.ProfilerRing

/-!
# The mapping of the sample buffer

`mp3.c` writes samples through its own address of a buffer of 128 pages that
need not be contiguous in memory, and `monitor.c` reads them through the pages
that `mymmap` has entered into its address space.  After a `mymmap` that
returns zero both act on one array, which is the buffer of `ProfilerRing`.
-/

namespace LinuxKernelDev.SampleBuffer

open Function PagedViews

/-- The result of `vmalloc(buff_size)`: a frame for each of the pages, and no
frame for two pages. -/
structure Vmalloc where
  pfn : Nat → Nat
  distinct : ∀ first second, first < 128 → second < 128 →
    pfn first = pfn second → first = second

/-- A range of user addresses.  It consists of whole pages. -/
structure Vma where
  vmStart : Nat
  vmEnd : Nat
  ordered : vmStart ≤ vmEnd
  alignedStart : vmStart % 4096 = 0
  alignedEnd : vmEnd % 4096 = 0

/-- `remap_pfn_range` for one page: the result, and the table of the process
afterwards, for a user address, a frame and the table before. -/
abbrev RemapPfnRange := Nat → Nat → Table Nat → Int × Table Nat

/-- A call that returns zero has mapped the page of the address to the frame. -/
def RemapPfnRange.MapsPage (remapPfnRange : RemapPfnRange) : Prop :=
  ∀ usraddr pfn table, usraddr % 4096 = 0 →
    (remapPfnRange usraddr pfn table).1 = 0 →
      (remapPfnRange usraddr pfn table).2 =
        update table (usraddr / 4096) (some pfn)

namespace Vmalloc

variable (gbuffer : Vmalloc)

def vmallocToPfn (offset : Nat) : Nat := gbuffer.pfn (offset / 4096)

/-- The kernel address space, with page numbers counted from `gbuffer`. -/
def table : Table Nat := fun page =>
  if page < 128 then some (gbuffer.pfn page) else none

/-- Where the word `gbuffer[index]` is. -/
def place (index : Nat) : Nat × Nat := (gbuffer.pfn (index / 512), index % 512)

/-- `memset(gbuffer, -1, buff_size)` of `allocatebuffer`. -/
def memset (memory : Memory Nat UInt64) : Memory Nat UInt64 := fun place =>
  if place.1 ∈ (List.range 128).map gbuffer.pfn then -1 else memory place

/-- The loop of `mymmap`, with the number of its turns that are left. -/
def mapPages (remapPfnRange : RemapPfnRange) (vma : Vma) :
    Nat → Nat → Table Nat → Int × Table Nat
  | 0, _, table => (0, table)
  | turns + 1, i, table =>
      let pfn := gbuffer.vmallocToPfn i
      let usraddr := vma.vmStart + i
      let mapped := remapPfnRange usraddr pfn table
      if mapped.1 ≠ 0 then
        (-1, mapped.2)
      else
        mapPages remapPfnRange vma turns (i + 4096) mapped.2

/-- `mymmap`.  Returns the result and the table of the process. -/
def mymmap (remapPfnRange : RemapPfnRange) (vma : Vma)
    (table : Table Nat) : Int × Table Nat :=
  let usrbsize := vma.vmEnd - vma.vmStart
  if 524288 < usrbsize then
    (-1, table)
  else
    gbuffer.mapPages remapPfnRange vma ((usrbsize + 4095) / 4096) 0 table

variable {gbuffer} {remapPfnRange : RemapPfnRange} {vma : Vma}

/-- The turns that are left map one page each, in order. -/
theorem mapPages_table (mapsPage : remapPfnRange.MapsPage) {turns done : Nat}
    {table : Table Nat}
    (mapped : (gbuffer.mapPages remapPfnRange vma turns (4096 * done)
      table).1 = 0) (page : Nat) :
    (gbuffer.mapPages remapPfnRange vma turns (4096 * done) table).2 page =
      if vma.vmStart / 4096 + done ≤ page ∧
          page < vma.vmStart / 4096 + done + turns then
        some (gbuffer.pfn (page - vma.vmStart / 4096))
      else table page := by
  have aligned := vma.alignedStart
  induction turns generalizing done table with
  | zero =>
      rw [if_neg (by omega)]
      rfl
  | succ turns ih =>
      have next : 4096 * done + 4096 = 4096 * (done + 1) := by omega
      have turn : gbuffer.mapPages remapPfnRange vma (turns + 1)
          (4096 * done) table =
            gbuffer.mapPages remapPfnRange vma turns (4096 * (done + 1))
              (update table (vma.vmStart / 4096 + done)
                (some (gbuffer.pfn done))) := by
        have number : (vma.vmStart + 4096 * done) / 4096 =
            vma.vmStart / 4096 + done := by omega
        have frame : gbuffer.vmallocToPfn (4096 * done) =
            gbuffer.pfn done := by
          rw [vmallocToPfn, Nat.mul_div_cancel_left done (by decide)]
        rw [mapPages] at mapped ⊢
        split_ifs at mapped with failed
        · cases mapped
        · have page := mapsPage _ _ _ (by omega) (not_not.mp failed)
          rw [frame, number] at page
          rw [frame] at failed
          simp only [frame, if_neg failed, page, next]
      rw [turn] at mapped ⊢
      rw [ih mapped]
      by_cases here : page = vma.vmStart / 4096 + done
      · subst here
        rw [if_neg (by omega), if_pos (by omega), update_self,
          Nat.add_sub_cancel_left]
      · rw [update_of_ne here]
        exact if_congr (by omega) rfl rfl

theorem maps_kernel : Maps 512 gbuffer.table 0 65536 gbuffer.place := by
  intro index
  rw [Nat.zero_add, placeOf, table]
  by_cases within : index < 65536
  · rw [if_pos within, if_pos (by omega)]
    rfl
  · rw [if_neg within, if_neg (by omega)]
    rfl

/-- A `mymmap` of the whole buffer that returns zero shows the process the same
places. -/
theorem maps_user (mapsPage : remapPfnRange.MapsPage)
    (whole : vma.vmEnd - vma.vmStart = 524288)
    (mapped : (gbuffer.mymmap remapPfnRange vma fun _ => none).1 = 0) :
    Maps 512 (gbuffer.mymmap remapPfnRange vma fun _ => none).2
      (vma.vmStart / 8) 65536 gbuffer.place := by
  have aligned := vma.alignedStart
  have loop : gbuffer.mymmap remapPfnRange vma (fun _ => none) =
      gbuffer.mapPages remapPfnRange vma 128 (4096 * 0) fun _ => none := by
    rw [mymmap, whole, if_neg (by decide)]
  rw [loop] at mapped ⊢
  intro index
  have number : (vma.vmStart / 8 + index) / 512 =
      vma.vmStart / 4096 + index / 512 := by omega
  have offset : (vma.vmStart / 8 + index) % 512 = index % 512 := by omega
  rw [placeOf, number, offset, mapPages_table mapsPage mapped,
    Nat.add_sub_cancel_left]
  by_cases within : index < 65536
  · rw [if_pos within, if_pos (by omega)]
    rfl
  · rw [if_neg within, if_neg (by omega)]
    rfl

theorem place_distinct (first second : Nat) (firstWithin : first < 65536)
    (secondWithin : second < 65536)
    (same : gbuffer.place first = gbuffer.place second) : first = second := by
  obtain ⟨frames, offsets⟩ := Prod.mk.inj same
  have pages := gbuffer.distinct _ _ (by omega) (by omega) frames
  omega

theorem holds_memset (memory : Memory Nat UInt64) :
    Holds (gbuffer.memset memory) gbuffer.place 65536 blank := by
  intro index within
  have page : index / 512 ∈ List.range 128 := List.mem_range.mpr (by omega)
  exact if_pos (List.mem_map_of_mem page)

end Vmalloc

/-- An access to the buffer by `workhandler` or by the monitor. -/
inductive Access where
  | kernelStore (index : Nat) (value : UInt64)
  | userLoad (index : Nat)
  | userStore (index : Nat) (value : UInt64)

namespace Access

/-- The access as the models of `workhandler` and the monitor make it. -/
def onBuffer (buf : Buffer) : Access → Option (List UInt64 × Buffer)
  | .kernelStore index value | .userStore index value =>
      (store buf index value).map fun next => ([], next)
  | .userLoad index => (load buf index).map fun word => ([word], buf)

/-- The access as it is made through `gbuffer`, or through the table of the
process from `vm_start` on. -/
def onMemory (gbuffer : Vmalloc) (vma : Vma) (table : Table Nat)
    (memory : Memory Nat UInt64) :
    Access → Option (List UInt64 × Memory Nat UInt64)
  | .kernelStore index value =>
      (write 512 gbuffer.table memory index value).map
        fun next => ([], next)
  | .userLoad index =>
      (read 512 table memory (vma.vmStart / 8 + index)).map
        fun word => ([word], memory)
  | .userStore index value =>
      (write 512 table memory (vma.vmStart / 8 + index) value).map
        fun next => ([], next)

end Access

/-- A store through either address space is a store to the buffer. -/
theorem rel_store {gbuffer : Vmalloc} {table : Table Nat} {base : Nat}
    {memory : Memory Nat UInt64} {buf : Buffer}
    (maps : Maps 512 table base 65536 gbuffer.place)
    (holds : Holds memory gbuffer.place 65536 buf) (index : Nat)
    (value : UInt64) :
    Option.Rel (fun result resultBelow => result.1 = resultBelow.1 ∧
        Holds result.2 gbuffer.place 65536 resultBelow.2)
      ((write 512 table memory (base + index) value).map
        fun next => (([] : List UInt64), next))
      ((store buf index value).map fun next => (([] : List UInt64), next)) := by
  rw [maps.write_eq, store]
  split_ifs with within
  · exact .some ⟨rfl, holds.update Vmalloc.place_distinct within value⟩
  · exact .none

/-- After a `mymmap` of the whole buffer that returns zero, whatever accesses the
module and the monitor make, and in whatever order, the monitor loads from its
mapping what it would load from one array that starts out as -1. -/
theorem mapped_accesses (gbuffer : Vmalloc) (remapPfnRange : RemapPfnRange)
    (mapsPage : remapPfnRange.MapsPage) (vma : Vma)
    (whole : vma.vmEnd - vma.vmStart = 524288)
    (mapped : (gbuffer.mymmap remapPfnRange vma fun _ => none).1 = 0)
    (memory : Memory Nat UInt64) (accesses : List Access) :
    outputs (Access.onMemory gbuffer vma
        (gbuffer.mymmap remapPfnRange vma fun _ => none).2)
      (gbuffer.memset memory) accesses =
    outputs Access.onBuffer blank accesses := by
  have kernel := gbuffer.maps_kernel
  have user := Vmalloc.maps_user mapsPage whole mapped
  refine outputs_eq_of_related
    (fun memory buf => Holds memory gbuffer.place 65536 buf) ?_
    (gbuffer.holds_memset memory) accesses
  intro memory buf access holds
  cases access with
  | kernelStore index value =>
      have stored := rel_store kernel holds index value
      rwa [Nat.zero_add] at stored
  | userStore index value => exact rel_store user holds index value
  | userLoad index =>
      simp only [Access.onMemory, Access.onBuffer, user.read_eq holds, load]
      split_ifs
      · exact .some ⟨rfl, holds⟩
      · exact .none

/-- Frames in the opposite order of the pages. -/
def reversedFrames : Vmalloc where
  pfn page := 1000 - page
  distinct first second firstWithin secondWithin same := by omega

def mappedRange : Vma where
  vmStart := 40960
  vmEnd := 565248
  ordered := by decide
  alignedStart := rfl
  alignedEnd := rfl

/-- A `remap_pfn_range` that always succeeds. -/
def mapAlways : RemapPfnRange := fun usraddr pfn table =>
  (0, update table (usraddr / 4096) (some pfn))

/-- The monitor finds a word that was written at the start of a page, and clears
it. -/
theorem mapped_accesses_reversedFrames :
    outputs (Access.onMemory reversedFrames mappedRange
        (reversedFrames.mymmap mapAlways mappedRange fun _ => none).2)
      (reversedFrames.memset fun _ => 0)
      [.userLoad 512, .kernelStore 512 7, .userLoad 512, .userStore 512 (-1),
        .userLoad 512] = some [-1, 7, -1] := by
  rw [mapped_accesses reversedFrames mapAlways (fun _ _ _ _ _ => rfl)
    mappedRange rfl (by decide +kernel)]
  decide

end LinuxKernelDev.SampleBuffer
