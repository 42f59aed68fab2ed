import LinuxKernelDev.StatusListing

/-!
# Reading the status files at an offset

The read callbacks copy the part of the listing that starts at the file offset
and is not longer than the buffer of the caller.  Those of `mp1.c` and `mp3.c`
compare the offset with the length of the listing.  That of `mp2.c` looks at
the sign of the difference, which it has stored in an `int`: an offset more
than 2 GiB beyond the end can look like one before it, and then the callback
copies whatever memory lies at that distance from its buffer.

An offset is an `loff_t`, an integer of 64 bits; the kernel passes no negative
ones.
-/

namespace LinuxKernelDev

open FormattedText

namespace StatusReads

/-- Kernel memory, by the distance of an address from `kbuf`. -/
abbrev Memory := Int → UInt8

/-- The memory with a text at the beginning of `kbuf`. -/
def Memory.holding (around : Memory) (kbuf : List UInt8) : Memory :=
  fun address =>
    if 0 ≤ address then kbuf.getD address.toNat (around address)
    else around address

/-- The `len` bytes from an address on. -/
def Memory.bytes (memory : Memory) (address : Int) (len : Nat) : List UInt8 :=
  (List.range len).map fun index : Nat => memory (address + index)

/-- The effect of a read: the bytes that reach the buffer of the caller, what
the callback returns, and the new offset. -/
structure Reply where
  bytes : List UInt8
  result : Int
  offset : Int
  deriving DecidableEq

/-- Conversion to a C `int`. -/
def toInt (value : Int) : Int :=
  Int.bmod value 4294967296

/-- Conversion to `size_t`. -/
def toSizeT (value : Int) : Nat :=
  (value % 18446744073709551616).toNat

/-- The end of the callbacks, with `left` bytes of the listing to come.
`copyToUser p len` is what `copy_to_user` returns for the source `kbuf + p`: the
number of bytes it has not copied.  A copy that fails has copied the bytes
before those. -/
def copyOut (copyToUser : Int → Nat → Nat) (memory : Memory)
    (failed left : Int) (len : Nat) (p : Int) : Reply :=
  let len := if toSizeT left < len then toSizeT left else len
  let uncopied := copyToUser p len
  let bytes := memory.bytes p (len - uncopied)
  if uncopied = 0 then
    ⟨bytes, len, Int.bmod (p + len) 18446744073709551616⟩
  else
    ⟨bytes, failed, p⟩

/-- A callback that compares the offset with the length of the listing.
`noMemory` and `failed` are what it returns if the buffer cannot be allocated
and if the copy fails. -/
def guardedRead (noMemory failed : Int) (kmalloc : Bool)
    (copyToUser : Int → Nat → Nat) (around : Memory) (kbuf : List UInt8)
    (len : Nat) (p : Int) : Reply :=
  let total : Int := kbuf.length
  if kmalloc then
    if total ≤ p then ⟨[], 0, p⟩
    else
      copyOut copyToUser (around.holding kbuf) failed (toInt (total - p)) len p
  else
    ⟨[], noMemory, p⟩

end StatusReads

open StatusReads

/-- `my_read` of `mp1.c`, which returns `-ENOMEM` and `-EFAULT`. -/
def CpuTracker.myRead (kmalloc : Bool) (copyToUser : Int → Nat → Nat)
    (around : Memory) (mp1listhead : List Entry) : Nat → Int → Reply :=
  guardedRead (-12) (-14) kmalloc copyToUser around (listing mp1listhead)

/-- `my_read` of `mp3.c`. -/
def Profiler.State.myRead (kmalloc : Bool) (copyToUser : Int → Nat → Nat)
    (around : Memory) (s : State) : Nat → Int → Reply :=
  guardedRead (-1) (-1) kmalloc copyToUser around s.listing

/-- `my_read` of `mp2.c`. -/
def Rms.Sched.myRead (kmalloc : Bool) (copyToUser : Int → Nat → Nat)
    (around : Memory) (s : Sched) (len : Nat) (p : Int) : Reply :=
  let total : Int := s.listing.length
  if kmalloc then
    let left := toInt (total - p)
    if left ≤ 0 then ⟨[], 0, p⟩
    else copyOut copyToUser (around.holding s.listing) (-1) left len p
  else
    ⟨[], -1, p⟩

namespace StatusReads

/-- The read of the bytes of `kbuf` from `p` on, at most `len` of them.  Behind
the end nothing is copied. -/
def served (copyToUser : Int → Nat → Nat) (failed : Int) (kbuf : List UInt8)
    (len p : Nat) : Reply :=
  let asked := (kbuf.drop p).take len
  let uncopied := copyToUser p asked.length
  if kbuf.length ≤ p then ⟨[], 0, p⟩
  else if uncopied = 0 then ⟨asked, asked.length, p + asked.length⟩
  else ⟨asked.take (asked.length - uncopied), failed, p⟩

/-- The bytes that successive reads from the offset `p` on deliver. -/
def drain (read : Nat → Int → Reply) : Int → List Nat → List UInt8
  | _, [] => []
  | p, len :: lens =>
      (read len p).bytes ++ drain read (read len p).offset lens

theorem served_of_length_le {kbuf : List UInt8} {p : Nat}
    (behind : kbuf.length ≤ p) (copyToUser : Int → Nat → Nat) (failed : Int)
    (len : Nat) : served copyToUser failed kbuf len p = ⟨[], 0, p⟩ := by
  rw [served, if_pos behind]

theorem toInt_of_lt {value : Nat} (small : value < 2147483648) :
    toInt value = value := by
  rw [toInt, Int.bmod_def]
  omega

/-- The difference of two numbers of which the second is larger is stored as a
positive `int` if they are far enough apart, modulo `2 ^ 32`. -/
theorem toInt_neg_pos_iff (distance : Nat) :
    0 < toInt (-(distance : Int)) ↔ 2147483648 < distance % 4294967296 := by
  rw [toInt, Int.bmod_def]
  split <;> omega

theorem toInt_lt (value : Int) : toInt value < 2147483648 := by
  rw [toInt, Int.bmod_def]
  split <;> omega

theorem Memory.length_bytes (memory : Memory) (address : Int) (len : Nat) :
    (memory.bytes address len).length = len := by
  simp [Memory.bytes]

/-- Inside the text, the memory does not matter. -/
theorem Memory.bytes_holding (around : Memory) {kbuf : List UInt8}
    {p len : Nat} (inside : p + len ≤ kbuf.length) :
    (around.holding kbuf).bytes p len = (kbuf.drop p).take len := by
  apply List.ext_getElem
  · rw [Memory.length_bytes, List.length_take, List.length_drop]
    omega
  · intro index here there
    rw [Memory.length_bytes] at here
    have address : ((p : Int) + index).toNat = p + index := by omega
    have held : p + index < kbuf.length := by omega
    have positive : (0 : Int) ≤ p + index := by omega
    simp [Memory.bytes, Memory.holding, address, held, positive]

theorem copyOut_of_lt (copyToUser : Int → Nat → Nat) (memory : Memory)
    (failed : Int) {left : Nat} (small : left < 2147483648) (len : Nat)
    (p : Int) :
    copyOut copyToUser memory failed left len p =
      if copyToUser p (min left len) = 0 then
        ⟨memory.bytes p (min left len - copyToUser p (min left len)),
          (min left len : Nat),
          Int.bmod (p + (min left len : Nat)) 18446744073709551616⟩
      else
        ⟨memory.bytes p (min left len - copyToUser p (min left len)),
          failed, p⟩ := by
  have size : toSizeT left = left := by
    unfold toSizeT
    omega
  have taken : (if left < len then left else len) = min left len := by
    split <;> omega
  rw [copyOut, size, taken]

/-- Before the end of the listing all callbacks serve what they are asked
for. -/
theorem copyOut_eq_served (copyToUser : Int → Nat → Nat) (around : Memory)
    (failed : Int) {kbuf : List UInt8} {p : Nat}
    (small : kbuf.length < 2147483648) (inside : p < kbuf.length) (len : Nat) :
    copyOut copyToUser (around.holding kbuf) failed (toInt (kbuf.length - p))
        len p =
      served copyToUser failed kbuf len p := by
  have asked : ((kbuf.drop p).take len).length =
      min (kbuf.length - p) len := by
    rw [List.length_take, List.length_drop, Nat.min_comm]
  have copied (uncopied : Nat) :
      (around.holding kbuf).bytes p (min (kbuf.length - p) len - uncopied) =
        ((kbuf.drop p).take len).take
          (min (kbuf.length - p) len - uncopied) := by
    rw [Memory.bytes_holding around (by omega), List.take_take]
    exact congrArg (fun count => (kbuf.drop p).take count) (by omega)
  have next : Int.bmod (p + (min (kbuf.length - p) len : Nat))
      18446744073709551616 = p + (min (kbuf.length - p) len : Nat) := by
    rw [Int.bmod_def, if_pos (by omega)]
    omega
  rw [← Int.ofNat_sub (Nat.le_of_lt inside), toInt_of_lt (by omega),
    copyOut_of_lt copyToUser _ failed (by omega), served]
  simp only [Nat.not_le.mpr inside, if_false, asked, copied, next]
  split
  · next complete => rw [complete, Nat.sub_zero, ← asked, List.take_length]
  · rfl

/-- The guard of `mp1.c` and `mp3.c` is right at every offset. -/
theorem guardedRead_eq_served (noMemory failed : Int)
    (copyToUser : Int → Nat → Nat) (around : Memory) {kbuf : List UInt8}
    (small : kbuf.length < 2147483648) (len p : Nat) :
    guardedRead noMemory failed true copyToUser around kbuf len p =
      served copyToUser failed kbuf len p := by
  unfold guardedRead
  by_cases behind : kbuf.length ≤ p
  · simp [behind, served_of_length_le behind]
  · rw [if_pos rfl, if_neg (by omega)]
    exact copyOut_eq_served copyToUser around failed small (by omega) len

end StatusReads

theorem CpuTracker.myRead_eq_served (copyToUser : Int → Nat → Nat)
    (around : Memory) (mp1listhead : List Entry) (len p : Nat) :
    myRead true copyToUser around mp1listhead len p =
      served copyToUser (-14) (listing mp1listhead) len p := by
  have bound : (listing mp1listhead).length < 10240 := length_fill_lt (by simp) _
  exact guardedRead_eq_served (-12) (-14) copyToUser around (by omega) len p

theorem Profiler.State.myRead_eq_served (copyToUser : Int → Nat → Nat)
    (around : Memory) (s : State) (len p : Nat) :
    s.myRead true copyToUser around len p =
      served copyToUser (-1) s.listing len p := by
  have bound : s.listing.length < 2048 := length_fill_lt (by simp) _
  exact guardedRead_eq_served (-1) (-1) copyToUser around (by omega) len p

namespace StatusReads

theorem bytes_served (failed : Int) (kbuf : List UInt8) (len p : Nat) :
    (served (fun _ _ => 0) failed kbuf len p).bytes =
      (kbuf.drop p).take len := by
  rw [served]
  split
  · next behind => simp [List.drop_eq_nil_of_le behind]
  · rfl

theorem result_served_nonneg (failed : Int) (kbuf : List UInt8) (len p : Nat) :
    0 ≤ (served (fun _ _ => 0) failed kbuf len p).result := by
  rw [served]
  split
  · exact Int.le_refl 0
  · exact Int.natCast_nonneg _

/-- Reads that are served from an offset inside the listing deliver what
follows there, each byte once. -/
theorem drain_eq_take {kbuf : List UInt8} {read : Nat → Int → Reply}
    {failed : Int}
    (serves : ∀ len p : Nat, p ≤ kbuf.length →
      read len p = served (fun _ _ => 0) failed kbuf len p)
    (lens : List Nat) {p : Nat} (inside : p ≤ kbuf.length) :
    drain read p lens = (kbuf.drop p).take lens.sum := by
  induction lens generalizing p with
  | nil => simp [drain]
  | cons len lens ih =>
      have bytes : (read len p).bytes = (kbuf.drop p).take len := by
        rw [serves len p inside, bytes_served]
      have offset : (read len p).offset =
          ((p + min len (kbuf.length - p) : Nat) : Int) := by
        rw [serves len p inside, served]
        split
        · simp
          omega
        · simp
      have rest : kbuf.drop (p + min len (kbuf.length - p)) =
          (kbuf.drop p).drop len := by
        rw [List.drop_drop]
        rcases Nat.le_total len (kbuf.length - p) with enough | less
        · rw [Nat.min_eq_left enough]
        · rw [List.drop_eq_nil_of_le (by omega),
            List.drop_eq_nil_of_le (by omega)]
      rw [drain, bytes, offset, ih (by omega), rest, List.sum_cons,
        List.take_add]

theorem length_listing_lt (s : Rms.Sched) : s.listing.length < 10240 :=
  length_fill_lt (by simp) _

theorem myRead_of_lt (copyToUser : Int → Nat → Nat) (around : Memory)
    (s : Rms.Sched) (len : Nat) {p : Nat} (inside : p < s.listing.length) :
    s.myRead true copyToUser around len p =
      served copyToUser (-1) s.listing len p := by
  have small := length_listing_lt s
  have positive : ¬ toInt (s.listing.length - p) ≤ 0 := by
    rw [← Int.ofNat_sub (Nat.le_of_lt inside), toInt_of_lt (by omega)]
    omega
  rw [Rms.Sched.myRead, if_pos rfl]
  dsimp only
  rw [if_neg positive]
  exact copyOut_eq_served copyToUser around (-1) (by omega) inside len

/-- Beyond the end of the listing, nothing is to be copied.  The callback does
so unless the stored difference is positive and something is asked for. -/
theorem myRead_of_le {copyToUser : Int → Nat → Nat}
    (bounded : ∀ p len, copyToUser p len ≤ len) (around : Memory)
    (s : Rms.Sched) (len : Nat) {p : Nat} (range : p < 9223372036854775808)
    (behind : s.listing.length ≤ p) :
    s.myRead true copyToUser around len p = ⟨[], 0, p⟩ ↔
      len = 0 ∨ (p - s.listing.length) % 4294967296 ≤ 2147483648 := by
  have sign := toInt_neg_pos_iff (p - s.listing.length)
  rw [show -((p - s.listing.length : Nat) : Int) = s.listing.length - p by
    omega] at sign
  rw [Rms.Sched.myRead, if_pos rfl]
  dsimp only
  by_cases positive : 0 < toInt (s.listing.length - p)
  · obtain ⟨left, stored⟩ := Int.eq_ofNat_of_zero_le (Int.le_of_lt positive)
    have bound := toInt_lt (s.listing.length - p)
    rw [if_neg (by omega), stored, copyOut_of_lt copyToUser _ (-1) (by omega)]
    have uncopied := bounded p (min left len)
    constructor
    · intro nothing
      have result := congrArg Reply.result nothing
      split at result
      · dsimp only at result
        exact Or.inl (by omega)
      · exact absurd result (by simp)
    · rintro (nothing | near)
      · rw [nothing, Nat.min_zero] at uncopied ⊢
        rw [if_pos (by omega), Nat.zero_sub, Int.bmod_def]
        simp [Memory.bytes]
        omega
      · omega
  · rw [if_pos (by omega)]
    exact iff_of_true rfl (Or.inr (by omega))

/-- Where the sign of the stored difference is right, and where it is not but
nothing is asked for, `my_read` of `mp2.c` serves what it is asked for. -/
theorem myRead_eq_served_iff {copyToUser : Int → Nat → Nat}
    (bounded : ∀ p len, copyToUser p len ≤ len) (around : Memory)
    (s : Rms.Sched) (len : Nat) {p : Nat} (range : p < 9223372036854775808) :
    s.myRead true copyToUser around len p =
        served copyToUser (-1) s.listing len p ↔
      p < s.listing.length ∨ len = 0 ∨
        (p - s.listing.length) % 4294967296 ≤ 2147483648 := by
  by_cases inside : p < s.listing.length
  · exact iff_of_true (myRead_of_lt copyToUser around s len inside)
      (Or.inl inside)
  · rw [served_of_length_le (by omega),
      myRead_of_le bounded around s len range (by omega), or_iff_right inside]

/-- `my_read` of `mp2.c` serves every read, as the other callbacks do, except
that it copies memory beyond the buffer at an offset that is more than `2 ^ 31`
bytes, modulo `2 ^ 32`, behind the end of the listing.  Successive reads never
get there: as long as the copies succeed they deliver the listing once, and then
nothing. -/
theorem myRead_serves_iff (s : Rms.Sched) (around : Memory)
    (copyToUser : Int → Nat → Nat)
    (bounded : ∀ p len, copyToUser p len ≤ len) :
    (∀ len p : Nat, p < 9223372036854775808 →
      ((s.myRead true copyToUser around len p =
            served copyToUser (-1) s.listing len p ∧
          s.myRead true copyToUser around len p =
            guardedRead (-1) (-1) true copyToUser around s.listing len p) ↔
        p < s.listing.length ∨ len = 0 ∨
          (p - s.listing.length) % 4294967296 ≤ 2147483648)) ∧
    ((∀ p len, copyToUser p len = 0) → ∀ lens : List Nat,
      drain (s.myRead true copyToUser around) 0 lens =
        s.listing.take lens.sum) ∧
    ∀ len : Nat,
      s.myRead true copyToUser around len s.listing.length =
        ⟨[], 0, s.listing.length⟩ := by
  have small := length_listing_lt s
  refine ⟨?_, ?_, ?_⟩
  · intro len p range
    rw [guardedRead_eq_served (-1) (-1) copyToUser around (by omega), and_self,
      myRead_eq_served_iff bounded around s len range]
  · intro copies lens
    obtain rfl : copyToUser = fun _ _ => 0 := by
      funext p len
      exact copies p len
    have serves : ∀ len p : Nat, p ≤ s.listing.length →
        s.myRead true (fun _ _ => 0) around len p =
          served (fun _ _ => 0) (-1) s.listing len p := by
      intro len p inside
      rw [myRead_eq_served_iff bounded around s len (by omega)]
      omega
    exact drain_eq_take serves lens (Nat.zero_le _)
  · intro len
    rw [myRead_of_le bounded around s len (by omega) (Nat.le_refl _)]
    omega

/-- Two tasks of 10 and of 25 milliseconds in 100. -/
def twoTasks : Rms.Sched :=
  ((Rms.Sched.initial.taskregister (some 0) 7 100 10 0).1.taskregister (some 1)
    8 100 25 0).1

/-- The two lines, of 11 bytes each, read from the beginning in pieces of at
most 8 bytes, and a read across the first newline. -/
theorem myRead_serves_twoTasks :
    drain (twoTasks.myRead true (fun _ _ => 0) fun _ => 0) 0 [8, 8, 8, 8] =
      chars ['7', ':', ' ', '1', '0', '0', ',', ' ', '1', '0', '\n',
        '8', ':', ' ', '1', '0', '0', ',', ' ', '2', '5', '\n'] ∧
    twoTasks.myRead true (fun _ _ => 0) (fun _ => 0) 4 (9 : Nat) =
      ⟨chars ['0', '\n', '8', ':'], 4, 13⟩ := by
  have serves := myRead_serves_iff twoTasks (fun _ => 0) (fun _ _ => 0)
    fun _ _ => Nat.zero_le _
  constructor
  · rw [serves.2.1 fun _ _ => rfl]
    decide +kernel
  · rw [((serves.1 4 9 (by decide)).mpr (Or.inl (by decide +kernel))).1]
    decide +kernel

/-- With no task registered, a read of one byte at the offset `2 ^ 31 + 1`
delivers the byte that lies there. -/
theorem myRead_copies_beyond :
    served (fun _ _ => 0) (-1) Rms.Sched.initial.listing 1 2147483649 =
        ⟨[], 0, 2147483649⟩ ∧
      Rms.Sched.initial.myRead true (fun _ _ => 0)
          (fun address => if address = 2147483649 then 42 else 0) 1
          2147483649 =
        ⟨[42], 1, 2147483650⟩ := by
  decide

end StatusReads

end LinuxKernelDev
