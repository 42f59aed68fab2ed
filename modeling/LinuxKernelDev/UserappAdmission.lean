import LinuxKernelDev.StatusReads
import LinuxKernelDev.SubstringSearch

/-!
# The admission test of the user program

After writing its registration, `userapp.c` reads the status file of `mp2.c`
and looks for its pid, followed by a colon, with `strstr`.  A colon stands only
behind the pid of a line, but the search does not ask for the beginning of the
line: it also finds the pid as the last digits of a longer one.
-/

namespace LinuxKernelDev

open FormattedText ScanFormat StatusReads SubstringSearch

namespace Rms

/-- `sprintf(pidstr, "%d:", pid)`. -/
def pidstr (pid : Int32) : List UInt8 :=
  signedDecimal pid.toInt ++ chars [':'] ++ [0]

namespace Sched

/-- The admission test in `main` of `userapp.c`: a read of up to 4095 bytes
from the beginning of the file, and the search if the read succeeds. -/
def admitted (kmalloc : Bool) (copyToUser : Int → Nat → Nat) (around : Memory)
    (s : Sched) (pid : Int32) : Bool :=
  let read := s.myRead kmalloc copyToUser around 4095 0
  if 0 ≤ read.result then
    let readbuf := read.bytes ++ [0]
    (strstr readbuf (pidstr pid)).isSome
  else
    false

/-- A task with the pid is on the list. -/
def Registered (s : Sched) (pid : Int32) : Prop :=
  ∃ temp ∈ s.mp2listhead, (s.pcb temp).pid = pid

instance (s : Sched) (pid : Int32) : Decidable (s.Registered pid) :=
  inferInstanceAs (Decidable (∃ temp ∈ s.mp2listhead, (s.pcb temp).pid = pid))

end Sched

/-- The part of a line between the colon and the newline. -/
def Pcb.parameters (temp : Pcb) : List UInt8 :=
  chars [' '] ++ decimal temp.period ++ chars [',', ' '] ++
    decimal temp.compTime

theorem Pcb.line_eq (temp : Pcb) :
    temp.line =
      signedDecimal temp.pid.toInt ++ 58 :: (temp.parameters ++ [10]) := by
  have colon : chars [':', ' '] = [58, 32] := by decide
  have space : chars [' '] = [32] := by decide
  have newline : chars ['\n'] = [10] := by decide
  simp [Pcb.line, Pcb.parameters, colon, space, newline]

end Rms

namespace UserappAdmission

open Rms

/-- A byte of printed text that is not a digit. -/
theorem notMem_decimal {byte : UInt8} (other : byte < 48 ∨ 57 < byte)
    (value : Nat) : byte ∉ decimal value := by
  intro member
  obtain ⟨lower, upper⟩ := mem_decimal member
  rcases other with below | above
  · exact UInt8.not_lt.mpr lower below
  · exact UInt8.not_lt.mpr upper above

theorem notMem_signedDecimal {byte : UInt8} (other : byte < 48 ∨ 57 < byte)
    (notMinus : byte ≠ 45) (value : Int) : byte ∉ signedDecimal value := by
  have minus : chars ['-'] = [45] := by decide
  unfold signedDecimal
  split_ifs
  · rw [minus, List.singleton_append, List.mem_cons, not_or]
    exact ⟨notMinus, notMem_decimal other _⟩
  · exact notMem_decimal other _

theorem notMem_parameters {byte : UInt8} (other : byte < 48 ∨ 57 < byte)
    (notSpace : byte ≠ 32) (notComma : byte ≠ 44) (temp : Pcb) :
    byte ∉ temp.parameters := by
  have space : chars [' '] = [32] := by decide
  have comma : chars [',', ' '] = [44, 32] := by decide
  simp [Pcb.parameters, space, comma, notSpace, notComma,
    notMem_decimal other]

/-- The sign of a printed number is not part of its last digits. -/
theorem decimal_suffix_signedDecimal {last : Nat} {value : Int} :
    decimal last <:+ signedDecimal value ↔ EndsIn value.natAbs last := by
  have minus : chars ['-'] = [45] := by decide
  rw [← decimal_suffix_iff]
  unfold signedDecimal
  split_ifs
  · have ends : decimal last <:+ [] ++ 45 :: decimal value.natAbs ↔
        decimal last <:+ decimal value.natAbs :=
      suffix_append_cons_iff (notMem_decimal (by decide) last)
    rwa [minus]
  · exact Iff.rfl

/-- The search in the complete listing. -/
theorem isSome_strstr_iff (tasks : List Pcb) {pid : Int32}
    (positive : 0 < pid.toInt) :
    (strstr (tasks.flatMap Pcb.line ++ [0]) (pidstr pid)).isSome = true ↔
      ∃ temp ∈ tasks, EndsIn temp.pid.toInt.natAbs pid.toInt.natAbs := by
  have colon : chars [':'] = [58] := by decide
  have needle : cString (pidstr pid) = decimal pid.toInt.natAbs ++ [58] := by
    rw [pidstr, colon, signedDecimal_of_nonneg (by omega)]
    apply cString_terminated
    simp [notMem_decimal]
  have haystack : cString (tasks.flatMap Pcb.line ++ [0]) =
      tasks.flatMap fun temp => signedDecimal temp.pid.toInt ++
        58 :: (temp.parameters ++ [10]) := by
    rw [cString_terminated]
    · exact List.flatMap_congr fun temp _ => temp.line_eq
    · intro member
      obtain ⟨temp, -, inLine⟩ := List.mem_flatMap.mp member
      rw [temp.line_eq] at inLine
      have notPid : (0 : UInt8) ∉ signedDecimal temp.pid.toInt :=
        notMem_signedDecimal (by decide) (by decide) _
      have notParameters : (0 : UInt8) ∉ temp.parameters :=
        notMem_parameters (by decide) (by decide) (by decide) temp
      simp [notPid, notParameters] at inLine
  rw [strstr, isSome_find_iff, needle, haystack, infix_flatMap_iff]
  · simp only [decimal_suffix_signedDecimal]
  · exact fun temp _ => notMem_signedDecimal (by decide) (by decide) _
  · exact fun temp _ => notMem_parameters (by decide) (by decide) (by decide) _
  · decide
  · exact notMem_decimal (by decide) _

/-- The test finds a task whose pid ends in the digits of the pid it looks
for. -/
theorem admitted_iff {s : Sched} {pid : Int32} (around : Memory)
    (positive : 0 < pid.toInt)
    (fits : (s.mp2listhead.flatMap s.line).length ≤ 4095) :
    s.admitted true (fun _ _ => 0) around pid = true ↔
      ∃ temp ∈ s.mp2listhead,
        EndsIn (s.pcb temp).pid.toInt.natAbs pid.toInt.natAbs := by
  have complete : s.listing = s.mp2listhead.flatMap s.line := by
    rw [Sched.listing, fill_eq_flatMap (by rw [List.length_nil]; omega),
      List.nil_append]
  have short : s.listing.length ≤ 4095 := by rwa [complete]
  have read : s.myRead true (fun _ _ => 0) around 4095 (0 : Nat) =
      served (fun _ _ => 0) (-1) s.listing 4095 0 := by
    rw [myRead_eq_served_iff (fun _ _ => Nat.zero_le _) around s 4095
      (by decide), Nat.zero_sub]
    exact Or.inr (Or.inr (by decide))
  have whole : (served (fun _ _ => 0) (-1) s.listing 4095 0).bytes =
      (s.mp2listhead.map s.pcb).flatMap Pcb.line := by
    rw [bytes_served, List.drop_zero, List.take_of_length_le short, complete,
      List.flatMap_map]
    rfl
  have found := isSome_strstr_iff (s.mp2listhead.map s.pcb) positive
  rw [← whole] at found
  rw [Int.natCast_zero] at read
  rw [Sched.admitted, read, if_pos (result_served_nonneg _ _ _ _)]
  simpa using found

/-- While the listing fits in the buffer of the user program, its test tells
whether the pid is on the list, unless the pid is not there but one that ends
in its digits is. -/
theorem admitted_iff_registered_iff (s : Sched) (around : Memory) (pid : Int32)
    (positive : 0 < pid.toInt)
    (fits : (s.mp2listhead.flatMap s.line).length ≤ 4095) :
    (s.admitted true (fun _ _ => 0) around pid = true ↔ s.Registered pid) ↔
      s.Registered pid ∨ ∀ temp ∈ s.mp2listhead,
        ¬EndsIn (s.pcb temp).pid.toInt.natAbs pid.toInt.natAbs := by
  rw [admitted_iff around positive fits]
  have registered : s.Registered pid → ∃ temp ∈ s.mp2listhead,
      EndsIn (s.pcb temp).pid.toInt.natAbs pid.toInt.natAbs := by
    rintro ⟨temp, listed, rfl⟩
    exact ⟨temp, listed, EndsIn.refl _⟩
  constructor
  · intro agrees
    by_cases onList : s.Registered pid
    · exact Or.inl onList
    · exact Or.inr fun temp listed ends =>
        onList (agrees.mp ⟨temp, listed, ends⟩)
  · rintro (onList | noneEnds)
    · exact iff_of_true (registered onList) onList
    · have notFound : ¬∃ temp ∈ s.mp2listhead,
          EndsIn (s.pcb temp).pid.toInt.natAbs pid.toInt.natAbs :=
        fun ⟨temp, listed, ends⟩ => noneEnds temp listed ends
      exact iff_of_false notFound fun onList => notFound (registered onList)

/-- A task that uses 60 percent of the processor is registered, with a pid
that ends in 12. -/
def busyTask : Sched :=
  (Sched.initial.taskregister (some 0) 112 100 60 0).1

/-- A second task, which would use 20 percent, is rejected. -/
def rejectedTask : Sched :=
  (busyTask.taskregister (some 1) 12 100 20 0).1

theorem admitted_iff_registered_busyTask :
    busyTask.admitted true (fun _ _ => 0) (fun _ => 0) 13 = true ↔
      busyTask.Registered 13 :=
  (admitted_iff_registered_iff busyTask (fun _ => 0) 13 (by decide)
    (by decide +kernel)).mpr (Or.inr (by decide +kernel))

/-- The rejected task takes itself for admitted. -/
theorem admitted_rejectedTask :
    (rejectedTask.mp2listhead.flatMap rejectedTask.line).length ≤ 4095 ∧
      rejectedTask.admitted true (fun _ _ => 0) (fun _ => 0) 12 = true ∧
      ¬rejectedTask.Registered 12 := by
  decide +kernel

end UserappAdmission

end LinuxKernelDev
