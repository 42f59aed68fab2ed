import LinuxKernelDev.FormattedText
import LinuxKernelDev.ProfilerArming
import LinuxKernelDev.RmsScheduler

/-!
# The listings of the status files

The read callbacks of `mp1.c`, `mp2.c` and `mp3.c` print the list of their
module into a buffer, one line for each node.  The reserve that the loops keep
is shorter than the longest line, so that a listing can end in the middle of a
line.
-/

namespace LinuxKernelDev

open FormattedText

namespace CpuTracker

/-- `struct listnode` of `mp1.c`. -/
structure Entry where
  pid : Int32
  cpuTime : UInt64
  deriving DecidableEq

/-- `"%d: %lu\n"`. -/
def Entry.line (cur : Entry) : List UInt8 :=
  signedDecimal cur.pid.toInt ++ chars [':', ' '] ++
    decimal cur.cpuTime.toNat ++ chars ['\n']

/-- The text that `my_read` prints into `kbuf`. -/
def listing (mp1listhead : List Entry) : List UInt8 :=
  fill 10240 16 Entry.line [] mp1listhead

end CpuTracker

namespace Rms

/-- `"%d: %lu, %lu\n"`. -/
def Pcb.line (temp : Pcb) : List UInt8 :=
  signedDecimal temp.pid.toInt ++ chars [':', ' '] ++ decimal temp.period ++
    chars [',', ' '] ++ decimal temp.compTime ++ chars ['\n']

/-- The line of the PCB at an address. -/
def Sched.line (s : Sched) (temp : Nat) : List UInt8 :=
  (s.pcb temp).line

/-- The text that `my_read` prints into `kbuf`. -/
def Sched.listing (s : Sched) : List UInt8 :=
  fill 10240 16 s.line [] s.mp2listhead

end Rms

namespace Profiler

/-- `"%d\n"`. -/
def line (pid : Int32) : List UInt8 :=
  signedDecimal pid.toInt ++ chars ['\n']

/-- The text that `my_read` prints into `kbuf`. -/
def State.listing (s : State) : List UInt8 :=
  fill 2048 8 line [] s.mp3head

end Profiler

namespace StatusListing

open CpuTracker Rms

/-- The listings of `mp1.c` and `mp2.c` consist of the complete lines of the
first few nodes exactly if every line that starts in the first 10224 bytes of
the buffer ends in its first 10239. -/
theorem listing_eq_lines_iff (mp1listhead : List Entry) (s : Sched) :
    ((∃ count, CpuTracker.listing mp1listhead =
        lines Entry.line mp1listhead count) ↔
      LinesFit 10240 16 Entry.line 0 mp1listhead) ∧
    ((∃ count, s.listing = lines s.line s.mp2listhead count) ↔
      LinesFit 10240 16 s.line 0 s.mp2listhead) :=
  ⟨fill_eq_lines_iff (by decide) [] mp1listhead,
    fill_eq_lines_iff (by decide) [] s.mp2listhead⟩

theorem length_signedDecimal_pid {pid : Nat} (lower : 1000000 ≤ pid)
    (upper : pid < 10000000) :
    (signedDecimal (Int32.ofNat pid).toInt).length = 7 := by
  rw [Int32.toInt_ofNat_of_lt (by omega), signedDecimal_of_nonneg (by omega)]
  exact length_decimal lower upper

/-- Processes that have all run for a second, with lines of 20 characters. -/
def busyProcesses : List Entry :=
  (List.range 512).map fun i => ⟨Int32.ofNat (1000000 + i), 1000000000⟩

/-- Tasks of one millisecond in 100 seconds, with lines of 19 characters.  No
task adds to the utilization. -/
def rareTasks : Sched :=
  { Sched.initial with
    pcb := fun i => Pcb.fresh (Int32.ofNat (1000000 + i)) 100000 1 0
    allocated := List.range 539
    mp2listhead := List.range 539 }

/-- The 512th line starts at byte 10220 and loses its newline; the 539th line
of the tasks starts at byte 10222 and loses two characters. -/
theorem listing_cuts_line :
    (¬ ∃ count, CpuTracker.listing busyProcesses =
      lines Entry.line busyProcesses count) ∧
    ¬ ∃ count, rareTasks.listing =
      lines rareTasks.line rareTasks.mp2listhead count := by
  have processLines :
      ∀ entry ∈ busyProcesses, (Entry.line entry).length = 20 := by
    intro entry mem
    obtain ⟨i, within, rfl⟩ := List.mem_map.mp mem
    rw [List.mem_range] at within
    simp only [Entry.line, List.length_append, length_chars,
      length_signedDecimal_pid (by omega : 1000000 ≤ 1000000 + i) (by omega)]
    decide
  have taskLines :
      ∀ temp ∈ rareTasks.mp2listhead, (rareTasks.line temp).length = 19 := by
    intro temp mem
    have within : temp < 539 := by simpa [rareTasks] using mem
    simp only [Sched.line, Pcb.line, rareTasks, Pcb.fresh, List.length_append,
      length_chars,
      length_signedDecimal_pid (by omega : 1000000 ≤ 1000000 + temp) (by omega)]
    decide
  have processes : busyProcesses.length = 512 := by
    simp [busyProcesses]
  have tasks : rareTasks.mp2listhead.length = 539 := by
    simp [rareTasks]
  constructor
  · exact @not_fill_eq_lines _ _ _ _ _ _ 511 (by decide) processLines
      (by omega) (by decide) (by decide)
  · exact @not_fill_eq_lines _ _ _ _ _ _ 538 (by decide) taskLines
      (by omega) (by decide) (by decide)

end StatusListing

end LinuxKernelDev
