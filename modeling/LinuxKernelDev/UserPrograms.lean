import LinuxKernelDev.ProfilerCommands
import LinuxKernelDev.RmsCommands
import LinuxKernelDev.RmsStatus
import LinuxKernelDev.TrackerCommands

/-!
# What the user programs write and read

The texts that the user programs write to the status files, and the listings
that they read.  What a user program prints is what its module reads, and what
a module lists determines what is registered.
-/

namespace LinuxKernelDev

open DecimalText FormattedText ScanFormat

namespace CpuTracker

/-- What `userapp.c` prints to register: `"%d\n"`. -/
def registrationText (currpid : Int32) : List UInt8 :=
  signedDecimal currpid.toInt ++ chars ['\n']

end CpuTracker

namespace Rms

/-- What `userapp.c` prints for a command: `"R,%d,%d,%d"`, `"Y,%d"` and
`"D,%d"`. -/
def Command.text (command : Command) : List UInt8 :=
  command.letter :: command.arguments.flatMap fun value =>
    ','.toUInt8 :: signedDecimal value.toInt

end Rms

namespace Profiler

/-- What `work.c` makes the shell print for a command: `"R %u\n"` and
`"U %u\n"`. -/
def Command.text (command : Command) : List UInt8 :=
  command.letter ::
    (chars [' '] ++ decimal command.pid.toUInt32.toNat ++ chars ['\n'])

end Profiler

namespace UserPrograms

theorem stops_nil (kind : UInt8 → Bool) : Stops kind [] := by
  intro byte first
  simp at first

/-- Integers that are printed behind commas. -/
theorem fields_flatMap (values : List Int32) :
    Fields (values.flatMap fun value =>
        ','.toUInt8 :: signedDecimal value.toInt)
      (values.map Int32.toInt) [] := by
  induction values with
  | nil => exact .nil []
  | cons value values ih =>
      rw [List.flatMap_cons, List.map_cons, List.cons_append]
      refine .cons (integer_signedDecimal value.toInt) ?_ ih
      cases values with
      | nil => exact stops_nil _
      | cons next values => exact stops_cons (by decide)

theorem length_flatMap_le (values : List Int32) :
    (values.flatMap fun value =>
        ','.toUInt8 :: signedDecimal value.toInt).length ≤
      12 * values.length := by
  induction values with
  | nil => simp
  | cons value values ih =>
      have digits := length_signedDecimal_le value
      rw [List.flatMap_cons, List.length_append, List.length_cons,
        List.length_cons]
      omega

theorem rms_text_read_back (findTask : Int32 → Bool) (command : Rms.Command)
    (found : command.TaskFound findTask) :
    Rms.reachedCall true findTask command.text = some command := by
  have arguments : command.arguments.length ≤ 3 := by
    cases command <;> simp [Rms.Command.arguments]
  have digits := length_flatMap_le command.arguments
  refine Rms.reachedCall_of_spells ?_ ?_ ⟨⟨_, [], ?_,
    fields_flatMap command.arguments, List.forall_mem_nil _⟩, found⟩
  · simp [Rms.Command.text]
  · rw [Rms.Command.text, List.length_cons]
    omega
  · rw [List.append_nil]
    rfl

theorem tracker_text_read_back (pid : Int32) :
    CpuTracker.reachedPid true (CpuTracker.registrationText pid) = .ok pid := by
  have digits := length_signedDecimal_le pid
  have newline : chars ['\n'] = ['\n'.toUInt8] := rfl
  refine CpuTracker.reachedPid_eq_ok_iff.mpr ⟨?_, rfl, ?_⟩
  · rw [CpuTracker.registrationText, List.length_append, newline,
      List.length_singleton]
    omega
  · refine ⟨signedDecimal pid.toInt, ['\n'.toUInt8], [], ?_,
      numeral_signedDecimal pid.toInt, List.forall_mem_singleton.mpr rfl,
      by simp⟩
    rw [List.append_nil]
    rfl

/-- A pid that is printed as an unsigned number is read back modulo
`2 ^ 32`. -/
theorem ofInt_toUInt32 (pid : Int32) :
    Int32.ofInt (pid.toUInt32.toNat : Int) = pid := by
  rw [Int32.ofInt_eq_ofNat, ← Int32.toBitVec_inj, Int32.toBitVec_ofNat']
  exact (BitVec.ofNat_toNat 32 pid.toBitVec).trans (BitVec.setWidth_eq _)

theorem profiler_text_read_back (command : Profiler.Command) :
    Profiler.reachedCall true command.text = some command := by
  have newline : chars ['\n'] = ['\n'.toUInt8] := rfl
  have space : chars [' '] = [' '.toUInt8] := rfl
  have small : command.pid.toUInt32.toNat < 10 ^ 10 :=
    Nat.lt_trans command.pid.toUInt32.toNat_lt (by decide)
  have digits := length_decimal_le (by decide) small
  have integer : Integer
      ([' '.toUInt8] ++ decimal command.pid.toUInt32.toNat)
      command.pid.toUInt32.toNat := by
    have printed := Integer.unsigned
      (List.forall_mem_singleton.mpr rfl :
        ∀ byte ∈ [' '.toUInt8], isSpace byte)
      (fun byte member => isDigit_of_mem_decimal member)
      (decimal_ne_nil command.pid.toUInt32.toNat)
    rwa [digitsValue_decimal] at printed
  have noZero : 0 ∉ command.text := by
    rw [Profiler.Command.text, newline, space, List.mem_cons, List.mem_append,
      not_or, not_or]
    refine ⟨?_, integer.zero_notMem, by decide⟩
    cases command with
    | register pid => exact (by decide : (0 : UInt8) ≠ 'R'.toUInt8)
    | deregister pid => exact (by decide : (0 : UInt8) ≠ 'U'.toUInt8)
  have spelled : command.Spells command.text :=
    ⟨_, ['\n'.toUInt8], _, rfl, integer, stops_cons (by decide),
      ofInt_toUInt32 command.pid⟩
  rw [Profiler.reachedCall, if_neg, if_pos rfl, cString_of_zero_notMem noZero]
  · exact Profiler.parseCommand_eq_some_iff.mpr spelled
  · rw [Profiler.Command.text, newline, space, List.length_cons,
      List.length_append, List.length_append, List.length_singleton,
      List.length_singleton]
    omega

/-- Every command that the user programs write is the command that their module
reads, for all pids and parameters; a registration with the scheduler needs its
task to exist. -/
theorem commands_read_back (pid : Int32) (findTask : Int32 → Bool)
    (command : Rms.Command) (request : Profiler.Command) :
    CpuTracker.reachedPid true (CpuTracker.registrationText pid) = .ok pid ∧
      (command.TaskFound findTask →
        Rms.reachedCall true findTask command.text = some command) ∧
      Profiler.reachedCall true request.text = some request :=
  ⟨tracker_text_read_back pid, rms_text_read_back findTask command,
    profiler_text_read_back request⟩

theorem commands_read_back_register :
    (Rms.Command.register 5 10 1).TaskFound (fun _ => true) ∧
      Rms.reachedCall true (fun _ => true) (Rms.Command.register 5 10 1).text =
        some (.register 5 10 1) :=
  ⟨rfl, (commands_read_back 5 (fun _ => true) (.register 5 10 1)
    (.register 5)).2.1 rfl⟩

section Listings

theorem code_entry : Code CpuTracker.Entry.line := by
  intro first second rest other same
  have colon : chars [':', ' '] = [58, 32] := rfl
  have newline : chars ['\n'] = [10] := rfl
  simp only [CpuTracker.Entry.line, colon, newline, List.append_assoc,
    List.cons_append, List.nil_append] at same
  obtain ⟨pids, times⟩ := signedDecimal_append_inj (stops_cons (by decide))
    (stops_cons (by decide)) same
  obtain ⟨values, rests⟩ := decimal_append_inj (stops_cons (by decide))
    (stops_cons (by decide)) (List.cons.inj (List.cons.inj times).2).2
  refine ⟨?_, (List.cons.inj rests).2⟩
  obtain ⟨pid, cpuTime⟩ := first
  obtain ⟨pid', cpuTime'⟩ := second
  obtain rfl : pid = pid' := Int32.toInt_inj.mp pids
  obtain rfl : cpuTime = cpuTime' := UInt64.toNat_inj.mp values
  rfl

theorem flatMap_entryLine_entries (s : Rms.Sched) :
    s.entries.flatMap Rms.entryLine = s.mp2listhead.flatMap s.line := by
  rw [Rms.Sched.entries, List.flatMap_map]
  rfl

theorem code_entryLine : Code Rms.entryLine := by
  intro first second rest other same
  have colon : chars [':', ' '] = [58, 32] := rfl
  have comma : chars [',', ' '] = [44, 32] := rfl
  have newline : chars ['\n'] = [10] := rfl
  simp only [Rms.entryLine, colon, comma, newline, List.append_assoc,
    List.cons_append, List.nil_append] at same
  obtain ⟨pids, periods⟩ := signedDecimal_append_inj (stops_cons (by decide))
    (stops_cons (by decide)) same
  obtain ⟨samePeriods, times⟩ := decimal_append_inj (stops_cons (by decide))
    (stops_cons (by decide)) (List.cons.inj (List.cons.inj periods).2).2
  obtain ⟨sameTimes, rests⟩ := decimal_append_inj (stops_cons (by decide))
    (stops_cons (by decide)) (List.cons.inj (List.cons.inj times).2).2
  exact ⟨Prod.ext (Int32.toInt_inj.mp pids) (Prod.ext samePeriods sameTimes),
    (List.cons.inj rests).2⟩

theorem code_pid : Code Profiler.line := by
  intro first second rest other same
  have newline : chars ['\n'] = [10] := rfl
  simp only [Profiler.line, newline, List.append_assoc, List.cons_append,
    List.nil_append] at same
  obtain ⟨pids, rests⟩ := signedDecimal_append_inj (stops_cons (by decide))
    (stops_cons (by decide)) same
  exact ⟨Int32.toInt_inj.mp pids, (List.cons.inj rests).2⟩

/-- Lines that end in something are not empty. -/
theorem append_chars_ne_nil (text : List UInt8) (byte : Char) :
    text ++ chars [byte] ≠ [] := by
  simp [chars]

/-- As long as all lines end before the mark, the status file of `mp1.c` tells
exactly which processes are registered and with what times, in their order. -/
theorem processListing_eq_iff {entries entries' : List CpuTracker.Entry}
    (fits : (entries.flatMap CpuTracker.Entry.line).length < 10224)
    (fits' : (entries'.flatMap CpuTracker.Entry.line).length < 10224) :
    CpuTracker.listing entries = CpuTracker.listing entries' ↔
      entries = entries' :=
  code_entry.fill_eq_iff (fun _ => append_chars_ne_nil _ _) fits fits'

theorem processListing_eq_iff_swapped :
    CpuTracker.listing [⟨5, 7⟩, ⟨57, 0⟩] ≠
      CpuTracker.listing [⟨57, 0⟩, ⟨5, 7⟩] := by
  have differ := processListing_eq_iff
    (by decide : ([⟨5, 7⟩, ⟨57, 0⟩].flatMap
      CpuTracker.Entry.line).length < 10224)
    (by decide : ([⟨57, 0⟩, ⟨5, 7⟩].flatMap
      CpuTracker.Entry.line).length < 10224)
  exact fun same => absurd (differ.mp same) (by decide)

/-- As long as all lines end before the mark, the status file of `mp2.c` tells
exactly which tasks are registered and with what parameters, in their order. -/
theorem taskListing_eq_iff {s s' : Rms.Sched}
    (fits : (s.mp2listhead.flatMap s.line).length < 10224)
    (fits' : (s'.mp2listhead.flatMap s'.line).length < 10224) :
    s.listing = s'.listing ↔ s.entries = s'.entries := by
  rw [← flatMap_entryLine_entries] at fits fits'
  rw [s.listing_eq_fill_entries, s'.listing_eq_fill_entries]
  exact code_entryLine.fill_eq_iff (fun _ => append_chars_ne_nil _ _) fits fits'

/-- Two tasks of 10 and of 25 milliseconds in 100, registered by two processes
one after the other. -/
def registeredBy (first second : Int32) : Rms.Sched :=
  ((Rms.Sched.initial.taskregister (some 0) first 100 10 0).1.taskregister
    (some 1) second 100 25 0).1

theorem taskListing_eq_iff_swapped :
    (registeredBy 7 8).entries = [(7, 100, 10), (8, 100, 25)] ∧
      (registeredBy 7 8).listing ≠ (registeredBy 8 7).listing := by
  have differ := taskListing_eq_iff
    (by decide +kernel : ((registeredBy 7 8).mp2listhead.flatMap
      (registeredBy 7 8).line).length < 10224)
    (by decide +kernel : ((registeredBy 8 7).mp2listhead.flatMap
      (registeredBy 8 7).line).length < 10224)
  exact ⟨by decide +kernel,
    fun same => absurd (differ.mp same) (by decide +kernel)⟩

/-- As long as all lines end before the mark, the status file of `mp3.c` tells
exactly which pids are registered, in their order. -/
theorem pidListing_eq_iff {s s' : Profiler.State}
    (fits : (s.mp3head.flatMap Profiler.line).length < 2040)
    (fits' : (s'.mp3head.flatMap Profiler.line).length < 2040) :
    s.listing = s'.listing ↔ s.mp3head = s'.mp3head :=
  code_pid.fill_eq_iff (fun _ => append_chars_ne_nil _ _) fits fits'

theorem pidListing_eq_iff_joined :
    { Profiler.State.initial with mp3head := [5, 57] }.listing ≠
      { Profiler.State.initial with mp3head := [557] }.listing := by
  have differ := @pidListing_eq_iff
    { Profiler.State.initial with mp3head := [5, 57] }
    { Profiler.State.initial with mp3head := [557] } (by decide) (by decide)
  exact fun same => absurd (differ.mp same) (by decide)

end Listings

end UserPrograms

end LinuxKernelDev
