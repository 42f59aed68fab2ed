import LinuxKernelDev.ProfilerArming
import LinuxKernelDev.ScanFormat
import Mathlib.Tactic.SplitIfs

/-!
# Commands written to the profiler

A translation of `my_write` of `mp3.c`, which reads a pid behind a letter.  It
looks at nothing behind the pid and does not trim the text.
-/

namespace LinuxKernelDev.Profiler

open ScanFormat

/-- A call that `my_write` makes. -/
inductive Command where
  | register (pid : Int32)
  | deregister (pid : Int32)
  deriving DecidableEq

namespace Command

def letter : Command → UInt8
  | register _ => 'R'.toUInt8
  | deregister _ => 'U'.toUInt8

def pid : Command → Int32
  | register pid => pid
  | deregister pid => pid

end Command

/-- `sscanf(kbuf, "R %d", &pid)`, with any letter.  The space in the format
stands for any whitespace. -/
def scanPid (letter : UInt8) : List UInt8 → Option Int32
  | [] => none
  | byte :: text =>
      if byte = letter then
        (scanInt (text.dropWhile isSpace)).map fun scanned =>
          Int32.ofInt scanned.1
      else none

/-- The call that `my_write` makes for the string in `kbuf`. -/
def parseCommand (kbuf : List UInt8) : Option Command :=
  if kbuf.head? = some 'R'.toUInt8 then
    (scanPid 'R'.toUInt8 kbuf).map .register
  else if kbuf.head? = some 'U'.toUInt8 then
    (scanPid 'U'.toUInt8 kbuf).map .deregister
  else none

/-- The call that `my_write` makes for the bytes that are written. -/
def reachedCall (copyFromUser : Bool) (bytes : List UInt8) : Option Command :=
  if 25 ≤ bytes.length ∨ bytes.length = 0 then none
  else if copyFromUser then parseCommand (cString bytes)
  else none

/-- What `my_write` returns.  It does not look at the result of the call. -/
def myWrite (copyFromUser : Bool) (bytes : List UInt8) : Int :=
  match reachedCall copyFromUser bytes with
  | none => -1
  | some _ => bytes.length

/-- The texts of a command: the letter, an integer with whitespace in front,
taken modulo `2 ^ 32`, and anything that does not go on with a digit. -/
def Command.Spells (text : List UInt8) (command : Command) : Prop :=
  ∃ body rest value, text = command.letter :: (body ++ rest) ∧
    Integer body value ∧ Stops isDigit rest ∧ Int32.ofInt value = command.pid

theorem scanInt_dropWhile (text : List UInt8) :
    scanInt (text.dropWhile isSpace) = scanInt text := by
  unfold scanInt
  rw [List.dropWhile_idempotent]

theorem scanPid_cons_eq_some_iff {letter : UInt8} {text : List UInt8}
    {pid : Int32} :
    scanPid letter (letter :: text) = some pid ↔
      ∃ body rest value, text = body ++ rest ∧ Integer body value ∧
        Stops isDigit rest ∧ Int32.ofInt value = pid := by
  rw [scanPid, if_pos rfl, scanInt_dropWhile, Option.map_eq_some_iff]
  constructor
  · rintro ⟨⟨value, rest⟩, scanned, rfl⟩
    obtain ⟨body, whole, integer, stops⟩ := scanInt_eq_some_iff.mp scanned
    exact ⟨body, rest, value, whole, integer, stops, rfl⟩
  · rintro ⟨body, rest, value, rfl, integer, stops, rfl⟩
    exact ⟨(value, rest), scanInt_of_integer integer stops, rfl⟩

theorem parseCommand_eq_some_iff {kbuf : List UInt8} {command : Command} :
    parseCommand kbuf = some command ↔ command.Spells kbuf := by
  have letters : 'U'.toUInt8 ≠ 'R'.toUInt8 := by decide
  unfold parseCommand Command.Spells
  cases kbuf with
  | nil => simp
  | cons byte text =>
      simp only [List.head?_cons, Option.some.injEq, List.cons.injEq]
      split_ifs with first second
      · subst first
        cases command with
        | register pid =>
            rw [Option.map_eq_some_iff]
            simp [scanPid_cons_eq_some_iff, Command.letter, Command.pid]
        | deregister pid =>
            simp [Command.letter, letters.symm]
      · subst second
        cases command with
        | register pid => simp [Command.letter, letters]
        | deregister pid =>
            rw [Option.map_eq_some_iff]
            simp [scanPid_cons_eq_some_iff, Command.letter, Command.pid]
      · cases command with
        | register pid => simp [Command.letter, first]
        | deregister pid => simp [Command.letter, second]

/-- `my_write` registers or deregisters a pid exactly if the text, up to its first
zero byte, spells the command; otherwise it returns -1. -/
theorem write_calls_iff (copyFromUser : Bool) (bytes : List UInt8) :
    (∀ command, reachedCall copyFromUser bytes = some command ↔
      (1 ≤ bytes.length ∧ bytes.length ≤ 24) ∧ copyFromUser = true ∧
        command.Spells (cString bytes)) ∧
    myWrite copyFromUser bytes =
      if (reachedCall copyFromUser bytes).isSome then (bytes.length : Int)
      else -1 := by
  constructor
  · intro command
    rw [← parseCommand_eq_some_iff]
    unfold reachedCall
    by_cases length : 25 ≤ bytes.length ∨ bytes.length = 0
    · rw [if_pos length]
      refine iff_of_false (by simp) fun accepted => ?_
      omega
    · rw [if_neg length, and_iff_right (by omega)]
      cases copyFromUser <;> simp
  · unfold myWrite
    cases reachedCall copyFromUser bytes <;> rfl

end LinuxKernelDev.Profiler
