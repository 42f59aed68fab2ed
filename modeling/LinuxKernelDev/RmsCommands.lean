import LinuxKernelDev.ScanFormat
import Mathlib.Tactic.SplitIfs

/-!
# Commands written to the scheduler

A translation of `my_write` of `mp2.c`, which parses a line written to
`/proc/mp2/status` and calls `taskregister`, `taskyield` or `deregister`.  The
conversion `,%c` at the end of the formats is there to reject text behind the
last integer, but catches only text that begins with a comma and a further
character.
-/

namespace LinuxKernelDev.Rms

open ScanFormat

/-- A call that `my_write` makes, with its arguments. -/
inductive Command where
  | register (pid period compTime : Int32)
  | yield (pid : Int32)
  | deregister (pid : Int32)
  deriving DecidableEq

/-- `"R,%d,%d,%d,%c"`. -/
def registerFormat : List Directive :=
  [.literal 'R'.toUInt8, .literal ','.toUInt8, .int, .literal ','.toUInt8, .int,
    .literal ','.toUInt8, .int, .literal ','.toUInt8, .char]

/-- `"Y,%d,%c"`. -/
def yieldFormat : List Directive :=
  [.literal 'Y'.toUInt8, .literal ','.toUInt8, .int, .literal ','.toUInt8,
    .char]

/-- `"D,%d,%c"`. -/
def deregisterFormat : List Directive :=
  [.literal 'D'.toUInt8, .literal ','.toUInt8, .int, .literal ','.toUInt8,
    .char]

/-- The call that `my_write` makes for the string in `kbuf`, after `strim`.
`findTask` tells for which pids `find_task_by_pid` finds a task. -/
def parseCommand (findTask : Int32 → Bool) (kbuf : List UInt8) :
    Option Command :=
  if kbuf.head? = some 'R'.toUInt8 then
    match sscanf registerFormat kbuf with
    | [.int pid, .int period, .int compTime] =>
        if findTask pid then some (.register pid period compTime) else none
    | _ => none
  else if kbuf.head? = some 'Y'.toUInt8 then
    match sscanf yieldFormat kbuf with
    | [.int pid] => some (.yield pid)
    | _ => none
  else if kbuf.head? = some 'D'.toUInt8 then
    match sscanf deregisterFormat kbuf with
    | [.int pid] => some (.deregister pid)
    | _ => none
  else
    none

/-- The call that `my_write` makes for the bytes that are written.
`copyFromUser` tells whether the copy into `kbuf` succeeds. -/
def reachedCall (copyFromUser : Bool) (findTask : Int32 → Bool)
    (bytes : List UInt8) : Option Command :=
  if 51 ≤ bytes.length ∨ bytes.length = 0 then none
  else if copyFromUser then parseCommand findTask (strim (cString bytes))
  else none

/-- `my_write`, for a state that only the calls change.  Returns the result
and the state. -/
def myWrite {σ : Type} (copyFromUser : Bool) (findTask : Int32 → Bool)
    (call : Command → σ → Bool × σ) (bytes : List UInt8) (state : σ) :
    Int × σ :=
  match reachedCall copyFromUser findTask bytes with
  | none => (-1, state)
  | some command =>
      match call command state with
      | (true, state) => (bytes.length, state)
      | (false, state) => (-1, state)

namespace Command

def letter : Command → UInt8
  | register _ _ _ => 'R'.toUInt8
  | yield _ => 'Y'.toUInt8
  | deregister _ => 'D'.toUInt8

def arguments : Command → List Int32
  | register pid period compTime => [pid, period, compTime]
  | yield pid => [pid]
  | deregister pid => [pid]

/-- A task is registered only if it exists. -/
def TaskFound (findTask : Int32 → Bool) : Command → Prop
  | register pid _ _ => findTask pid = true
  | yield _ => True
  | deregister _ => True

end Command

/-- The grammar of the commands: up to trailing whitespace, a line is the
letter of the command and its arguments in decimal, each behind a comma, with
whitespace allowed before an integer.  -/
def Spells (findTask : Int32 → Bool) (bytes : List UInt8) (command : Command) :
    Prop :=
  (∃ text trail, bytes = command.letter :: (text ++ trail) ∧
    Fields text (command.arguments.map Int32.toInt) [] ∧
      ∀ byte ∈ trail, isSpace byte) ∧
    command.TaskFound findTask

/-- The line as `sscanf` sees it, which ends before the first zero byte, has the
form of a command but for one of three defects: something other than a comma
and a further character stands behind the last integer, a zero byte has hidden
the end of the line, or an integer is out of the range of an `int`.  A
registration names, modulo `2 ^ 32`, a task that exists. -/
def Sloppy (findTask : Int32 → Bool) (bytes : List UInt8) : Prop :=
  ∃ (command : Command) (text rest : List UInt8) (values : List Int),
    strim (cString bytes) = command.letter :: text ∧
      Fields text values rest ∧ ¬ Extra rest ∧
        values.map Int32.ofInt = command.arguments ∧
          command.TaskFound findTask ∧
            (rest ≠ [] ∨ 0 ∈ bytes ∨
              ∃ value ∈ values, value < -2147483648 ∨ 2147483647 < value)

variable {findTask : Int32 → Bool} {bytes kbuf : List UInt8}
  {command : Command}

@[simp]
theorem sscanf_registerFormat (text : List UInt8) :
    sscanf registerFormat ('R'.toUInt8 :: text) =
      sscanf (fieldsFormat 3) text := by
  rw [registerFormat, sscanf, if_pos rfl]
  rfl

@[simp]
theorem sscanf_yieldFormat (text : List UInt8) :
    sscanf yieldFormat ('Y'.toUInt8 :: text) = sscanf (fieldsFormat 1) text := by
  rw [yieldFormat, sscanf, if_pos rfl]
  rfl

@[simp]
theorem sscanf_deregisterFormat (text : List UInt8) :
    sscanf deregisterFormat ('D'.toUInt8 :: text) =
      sscanf (fieldsFormat 1) text := by
  rw [deregisterFormat, sscanf, if_pos rfl]
  rfl

/-- The three branches of the parser in one: a command is found if its format
makes just the conversions for its arguments. -/
theorem parseCommand_eq_some_iff :
    parseCommand findTask kbuf = some command ↔
      ∃ text, kbuf = command.letter :: text ∧
        sscanf (fieldsFormat command.arguments.length) text =
          command.arguments.map .int ∧
        command.TaskFound findTask := by
  constructor
  · intro parsed
    unfold parseCommand at parsed
    split_ifs at parsed with isR isY isD
    · obtain ⟨text, rfl⟩ := List.head?_eq_some_iff.mp isR
      rw [sscanf_registerFormat] at parsed
      split at parsed
      · rename_i pid period compTime converted
        split_ifs at parsed with found
        obtain rfl := Option.some.inj parsed
        exact ⟨text, rfl, converted, found⟩
      · cases parsed
    · obtain ⟨text, rfl⟩ := List.head?_eq_some_iff.mp isY
      rw [sscanf_yieldFormat] at parsed
      split at parsed
      · rename_i pid converted
        obtain rfl := Option.some.inj parsed
        exact ⟨text, rfl, converted, trivial⟩
      · cases parsed
    · obtain ⟨text, rfl⟩ := List.head?_eq_some_iff.mp isD
      rw [sscanf_deregisterFormat] at parsed
      split at parsed
      · rename_i pid converted
        obtain rfl := Option.some.inj parsed
        exact ⟨text, rfl, converted, trivial⟩
      · cases parsed
  · rintro ⟨text, rfl, converted, found⟩
    cases command with
    | register pid period compTime =>
        have conversions : sscanf (fieldsFormat 3) text =
          [.int pid, .int period, .int compTime] := converted
        have exists' : findTask pid = true := found
        simp [parseCommand, Command.letter, conversions, exists']
    | yield pid =>
        have conversions : sscanf (fieldsFormat 1) text = [.int pid] :=
          converted
        have notR : 'Y'.toUInt8 ≠ 'R'.toUInt8 := by decide
        simp [parseCommand, Command.letter, conversions, notR]
    | deregister pid =>
        have conversions : sscanf (fieldsFormat 1) text = [.int pid] :=
          converted
        have notR : 'D'.toUInt8 ≠ 'R'.toUInt8 := by decide
        have notY : 'D'.toUInt8 ≠ 'Y'.toUInt8 := by decide
        simp [parseCommand, Command.letter, conversions, notR, notY]

/-- A line reaches a call if `sscanf` sees the fields of its arguments, modulo
`2 ^ 32`, and behind them nothing that `,%c` would convert. -/
theorem reachedCall_eq_some_iff (nonempty : 1 ≤ bytes.length)
    (short : bytes.length ≤ 50) :
    reachedCall true findTask bytes = some command ↔
      ∃ text rest values, strim (cString bytes) = command.letter :: text ∧
        Fields text values rest ∧ ¬ Extra rest ∧
          values.map Int32.ofInt = command.arguments ∧
            command.TaskFound findTask := by
  rw [reachedCall, if_neg (by omega), if_pos rfl, parseCommand_eq_some_iff]
  constructor
  · rintro ⟨text, starts, converted, found⟩
    obtain ⟨values, rest, read, none, stored⟩ :=
      sscanf_fieldsFormat_iff.mp converted
    exact ⟨text, rest, values, starts, read, none, stored, found⟩
  · rintro ⟨text, rest, values, starts, read, none, stored, found⟩
    exact ⟨text, starts,
      sscanf_fieldsFormat_iff.mpr ⟨values, rest, read, none, stored⟩, found⟩

theorem Command.arguments_ne_nil (command : Command) :
    command.arguments ≠ [] := by
  cases command <;> simp [Command.arguments]

/-- A line of the grammar loses its trailing whitespace, and nothing else. -/
theorem Spells.strim_eq (spelled : Spells findTask bytes command) :
    0 ∉ bytes ∧ ∃ text, strim (cString bytes) = command.letter :: text ∧
      Fields text (command.arguments.map Int32.toInt) [] := by
  obtain ⟨⟨text, trail, rfl, read, spaces⟩, _⟩ := spelled
  have noZero : 0 ∉ command.letter :: (text ++ trail) := by
    rw [List.mem_cons, List.mem_append]
    rintro (letter | mem | mem)
    · revert letter
      cases command <;> simp only [Command.letter] <;> decide
    · exact read.zero_notMem (by simp) mem
    · exact absurd (spaces 0 mem) (by decide)
  refine ⟨noZero, text, ?_, read⟩
  obtain ⟨before, digit, rfl, last⟩ := read.exists_last rfl
    (by simpa using command.arguments_ne_nil)
  have trimmed : strim (command.letter :: before ++ [digit] ++ trail) =
      command.letter :: before ++ [digit] :=
    strim_append_of_isDigit last spaces
  rw [cString_of_zero_notMem noZero]
  exact trimmed

theorem map_ofInt_map_toInt (stored : List Int32) :
    (stored.map Int32.toInt).map Int32.ofInt = stored := by
  rw [List.map_map]
  exact List.map_id'' (fun value => Int32.ofInt_toInt value) stored

/-- Integers in the range of an `int` are stored as they are. -/
theorem map_toInt_map_ofInt {values : List Int}
    (range : ∀ value ∈ values, -2147483648 ≤ value ∧ value ≤ 2147483647) :
    (values.map Int32.ofInt).map Int32.toInt = values := by
  rw [List.map_map]
  refine (List.map_congr_left fun value mem => ?_).trans (List.map_id values)
  obtain ⟨lower, upper⟩ := range value mem
  exact Int32.toInt_ofInt_of_le (by omega) (by omega)

/-- Every line of the grammar reaches its command. -/
theorem reachedCall_of_spells (nonempty : 1 ≤ bytes.length)
    (short : bytes.length ≤ 50) (spelled : Spells findTask bytes command) :
    reachedCall true findTask bytes = some command := by
  obtain ⟨_, text, starts, read⟩ := spelled.strim_eq
  have none : ¬ Extra [] := by
    rintro ⟨byte, rest, more⟩
    cases more
  exact (reachedCall_eq_some_iff nonempty short).mpr
    ⟨text, [], _, starts, read, none, map_ofInt_map_toInt _, spelled.2⟩

/-- A line that reaches a command is spelled as the grammar says, unless it is
sloppy. -/
theorem spells_of_reachedCall (nonempty : 1 ≤ bytes.length)
    (short : bytes.length ≤ 50) (strict : ¬ Sloppy findTask bytes)
    (reached : reachedCall true findTask bytes = some command) :
    Spells findTask bytes command := by
  obtain ⟨text, rest, values, starts, read, none, stored, found⟩ :=
    (reachedCall_eq_some_iff nonempty short).mp reached
  have noDefect : ¬ (rest ≠ [] ∨ 0 ∈ bytes ∨
      ∃ value ∈ values, value < -2147483648 ∨ 2147483647 < value) :=
    fun defect => strict
      ⟨command, text, rest, values, starts, read, none, stored, found, defect⟩
  obtain rfl : rest = [] := by_contra fun more => noDefect (Or.inl more)
  have noZero : 0 ∉ bytes := fun zero => noDefect (Or.inr (Or.inl zero))
  have range : ∀ value ∈ values,
      -2147483648 ≤ value ∧ value ≤ 2147483647 := by
    intro value mem
    by_contra outside
    exact noDefect (Or.inr (Or.inr ⟨value, mem, by omega⟩))
  obtain ⟨trail, split, spaces⟩ := exists_trail_of_strim (cString bytes)
  rw [starts, cString_of_zero_notMem noZero] at split
  refine ⟨⟨text, trail, split, ?_, spaces⟩, found⟩
  rw [← stored, map_toInt_map_ofInt range]
  exact read

/-- A sloppy line reaches a command whose grammar it does not follow. -/
theorem exists_reachedCall_of_sloppy (nonempty : 1 ≤ bytes.length)
    (short : bytes.length ≤ 50) (sloppy : Sloppy findTask bytes) :
    ∃ command, reachedCall true findTask bytes = some command ∧
      ¬ Spells findTask bytes command := by
  obtain ⟨command, text, rest, values, starts, read, none, stored, found,
    defect⟩ := sloppy
  refine ⟨command, (reachedCall_eq_some_iff nonempty short).mpr
    ⟨text, rest, values, starts, read, none, stored, found⟩, fun spelled => ?_⟩
  obtain ⟨noZero, text', starts', read'⟩ := spelled.strim_eq
  obtain rfl : text = text' := (List.cons.inj (starts.symm.trans starts')).2
  obtain ⟨rfl, rfl⟩ := read.unique read' (by simp [← stored])
  rcases defect with more | zero | ⟨value, mem, outside⟩
  · exact more rfl
  · exact noZero zero
  · obtain ⟨argument, _, rfl⟩ := List.mem_map.mp mem
    have lower := argument.le_toInt
    have upper := argument.toInt_lt
    omega

-- A comma with nothing behind it, a zero byte, and a pid of `2 ^ 32 + 5`.
example :
    ∀ line ∈ [['Y', ',', '5', ','], ['Y', ',', '5', '\x00'],
        ['Y', ',', '4', '2', '9', '4', '9', '6', '7', '3', '0', '1']],
      reachedCall true (fun _ => true) (line.map Char.toUInt8) =
        some (.yield 5) := by
  decide

/-- The parser accepts exactly its grammar on the lines that are not sloppy.
A line outside the grammar then returns `-1` and changes nothing. -/
theorem reachedCall_iff_spells_iff (findTask : Int32 → Bool)
    (bytes : List UInt8) (nonempty : 1 ≤ bytes.length)
    (short : bytes.length ≤ 50) :
    ((∀ command, reachedCall true findTask bytes = some command ↔
        Spells findTask bytes command) ∧
      ((∀ command, ¬ Spells findTask bytes command) →
        ∀ (σ : Type) (call : Command → σ → Bool × σ) (state : σ),
          myWrite true findTask call bytes state = (-1, state))) ↔
      ¬ Sloppy findTask bytes := by
  constructor
  · rintro ⟨accepts, _⟩ sloppy
    obtain ⟨command, reached, unspelled⟩ :=
      exists_reachedCall_of_sloppy nonempty short sloppy
    exact unspelled ((accepts command).mp reached)
  · intro strict
    have accepts : ∀ command, reachedCall true findTask bytes = some command ↔
        Spells findTask bytes command := fun command =>
      ⟨spells_of_reachedCall nonempty short strict,
        reachedCall_of_spells nonempty short⟩
    refine ⟨accepts, fun outside σ call state => ?_⟩
    have none : reachedCall true findTask bytes = none := by
      rw [Option.eq_none_iff_forall_ne_some]
      exact fun command reached => outside command ((accepts command).mp reached)
    rw [myWrite, none]

/-- The single field `,5`, with some text behind it. -/
theorem fields_five {rest : List UInt8} (stops : Stops isDigit rest) :
    Fields (','.toUInt8 :: '5'.toUInt8 :: rest) [5] rest := by
  have five : Integer ([] ++ ['5'.toUInt8]) 5 :=
    .unsigned (by simp) (List.forall_mem_singleton.mpr (by decide)) (by simp)
  exact .cons five stops (.nil rest)

theorem reachedCall_iff_spells_five :
    reachedCall true (fun _ => true) (['Y', ',', '5'].map Char.toUInt8) =
        some (.yield 5) ↔
      Spells (fun _ => true) (['Y', ',', '5'].map Char.toUInt8) (.yield 5) := by
  refine ((reachedCall_iff_spells_iff _ _ (by decide) (by decide)).mpr ?_).1 _
  rintro ⟨command, text, rest, values, starts, read, _, stored, _, defect⟩
  have trimmed :
      strim (cString (['Y', ',', '5'].map Char.toUInt8)) =
        'Y'.toUInt8 :: [','.toUInt8, '5'.toUInt8] := by decide
  obtain ⟨letter, rfl⟩ := List.cons.inj (trimmed.symm.trans starts)
  have single : values.length = 1 := by
    rw [← List.length_map Int32.ofInt, stored]
    cases command with
    | register => exact absurd letter (by simp only [Command.letter]; decide)
    | yield => rfl
    | deregister => exact absurd letter (by simp only [Command.letter]; decide)
  obtain ⟨rfl, rfl⟩ := read.unique (fields_five (by simp [Stops])) single
  rcases defect with more | zero | ⟨value, mem, outside⟩
  · exact more rfl
  · exact absurd zero (by decide)
  · obtain rfl : value = 5 := by simpa using mem
    omega

/-- `Y,5abc` yields for the task 5. -/
theorem reachedCall_trailing_text :
    reachedCall true (fun _ => true)
        (['Y', ',', '5', 'a', 'b', 'c'].map Char.toUInt8) =
          some (.yield 5) ∧
      ¬ Spells (fun _ => true)
        (['Y', ',', '5', 'a', 'b', 'c'].map Char.toUInt8) (.yield 5) := by
  refine ⟨by decide, fun spelled => ?_⟩
  obtain ⟨_, text, starts, read⟩ := spelled.strim_eq
  have trimmed :
      strim (cString (['Y', ',', '5', 'a', 'b', 'c'].map Char.toUInt8)) =
        'Y'.toUInt8 :: ','.toUInt8 :: '5'.toUInt8 ::
          ['a', 'b', 'c'].map Char.toUInt8 := by decide
  obtain ⟨_, rfl⟩ := List.cons.inj (trimmed.symm.trans starts)
  have stops : Stops isDigit (['a', 'b', 'c'].map Char.toUInt8) := by
    simp [Stops]
    decide
  have complete := (read.unique (fields_five stops) rfl).2
  simp at complete

end LinuxKernelDev.Rms
