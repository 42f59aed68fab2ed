import Mathlib.Data.List.Basic
import Mathlib.Data.List.DropRight

/-!
# Reading text with a format

`sscanf` as the kernel implements it, for formats of literal characters, `%d`
and `%c`.  It returns the conversions it made before the first mismatch.  The
second part of the file says which texts the formats read that ask for a number
of integers, each behind a comma, and then for a comma and a character that
must not be there.
-/

namespace LinuxKernelDev.ScanFormat

/-- `isspace` of the kernel, which knows the space of Latin-1. -/
def isSpace (byte : UInt8) : Bool :=
  (9 ≤ byte && byte ≤ 13) || byte == 32 || byte == 160

def isDigit (byte : UInt8) : Bool :=
  48 ≤ byte && byte ≤ 57

/-- The number that digits denote. -/
def digitsValue (digits : List UInt8) : Nat :=
  digits.foldl (fun value digit => 10 * value + (digit.toNat - 48)) 0

/-- The part of a buffer before its first zero byte. -/
def cString (bytes : List UInt8) : List UInt8 :=
  bytes.takeWhile (· ≠ 0)

/-- The text that `strim` leaves behind at its argument: the trailing
whitespace is cut off, the leading whitespace stays. -/
def strim (text : List UInt8) : List UInt8 :=
  text.rdropWhile isSpace

/-- A part of a format. -/
inductive Directive where
  | literal (byte : UInt8)
  | int
  | char
  deriving DecidableEq

/-- A conversion that was made.  An integer is stored in an `int`. -/
inductive Conversion where
  | int (value : Int32)
  | char (byte : UInt8)
  deriving DecidableEq

/-- The digits at the start of a text, as a number with a sign. -/
def scanDigits (sign : Int) (text : List UInt8) : Option (Int × List UInt8) :=
  if text.takeWhile isDigit = [] then
    none
  else
    some (sign * digitsValue (text.takeWhile isDigit), text.dropWhile isDigit)

/-- `%d`: the integer that a text starts with, after whitespace, and the rest
of the text. -/
def scanInt (text : List UInt8) : Option (Int × List UInt8) :=
  match text.dropWhile isSpace with
  | [] => none
  | byte :: rest =>
      if byte = '-'.toUInt8 then scanDigits (-1) rest
      else scanDigits 1 (byte :: rest)

/-- `sscanf`, up to the first directive that does not match. -/
def sscanf : List Directive → List UInt8 → List Conversion
  | [], _ => []
  | .literal _ :: _, [] => []
  | .literal expected :: format, byte :: text =>
      if expected = byte then sscanf format text else []
  | .int :: format, text =>
      match scanInt text with
      | none => []
      | some (value, rest) => .int (Int32.ofInt value) :: sscanf format rest
  | .char :: _, [] => []
  | .char :: format, byte :: text => .char byte :: sscanf format text

/-- The decimal representations of an integer, with whitespace before them. -/
inductive Integer : List UInt8 → Int → Prop where
  | unsigned {spaces digits : List UInt8} :
      (∀ byte ∈ spaces, isSpace byte) → (∀ byte ∈ digits, isDigit byte) →
        digits ≠ [] → Integer (spaces ++ digits) (digitsValue digits)
  | negative {spaces digits : List UInt8} :
      (∀ byte ∈ spaces, isSpace byte) → (∀ byte ∈ digits, isDigit byte) →
        digits ≠ [] →
          Integer (spaces ++ '-'.toUInt8 :: digits) (-digitsValue digits)

/-- A text does not start with a byte of some kind. -/
def Stops (kind : UInt8 → Bool) (text : List UInt8) : Prop :=
  ∀ byte ∈ text.head?, kind byte = false

/-- A text consists of integers, each behind a comma, and of the rest that
follows the last of them. -/
inductive Fields : List UInt8 → List Int → List UInt8 → Prop where
  | nil (rest : List UInt8) : Fields rest [] rest
  | cons {body next rest : List UInt8} {value : Int} {values : List Int} :
      Integer body value → Stops isDigit next → Fields next values rest →
        Fields (','.toUInt8 :: (body ++ next)) (value :: values) rest

/-- A format for a number of such integers that goes on with `,%c`. -/
def fieldsFormat : Nat → List Directive
  | 0 => [.literal ','.toUInt8, .char]
  | count + 1 => .literal ','.toUInt8 :: .int :: fieldsFormat count

/-- A text on which `,%c` makes a conversion. -/
def Extra (text : List UInt8) : Prop :=
  ∃ byte rest, text = ','.toUInt8 :: byte :: rest

section Spans

variable {kind : UInt8 → Bool} {taken rest : List UInt8}

theorem takeWhile_append_of_stops (all : ∀ byte ∈ taken, kind byte)
    (stops : Stops kind rest) : (taken ++ rest).takeWhile kind = taken := by
  rw [List.takeWhile_append_of_pos all]
  cases rest with
  | nil => simp
  | cons byte rest =>
      rw [List.takeWhile_cons_of_neg (by simpa using stops byte rfl),
        List.append_nil]

theorem dropWhile_append_of_stops (all : ∀ byte ∈ taken, kind byte)
    (stops : Stops kind rest) : (taken ++ rest).dropWhile kind = rest := by
  rw [List.dropWhile_append_of_pos all]
  cases rest with
  | nil => rfl
  | cons byte rest =>
      rw [List.dropWhile_cons_of_neg (by simpa using stops byte rfl)]

theorem stops_dropWhile (kind : UInt8 → Bool) (text : List UInt8) :
    Stops kind (text.dropWhile kind) := by
  intro byte first
  have := List.head?_dropWhile_not kind text
  rw [Option.mem_def.mp first] at this
  simpa using this

end Spans

theorem scanDigits_eq_some_iff {sign value : Int} {text rest : List UInt8} :
    scanDigits sign text = some (value, rest) ↔
      ∃ digits, text = digits ++ rest ∧ (∀ byte ∈ digits, isDigit byte) ∧
        digits ≠ [] ∧ Stops isDigit rest ∧
          value = sign * digitsValue digits := by
  unfold scanDigits
  constructor
  · intro scanned
    split at scanned
    · simp at scanned
    · rename_i some
      obtain ⟨rfl, rfl⟩ := Prod.mk.inj (Option.some.inj scanned)
      exact ⟨text.takeWhile isDigit, List.takeWhile_append_dropWhile.symm,
        fun byte mem => List.mem_takeWhile_imp mem, some,
        stops_dropWhile isDigit text, rfl⟩
  · rintro ⟨digits, rfl, all, nonempty, stops, rfl⟩
    rw [takeWhile_append_of_stops all stops,
      dropWhile_append_of_stops all stops, if_neg nonempty]

theorem isSpace_of_isDigit {byte : UInt8} (digit : isDigit byte) :
    isSpace byte = false := by
  simp only [isDigit, isSpace, Bool.and_eq_true, decide_eq_true_eq,
    UInt8.le_iff_toNat_le, Bool.or_eq_false_iff, Bool.and_eq_false_iff,
    decide_eq_false_iff_not, beq_eq_false_iff_ne, ne_eq, ← UInt8.toNat_inj]
    at digit ⊢
  simp only [UInt8.reduceToNat] at digit ⊢
  omega

theorem ne_minus_of_isDigit {byte : UInt8} (digit : isDigit byte) :
    byte ≠ '-'.toUInt8 := by
  rintro rfl
  exact absurd digit (by decide)

theorem stops_space_of_digits {digits rest : List UInt8}
    (all : ∀ byte ∈ digits, isDigit byte) (nonempty : digits ≠ []) :
    Stops isSpace (digits ++ rest) := by
  intro byte first
  cases digits with
  | nil => exact absurd rfl nonempty
  | cons digit digits =>
      obtain rfl : digit = byte := by simpa using first
      exact isSpace_of_isDigit (all digit List.mem_cons_self)

/-- `%d` reads an integer and everything up to the next byte that is not a
digit. -/
theorem scanInt_eq_some_iff {text rest : List UInt8} {value : Int} :
    scanInt text = some (value, rest) ↔
      ∃ body, text = body ++ rest ∧ Integer body value ∧
        Stops isDigit rest := by
  constructor
  · intro scanned
    have spaces : ∀ byte ∈ text.takeWhile isSpace, isSpace byte :=
      fun byte mem => List.mem_takeWhile_imp mem
    have parts : text.takeWhile isSpace ++ text.dropWhile isSpace = text :=
      List.takeWhile_append_dropWhile
    unfold scanInt at scanned
    split at scanned
    · simp at scanned
    · rename_i byte tail found
      rw [found] at parts
      split at scanned
      · rename_i minus
        obtain ⟨digits, rfl, all, nonempty, stops, rfl⟩ :=
          scanDigits_eq_some_iff.mp scanned
        refine ⟨text.takeWhile isSpace ++ '-'.toUInt8 :: digits, ?_, ?_, stops⟩
        · rw [List.append_assoc, List.cons_append, ← minus]
          exact parts.symm
        · rw [Int.neg_mul, Int.one_mul]
          exact .negative spaces all nonempty
      · obtain ⟨digits, split, all, nonempty, stops, rfl⟩ :=
          scanDigits_eq_some_iff.mp scanned
        refine ⟨text.takeWhile isSpace ++ digits, ?_, ?_, stops⟩
        · rw [List.append_assoc, ← split]
          exact parts.symm
        · rw [Int.one_mul]
          exact .unsigned spaces all nonempty
  · rintro ⟨body, rfl, integer, stops⟩
    cases integer with
    | @unsigned spaces digits allSpaces allDigits nonempty =>
        rw [scanInt, List.append_assoc, dropWhile_append_of_stops allSpaces
          (stops_space_of_digits allDigits nonempty)]
        cases digits with
        | nil => exact absurd rfl nonempty
        | cons digit digits =>
            rw [List.cons_append]
            dsimp only
            rw [if_neg (ne_minus_of_isDigit (allDigits digit List.mem_cons_self)),
              scanDigits_eq_some_iff]
            exact ⟨digit :: digits, rfl, allDigits, nonempty, stops,
              (Int.one_mul _).symm⟩
    | @negative spaces digits allSpaces allDigits nonempty =>
        rw [scanInt, List.append_assoc, dropWhile_append_of_stops allSpaces (by
          intro byte first
          obtain rfl : '-'.toUInt8 = byte := by simpa using first
          decide)]
        rw [List.cons_append]
        dsimp only
        rw [if_pos rfl, scanDigits_eq_some_iff]
        exact ⟨digits, rfl, allDigits, nonempty, stops, by omega⟩

theorem scanInt_of_integer {body rest : List UInt8} {value : Int}
    (integer : Integer body value) (stops : Stops isDigit rest) :
    scanInt (body ++ rest) = some (value, rest) :=
  scanInt_eq_some_iff.mpr ⟨body, rfl, integer, stops⟩

/-- Only one sequence of a given number of integers can be read from a
text. -/
theorem Fields.unique {text rest rest' : List UInt8} {values values' : List Int}
    (read : Fields text values rest) (other : Fields text values' rest')
    (sameLength : values.length = values'.length) :
    values = values' ∧ rest = rest' := by
  induction read generalizing values' with
  | nil rest =>
      cases other with
      | nil => exact ⟨rfl, rfl⟩
      | cons => simp at sameLength
  | @cons body next rest value values integer stops _ ih =>
      generalize whole : ','.toUInt8 :: (body ++ next) = text at other
      cases other with
      | nil => simp at sameLength
      | @cons body' next' _ value' values' integer' stops' later =>
          have tails : body ++ next = body' ++ next' := (List.cons.inj whole).2
          have scans := scanInt_of_integer integer stops
          rw [tails, scanInt_of_integer integer' stops'] at scans
          obtain ⟨rfl, rfl⟩ := Prod.mk.inj (Option.some.inj scans)
          obtain ⟨rfl, rfl⟩ := ih later (by simpa using sameLength)
          exact ⟨rfl, rfl⟩

theorem sscanf_fieldsFormat_zero_iff (text : List UInt8) :
    sscanf (fieldsFormat 0) text = [] ↔ ¬ Extra text := by
  match text with
  | [] => simp [fieldsFormat, sscanf, Extra]
  | [byte] => simp [fieldsFormat, sscanf, Extra]
  | byte :: next :: rest => simp [fieldsFormat, sscanf, Extra, eq_comm]

theorem sscanf_fieldsFormat_succ {body next : List UInt8} {value : Int}
    (integer : Integer body value) (stops : Stops isDigit next) (count : Nat) :
    sscanf (fieldsFormat (count + 1)) (','.toUInt8 :: (body ++ next)) =
      .int (Int32.ofInt value) :: sscanf (fieldsFormat count) next := by
  rw [fieldsFormat, sscanf, if_pos rfl, sscanf,
    scanInt_of_integer integer stops]

/-- A first integer is converted only behind a comma. -/
theorem exists_integer_of_sscanf {count : Nat} {text : List UInt8}
    {first : Conversion} {others : List Conversion}
    (converted : sscanf (fieldsFormat (count + 1)) text = first :: others) :
    ∃ body next value, text = ','.toUInt8 :: (body ++ next) ∧
      Integer body value ∧ Stops isDigit next := by
  cases text with
  | nil => simp [fieldsFormat, sscanf] at converted
  | cons byte tail =>
      rw [fieldsFormat, sscanf] at converted
      split at converted
      · rename_i comma
        rw [sscanf] at converted
        split at converted
        · simp at converted
        · rename_i value next scanned
          obtain ⟨body, rfl, integer, stops⟩ := scanInt_eq_some_iff.mp scanned
          exact ⟨body, next, value, by rw [comma], integer, stops⟩
      · simp at converted

/-- A format for integers behind commas makes just the conversions of the
integers on a text that starts with as many fields, and on which `,%c` then
makes none. -/
theorem sscanf_fieldsFormat_iff {stored : List Int32} {text : List UInt8} :
    sscanf (fieldsFormat stored.length) text = stored.map .int ↔
      ∃ values rest, Fields text values rest ∧ ¬ Extra rest ∧
        values.map Int32.ofInt = stored := by
  induction stored generalizing text with
  | nil =>
      rw [List.length_nil, List.map_nil, sscanf_fieldsFormat_zero_iff]
      constructor
      · intro none
        exact ⟨[], text, .nil text, none, rfl⟩
      · rintro ⟨values, rest, read, none, empty⟩
        obtain rfl := List.map_eq_nil_iff.mp empty
        cases read
        exact none
  | cons first stored ih =>
      rw [List.length_cons, List.map_cons]
      constructor
      · intro converted
        obtain ⟨body, next, value, rfl, integer, stops⟩ :=
          exists_integer_of_sscanf converted
        rw [sscanf_fieldsFormat_succ integer stops] at converted
        obtain ⟨same, later⟩ := List.cons.inj converted
        obtain ⟨values, rest, read, none, rfl⟩ := ih.mp later
        exact ⟨value :: values, rest, .cons integer stops read, none, by
          rw [List.map_cons, Conversion.int.inj same]⟩
      · rintro ⟨values, rest, read, none, same⟩
        cases read with
        | nil => simp at same
        | cons integer stops later =>
            obtain ⟨rfl, others⟩ := List.cons.inj same
            rw [sscanf_fieldsFormat_succ integer stops,
              ih.mpr ⟨_, rest, later, none, others⟩]

theorem exists_last_digit {front digits : List UInt8}
    (all : ∀ byte ∈ digits, isDigit byte) (nonempty : digits ≠ []) :
    ∃ before digit, front ++ digits = before ++ [digit] ∧ isDigit digit := by
  refine ⟨front ++ digits.dropLast, digits.getLast nonempty, ?_,
    all _ (List.getLast_mem nonempty)⟩
  rw [List.append_assoc, List.dropLast_append_getLast nonempty]

theorem Integer.exists_last {body : List UInt8} {value : Int}
    (integer : Integer body value) :
    ∃ before digit, body = before ++ [digit] ∧ isDigit digit := by
  cases integer with
  | unsigned _ all nonempty => exact exists_last_digit all nonempty
  | @negative spaces digits _ all nonempty =>
      rw [List.append_cons spaces]
      exact exists_last_digit all nonempty

/-- A text of fields with nothing behind them ends in a digit. -/
theorem Fields.exists_last {text rest : List UInt8} {values : List Int}
    (read : Fields text values rest) (complete : rest = [])
    (nonempty : values ≠ []) :
    ∃ before digit, text = before ++ [digit] ∧ isDigit digit := by
  induction read with
  | nil => exact absurd rfl nonempty
  | @cons body next rest value values integer _ later ih =>
      cases values with
      | nil =>
          cases later
          obtain ⟨before, digit, rfl, last⟩ := integer.exists_last
          exact ⟨','.toUInt8 :: before, digit, by simp [complete], last⟩
      | cons =>
          obtain ⟨before, digit, rfl, last⟩ := ih complete (by simp)
          exact ⟨','.toUInt8 :: (body ++ before), digit, by simp, last⟩

theorem strim_append_of_isDigit {before trail : List UInt8} {digit : UInt8}
    (last : isDigit digit) (spaces : ∀ byte ∈ trail, isSpace byte) :
    strim (before ++ [digit] ++ trail) = before ++ [digit] := by
  have stops : Stops isSpace (before ++ [digit]).reverse := by
    intro byte first
    obtain rfl : digit = byte := by simpa using first
    exact isSpace_of_isDigit last
  rw [strim, List.rdropWhile, List.reverse_append,
    dropWhile_append_of_stops (by simpa using spaces) stops,
    List.reverse_reverse]

theorem exists_trail_of_strim (text : List UInt8) :
    ∃ trail, text = strim text ++ trail ∧ ∀ byte ∈ trail, isSpace byte :=
  ⟨text.rtakeWhile isSpace, (List.rdropWhile_append_rtakeWhile ..).symm,
    fun _ mem => List.mem_rtakeWhile_imp mem⟩

theorem Integer.zero_notMem {body : List UInt8} {value : Int}
    (integer : Integer body value) : 0 ∉ body := by
  cases integer with
  | unsigned spaces digits _ =>
      rw [List.mem_append]
      rintro (mem | mem)
      · exact absurd (spaces 0 mem) (by decide)
      · exact absurd (digits 0 mem) (by decide)
  | negative spaces digits _ =>
      rw [List.mem_append, List.mem_cons]
      rintro (mem | minus | mem)
      · exact absurd (spaces 0 mem) (by decide)
      · exact absurd minus (by decide)
      · exact absurd (digits 0 mem) (by decide)

theorem Fields.zero_notMem {text rest : List UInt8} {values : List Int}
    (read : Fields text values rest) (none : 0 ∉ rest) : 0 ∉ text := by
  induction read with
  | nil => exact none
  | cons integer _ _ ih =>
      rw [List.mem_cons, List.mem_append]
      rintro (comma | mem | mem)
      · exact absurd comma (by decide)
      · exact integer.zero_notMem mem
      · exact ih none mem

theorem cString_of_zero_notMem {bytes : List UInt8} (none : 0 ∉ bytes) :
    cString bytes = bytes := by
  rw [cString, List.takeWhile_eq_self_iff]
  intro byte mem
  have nonzero : byte ≠ 0 := fun zero => none (zero ▸ mem)
  simpa using nonzero

end LinuxKernelDev.ScanFormat
