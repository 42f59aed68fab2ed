import Mathlib.Algebra.GroupWithZero.Nat
import Mathlib.Data.List.Infix
import Mathlib.Data.Nat.Log

/-!
# Lines printed into a buffer of fixed size

The text that a `printf` function produces is a list of characters, each a
byte.  A listing appends one line for each record to a buffer, stops once the
text has reached a mark a few characters before the end of the buffer, and
leaves it to `scnprintf` to cut what does not fit.  The listing consists of
whole lines exactly if every line that starts before the mark also ends inside
the buffer.
-/

namespace LinuxKernelDev.FormattedText

/-- The bytes of a text that is given as characters. -/
def chars (text : List Char) : List UInt8 :=
  text.map Char.toUInt8

/-- An unsigned number as `%lu` prints it. -/
def decimal (value : Nat) : List UInt8 :=
  chars (Nat.toDigits 10 value)

/-- A signed number as `%d` prints it. -/
def signedDecimal (value : Int) : List UInt8 :=
  if value < 0 then chars ['-'] ++ decimal value.natAbs
  else decimal value.natAbs

@[simp]
theorem length_chars (text : List Char) : (chars text).length = text.length :=
  List.length_map _

/-- The number of digits is determined by the powers of ten around a number. -/
theorem length_decimal {value digits : Nat} (lower : 10 ^ digits ≤ value)
    (upper : value < 10 ^ (digits + 1)) :
    (decimal value).length = digits + 1 := by
  rw [decimal, length_chars]
  have notMore : (Nat.toDigits 10 value).length ≤ digits + 1 :=
    (Nat.length_toDigits_le_iff (by decide) (by omega)).mpr upper
  cases digits with
  | zero =>
      have positive := Nat.length_toDigits_pos (b := 10) (n := value)
      omega
  | succ digits =>
      have notFewer : ¬ (Nat.toDigits 10 value).length ≤ digits + 1 := by
        rw [Nat.length_toDigits_le_iff (by decide) (by omega)]
        omega
      omega

theorem signedDecimal_of_nonneg {value : Int} (sign : 0 ≤ value) :
    signedDecimal value = decimal value.natAbs :=
  if_neg (by omega)

section Digits

/-- Decimal text consists of the characters from `0` to `9`. -/
theorem mem_decimal {value : Nat} {byte : UInt8}
    (member : byte ∈ decimal value) : 48 ≤ byte ∧ byte ≤ 57 := by
  obtain ⟨digit, inDigits, rfl⟩ := List.mem_map.mp member
  have isDigit := Nat.isDigit_of_mem_toDigits (by decide) (by decide) inDigits
  simp only [Char.isDigit, Bool.and_eq_true, decide_eq_true_eq,
    UInt32.le_iff_toNat_le] at isDigit
  have small : digit.val.toNat ≤ 57 := isDigit.2
  have large : 48 ≤ digit.val.toNat := isDigit.1
  simp only [Char.toUInt8, UInt8.le_iff_toNat_le, UInt32.toNat_toUInt8]
  rw [Nat.mod_eq_of_lt (by omega)]
  exact ⟨large, small⟩

/-- The text of a number before its last digit. -/
def leadingDigits (value : Nat) : List UInt8 :=
  if value < 10 then [] else decimal (value / 10)

theorem decimal_eq (value : Nat) :
    decimal value =
      leadingDigits value ++ [(Nat.digitChar (value % 10)).toUInt8] := by
  unfold decimal leadingDigits
  rw [Nat.toDigits_eq_if (by decide)]
  split_ifs with single
  · rw [Nat.mod_eq_of_lt single]
    rfl
  · rw [chars, List.map_append]
    rfl

theorem digitChar_injOn :
    ∀ first < 10, ∀ second < 10,
      (Nat.digitChar first).toUInt8 = (Nat.digitChar second).toUInt8 →
        first = second := by
  decide

/-- Texts are compared from their last digits on. -/
theorem decimal_suffix_decimal {last value : Nat} :
    decimal last <:+ decimal value ↔
      last % 10 = value % 10 ∧ leadingDigits last <:+ leadingDigits value := by
  rw [decimal_eq last, decimal_eq value, List.suffix_concat_iff]
  constructor
  · rintro (empty | ⟨start, same, ends⟩)
    · simp at empty
    · obtain ⟨rfl, digits⟩ := List.append_inj' same rfl
      refine ⟨?_, ends⟩
      exact digitChar_injOn _ (Nat.mod_lt _ (by decide)) _
        (Nat.mod_lt _ (by decide)) (List.singleton_injective digits)
  · rintro ⟨same, ends⟩
    exact Or.inr ⟨leadingDigits last, by rw [same], ends⟩

/-- The last digits of a number are those of another. -/
def EndsIn (value last : Nat) : Prop :=
  value % 10 ^ (Nat.log 10 last + 1) = last

instance (value last : Nat) : Decidable (EndsIn value last) :=
  inferInstanceAs (Decidable (_ = _))

theorem EndsIn.refl (value : Nat) : EndsIn value value :=
  Nat.mod_eq_of_lt (Nat.lt_pow_succ_log_self (by decide) value)

/-- The last digits are compared one by one. -/
theorem endsIn_iff_of_ge {value last : Nat} (several : 10 ≤ last) :
    EndsIn value last ↔
      last % 10 = value % 10 ∧ EndsIn (value / 10) (last / 10) := by
  have width : Nat.log 10 last = Nat.log 10 (last / 10) + 1 := by
    have shorter := Nat.log_div_base 10 last
    have positive := Nat.log_pos (by decide : 1 < 10) several
    omega
  unfold EndsIn
  rw [width, Nat.pow_succ', Nat.mod_mul]
  generalize value / 10 % 10 ^ (Nat.log 10 (last / 10) + 1) = leading
  omega

/-- Decimal text ends in that of another number exactly if the number does. -/
theorem decimal_suffix_iff {last value : Nat} :
    decimal last <:+ decimal value ↔ EndsIn value last := by
  induction last using Nat.strong_induction_on generalizing value with
  | h last ih =>
      rw [decimal_suffix_decimal]
      by_cases single : last < 10
      · have noLeading : leadingDigits last = [] := if_pos single
        rw [noLeading, EndsIn, Nat.log_of_lt single]
        simp only [List.nil_suffix, and_true, Nat.zero_add, Nat.pow_one]
        omega
      · have leading : leadingDigits last = decimal (last / 10) :=
          if_neg single
        rw [leading, endsIn_iff_of_ge (by omega)]
        refine and_congr_right fun _ => ?_
        by_cases short : value < 10
        · have noLeading : leadingDigits value = [] := if_pos short
          rw [noLeading, List.suffix_nil, decimal_eq]
          refine iff_of_false (by simp) fun ends => ?_
          have tooLarge := Nat.mod_le (value / 10)
            (10 ^ (Nat.log 10 (last / 10) + 1))
          rw [ends] at tooLarge
          omega
        · have valueLeading : leadingDigits value = decimal (value / 10) :=
            if_neg short
          rw [valueLeading, ih (last / 10) (by omega)]

end Digits

/-- `scnprintf` into `size` bytes, of which the last is for the terminator. -/
def scnprintf (size : Nat) (text : List UInt8) : List UInt8 :=
  text.take (size - 1)

theorem scnprintf_of_lt {size : Nat} {text : List UInt8}
    (fits : text.length < size) : scnprintf size text = text :=
  List.take_of_length_le (by omega)

theorem length_scnprintf_of_le {size : Nat} {text : List UInt8}
    (tooLong : size ≤ text.length) :
    (scnprintf size text).length = size - 1 :=
  List.length_take_of_le (by omega)

section Listing

variable {Record : Type*} (capacity reserve : Nat) (line : Record → List UInt8)

/-- Appends the lines of the records to the text in the buffer, up to the first
record at which the text has come within `reserve` of the capacity. -/
def fill : List UInt8 → List Record → List UInt8
  | text, [] => text
  | text, record :: records =>
      if capacity - reserve ≤ text.length then
        text
      else
        fill (text ++ scnprintf (capacity - text.length) (line record)) records

/-- The complete lines of the first `count` records. -/
def lines (records : List Record) (count : Nat) : List UInt8 :=
  (records.take count).flatMap line

/-- Every line that starts before the mark ends inside the buffer, where the
first line starts at `start`. -/
def LinesFit (start : Nat) (records : List Record) : Prop :=
  ∀ count < records.length,
    start + (lines line records count).length < capacity - reserve →
      start + (lines line records (count + 1)).length < capacity

variable {capacity reserve line}

@[simp]
theorem lines_zero (records : List Record) : lines line records 0 = [] := by
  simp [lines]

@[simp]
theorem lines_cons_succ (record : Record) (records : List Record)
    (count : Nat) :
    lines line (record :: records) (count + 1) =
      line record ++ lines line records count := by
  simp [lines]

theorem fill_of_le {text : List UInt8} (full : capacity - reserve ≤ text.length)
    (records : List Record) :
    fill capacity reserve line text records = text := by
  cases records with
  | nil => rfl
  | cons record records => rw [fill, if_pos full]

theorem fill_cons_of_lt {text : List UInt8}
    (room : text.length < capacity - reserve) (record : Record)
    (records : List Record) :
    fill capacity reserve line text (record :: records) =
      fill capacity reserve line
        (text ++ scnprintf (capacity - text.length) (line record)) records := by
  rw [fill, if_neg (by omega)]

/-- The listing never fills the byte kept for the terminator. -/
theorem length_fill_lt {text : List UInt8} (room : text.length < capacity)
    (records : List Record) :
    (fill capacity reserve line text records).length < capacity := by
  induction records generalizing text with
  | nil => exact room
  | cons record records ih =>
      rw [fill]
      split
      · exact room
      · apply ih
        rw [List.length_append, scnprintf, List.length_take]
        omega

theorem length_le_length_fill (text : List UInt8) (records : List Record) :
    text.length ≤ (fill capacity reserve line text records).length := by
  induction records generalizing text with
  | nil => exact Nat.le_refl _
  | cons record records ih =>
      rw [fill]
      split
      · exact Nat.le_refl _
      · have longer := ih (text ++
          scnprintf (capacity - text.length) (line record))
        rw [List.length_append] at longer
        omega

theorem linesFit_of_le {start : Nat} (full : capacity - reserve ≤ start)
    (records : List Record) :
    LinesFit capacity reserve line start records := by
  intro count _ before
  omega

theorem linesFit_cons_of_lt {start : Nat} (room : start < capacity - reserve)
    (record : Record) (records : List Record) :
    LinesFit capacity reserve line start (record :: records) ↔
      start + (line record).length < capacity ∧
        LinesFit capacity reserve line (start + (line record).length)
          records := by
  constructor
  · intro fit
    refine ⟨?_, fun count within before => ?_⟩
    · simpa using fit 0 (by simp) (by simpa using room)
    · have next := fit (count + 1) (by simpa using within)
      simp only [lines_cons_succ, List.length_append, ← Nat.add_assoc] at next
      exact next before
  · rintro ⟨first, others⟩ count within before
    cases count with
    | zero => simpa using first
    | succ count =>
        simp only [lines_cons_succ, List.length_append, ← Nat.add_assoc]
          at before ⊢
        exact others count (by simpa using within) before

/-- Lines that all end before the mark are printed completely. -/
theorem fill_eq_flatMap {text : List UInt8} {records : List Record}
    (room : text.length + (records.flatMap line).length < capacity - reserve) :
    fill capacity reserve line text records = text ++ records.flatMap line := by
  induction records generalizing text with
  | nil => simp [fill]
  | cons record records ih =>
      rw [List.flatMap_cons, List.length_append] at room
      rw [fill_cons_of_lt (by omega), scnprintf_of_lt (by omega),
        ih (by rw [List.length_append]; omega), List.flatMap_cons,
        List.append_assoc]

/-- A line that is cut is not made up by the lines of any prefix: the line of
the first record is already too long. -/
theorem cut_ne_lines {size : Nat} {record : Record} {records : List Record}
    (nonempty : 1 < size) (tooLong : size ≤ (line record).length) (count : Nat) :
    scnprintf size (line record) ≠ lines line (record :: records) count := by
  intro same
  have lengths := congrArg List.length same
  rw [length_scnprintf_of_le tooLong] at lengths
  cases count with
  | zero =>
      rw [lines_zero, List.length_nil] at lengths
      omega
  | succ count =>
      rw [lines_cons_succ, List.length_append] at lengths
      omega

/-- The listing adds whole lines, those of the first few records, exactly if
every line that starts before the mark fits. -/
theorem fill_eq_lines_iff (kept : 0 < reserve) (text : List UInt8)
    (records : List Record) :
    (∃ count, fill capacity reserve line text records =
        text ++ lines line records count) ↔
      LinesFit capacity reserve line text.length records := by
  induction records generalizing text with
  | nil => simp [fill, LinesFit, lines]
  | cons record records ih =>
      by_cases room : text.length < capacity - reserve
      · rw [fill_cons_of_lt room, linesFit_cons_of_lt room]
        by_cases fits : (line record).length < capacity - text.length
        · rw [scnprintf_of_lt fits, ← List.length_append, ← ih,
            and_iff_right (by rw [List.length_append]; omega)]
          constructor
          · rintro ⟨count, same⟩
            cases count with
            | zero =>
                -- No line was added, so the first line is empty.
                have longer : (text ++ line record).length ≤
                    (fill capacity reserve line (text ++ line record)
                      records).length := length_le_length_fill _ _
                rw [same, List.length_append, lines_zero, List.append_nil]
                  at longer
                have empty : line record = [] :=
                  List.length_eq_zero_iff.mp (by omega)
                exact ⟨0, by rw [same, empty]; simp⟩
            | succ count =>
                exact ⟨count, by rw [same, lines_cons_succ, List.append_assoc]⟩
          · rintro ⟨count, same⟩
            exact ⟨count + 1, by rw [same, lines_cons_succ, List.append_assoc]⟩
        · refine iff_of_false ?_ (fun fit => ?_)
          · rintro ⟨count, same⟩
            rw [fill_of_le] at same
            · exact cut_ne_lines (by omega) (by omega) count
                (List.append_cancel_left same)
            · rw [List.length_append, length_scnprintf_of_le (by omega)]
              omega
          · have := fit.1
            omega
      · have full : capacity - reserve ≤ text.length := by omega
        rw [fill_of_le full]
        exact iff_of_true ⟨0, by simp⟩ (linesFit_of_le full _)

/-- Lines of one length start at the multiples of it. -/
theorem length_lines {records : List Record} {length : Nat}
    (uniform : ∀ record ∈ records, (line record).length = length) {count : Nat}
    (within : count ≤ records.length) :
    (lines line records count).length = count * length := by
  induction count generalizing records with
  | zero => simp
  | succ count ih =>
      cases records with
      | nil => simp at within
      | cons record records =>
          rw [lines_cons_succ, List.length_append,
            uniform record List.mem_cons_self,
            ih (fun other mem => uniform other (List.mem_cons_of_mem _ mem))
              (by simpa using within), Nat.succ_mul, Nat.add_comm]

/-- With lines of one length, a line that starts before the mark and does not fit
cuts the listing. -/
theorem not_fill_eq_lines {records : List Record} {length index : Nat}
    (kept : 0 < reserve)
    (uniform : ∀ record ∈ records, (line record).length = length)
    (within : index < records.length)
    (starts : index * length < capacity - reserve)
    (tooLong : capacity ≤ (index + 1) * length) :
    ¬∃ count, fill capacity reserve line [] records =
      lines line records count := by
  intro whole
  have fit := (fill_eq_lines_iff kept [] records).mp whole index within
  rw [length_lines uniform (by omega), length_lines uniform (by omega),
    List.length_nil, Nat.zero_add, Nat.zero_add] at fit
  exact absurd (fit starts) (by omega)

end Listing

end LinuxKernelDev.FormattedText
