import LinuxKernelDev.FormattedText
import LinuxKernelDev.ScanFormat

/-!
# Printed numbers are read back

What `%d` and `%lu` print is what `%d` of `sscanf` and `kstrtoint` read.  A
printed number also ends where its digits end, so that a text of numbers with
separators between them has one reading only.
-/

namespace LinuxKernelDev.DecimalText

open FormattedText ScanFormat

theorem isDigit_of_mem_decimal {value : Nat} {byte : UInt8}
    (member : byte ∈ decimal value) : isDigit byte := by
  obtain ⟨lower, upper⟩ := mem_decimal member
  simp [isDigit, lower, upper]

theorem decimal_ne_nil (value : Nat) : decimal value ≠ [] := by
  rw [decimal_eq]
  simp

theorem digitsValue_concat (digits : List UInt8) (digit : UInt8) :
    digitsValue (digits ++ [digit]) =
      10 * digitsValue digits + (digit.toNat - 48) := by
  rw [digitsValue, List.foldl_append]
  rfl

theorem toNat_digitChar :
    ∀ digit < 10, (Nat.digitChar digit).toUInt8.toNat - 48 = digit := by
  decide

@[simp]
theorem digitsValue_decimal (value : Nat) : digitsValue (decimal value) = value := by
  induction value using Nat.strong_induction_on with
  | h value ih =>
      rw [decimal_eq, digitsValue_concat,
        toNat_digitChar _ (Nat.mod_lt _ (by decide)), leadingDigits]
      split_ifs with single
      · have empty : digitsValue [] = 0 := rfl
        omega
      · rw [ih (value / 10) (by omega)]
        omega

/-- A printed number is a decimal representation of it. -/
theorem integer_signedDecimal (value : Int) :
    Integer (signedDecimal value) value := by
  have minus : chars ['-'] = ['-'.toUInt8] := rfl
  have digits : ∀ byte ∈ decimal value.natAbs, isDigit byte :=
    fun byte member => isDigit_of_mem_decimal member
  unfold signedDecimal
  split_ifs with sign
  · have printed := Integer.negative (List.forall_mem_nil _) digits
      (decimal_ne_nil _)
    rwa [digitsValue_decimal, show -(value.natAbs : Int) = value by omega]
      at printed
  · have printed := Integer.unsigned (List.forall_mem_nil _) digits
      (decimal_ne_nil _)
    rwa [digitsValue_decimal, show (value.natAbs : Int) = value by omega]
      at printed

theorem stops_cons {kind : UInt8 → Bool} {byte : UInt8} {rest : List UInt8}
    (other : kind byte = false) : Stops kind (byte :: rest) := by
  intro first isFirst
  obtain rfl : byte = first := by simpa using isFirst
  exact other

/-- A printed number ends where its digits end. -/
theorem signedDecimal_append_inj {first second : Int}
    {rest other : List UInt8} (stops : Stops isDigit rest)
    (otherStops : Stops isDigit other)
    (same : signedDecimal first ++ rest = signedDecimal second ++ other) :
    first = second ∧ rest = other := by
  have scanned := scanInt_of_integer (integer_signedDecimal first) stops
  rw [same, scanInt_of_integer (integer_signedDecimal second) otherStops]
    at scanned
  obtain ⟨values, rests⟩ := Prod.mk.inj (Option.some.inj scanned)
  exact ⟨values.symm, rests.symm⟩

theorem decimal_append_inj {first second : Nat} {rest other : List UInt8}
    (stops : Stops isDigit rest) (otherStops : Stops isDigit other)
    (same : decimal first ++ rest = decimal second ++ other) :
    first = second ∧ rest = other := by
  have signed : ∀ value : Nat, decimal value = signedDecimal value :=
    fun value => (signedDecimal_of_nonneg (Int.natCast_nonneg value)).symm
  rw [signed, signed] at same
  obtain ⟨values, rests⟩ := signedDecimal_append_inj stops otherStops same
  exact ⟨by omega, rests⟩

theorem length_decimal_le {value width : Nat} (positive : 0 < width)
    (upper : value < 10 ^ width) : (decimal value).length ≤ width := by
  rw [decimal, length_chars]
  exact (Nat.length_toDigits_le_iff (by decide) positive).mpr upper

theorem length_signedDecimal_le (value : Int32) :
    (signedDecimal value.toInt).length ≤ 11 := by
  have lower := value.le_toInt
  have upper := value.toInt_lt
  have digits := length_decimal_le (by decide : 0 < 10)
    (by omega : value.toInt.natAbs < 10 ^ 10)
  unfold signedDecimal
  split_ifs
  · rw [List.length_append, length_chars, List.length_singleton]
    omega
  · omega

section Codes

variable {Record : Type*} {line : Record → List UInt8}

/-- The lines of a text can be told apart: a line tells its record, and where
it ends. -/
def Code (line : Record → List UInt8) : Prop :=
  ∀ first second rest other, line first ++ rest = line second ++ other →
    first = second ∧ rest = other

/-- A text of lines has one reading. -/
theorem Code.flatMap_injective (code : Code line)
    (nonempty : ∀ record, line record ≠ []) {records others : List Record}
    (same : records.flatMap line = others.flatMap line) : records = others := by
  induction records generalizing others with
  | nil =>
      cases others with
      | nil => rfl
      | cons other others =>
          rw [List.flatMap_nil, List.flatMap_cons] at same
          exact absurd (List.append_eq_nil_iff.mp same.symm).1 (nonempty other)
  | cons record records ih =>
      cases others with
      | nil =>
          rw [List.flatMap_nil, List.flatMap_cons] at same
          exact absurd (List.append_eq_nil_iff.mp same).1 (nonempty record)
      | cons other others =>
          rw [List.flatMap_cons, List.flatMap_cons] at same
          obtain ⟨rfl, rests⟩ := code _ _ _ _ same
          rw [ih rests]

/-- A listing whose lines all end before the mark has one reading. -/
theorem Code.fill_eq_iff (code : Code line)
    (nonempty : ∀ record, line record ≠ []) {capacity reserve : Nat}
    {records others : List Record}
    (fits : (records.flatMap line).length < capacity - reserve)
    (othersFit : (others.flatMap line).length < capacity - reserve) :
    fill capacity reserve line [] records =
        fill capacity reserve line [] others ↔
      records = others := by
  refine ⟨fun same => ?_, congrArg _⟩
  rw [fill_eq_flatMap (by simpa using fits),
    fill_eq_flatMap (by simpa using othersFit), List.nil_append,
    List.nil_append] at same
  exact code.flatMap_injective nonempty same

end Codes

section Kstrto

/-- The newline that may end a text. -/
def LineEnd (text : List UInt8) : Prop := text = [] ∨ text = ['\n'.toUInt8]

instance (text : List UInt8) : Decidable (LineEnd text) :=
  inferInstanceAs (Decidable (_ ∨ _))

/-- `_kstrtoull` in base ten: digits, and a newline that may follow them.  The
callers do not look at the error. -/
def parseUnsigned (text : List UInt8) : Option Nat :=
  if 18446744073709551616 ≤ digitsValue (text.takeWhile isDigit) then none
  else if text.takeWhile isDigit = [] then none
  else if LineEnd (text.dropWhile isDigit) then
    some (digitsValue (text.takeWhile isDigit))
  else none

def kstrtoull : List UInt8 → Option Nat
  | [] => none
  | byte :: text =>
      if byte = '+'.toUInt8 then parseUnsigned text
      else parseUnsigned (byte :: text)

def kstrtoll : List UInt8 → Option Int
  | [] => none
  | byte :: text =>
      if byte = '-'.toUInt8 then
        (parseUnsigned text).bind fun value =>
          if 9223372036854775808 < value then none else some (-value)
      else
        (kstrtoull (byte :: text)).bind fun value =>
          if 9223372036854775808 ≤ value then none else some value

def kstrtoint (text : List UInt8) : Option Int32 :=
  (kstrtoll text).bind fun value =>
    if (Int32.ofInt value).toInt = value then some (Int32.ofInt value) else none

/-- The texts of an integer that `kstrtoint` reads, without a newline. -/
inductive Numeral : List UInt8 → Int → Prop where
  | plain {digits : List UInt8} : (∀ byte ∈ digits, isDigit byte) →
      digits ≠ [] → Numeral digits (digitsValue digits)
  | plus {digits : List UInt8} : (∀ byte ∈ digits, isDigit byte) →
      digits ≠ [] → Numeral ('+'.toUInt8 :: digits) (digitsValue digits)
  | minus {digits : List UInt8} : (∀ byte ∈ digits, isDigit byte) →
      digits ≠ [] → Numeral ('-'.toUInt8 :: digits) (-digitsValue digits)

theorem LineEnd.stops {text : List UInt8} (lineEnd : LineEnd text) :
    Stops isDigit text := by
  obtain rfl | rfl := lineEnd
  · intro byte first
    simp at first
  · exact stops_cons (by decide)

theorem parseUnsigned_eq_some_iff {text : List UInt8} {value : Nat} :
    parseUnsigned text = some value ↔
      ∃ digits rest, text = digits ++ rest ∧ (∀ byte ∈ digits, isDigit byte) ∧
        digits ≠ [] ∧ LineEnd rest ∧ digitsValue digits = value ∧
          value < 18446744073709551616 := by
  unfold parseUnsigned
  constructor
  · intro parsed
    split_ifs at parsed with large empty ends
    refine ⟨text.takeWhile isDigit, text.dropWhile isDigit,
      List.takeWhile_append_dropWhile.symm,
      fun byte member => List.mem_takeWhile_imp member, empty, ends,
      Option.some.inj parsed, ?_⟩
    rw [← Option.some.inj parsed]
    omega
  · rintro ⟨digits, rest, rfl, all, nonempty, ends, rfl, small⟩
    rw [takeWhile_append_of_stops all ends.stops,
      dropWhile_append_of_stops all ends.stops, if_neg (by omega),
      if_neg nonempty, if_pos ends]

theorem ne_sign_of_isDigit {byte : UInt8} (digit : isDigit byte) :
    byte ≠ '-'.toUInt8 ∧ byte ≠ '+'.toUInt8 := by
  refine ⟨ne_minus_of_isDigit digit, ?_⟩
  rintro rfl
  exact absurd digit (by decide)

theorem kstrtoll_eq_some_iff {text : List UInt8} {value : Int} :
    kstrtoll text = some value ↔
      ∃ body rest, text = body ++ rest ∧ LineEnd rest ∧ Numeral body value ∧
        -9223372036854775808 ≤ value ∧ value < 9223372036854775808 := by
  constructor
  · intro parsed
    cases text with
    | nil => simp [kstrtoll] at parsed
    | cons byte text =>
        rw [kstrtoll] at parsed
        split_ifs at parsed with minus
        · obtain ⟨value, isUnsigned, kept⟩ := Option.bind_eq_some_iff.mp parsed
          split_ifs at kept with large
          obtain ⟨digits, rest, rfl, all, nonempty, ends, rfl, small⟩ :=
            parseUnsigned_eq_some_iff.mp isUnsigned
          obtain rfl := Option.some.inj kept
          refine ⟨byte :: digits, rest, rfl, ends, ?_, by omega, by omega⟩
          rw [minus]
          exact .minus all nonempty
        · obtain ⟨value, isUnsigned, kept⟩ := Option.bind_eq_some_iff.mp parsed
          split_ifs at kept with large
          obtain rfl := Option.some.inj kept
          rw [kstrtoull] at isUnsigned
          split_ifs at isUnsigned with plus
          · obtain ⟨digits, rest, rfl, all, nonempty, ends, rfl, small⟩ :=
              parseUnsigned_eq_some_iff.mp isUnsigned
            refine ⟨byte :: digits, rest, rfl, ends, ?_, by omega, by omega⟩
            rw [plus]
            exact .plus all nonempty
          · obtain ⟨digits, rest, whole, all, nonempty, ends, rfl, small⟩ :=
              parseUnsigned_eq_some_iff.mp isUnsigned
            exact ⟨digits, rest, whole, ends, .plain all nonempty, by omega,
              by omega⟩
  · rintro ⟨body, rest, rfl, ends, numeral, lower, upper⟩
    cases numeral with
    | @minus digits all nonempty =>
        have isUnsigned : parseUnsigned (digits ++ rest) =
            some (digitsValue digits) := parseUnsigned_eq_some_iff.mpr
          ⟨digits, rest, rfl, all, nonempty, ends, rfl, by omega⟩
        rw [List.cons_append, kstrtoll, if_pos rfl, isUnsigned,
          Option.bind_some, if_neg (by omega)]
    | @plus digits all nonempty =>
        have isUnsigned : parseUnsigned (digits ++ rest) =
            some (digitsValue digits) := parseUnsigned_eq_some_iff.mpr
          ⟨digits, rest, rfl, all, nonempty, ends, rfl, by omega⟩
        rw [List.cons_append, kstrtoll, if_neg (by decide), kstrtoull,
          if_pos rfl, isUnsigned, Option.bind_some, if_neg (by omega)]
    | plain all nonempty =>
        have isUnsigned : parseUnsigned (body ++ rest) =
            some (digitsValue body) := parseUnsigned_eq_some_iff.mpr
          ⟨body, rest, rfl, all, nonempty, ends, rfl, by omega⟩
        cases body with
        | nil => exact absurd rfl nonempty
        | cons digit body =>
            obtain ⟨notMinus, notPlus⟩ :=
              ne_sign_of_isDigit (all digit List.mem_cons_self)
            rw [List.cons_append] at isUnsigned ⊢
            rw [kstrtoll, if_neg notMinus, kstrtoull, if_neg notPlus,
              isUnsigned, Option.bind_some, if_neg (by omega)]

/-- `kstrtoint` reads a numeral that fits an `int`, with at most a newline
behind it and nothing in front. -/
theorem kstrtoint_eq_some_iff {text : List UInt8} {value : Int32} :
    kstrtoint text = some value ↔
      ∃ body rest, text = body ++ rest ∧ LineEnd rest ∧
        Numeral body value.toInt := by
  unfold kstrtoint
  rw [Option.bind_eq_some_iff]
  constructor
  · rintro ⟨long, parsed, kept⟩
    split_ifs at kept with fits
    obtain rfl := Option.some.inj kept
    obtain ⟨body, rest, rfl, ends, numeral, -, -⟩ :=
      kstrtoll_eq_some_iff.mp parsed
    exact ⟨body, rest, rfl, ends, by rwa [fits]⟩
  · rintro ⟨body, rest, rfl, ends, numeral⟩
    have lower := value.le_toInt
    have upper := value.toInt_lt
    refine ⟨value.toInt, kstrtoll_eq_some_iff.mpr
      ⟨body, rest, rfl, ends, numeral, by omega, by omega⟩, ?_⟩
    rw [Int32.ofInt_toInt, if_pos rfl]

theorem Numeral.exists_last {body : List UInt8} {value : Int}
    (numeral : Numeral body value) :
    ∃ before digit, body = before ++ [digit] ∧ isDigit digit := by
  cases numeral with
  | plain all nonempty => exact @exists_last_digit [] _ all nonempty
  | @plus digits all nonempty =>
      exact @exists_last_digit ['+'.toUInt8] _ all nonempty
  | @minus digits all nonempty =>
      exact @exists_last_digit ['-'.toUInt8] _ all nonempty

theorem Numeral.zero_notMem {body : List UInt8} {value : Int}
    (numeral : Numeral body value) : 0 ∉ body := by
  have noDigit : ¬ isDigit 0 := by decide
  cases numeral with
  | plain all nonempty => exact fun member => noDigit (all 0 member)
  | plus all nonempty | minus all nonempty =>
      rw [List.mem_cons, not_or]
      exact ⟨by decide, fun member => noDigit (all 0 member)⟩

/-- What `%d` prints is read back. -/
theorem numeral_signedDecimal (value : Int) :
    Numeral (signedDecimal value) value := by
  have minus : chars ['-'] = ['-'.toUInt8] := rfl
  have digits : ∀ byte ∈ decimal value.natAbs, isDigit byte :=
    fun byte member => isDigit_of_mem_decimal member
  unfold signedDecimal
  split_ifs with sign
  · have printed := Numeral.minus digits (decimal_ne_nil _)
    rwa [digitsValue_decimal, show -(value.natAbs : Int) = value by omega]
      at printed
  · have printed := Numeral.plain digits (decimal_ne_nil _)
    rwa [digitsValue_decimal, show (value.natAbs : Int) = value by omega]
      at printed

end Kstrto

end LinuxKernelDev.DecimalText
