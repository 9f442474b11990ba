import Mathlib

/-!
# Decimal text

Printing a number with `%d` or `%u` and reading it back with `atoi`. The reader is the one of the
C library on a machine with 64-bit `long`: blanks, an optional sign and the longest run of digits,
clamped to the range of `long` and then cut to an `int`.
-/

namespace TinyTools.Lib

/-- A byte string. -/
abbrev Bytes := List UInt8

/-- The bytes of an ASCII text. -/
def bytes (text : String) : Bytes := text.toList.map (·.toNat.toUInt8)

/-- `isdigit`. -/
def isDigit (byte : UInt8) : Bool := 48 ≤ byte.toNat && byte.toNat ≤ 57

/-- `isspace` in the C locale. -/
def isSpace (byte : UInt8) : Bool := byte.toNat == 32 || (9 ≤ byte.toNat && byte.toNat ≤ 13)

/-- The value of a run of digits behind digits of value `before`. -/
def digitsValue (before : ℕ) (digits : Bytes) : ℕ :=
  digits.foldl (fun value digit => 10 * value + (digit.toNat - 48)) before

/-- The value of the leading digits. -/
def leadingValue (text : Bytes) : ℕ := digitsValue 0 (text.takeWhile isDigit)

/-- The sign and the digits behind the blanks. -/
def signedValue : Bytes → ℤ
  | 45 :: text => -leadingValue text
  | 43 :: text => leadingValue text
  | text => leadingValue text

/-- `strtol` in base ten, clamped to the range of a 64-bit `long`. -/
def strtol (text : Bytes) : ℤ :=
  max (-2 ^ 63) (min (2 ^ 63 - 1) (signedValue (text.dropWhile isSpace)))

/-- `atoi`: the `long` cut to an `int`. -/
def atoi (text : Bytes) : ℤ := (strtol text).bmod (2 ^ 32)

/-- `atoi` as the standard defines it: only for values that an `int` can represent. -/
def standardAtoi (text : Bytes) : Option ℤ :=
  let value := signedValue (text.dropWhile isSpace)
  if -2 ^ 31 ≤ value ∧ value < 2 ^ 31 then some value else none

/-- The digits `sprintf` prints for a number that is not negative. -/
def decimal (number : ℕ) : Bytes := (Nat.toDigits 10 number).map (·.toNat.toUInt8)

/-- What `sprintf` prints with `%d`. -/
def signedDecimal (number : ℤ) : Bytes :=
  if number < 0 then 45 :: decimal number.natAbs else decimal number.natAbs

/-- The code of a digit is between 48 and 57. -/
theorem digit_code {c : Char} (digit : c.isDigit) : 48 ≤ c.toNat ∧ c.toNat ≤ 57 := by
  simp only [Char.isDigit, Bool.and_eq_true, decide_eq_true_eq, ge_iff_le] at digit
  exact ⟨digit.1, digit.2⟩

/-- A digit fits in a byte. -/
theorem digit_byte {c : Char} (digit : c.isDigit) : c.toNat.toUInt8.toNat = c.toNat := by
  have code := digit_code digit
  rw [Nat.toUInt8, UInt8.toNat_ofNat']
  omega

/-- Every printed byte is a digit. -/
theorem isDigit_decimal {number : ℕ} {byte : UInt8} (printed : byte ∈ decimal number) :
    isDigit byte := by
  obtain ⟨c, inside, rfl⟩ := List.mem_map.mp printed
  have digit := Nat.isDigit_of_mem_toDigits (by decide) (by decide) inside
  have code := digit_code digit
  simp only [isDigit, digit_byte digit, Bool.and_eq_true, decide_eq_true_eq]
  exact code

/-- The printed digits have the value of the number. -/
theorem digitsValue_decimal (number : ℕ) : digitsValue 0 (decimal number) = number := by
  have same (digits : List Char) (all : ∀ c ∈ digits, c.isDigit) (before : ℕ) :
      digitsValue before (digits.map (·.toNat.toUInt8)) = Nat.ofDigitChars 10 digits before := by
    induction digits generalizing before with
    | nil => rw [Nat.ofDigitChars_nil]; rfl
    | cons c rest ih =>
      rw [Nat.ofDigitChars_cons, ← ih (fun d inside => all d (List.mem_cons_of_mem c inside))]
      simp only [digitsValue, List.map_cons, List.foldl_cons,
        digit_byte (all c List.mem_cons_self)]
      rfl
  rw [decimal, same _ fun c => Nat.isDigit_of_mem_toDigits (by decide) (by decide),
    Nat.ofDigitChars_toDigits (by decide) (by decide)]

/-- The leading digits of a text are all its digits when none follows behind them. -/
theorem leadingValue_digits {digits tail : Bytes} (all : ∀ byte ∈ digits, isDigit byte = true)
    (stop : ∀ byte ∈ tail.head?, isDigit byte = false) :
    leadingValue (digits ++ tail) = digitsValue 0 digits := by
  have tailStops : tail.takeWhile isDigit = [] := by
    cases tail with
    | nil => rfl
    | cons byte rest => rw [List.takeWhile_cons, stop byte rfl, if_neg (by decide)]
  rw [leadingValue, List.takeWhile_append_of_pos all, tailStops, List.append_nil]

/-- The leading digits of printed text behind which no digit follows are the printed ones. -/
theorem leadingValue_decimal (number : ℕ) {tail : Bytes}
    (stop : ∀ byte ∈ tail.head?, isDigit byte = false) :
    leadingValue (decimal number ++ tail) = number := by
  rw [leadingValue_digits (fun _ => isDigit_decimal) stop, digitsValue_decimal]

/-- Printed text is not empty. -/
theorem decimal_ne_nil (number : ℕ) : decimal number ≠ [] := by
  rw [decimal, Ne, List.map_eq_nil_iff]
  exact Nat.toDigits_ne_nil

/-- The digits of a number of two digits or more are those of a tenth of it and one more. -/
theorem decimal_of_ten_le {number : ℕ} (more : 10 ≤ number) :
    ∃ digit, decimal number = decimal (number / 10) ++ [digit] := by
  refine ⟨(Nat.digitChar (number % 10)).toNat.toUInt8, ?_⟩
  rw [decimal, Nat.toDigits_of_base_le (by decide) more, List.map_append]
  rfl

/-- A number of one digit. -/
theorem length_decimal_of_lt {number : ℕ} (less : number < 10) : (decimal number).length = 1 := by
  rw [decimal, Nat.toDigits_of_lt_base less]
  rfl

/-- A number below a power of ten has no more digits than the power. -/
theorem length_decimal_le {number size : ℕ} (some_ : 0 < size) (below : number < 10 ^ size) :
    (decimal number).length ≤ size := by
  rw [decimal, List.length_map]
  exact Nat.toDigits_length 10 number size some_ below

/-- The first digits of a number are those of a smaller one. -/
theorem take_decimal (number : ℕ) {size : ℕ} (some_ : 0 < size)
    (part : size < (decimal number).length) :
    ∃ less < number, (decimal number).take size = decimal less := by
  induction number using Nat.strong_induction_on with
  | _ number ih =>
    by_cases more : 10 ≤ number
    · obtain ⟨digit, split⟩ := decimal_of_ten_le more
      have smaller : number / 10 < number := by omega
      rw [split, List.length_append, List.length_singleton] at part
      have front : (decimal number).take size = (decimal (number / 10)).take size := by
        rw [split, List.take_append_of_le_length (by omega)]
      by_cases all : size = (decimal (number / 10)).length
      · exact ⟨number / 10, smaller, by rw [front, all, List.take_length]⟩
      · obtain ⟨less, below, same⟩ := ih (number / 10) smaller (by omega)
        exact ⟨less, below.trans smaller, front.trans same⟩
    · rw [length_decimal_of_lt (Nat.lt_of_not_le more)] at part
      omega

/-- The value of digits, whatever stands behind them. -/
theorem signedValue_digits {digits tail : Bytes} (some_ : digits ≠ [])
    (all : ∀ byte ∈ digits, isDigit byte = true)
    (stop : ∀ byte ∈ tail.head?, isDigit byte = false) :
    signedValue ((digits ++ tail).dropWhile isSpace) = digitsValue 0 digits := by
  have value := leadingValue_digits all stop
  obtain ⟨byte, rest, rfl⟩ := List.exists_cons_of_ne_nil some_
  have code : 48 ≤ byte.toNat ∧ byte.toNat ≤ 57 := by
    simpa only [isDigit, Bool.and_eq_true, decide_eq_true_eq] using all byte List.mem_cons_self
  have notSpace : isSpace byte = false := by
    simp only [isSpace, Bool.or_eq_false_iff, beq_eq_false_iff_ne, Bool.and_eq_false_iff,
      decide_eq_false_iff_not]
    omega
  rw [List.cons_append, List.dropWhile_cons, notSpace, if_neg (by decide), ← List.cons_append,
    ← value]
  unfold signedValue
  split <;> rename_i same
  · obtain ⟨rfl, -⟩ := List.cons.inj same
    exact absurd code (by decide)
  · obtain ⟨rfl, -⟩ := List.cons.inj same
    exact absurd code (by decide)
  · rfl

/-- The value of what was printed, whatever stands behind the digits. -/
theorem signedValue_decimal (number : ℕ) (tail : Bytes)
    (stop : ∀ byte ∈ tail.head?, isDigit byte = false) :
    signedValue ((decimal number ++ tail).dropWhile isSpace) = number := by
  rw [signedValue_digits (decimal_ne_nil number) (fun _ => isDigit_decimal) stop,
    digitsValue_decimal]

/-- Reading back what was printed, whatever stands behind the digits. -/
theorem strtol_decimal {number : ℕ} (fits : number < 2 ^ 63) (tail : Bytes)
    (stop : ∀ byte ∈ tail.head?, isDigit byte = false) :
    strtol (decimal number ++ tail) = number := by
  rw [strtol, signedValue_decimal number tail stop]
  omega

/-- A printed number is read back as the standard defines it exactly when it fits in an `int`. -/
theorem standardAtoi_decimal (number : ℕ) :
    standardAtoi (decimal number) = if number < 2 ^ 31 then some (number : ℤ) else none := by
  have value := signedValue_decimal number [] (by simp)
  rw [List.append_nil] at value
  rw [standardAtoi, value]
  by_cases fits : number < 2 ^ 31
  · rw [if_pos fits, if_pos (by omega)]
  · rw [if_neg fits, if_neg (by omega)]

/-- Where the standard defines `atoi`, the library's function answers the same. -/
theorem atoi_standard {text : Bytes} {value : ℤ} (defined : standardAtoi text = some value) :
    atoi text = value := by
  unfold standardAtoi at defined
  dsimp only at defined
  split_ifs at defined with fits
  rw [← Option.some.inj defined, atoi, strtol, Int.bmod_eq_of_le] <;> omega

/-- An `int` that is printed and read back keeps its value. -/
theorem atoi_decimal {number : ℕ} (fits : number < 2 ^ 31) : atoi (decimal number) = number := by
  have read := strtol_decimal (by omega : number < 2 ^ 63) [] (by simp)
  rw [List.append_nil] at read
  rw [atoi, read, Int.bmod_eq_of_le (by omega) (by omega)]

/-- An `unsigned int` survives the detour through `int`. -/
theorem atoi_decimal_unsigned (word : UInt32) :
    UInt32.ofInt (atoi (decimal word.toNat)) = word := by
  have bound := word.toNat_lt
  have read := strtol_decimal (by omega : word.toNat < 2 ^ 63) [] (by simp)
  rw [List.append_nil] at read
  rw [atoi, read]
  have cut : (word.toNat : ℤ).bmod (2 ^ 32) % 2 ^ 32 = word.toNat % 2 ^ 32 :=
    Int.bmod_emod
  apply UInt32.toNat_inj.mp
  rw [UInt32.ofInt, UInt32.toNat_ofNat', cut]
  omega

/-! ## Signed numbers -/

/-- Printed text is not empty, also behind a sign. -/
theorem signedDecimal_ne_nil (number : ℤ) : signedDecimal number ≠ [] := by
  unfold signedDecimal
  split_ifs
  · exact List.cons_ne_nil 45 _
  · exact decimal_ne_nil number.natAbs

/-- Every printed byte is a minus or a digit. -/
theorem signedDecimal_byte {number : ℤ} {byte : UInt8} (printed : byte ∈ signedDecimal number) :
    byte = 45 ∨ isDigit byte := by
  unfold signedDecimal at printed
  split_ifs at printed
  · exact (List.mem_cons.mp printed).imp_right isDigit_decimal
  · exact Or.inr (isDigit_decimal printed)

/-- An `int` has no more than ten digits and a sign. -/
theorem length_signedDecimal_le {number : ℤ} (low : -2 ^ 31 ≤ number) (high : number < 2 ^ 31) :
    (signedDecimal number).length ≤ 11 := by
  have digits := length_decimal_le (by decide) (by omega : number.natAbs < 10 ^ 10)
  unfold signedDecimal
  split_ifs
  · exact Nat.succ_le_succ digits
  · exact digits.trans (by decide)

/-- A negative `int` is read back behind its sign. -/
theorem atoi_minus {number : ℕ} (fits : number ≤ 2 ^ 31) :
    atoi (45 :: decimal number) = -number := by
  have stop : ∀ byte ∈ ([] : Bytes).head?, isDigit byte = false := by simp
  have value := leadingValue_decimal number stop
  rw [List.append_nil] at value
  have signed : signedValue (45 :: decimal number) = -number :=
    congrArg (fun value : ℕ => -(value : ℤ)) value
  rw [atoi, strtol, List.dropWhile_cons, if_neg (by decide), signed]
  have inside : max (-2 ^ 63) (min (2 ^ 63 - 1) (-(number : ℤ))) = -number := by omega
  rw [inside, Int.bmod_eq_of_le (by omega) (by omega)]

/-- Every `int` that is printed and read back keeps its value. -/
theorem atoi_signedDecimal {number : ℤ} (low : -2 ^ 31 ≤ number) (high : number < 2 ^ 31) :
    atoi (signedDecimal number) = number := by
  unfold signedDecimal
  split_ifs with negative
  · rw [atoi_minus (by omega)]
    omega
  · rw [atoi_decimal (by omega)]
    omega

/-- An `int` that lost digits is another one. -/
theorem atoi_take_signedDecimal {number : ℤ} (low : -2 ^ 31 ≤ number) (high : number < 2 ^ 31)
    {size : ℕ} (some_ : 0 < size) (part : size < (signedDecimal number).length) :
    atoi ((signedDecimal number).take size) ≠ number := by
  unfold signedDecimal at part ⊢
  split_ifs at part ⊢ with negative
  · obtain ⟨rest, rfl⟩ := Nat.exists_eq_succ_of_ne_zero some_.ne'
    rw [List.length_cons] at part
    rw [List.take_succ_cons]
    by_cases sign : rest = 0
    · have zero : atoi [45] = 0 := by decide
      rw [sign, List.take_zero, zero]
      omega
    · obtain ⟨less, below, cut⟩ := take_decimal number.natAbs (Nat.pos_of_ne_zero sign) (by omega)
      rw [cut, atoi_minus (by omega)]
      omega
  · obtain ⟨less, below, cut⟩ := take_decimal number.natAbs some_ part
    rw [cut, atoi_decimal (by omega)]
    omega

/-! ## Numbers in a text that grows -/

/-- What stands behind the blanks and the sign. -/
def digitsText (text : Bytes) : Bytes :=
  match text.dropWhile isSpace with
  | 45 :: rest => rest
  | 43 :: rest => rest
  | rest => rest

/-- The number ends within the text. -/
def NumberEnds (text : Bytes) : Prop := ∃ byte ∈ digitsText text, isDigit byte = false

/-- The sign behind the blanks is a minus. -/
def isNegative (text : Bytes) : Bool := (text.dropWhile isSpace).head? == some 45

/-- The number has so many digits that one more makes it leave the range of `long`, and is cut to
the same `int` as the end of that range. -/
def Saturated (text : Bytes) : Prop :=
  2 ^ 63 ≤ 10 * leadingValue (digitsText text) ∧
    if isNegative text then
      2 ^ 63 ≤ leadingValue (digitsText text) ∨ 2 ^ 32 ∣ leadingValue (digitsText text)
    else
      2 ^ 63 ≤ leadingValue (digitsText text) + 1 ∨ 2 ^ 32 ∣ leadingValue (digitsText text) + 1

/-- A value and its sign, clamped to the range of `long` and cut to an `int`. -/
def clampedInt (negative : Bool) (value : ℕ) : ℤ :=
  (max (-2 ^ 63) (min (2 ^ 63 - 1) (if negative then -(value : ℤ) else value))).bmod (2 ^ 32)

/-- Digits behind digits only make the value larger. -/
theorem le_digitsValue (before : ℕ) (digits : Bytes) : before ≤ digitsValue before digits := by
  induction digits generalizing before with
  | nil => exact le_rfl
  | cons digit rest ih =>
    exact le_trans (by omega) (ih (10 * before + (digit.toNat - 48)))

/-- The value of digits behind which more bytes stand. -/
theorem leadingValue_append {digits : Bytes} (all : ∀ byte ∈ digits, isDigit byte = true)
    (more : Bytes) :
    leadingValue (digits ++ more) = digitsValue (leadingValue digits) (more.takeWhile isDigit) := by
  unfold leadingValue digitsValue
  rw [List.takeWhile_append_of_pos all, List.takeWhile_eq_self_iff.mpr all, List.foldl_append]

/-- The value of a number that ends stays. -/
theorem leadingValue_ended {digits : Bytes} (ends : ∃ byte ∈ digits, isDigit byte = false)
    (more : Bytes) : leadingValue (digits ++ more) = leadingValue digits := by
  have cut : (digits ++ more).takeWhile isDigit = digits.takeWhile isDigit := by
    rw [List.takeWhile_append, if_neg]
    intro whole
    obtain ⟨byte, inside, other⟩ := ends
    have all := List.takeWhile_eq_self_iff.mp ((List.takeWhile_prefix isDigit).eq_of_length whole)
    rw [all byte inside] at other
    cases other
  rw [leadingValue, leadingValue, cut]

/-- Behind blanks there is a sign or not, and the rest is read as digits. -/
theorem atoi_signed {text : Bytes} (some_ : text.dropWhile isSpace ≠ []) (more : Bytes) :
    atoi (text ++ more) =
      clampedInt (isNegative text) (leadingValue (digitsText text ++ more)) := by
  obtain ⟨first, rest, shape⟩ := List.exists_cons_of_ne_nil some_
  have front : (text ++ more).dropWhile isSpace = first :: (rest ++ more) := by
    rw [List.dropWhile_append, if_neg (by simpa [List.isEmpty_iff] using some_), shape]
    rfl
  unfold atoi strtol clampedInt isNegative digitsText
  rw [front, shape]
  congr 3
  by_cases minus : first = 45
  · subst minus
    rfl
  by_cases plus : first = 43
  · subst plus
    rfl
  unfold signedValue
  simp [minus, plus]

/-- Beyond the range of `long` every value is cut to the same `int`. -/
theorem clampedInt_large (negative : Bool) {value : ℕ} (large : 2 ^ 63 ≤ value) :
    clampedInt negative value = if negative then 0 else -1 := by
  unfold clampedInt
  cases negative with
  | false =>
    have clamped : max (-2 ^ 63) (min (2 ^ 63 - 1) (value : ℤ)) = 2 ^ 63 - 1 := by omega
    simp only [Bool.false_eq_true, if_false, clamped]
    decide
  | true =>
    have clamped : max (-2 ^ 63) (min (2 ^ 63 - 1) (-(value : ℤ))) = -2 ^ 63 := by omega
    simp only [if_true, clamped]
    decide

/-- The values that are cut to that `int`. -/
theorem clampedInt_eq_iff (negative : Bool) (value : ℕ) :
    clampedInt negative value = (if negative then 0 else -1) ↔
      if negative then 2 ^ 63 ≤ value ∨ 2 ^ 32 ∣ value
      else 2 ^ 63 ≤ value + 1 ∨ 2 ^ 32 ∣ value + 1 := by
  unfold clampedInt
  cases negative with
  | false =>
    simp only [Bool.false_eq_true, if_false, Int.bmod]
    omega
  | true =>
    simp only [if_true, Int.bmod]
    omega

/-- Values next to each other in the range of `long` are cut to different ones. -/
theorem clampedInt_succ_ne (negative : Bool) {value : ℕ} (fits : value + 1 < 2 ^ 63) :
    clampedInt negative (value + 1) ≠ clampedInt negative value := by
  unfold clampedInt
  cases negative with
  | false =>
    simp only [Bool.false_eq_true, if_false, Int.bmod]
    omega
  | true =>
    simp only [if_true, Int.bmod]
    omega

/-- A text of blanks becomes a number by any digit that is added. -/
theorem atoi_blanks {text : Bytes} (blanks : text.dropWhile isSpace = []) :
    atoi (text ++ [53]) ≠ atoi text ∧ digitsText text = [] := by
  have front : (text ++ [53]).dropWhile isSpace = [53] := by
    rw [List.dropWhile_append, if_pos (by rw [blanks]; rfl)]
    rfl
  unfold atoi strtol digitsText
  rw [front, blanks]
  exact ⟨by decide, rfl⟩

/-- Bytes behind a text do not change what `atoi` makes of it exactly when its number ends within
it or has so many digits that one more is lost. -/
theorem atoi_append_iff {plain : UInt8 → Prop} (digits : ∀ byte, isDigit byte = true → plain byte)
    (text : Bytes) : (∀ more, (∀ byte ∈ more, plain byte) → atoi (text ++ more) = atoi text) ↔
      NumberEnds text ∨ Saturated text := by
  have digit (byte : UInt8) (isDigit_ : isDigit byte = true) : ∀ other ∈ [byte], plain other := by
    intro other inside
    rw [List.mem_singleton.mp inside]
    exact digits byte isDigit_
  by_cases some_ : text.dropWhile isSpace = []
  · obtain ⟨changed, nothing⟩ := atoi_blanks some_
    refine iff_of_false (fun stays => changed (stays [53] (digit 53 rfl))) ?_
    rintro (⟨byte, inside, -⟩ | ⟨many, -⟩)
    · rw [nothing] at inside
      exact absurd inside List.not_mem_nil
    · rw [nothing] at many
      exact absurd many (by decide)
  have read := atoi_signed some_
  have readSelf := read []
  rw [List.append_nil, List.append_nil] at readSelf
  by_cases ends : NumberEnds text
  · refine iff_of_true (fun more _ => ?_) (Or.inl ends)
    rw [read, readSelf, leadingValue_ended ends]
  have all : ∀ byte ∈ digitsText text, isDigit byte = true := by
    intro byte inside
    by_contra other
    exact ends ⟨byte, inside, Bool.eq_false_iff.mpr other⟩
  have value := leadingValue_append all
  have zeroValue : leadingValue (digitsText text ++ [48]) =
      10 * leadingValue (digitsText text) := value [48]
  have oneValue : leadingValue (digitsText text ++ [49]) =
      10 * leadingValue (digitsText text) + 1 := value [49]
  rw [or_iff_right ends]
  constructor
  · intro stays
    have zero := stays [48] (digit 48 rfl)
    have one := stays [49] (digit 49 rfl)
    rw [read, zeroValue] at zero
    rw [read, oneValue] at one
    have many : 2 ^ 63 ≤ 10 * leadingValue (digitsText text) := by
      by_contra few
      exact clampedInt_succ_ne _ (by omega) (one.trans zero.symm)
    rw [clampedInt_large _ many, readSelf] at zero
    exact ⟨many, (clampedInt_eq_iff _ _).mp zero.symm⟩
  · rintro ⟨many, saturated⟩ more -
    rw [read, readSelf, (clampedInt_eq_iff _ _).mpr saturated]
    cases run : more.takeWhile isDigit with
    | nil =>
      rw [value, run]
      exact (clampedInt_eq_iff _ _).mpr saturated
    | cons first rest =>
      apply clampedInt_large
      rw [value, run]
      exact le_trans (le_trans many (Nat.le_add_right _ _)) (le_digitsValue _ rest)

end TinyTools.Lib
