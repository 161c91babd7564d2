import Intent.Library.Positional
import Intent.Old.ScanNumber
import Intent.Old.LexerOperators
import Mathlib.Data.Nat.Digits.Defs
import Mathlib.Data.Nat.GCD.Basic
import Mathlib.Tactic.FieldSimp

/-!
# Numeric literals

`Literal` is the grammar of numeric literals, with the number that each denotes
(`Literal.value`): an optional sign, and digits in one of five formats, with underscores between
digits. `Magnitude.Readable` is the condition under which the lexer reads one as it is meant.

The rest of the module takes `get_number_token` apart. It looks only at what follows `p`, so that
its functions are first moved to the beginning of the text (`Scanned.shift`), where the literal is
a prefix. Then come the parts of a literal: its groups of digits, what is behind the whole part
(`readRadix`), and the base (`readMagnitude_base`). Last is the arithmetic of what 64 bits
keep of a floating-point literal (`dropped_iff`).
-/

namespace Intent.Old

/-! ### Literals -/

/-- Digits, with underscores between them. -/
structure DigitGroup (digit : UInt8 → Option ℕ) where
  text : Text
  first : text.head?.any (fun c => (digit c).isSome) = true
  last : text.getLast?.any (fun c => (digit c).isSome) = true
  all : ∀ c ∈ text, (digit c).isSome = true ∨ c = ch '_'

theorem all_digits {digit : UInt8 → Option ℕ} {w : Text}
    (h : w.all (fun c => (digit c).isSome || c == ch '_') = true) :
    ∀ c ∈ w, (digit c).isSome = true ∨ c = ch '_' := by
  simpa using h

/-- The digits of a group. -/
def DigitGroup.digits {digit : UInt8 → Option ℕ} (g : DigitGroup digit) : List ℕ :=
  g.text.filterMap digit

/-- The number that a list of digits denotes, the most significant digit first. -/
def numeral (base : ℕ) (digits : List ℕ) : ℕ := Nat.ofDigits base digits.reverse

/-- The number that a group denotes. -/
def DigitGroup.value {digit : UInt8 → Option ℕ} (g : DigitGroup digit) (base : ℕ) : ℕ :=
  numeral base g.digits

/-- The number that a group denotes behind a radix. -/
def DigitGroup.fraction {digit : UInt8 → Option ℕ} (g : DigitGroup digit) : ℚ :=
  g.value 10 / 10 ^ g.digits.length

/-- A group of decimal digits. -/
abbrev DecimalGroup := DigitGroup (digitBelow 10)

/-- An optional sign. -/
inductive Sign where
  | none | plus | minus
  deriving DecidableEq

/-- The characters of a sign. -/
def Sign.text : Sign → Text
  | .none => []
  | .plus => [ch '+']
  | .minus => [ch '-']

/-- A number with a sign. -/
def Sign.apply (sign : Sign) (x : ℚ) : ℚ := if sign = .minus then -x else x

/-- The exponent of a floating-point literal. -/
structure Exponent where
  upper : Bool
  sign : Sign
  digits : DecimalGroup

def Exponent.text (e : Exponent) : Text :=
  (if e.upper then ch 'E' else ch 'e') :: (e.sign.text ++ e.digits.text)

/-- The power of ten that an exponent denotes. -/
def Exponent.factor (e : Exponent) : ℚ :=
  10 ^ (if e.sign = .minus then -(e.digits.value 10 : ℤ) else e.digits.value 10)

/-- A literal without its sign. A whole number with a leading `0` is octal, unless it is `0` or
has a digit that is not octal. -/
inductive Magnitude where
  | decimal (g : DecimalGroup) (h : g.text.head? = some (ch '0') → g.text = [ch '0'] ∨
      ∃ c ∈ g.text, digitBelow 8 c = none ∧ c ≠ ch '_')
  | hex (upper : Bool) (g : DigitGroup hexDigit)
  | binary (upper : Bool) (g : DigitGroup (digitBelow 2))
  | octal (g : DigitGroup (digitBelow 8)) (hzero : g.text.head? = some (ch '0'))
      (hlong : 1 < g.text.length)
  | fraction (whole : Option DecimalGroup) (g : DecimalGroup) (exponent : Option Exponent)
  | scientific (whole : DecimalGroup) (exponent : Exponent)

namespace Magnitude

/-- The characters of a literal. -/
def text : Magnitude → Text
  | decimal g _ => g.text
  | hex upper g => ch '0' :: (if upper then ch 'X' else ch 'x') :: g.text
  | binary upper g => ch '0' :: (if upper then ch 'B' else ch 'b') :: g.text
  | octal g _ _ => g.text
  | fraction whole g exponent =>
    whole.elim [] DigitGroup.text ++ ch '.' :: (g.text ++ exponent.elim [] Exponent.text)
  | scientific whole exponent => whole.text ++ exponent.text

/-- The whole number that a literal denotes, if it is no floating-point literal. -/
def whole? : Magnitude → Option ℕ
  | decimal g _ => some (g.value 10)
  | hex _ g => some (g.value 16)
  | binary _ g => some (g.value 2)
  | octal g _ _ => some (g.value 8)
  | fraction _ _ _ => none
  | scientific _ _ => none

/-- The number that a literal denotes. -/
def value : Magnitude → ℚ
  | decimal g _ => g.value 10
  | hex _ g => g.value 16
  | binary _ g => g.value 2
  | octal g _ _ => g.value 8
  | fraction whole g exponent =>
    (whole.elim 0 (·.value 10) + g.fraction) * exponent.elim 1 Exponent.factor
  | scientific whole exponent => whole.value 10 * exponent.factor

end Magnitude

/-- A numeric literal. -/
structure Literal where
  sign : Sign
  magnitude : Magnitude

namespace Literal

/-- The characters of a literal. -/
def text (lit : Literal) : Text := lit.sign.text ++ lit.magnitude.text

/-- The number that a literal denotes. -/
def value (lit : Literal) : ℚ := lit.sign.apply lit.magnitude.value

/-- A whole number fits the type of the token's value: `int64_t` behind a minus sign,
else `uint64_t`. -/
def Fits (lit : Literal) : Prop :=
  ∀ n ∈ lit.magnitude.whole?, if lit.sign = .minus then n ≤ 2 ^ 63 else n < 2 ^ 64

end Literal

/-- A character that can stand inside of a literal, behind its sign. -/
def isLiteralByte (c : UInt8) : Bool :=
  (hexDigit c).isSome || c == ch 'x' || c == ch 'X' || c == ch '_' || c == ch '.'

/-- What follows a literal: the end of the text, or a character that no literal goes on with. -/
def Follows (after : Text) : Prop := after.head?.any isLiteralByte = false

/-- The group begins with a `0` and another octal digit. -/
def DigitGroup.LooksOctal {digit : UInt8 → Option ℕ} (g : DigitGroup digit) : Prop :=
  g.text[0]? = some (ch '0') ∧ g.text[1]?.any (fun c => (digitBelow 8 c).isSome) = true

/-- What a magnitude has to meet to be read as it is meant, behind a sign and before the rest of
the text. -/
def Magnitude.Readable (sign : Sign) (after : Text) : Magnitude → Prop
  | decimal g _ => ¬ g.LooksOctal
  | hex _ _ => True
  | binary _ _ => True
  | octal g _ _ =>
    if g.text[1]? = some (ch '_') then g.value 10 % 2 ^ 64 = g.value 8
    else g.text[1]? = some (ch '0') ∨ g.text.length = 2 ∧ after = []
  | fraction none g exponent =>
    sign = .none ∧ ∀ e ∈ exponent, e.digits.value 10 < 2 ^ 64 ∨ g.value 10 = 0
  | fraction (some whole) g exponent =>
    ¬ whole.LooksOctal ∧ whole.value 10 < 2 ^ 64 ∧
      (exponent = none → sign = .minus → whole.value 10 = 0 ∧ g.value 10 = 0) ∧
      ∀ e ∈ exponent, e.digits.value 10 < 2 ^ 64 ∨ whole.value 10 = 0 ∧ g.value 10 = 0
  | scientific whole _ => ¬ whole.LooksOctal ∧ whole.value 10 = 0

/-! ### Digits -/

section Digits

variable {digit : UInt8 → Option ℕ} {w rest : Text}

/-- Behind the digits: neither a digit nor an underscore. -/
def EndsDigits (digit : UInt8 → Option ℕ) (rest : Text) : Prop :=
  ∀ c ∈ rest.head?, digit c = none ∧ c ≠ ch '_'

/-- A run of digits is read up to its end. -/
theorem digitRun_of_ends (hw : ∀ c ∈ w, (digit c).isSome = true ∨ c = ch '_')
    (hrest : EndsDigits digit rest) :
    digitRun digit (w ++ rest) = (w.filterMap digit, w.length) := by
  induction w with
  | nil =>
    cases rest with
    | nil => rfl
    | cons c rest =>
      obtain ⟨hdigit, hne⟩ := hrest c rfl
      simp only [List.nil_append, digitRun, hdigit, if_neg hne]
      rfl
  | cons c w ih =>
    have htail := ih fun c hc => hw c (List.mem_cons_of_mem _ hc)
    cases hdigit : digit c with
    | some d => simp [digitRun, hdigit, htail]
    | none =>
      have hc : c = ch '_' := (hw c List.mem_cons_self).resolve_left (by simp [hdigit])
      simp only [List.cons_append, digitRun, hdigit, if_pos hc, htail,
        List.filterMap_cons_none hdigit, List.length_cons]

theorem numeral_eq_foldl (base : ℕ) (digits : List ℕ) :
    numeral base digits = digits.foldl (fun n d => n * base + d) 0 := by
  rw [numeral, Nat.ofDigits_eq_foldr, List.foldr_reverse]
  simp only [Nat.cast_id, Nat.add_comm, Nat.mul_comm]

theorem numeral_cons (base d : ℕ) (digits : List ℕ) :
    numeral base (d :: digits) = d * base ^ digits.length + numeral base digits :=
  ofDigits_reverse_cons base d digits

private theorem toNat_foldl (base : ℕ) (digits : List ℕ) (n : UInt64) (k : ℕ)
    (h : n.toNat = k % 2 ^ 64) :
    (digits.foldl (fun n d => n * UInt64.ofNat base + UInt64.ofNat d) n).toNat =
      digits.foldl (fun n d => n * base + d) k % 2 ^ 64 := by
  induction digits generalizing n k with
  | nil => exact h
  | cons d digits ih =>
    refine ih _ _ ?_
    rw [UInt64.toNat_add, UInt64.toNat_mul, h, UInt64.toNat_ofNat', UInt64.toNat_ofNat',
      ← Nat.mul_mod, ← Nat.add_mod]

/-- The number of a run is the numeral, in 64 bits. -/
theorem toNat_scanDigits (base : ℕ) (digit : UInt8 → Option ℕ) (s : Text) :
    (scanDigits base digit s).1.toNat = numeral base (digitRun digit s).1 % 2 ^ 64 := by
  rw [numeral_eq_foldl]
  exact toNat_foldl base _ 0 0 rfl

theorem scanDigits_append (base : ℕ) (hw : ∀ c ∈ w, (digit c).isSome = true ∨ c = ch '_')
    (hrest : EndsDigits digit rest) :
    (scanDigits base digit (w ++ rest)).1.toNat = numeral base (w.filterMap digit) % 2 ^ 64 ∧
      (scanDigits base digit (w ++ rest)).2 = w.length := by
  rw [toNat_scanDigits, scanDigits, digitRun_of_ends hw hrest]
  exact ⟨rfl, rfl⟩

/-- The digits after a radix. -/
theorem postRadix_eq (digits : List ℕ) :
    postRadix digits = numeral 10 digits / 10 ^ digits.length := by
  have hsum : ∀ (l : List ℕ) (a d : ℚ), d ≠ 0 →
      ((l.map Nat.cast).foldl (fun s (x : ℚ) => (s.1 + x / s.2, s.2 * 10)) (a, d)).1 =
        a + 10 / d * (numeral 10 l / 10 ^ l.length) := by
    intro l
    induction l with
    | nil =>
      intro a d _
      simp [numeral]
    | cons x l ih =>
      intro a d hd
      rw [List.map_cons, List.foldl_cons, ih _ _ (mul_ne_zero hd (by norm_num)), numeral_cons,
        List.length_cons, Nat.cast_add, Nat.cast_mul, Nat.cast_pow, pow_succ]
      field_simp
      norm_num
      ring
  have hcast : (digits >>= fun d => pure (d : ℚ)) = digits.map Nat.cast := by
    rw [List.map_eq_flatMap]
    rfl
  rw [postRadix, hcast, hsum digits 0 10 (by norm_num)]
  norm_num

end Digits

/-! ### Moving a scanner -/

/-- What was found, `q` bytes further on. -/
def Scanned.shift (s : Scanned) (q : ℕ) : Scanned := { s with stop := q + s.stop }

section Shift

variable {txt : Text} {negative : Bool}

theorem scanDecimalNumber_drop (q p : ℕ) :
    scanDecimalNumber txt (q + p) =
      ((scanDecimalNumber (txt.drop q) p).1, (scanDecimalNumber (txt.drop q) p).2.1,
        q + (scanDecimalNumber (txt.drop q) p).2.2) := by
  simp only [scanDecimalNumber, List.getElem?_drop, List.drop_drop]
  split_ifs <;> simp only [Nat.add_assoc]

theorem finishNumber_drop (whole : UInt64) (significand : Option (List ℕ × UInt64)) (q p : ℕ) :
    finishNumber txt negative whole significand (q + p) =
      (finishNumber (txt.drop q) negative whole significand p).shift q := by
  have hlen : p + 1 < (txt.drop q).length ↔ q + p + 1 < txt.length := by
    rw [List.length_drop]
    omega
  simp only [finishNumber, hlen, List.getElem?_drop]
  split_ifs
  · rw [Nat.add_assoc, scanDecimalNumber_drop]
    rfl
  · cases significand with
    | some s => rfl
    | none => rfl

end Shift

/-! ### The part after the whole number -/

section Rest

variable {negative : Bool} {after : Text} {n : UInt64}

/-- What is behind a literal does not go on with any of its groups. -/
theorem Follows.endsDigits (h : Follows after) {digit : UInt8 → Option ℕ}
    (hdigit : ∀ c, (digit c).isSome = true → (hexDigit c).isSome = true) :
    EndsDigits digit after := by
  intro c hc
  rw [Follows, hc, Option.any_some] at h
  simp only [isLiteralByte, Bool.or_eq_false_iff, beq_eq_false_iff_ne] at h
  obtain ⟨⟨⟨⟨hhex, -⟩, -⟩, hscore⟩, -⟩ := h
  refine ⟨Option.not_isSome_iff_eq_none.mp fun hsome => ?_, hscore⟩
  rw [hdigit c hsome] at hhex
  cases hhex

theorem isSome_hexDigit_of_digitBelow (base : ℕ) (c : UInt8)
    (h : (digitBelow base c).isSome = true) : (hexDigit c).isSome = true := by
  unfold digitBelow at h
  split_ifs at h with hc
  · rw [hexDigit, if_pos hc.1]
    rfl
  · cases h

/-- The digits of a group are read up to what is behind them. -/
theorem DigitGroup.digitRun {digit : UInt8 → Option ℕ} (g : DigitGroup digit) {rest : Text}
    (hrest : EndsDigits digit rest) :
    Old.digitRun digit (g.text ++ rest) = (g.digits, g.text.length) :=
  digitRun_of_ends g.all hrest

theorem DigitGroup.scanDigits {digit : UInt8 → Option ℕ} (g : DigitGroup digit) {rest : Text}
    (base : ℕ) (hrest : EndsDigits digit rest) :
    (Old.scanDigits base digit (g.text ++ rest)).1.toNat = g.value base % 2 ^ 64 ∧
      (Old.scanDigits base digit (g.text ++ rest)).2 = g.text.length :=
  scanDigits_append base g.all hrest

/-- The part of `get_number_token` behind a whole number `n`. -/
def readRadix (rest : Text) (negative : Bool) (n : UInt64) : Scanned :=
  if rest[0]? = some (ch '.') then
    finishNumber rest negative n (some ((scanDecimalDigitsPostRadix (rest.drop 1)).1, n))
      (1 + (scanDecimalDigitsPostRadix (rest.drop 1)).2)
  else finishNumber rest negative n none 0

/-- A decimal number is its whole part, and what is behind it. -/
theorem getDecimalNumber_append (negative : Bool) {w rest : Text}
    (hw : ∀ c ∈ w, (digitBelow 10 c).isSome = true ∨ c = ch '_')
    (hrest : EndsDigits (digitBelow 10) rest) :
    ∃ n : UInt64, n.toNat = numeral 10 (w.filterMap (digitBelow 10)) % 2 ^ 64 ∧
      getDecimalNumber (w ++ rest) negative false 0 =
        (readRadix rest negative n).shift w.length := by
  obtain ⟨hn, hk⟩ := scanDigits_append 10 hw hrest
  refine ⟨_, hn, ?_⟩
  have hget : (w ++ rest)[w.length]? = rest[0]? := by
    rw [List.getElem?_append_right le_rfl, Nat.sub_self]
  have hdrop : ∀ k, (w ++ rest).drop (w.length + k) = rest.drop k := fun k => by
    rw [List.drop_append, Nat.add_sub_cancel_left, List.drop_eq_nil_of_le (by omega),
      List.nil_append]
  have hfinish : ∀ significand k,
      finishNumber (w ++ rest) negative (Old.scanDigits 10 (digitBelow 10) (w ++ rest)).1
        significand (w.length + k) =
      (finishNumber rest negative (Old.scanDigits 10 (digitBelow 10) (w ++ rest)).1
        significand k).shift w.length := fun significand k => by
    rw [finishNumber_drop, ← Nat.add_zero w.length, hdrop 0, List.drop_zero, Nat.add_zero]
  simp only [getDecimalNumber, readRadix, Bool.false_eq_true, if_false, false_or,
    scanDecimalDigitsPreRadix, List.drop_zero, Nat.zero_add, hk, hget, hdrop]
  split_ifs
  · rw [Nat.add_assoc, hfinish]
  · exact hfinish none 0

theorem Follows.not_exponent (h : Follows after) :
    ¬ (after[0]? = some (ch 'e') ∨ after[0]? = some (ch 'E')) := by
  rw [← List.head?_eq_getElem?]
  rintro (he | he)
  · rw [Follows, he] at h
    exact absurd h (by decide)
  · rw [Follows, he] at h
    exact absurd h (by decide)

theorem Follows.not_radix (h : Follows after) : after[0]? ≠ some (ch '.') := by
  rw [← List.head?_eq_getElem?]
  intro he
  rw [Follows, he] at h
  exact absurd h (by decide)

/-- The end of a literal without an exponent, and with or without a radix before it. -/
theorem finishNumber_follows (h : Follows after) :
    (∀ s, finishNumber after negative n (some s) 0 =
        ⟨.floatingPointNumber, 0, .floating ⟨some s, none, false⟩⟩) ∧
      finishNumber after negative n none 0 =
        ⟨.decimalNumber, 0, possiblySignedValue negative n⟩ := by
  have hexp : ¬ HasExponent after 0 := fun hexp => h.not_exponent hexp.2
  refine ⟨fun s => ?_, ?_⟩
  · simp only [finishNumber, if_neg hexp]
  · simp only [finishNumber, if_neg hexp]

theorem readRadix_follows (h : Follows after) :
    readRadix after negative n = ⟨.decimalNumber, 0, possiblySignedValue negative n⟩ := by
  rw [readRadix, if_neg h.not_radix, (finishNumber_follows h).2]

theorem Sign.length_text (sign : Sign) {k : ℕ} :
    (if sign = .plus ∨ sign = .minus then k + 1 else k) = k + sign.text.length := by
  cases sign with
  | none => rfl
  | plus => rfl
  | minus => rfl

/-- The character at which a sign is looked for. -/
theorem Sign.first_iff (sign : Sign) {s : Text} (hplus : s[0]? ≠ some (ch '+'))
    (hminus : s[0]? ≠ some (ch '-')) :
    ((sign.text ++ s)[0]? = some (ch '+') ↔ sign = .plus) ∧
      ((sign.text ++ s)[0]? = some (ch '-') ↔ sign = .minus) := by
  cases sign with
  | none => exact ⟨iff_of_false hplus (by decide), iff_of_false hminus (by decide)⟩
  | plus => exact ⟨iff_of_true rfl rfl, iff_of_false
      (fun h => absurd (Option.some.inj h) (by decide)) (by decide)⟩
  | minus => exact ⟨iff_of_false (fun h => absurd (Option.some.inj h) (by decide)) (by decide),
      iff_of_true rfl rfl⟩

/-- A group begins with a digit. -/
theorem DigitGroup.exists_first {digit : UInt8 → Option ℕ} (g : DigitGroup digit) (rest : Text) :
    ∃ c, (g.text ++ rest)[0]? = some c ∧ (digit c).isSome = true ∧ g.text[0]? = some c := by
  have hfirst := g.first
  cases htext : g.text with
  | nil =>
    rw [htext] at hfirst
    cases hfirst
  | cons c w =>
    rw [htext, List.head?_cons, Option.any_some] at hfirst
    exact ⟨c, rfl, hfirst, rfl⟩

/-- No group of decimal digits begins with a character that is none of them. -/
theorem DigitGroup.first_ne {base : ℕ} (g : DigitGroup (digitBelow base)) {rest : Text} {c : UInt8}
    (hc : isdigit c = false) : (g.text ++ rest)[0]? ≠ some c := by
  obtain ⟨d, hd, hdigit, -⟩ := g.exists_first rest
  rw [hd]
  intro heq
  rw [Option.some.inj heq, digitBelow, hc] at hdigit
  simp at hdigit

/-- The digits of an exponent, with their sign. -/
theorem scanDecimalNumber_exponent (e : Exponent) (h : Follows after) :
    ∃ x : UInt64, x.toNat = e.digits.value 10 % 2 ^ 64 ∧
      scanDecimalNumber (e.text ++ after) 1 = (decide (e.sign = .minus), x, e.text.length) := by
  obtain ⟨hx, hk⟩ := e.digits.scanDigits 10 (h.endsDigits (isSome_hexDigit_of_digitBelow 10))
  refine ⟨_, hx, ?_⟩
  have hget : (e.text ++ after)[1]? = (e.sign.text ++ (e.digits.text ++ after))[0]? := by
    rw [Exponent.text, List.cons_append, List.getElem?_cons_succ, List.append_assoc]
  have hdrop : (e.text ++ after).drop (1 + e.sign.text.length) = e.digits.text ++ after := by
    rw [Exponent.text, List.cons_append, Nat.add_comm, List.drop_succ_cons, List.append_assoc,
      List.drop_left]
  obtain ⟨hplus, hminus⟩ := e.sign.first_iff (s := e.digits.text ++ after)
    (e.digits.first_ne (by decide)) (e.digits.first_ne (by decide))
  simp only [scanDecimalNumber, hget, hplus, hminus, e.sign.length_text, hdrop,
    scanDecimalDigitsPreRadix, hk]
  rw [Exponent.text, List.length_cons, List.length_append]
  refine Prod.ext rfl (Prod.ext rfl ?_)
  dsimp only
  omega

/-- An exponent begins with its mark. -/
theorem Exponent.exists_first (e : Exponent) (rest : Text) :
    ∃ c, (e.text ++ rest)[0]? = some c ∧ (c = ch 'e' ∨ c = ch 'E') := by
  refine ⟨_, List.getElem?_cons_zero, ?_⟩
  cases e.upper with
  | true => exact .inr rfl
  | false => exact .inl rfl

/-- The end of a literal with an exponent. -/
theorem finishNumber_exponent (negative : Bool) (n : UInt64) (e : Exponent) (h : Follows after)
    (significand : Option (List ℕ × UInt64)) :
    ∃ x : UInt64, x.toNat = e.digits.value 10 % 2 ^ 64 ∧
      finishNumber (e.text ++ after) negative n significand 0 =
        ⟨.floatingPointNumber, e.text.length,
          .floating ⟨significand, some (decide (e.sign = .minus), x), negative⟩⟩ := by
  obtain ⟨x, hx, hscan⟩ := scanDecimalNumber_exponent e h
  refine ⟨x, hx, ?_⟩
  have hexp : HasExponent (e.text ++ after) 0 := by
    obtain ⟨c, -, -, hc⟩ := e.digits.exists_first after
    have hpos := (List.getElem?_eq_some_iff.mp hc).1
    refine ⟨?_, ?_⟩
    · rw [Exponent.text, List.cons_append, List.length_cons, List.length_append,
        List.length_append]
      omega
    · obtain ⟨c, hc, hmark⟩ := e.exists_first after
      rw [hc]
      exact hmark.imp (congrArg some) (congrArg some)
  unfold finishNumber
  rw [if_pos hexp, Nat.zero_add, hscan]

/-- A fraction, and what is behind it. -/
theorem readRadix_fraction (g : DecimalGroup) {rest : Text}
    (hrest : EndsDigits (digitBelow 10) rest) :
    readRadix (ch '.' :: (g.text ++ rest)) negative n =
      (finishNumber rest negative n (some (g.digits, n)) 0).shift (1 + g.text.length) := by
  rw [readRadix, if_pos List.getElem?_cons_zero, List.drop_succ_cons, List.drop_zero,
    scanDecimalDigitsPostRadix, g.digitRun hrest]
  have hdrop : (ch '.' :: (g.text ++ rest)).drop (1 + g.text.length) = rest := by
    rw [Nat.add_comm, List.drop_succ_cons, List.drop_left]
  exact (finishNumber_drop n (some (g.digits, n)) (1 + g.text.length) 0).trans (by rw [hdrop])

end Rest

/-! ### The base -/

section Base

variable {negative : Bool} {after s : Text}

/-- `get_number_token` behind the sign, on the rest of the text. -/
def readMagnitude (s : Text) (negative : Bool) : Scanned :=
  if s[0]? = some (ch '.') then getDecimalNumber s negative true 0
  else if s[0]? = some (ch '0') then
    (getPrefixedNumber s 0 negative).getD (getDecimalNumber s negative false 0)
  else getDecimalNumber s negative false 0

/-- A literal that begins with a radix. -/
theorem readMagnitude_radix (rest : Text) :
    readMagnitude (ch '.' :: rest) negative = readRadix (ch '.' :: rest) negative 0 := by
  rw [readMagnitude, if_pos List.getElem?_cons_zero]
  simp only [getDecimalNumber, readRadix, if_true, true_or, List.getElem?_cons_zero, Nat.zero_add]

/-- A character that selects a base behind a `0`. -/
def selectsBase (c : UInt8) : Bool :=
  c == ch 'x' || c == ch 'X' || c == ch 'b' || c == ch 'B' || (ch '0' ≤ c && c ≤ ch '7')

/-- Without such a character behind it, a `0` is a decimal digit. -/
theorem getPrefixedNumber_eq_none (h : 2 < s.length → s[1]?.any selectsBase = false) :
    getPrefixedNumber s 0 negative = none := by
  unfold getPrefixedNumber
  by_cases hlen : 0 + 2 < s.length
  · have hc := h (by omega)
    rw [List.getElem?_eq_getElem (by omega), Option.any_some] at hc
    have hget : s.getD (0 + 1) 0 = s[1] := by
      rw [List.getD_eq_getElem?_getD, List.getElem?_eq_getElem (by omega)]
      rfl
    simp only [selectsBase, Bool.or_eq_false_iff, beq_eq_false_iff_ne] at hc
    obtain ⟨⟨⟨⟨hx, hX⟩, hb⟩, hB⟩, hoctal⟩ := hc
    have hoctal : ¬ (ch '0' ≤ s[1] ∧ s[1] ≤ ch '7') := by simpa using hoctal
    simp only [if_pos hlen, hget, hx, hX, hb, hB, hoctal, or_self, if_false]
  · rw [if_neg hlen]

/-- **Decimal digits.** Where the character behind a leading `0` selects no base, a group of
digits is the whole part of a decimal number. -/
theorem readMagnitude_decimal {base : ℕ} (g : DigitGroup (digitBelow base)) {rest : Text}
    (h : g.text[0]? = some (ch '0') → 2 < (g.text ++ rest).length →
      (g.text ++ rest)[1]?.any selectsBase = false) :
    readMagnitude (g.text ++ rest) negative =
      getDecimalNumber (g.text ++ rest) negative false 0 := by
  obtain ⟨c, hc, -, hfirst⟩ := g.exists_first rest
  rw [readMagnitude, if_neg (g.first_ne (by decide))]
  split_ifs with hzero
  · rw [getPrefixedNumber_eq_none (h (by rw [hfirst, ← hc, hzero]))]
    rfl
  · rfl

/-- **Bases.** The character behind a leading `0` decides, if there is one more behind it. -/
theorem readMagnitude_base {c : UInt8} {rest : Text} (hrest : rest ≠ []) :
    readMagnitude (ch '0' :: c :: rest) negative =
      let found (type : TokenType) (r : UInt64 × ℕ) : Scanned :=
        ⟨type, 2 + r.2, possiblySignedValue negative r.1⟩
      if c = ch 'x' ∨ c = ch 'X' then found .hexNumber (scanHexDigits rest)
      else if c = ch 'b' ∨ c = ch 'B' then found .binaryNumber (scanBinaryDigits rest)
      else if ch '0' ≤ c ∧ c ≤ ch '7' then found .octalNumber (scanOctalDigits rest)
      else getDecimalNumber (ch '0' :: c :: rest) negative false 0 := by
  have hlen : 0 + 2 < (ch '0' :: c :: rest).length := by
    have := List.length_pos_iff.mpr hrest
    simp only [List.length_cons]
    omega
  have hdot : (ch '0' :: c :: rest)[0]? ≠ some (ch '.') := by
    rw [List.getElem?_cons_zero]
    decide
  have hget : (ch '0' :: c :: rest).getD (0 + 1) 0 = c := rfl
  rw [readMagnitude, if_neg hdot, if_pos List.getElem?_cons_zero, getPrefixedNumber, if_pos hlen]
  simp only [hget, Nat.zero_add, List.drop_succ_cons, List.drop_zero]
  split_ifs <;> rfl

end Base

/-! ### Dropped digits -/

section Dropped

variable {w w' x x' n F : ℕ}

/-- Of two multiples of a power of ten with the same remainder, neither factor is lost. -/
theorem whole_eq_of_eq (h : w' * 10 ^ n + F = w * 10 ^ n + F) : w' = w :=
  Nat.eq_of_mul_eq_mul_right (Nat.pow_pos (by decide)) (Nat.add_right_cancel h)

/-- A number that loses high digits, and those of a positive exponent, gets smaller. -/
theorem dropped_of_eq (hw : w' ≤ w) (hx : x' ≤ x)
    (h : (w' * 10 ^ n + F) * 10 ^ x' = (w * 10 ^ n + F) * 10 ^ x) :
    w' = w ∧ (x' = x ∨ w = 0 ∧ F = 0) := by
  rcases Nat.eq_zero_or_pos (w * 10 ^ n + F) with hzero | hpos
  · obtain ⟨hwz, hF⟩ := Nat.add_eq_zero_iff.mp hzero
    have hw0 : w = 0 := (Nat.mul_eq_zero.mp hwz).resolve_right (Nat.pow_pos (by decide)).ne'
    exact ⟨by omega, .inr ⟨hw0, hF⟩⟩
  · have hle : w' * 10 ^ n + F ≤ w * 10 ^ n + F :=
      Nat.add_le_add_right (Nat.mul_le_mul_right _ hw) _
    have hge : w * 10 ^ n + F ≤ w' * 10 ^ n + F := by
      refine Nat.le_of_mul_le_mul_right (c := 10 ^ x') ?_ (Nat.pow_pos (by decide))
      rw [h]
      exact Nat.mul_le_mul_left _ (Nat.pow_le_pow_right (by decide) hx)
    have heq := Nat.le_antisymm hle hge
    rw [heq] at h
    exact ⟨whole_eq_of_eq heq,
      .inl (Nat.pow_right_injective (by decide : 2 ≤ 10) (Nat.eq_of_mul_eq_mul_left hpos h))⟩

/-- Losing high digits of a whole number does not make up for losing those of a negative
exponent: the fraction would have to be zero, and the whole number a multiple of `2 ^ 64`. -/
theorem scaled_of_eq {k : ℕ} (hF : F < 10 ^ n) (hk : 64 ≤ k)
    (h : (w % 2 ^ 64 * 10 ^ n + F) * 10 ^ k = w * 10 ^ n + F) : w = 0 ∧ F = 0 := by
  have hone : 1 ≤ 10 ^ k := Nat.pow_pos (by decide)
  have hF0 : F = 0 := by
    refine Nat.eq_zero_of_dvd_of_lt ?_ hF
    have hcop : Nat.Coprime (10 ^ n) (10 ^ k - 1) := by
      have hself := (Nat.coprime_self_sub_right hone).mpr (Nat.coprime_one_right (10 ^ k))
      exact Nat.Coprime.pow_left n (hself.coprime_dvd_left (dvd_pow_self 10 (by omega)))
    refine hcop.dvd_of_dvd_mul_right ?_
    have hdiff : F * (10 ^ k - 1) = w * 10 ^ n - w % 2 ^ 64 * 10 ^ n * 10 ^ k := by
      rw [Nat.mul_sub_one]
      rw [Nat.add_mul] at h
      omega
    rw [hdiff]
    exact Nat.dvd_sub (Nat.dvd_mul_left _ _)
      (Nat.dvd_mul_right_of_dvd (Nat.dvd_mul_left _ _) _)
  rw [hF0, Nat.add_zero, Nat.add_zero, Nat.mul_right_comm] at h
  have hw := Nat.eq_of_mul_eq_mul_right (Nat.pow_pos (by decide)) h
  have hdvd : 2 ^ 64 ∣ 10 ^ k := (Nat.pow_dvd_pow 2 hk).trans (pow_dvd_pow_of_dvd (by decide) k)
  have hmod : w % 2 ^ 64 = 0 := by
    rw [← hw]
    exact Nat.mod_eq_zero_of_dvd (Nat.dvd_mul_left_of_dvd hdvd _)
  rw [hmod, Nat.zero_mul] at hw
  exact ⟨hw.symm, hF0⟩

/-- What is left of a floating-point literal whose whole part and exponent are kept in 64 bits
is the number itself only if nothing is dropped, or if the number is zero. -/
theorem dropped_iff (hF : F < 10 ^ n) (negative : Bool) :
    ((w % 2 ^ 64 : ℕ) + (F : ℚ) / 10 ^ n) *
        (if negative then ((10 : ℚ) ^ (x % 2 ^ 64))⁻¹ else 10 ^ (x % 2 ^ 64)) =
      (w + (F : ℚ) / 10 ^ n) * (if negative then ((10 : ℚ) ^ x)⁻¹ else 10 ^ x) ↔
      w < 2 ^ 64 ∧ (x < 2 ^ 64 ∨ w = 0 ∧ F = 0) := by
  have hten : ∀ k : ℕ, (10 : ℚ) ^ k ≠ 0 := fun k => pow_ne_zero k (by norm_num)
  have hsum : ∀ k : ℕ, (k : ℚ) + F / 10 ^ n = ((k * 10 ^ n + F : ℕ) : ℚ) / 10 ^ n := by
    intro k
    rw [eq_div_iff (hten n), add_mul, div_mul_cancel₀ _ (hten n), Nat.cast_add, Nat.cast_mul,
      Nat.cast_pow]
    rfl
  have hx := Nat.div_add_mod x (2 ^ 64)
  have hmod : w % 2 ^ 64 < 2 ^ 64 := Nat.mod_lt _ (by decide)
  constructor
  · intro h
    rw [hsum, hsum] at h
    cases negative with
    | false =>
      simp only [Bool.false_eq_true, if_false] at h
      rw [div_mul_eq_mul_div, div_mul_eq_mul_div, div_left_inj' (hten n)] at h
      obtain ⟨hw, hx'⟩ := dropped_of_eq (Nat.mod_le w _) (Nat.mod_le x _) (by exact_mod_cast h)
      exact ⟨by omega, hx'.imp_left fun heq => by omega⟩
    | true =>
      simp only [if_true] at h
      rw [← div_eq_mul_inv, ← div_eq_mul_inv, div_right_comm, div_right_comm (_ : ℚ) _ (10 ^ x),
        div_left_inj' (hten n), div_eq_div_iff (hten _) (hten _)] at h
      have hnat : (w % 2 ^ 64 * 10 ^ n + F) * 10 ^ x = (w * 10 ^ n + F) * 10 ^ (x % 2 ^ 64) := by
        exact_mod_cast h
      rw [← hx, Nat.pow_add, ← Nat.mul_assoc, hx] at hnat
      have hscaled := Nat.eq_of_mul_eq_mul_right (Nat.pow_pos (by decide)) hnat
      rcases Nat.eq_zero_or_pos (x / 2 ^ 64) with hd | hd
      · rw [hd, Nat.mul_zero, Nat.pow_zero, Nat.mul_one] at hscaled
        have hw := whole_eq_of_eq hscaled
        exact ⟨by omega, .inl (by omega)⟩
      · obtain ⟨hw, hF0⟩ := scaled_of_eq hF (by omega) hscaled
        exact ⟨by omega, .inr ⟨hw, hF0⟩⟩
  · rintro ⟨hw, hx | ⟨rfl, rfl⟩⟩
    · rw [Nat.mod_eq_of_lt hw, Nat.mod_eq_of_lt hx]
    · simp

end Dropped

end Intent.Old
