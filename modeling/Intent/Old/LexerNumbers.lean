import Intent.Old.NumericLiteral

/-!
# What numeric literals mean

`literal_read_iff` says for which literals `advance` finds a token that spans the literal and
holds the number that it denotes. Hexadecimal and binary whole numbers, and decimal ones without
a leading `0`, are always read as they are meant. Four slips spoil the others:

* the octal branch starts behind the second character, so that the first digit after the
  leading `0` is lost;
* a `0` and an octal digit send every literal to that branch, decimal and floating-point ones
  as well;
* without a radix, the number before an exponent is dropped: the value starts from `0.0`;
* the sign is applied to floating-point numbers with an exponent only, and is no part of the
  number at all before a radix.

There is one result for each format, about the rest of the text behind a sign
(`reads_octal_iff`, `reads_fraction_iff`, …), and `Magnitude.reads_iff` puts them together.
-/

namespace Intent.Old

/-! ### The formats -/

/-- What was found ends behind `length` bytes and holds the number `x`. -/
def Scanned.Reads (s : Scanned) (length : ℕ) (x : ℚ) : Prop :=
  s.stop = length ∧ s.value.number? = some x

section Formats

variable {sign : Sign} {after : Text}

/-- A whole number that fits is the value of a token only if the magnitude was read. -/
theorem number?_whole_iff {n : UInt64} {k : ℕ}
    (hk : if sign = .minus then k ≤ 2 ^ 63 else k < 2 ^ 64) :
    (possiblySignedValue (decide (sign = .minus)) n).number? = some (sign.apply k) ↔
      n.toNat = k := by
  have hlt := n.toNat_lt
  by_cases hsign : sign = .minus
  · rw [if_pos hsign] at hk
    have hcast : (-(k : ℚ)) = ((-(k : ℤ) : ℤ) : ℚ) := by rw [Int.cast_neg, Int.cast_natCast]
    rw [decide_eq_true hsign, number?_negated, Sign.apply, if_pos hsign, Option.some.injEq, hcast,
      Int.cast_inj]
    simp only [Int.bmod]
    omega
  · rw [decide_eq_false hsign, possiblySignedValue, if_neg Bool.false_ne_true, Sign.apply,
      if_neg hsign]
    simp only [Value.number?, Option.some.injEq, Nat.cast_inj]

/-- What is found of a whole number. -/
theorem reads_whole_iff {type : TokenType} {n : UInt64} {l k : ℕ}
    (hk : if sign = .minus then k ≤ 2 ^ 63 else k < 2 ^ 64) :
    Scanned.Reads ⟨type, l, possiblySignedValue (decide (sign = .minus)) n⟩ l (sign.apply k) ↔
      n.toNat = k := by
  rw [Scanned.Reads, number?_whole_iff hk]
  exact and_iff_right rfl

theorem mod_eq_of_fits {k : ℕ} (hk : if sign = .minus then k ≤ 2 ^ 63 else k < 2 ^ 64) :
    k % 2 ^ 64 = k := by
  split_ifs at hk <;> omega

theorem DigitGroup.text_ne_nil {digit : UInt8 → Option ℕ} (g : DigitGroup digit) (rest : Text) :
    g.text ++ rest ≠ [] := by
  obtain ⟨c, hc, -⟩ := g.exists_first rest
  intro hnil
  rw [hnil] at hc
  cases hc

/-- A literal whose base is in its first two characters, and its digits behind them. -/
theorem reads_prefixed {digit : UInt8 → Option ℕ} {base : ℕ} {c : UInt8} (type : TokenType)
    (g : DigitGroup digit) (h : Follows after)
    (hdigit : ∀ c, (digit c).isSome = true → (hexDigit c).isSome = true)
    (hfits : if sign = .minus then g.value base ≤ 2 ^ 63 else g.value base < 2 ^ 64)
    (hread : readMagnitude (ch '0' :: c :: (g.text ++ after)) (decide (sign = .minus)) =
      ⟨type, 2 + (scanDigits base digit (g.text ++ after)).2, possiblySignedValue
        (decide (sign = .minus)) (scanDigits base digit (g.text ++ after)).1⟩) :
    (readMagnitude (ch '0' :: c :: (g.text ++ after)) (decide (sign = .minus))).Reads
      (ch '0' :: c :: g.text).length (sign.apply (g.value base)) := by
  obtain ⟨hn, hk⟩ := g.scanDigits base (h.endsDigits hdigit)
  rw [hread, hk, List.length_cons, List.length_cons, Nat.add_comm, reads_whole_iff hfits, hn,
    mod_eq_of_fits hfits]

theorem readMagnitude_hex (upper : Bool) (g : DigitGroup hexDigit) (h : Follows after)
    (hfits : if sign = .minus then g.value 16 ≤ 2 ^ 63 else g.value 16 < 2 ^ 64) :
    (readMagnitude ((Magnitude.hex upper g).text ++ after) (decide (sign = .minus))).Reads
      (Magnitude.hex upper g).text.length (sign.apply (g.value 16)) := by
  refine reads_prefixed .hexNumber g h (fun _ h => h) hfits ?_
  rw [readMagnitude_base (g.text_ne_nil after)]
  cases upper with
  | true => rfl
  | false => rfl

theorem readMagnitude_binary (upper : Bool) (g : DigitGroup (digitBelow 2)) (h : Follows after)
    (hfits : if sign = .minus then g.value 2 ≤ 2 ^ 63 else g.value 2 < 2 ^ 64) :
    (readMagnitude ((Magnitude.binary upper g).text ++ after) (decide (sign = .minus))).Reads
      (Magnitude.binary upper g).text.length (sign.apply (g.value 2)) := by
  refine reads_prefixed .binaryNumber g h (isSome_hexDigit_of_digitBelow 2) hfits ?_
  rw [readMagnitude_base (g.text_ne_nil after)]
  cases upper with
  | true => rfl
  | false => rfl

theorem digitBelow_ten {base : ℕ} (hbase : base ≤ 10) {c : UInt8}
    (h : (digitBelow base c).isSome = true) : digitBelow 10 c = digitBelow base c := by
  have hc : isdigit c = true ∧ c.toNat - (ch '0').toNat < base := by
    by_contra hc
    rw [digitBelow, if_neg hc] at h
    cases h
  rw [digitBelow, digitBelow, if_pos hc, if_pos ⟨hc.1, hc.2.trans_le hbase⟩]

theorem digitBelow_underscore (base : ℕ) : digitBelow base (ch '_') = none :=
  if_neg fun h => absurd h.1 (by decide)

/-- The digits of a group are decimal digits. -/
theorem DigitGroup.decimal {base : ℕ} (hbase : base ≤ 10) (g : DigitGroup (digitBelow base)) :
    (∀ c ∈ g.text, (digitBelow 10 c).isSome = true ∨ c = ch '_') ∧
      g.text.filterMap (digitBelow 10) = g.digits := by
  refine ⟨fun c hc => (g.all c hc).imp_left fun h => ?_, List.filterMap_congr fun c hc => ?_⟩
  · rw [digitBelow_ten hbase h]
    exact h
  · rcases g.all c hc with h | rfl
    · exact digitBelow_ten hbase h
    · rw [digitBelow_underscore, digitBelow_underscore]

/-- Digits that are read in base ten, with nothing of a literal behind them. -/
theorem reads_decimal_iff {base k : ℕ} (hbase : base ≤ 10) (g : DigitGroup (digitBelow base))
    (h : Follows after)
    (hzero : g.text[0]? = some (ch '0') → 2 < (g.text ++ after).length →
      (g.text ++ after)[1]?.any selectsBase = false)
    (hk : if sign = .minus then k ≤ 2 ^ 63 else k < 2 ^ 64) :
    (readMagnitude (g.text ++ after) (decide (sign = .minus))).Reads g.text.length
      (sign.apply k) ↔ g.value 10 % 2 ^ 64 = k := by
  obtain ⟨hall, hdigits⟩ := g.decimal hbase
  obtain ⟨n, hn, hread⟩ := getDecimalNumber_append (decide (sign = .minus)) hall
    (h.endsDigits (isSome_hexDigit_of_digitBelow 10))
  rw [readMagnitude_decimal g hzero, hread, readRadix_follows h, Scanned.shift, Nat.add_zero,
    reads_whole_iff hk, hn, hdigits, DigitGroup.value]

/-- What follows a literal selects no base. -/
theorem Follows.not_selects (h : Follows after) : after[0]?.any selectsBase = false := by
  have hsub : ∀ c, selectsBase c = true → isLiteralByte c = true := by
    intro c hc
    simp only [selectsBase, Bool.or_eq_true, beq_iff_eq, Bool.and_eq_true, decide_eq_true_eq] at hc
    rcases hc with (((rfl | rfl) | rfl) | rfl) | ⟨hzero, hseven⟩
    · decide
    · decide
    · decide
    · decide
    · have hdigit : isdigit c = true := by
        simp only [isdigit, Bool.and_eq_true, decide_eq_true_eq]
        exact ⟨hzero, UInt8.le_trans hseven (by decide)⟩
      rw [isLiteralByte, hexDigit, if_pos hdigit]
      rfl
  rw [← List.head?_eq_getElem?]
  cases hc : after.head? with
  | none => rfl
  | some c =>
    rw [Follows, hc, Option.any_some] at h
    rw [Option.any_some]
    by_contra hsel
    rw [hsub c (by simpa using hsel)] at h
    cases h

/-- A group that looks octal has at least two characters. -/
theorem DigitGroup.cons_cons_of_looksOctal {digit : UInt8 → Option ℕ} {g : DigitGroup digit}
    (h : g.LooksOctal) : ∃ d x w, g.text = ch '0' :: d :: w ∧ digitBelow 8 d = some x := by
  obtain ⟨hzero, hd⟩ := h
  cases htext : g.text with
  | nil =>
    rw [htext] at hzero
    cases hzero
  | cons a t =>
    rw [htext] at hzero hd
    obtain rfl := Option.some.inj hzero
    cases t with
    | nil => cases hd
    | cons d w =>
      obtain ⟨x, hx⟩ := Option.isSome_iff_exists.mp hd
      exact ⟨d, x, w, rfl, hx⟩

/-- An octal digit as a character. -/
theorem octalDigit_cases {d : UInt8} {x : ℕ} (h : digitBelow 8 d = some x) :
    (ch '0' ≤ d ∧ d ≤ ch '7') ∧ (x = 0 ↔ d = ch '0') := by
  unfold digitBelow at h
  split_ifs at h with hd
  obtain rfl := Option.some.inj h
  obtain ⟨hdigit, hlt⟩ := hd
  simp only [isdigit, Bool.and_eq_true, decide_eq_true_eq] at hdigit
  have h₀ : (ch '0').toNat = 48 := rfl
  have h₇ : (ch '7').toNat = 55 := rfl
  have hge := UInt8.le_iff_toNat_le.mp hdigit.1
  refine ⟨⟨hdigit.1, UInt8.le_iff_toNat_le.mpr (by omega)⟩, fun hx => ?_, fun hd => ?_⟩
  · exact UInt8.toNat_inj.mp (by omega)
  · rw [hd, Nat.sub_self]

theorem octalDigit_not_base {d : UInt8} (h : ch '0' ≤ d ∧ d ≤ ch '7') :
    ¬ (d = ch 'x' ∨ d = ch 'X') ∧ ¬ (d = ch 'b' ∨ d = ch 'B') := by
  constructor
  all_goals
    rintro (rfl | rfl)
    · exact absurd h (by decide)
    · exact absurd h (by decide)

/-- A decimal digit or an underscore selects no base, unless it is an octal digit. -/
theorem isSome_octalDigit_of_selects {d : UInt8}
    (hd : (digitBelow 10 d).isSome = true ∨ d = ch '_') (h : selectsBase d = true) :
    (digitBelow 8 d).isSome = true := by
  simp only [selectsBase, Bool.or_eq_true, beq_iff_eq, Bool.and_eq_true, decide_eq_true_eq] at h
  rcases h with (((rfl | rfl) | rfl) | rfl) | ⟨hzero, hseven⟩
  · exact absurd hd (by decide)
  · exact absurd hd (by decide)
  · exact absurd hd (by decide)
  · exact absurd hd (by decide)
  · have h₀ : (ch '0').toNat = 48 := rfl
    have h₇ : (ch '7').toNat = 55 := rfl
    have hle := UInt8.le_iff_toNat_le.mp hseven
    have hdigit : isdigit d = true := by
      simp only [isdigit, Bool.and_eq_true, decide_eq_true_eq]
      exact ⟨hzero, UInt8.le_trans hseven (by decide)⟩
    rw [digitBelow, if_pos ⟨hdigit, by omega⟩]
    rfl

/-- A whole part that does not look like an octal number is decimal. -/
theorem not_selects_of_not_looksOctal {g : DecimalGroup} (hg : ¬ g.LooksOctal) {rest : Text}
    (hrest : rest[0]?.any selectsBase = false) (hzero : g.text[0]? = some (ch '0')) :
    (g.text ++ rest)[1]?.any selectsBase = false := by
  rcases Nat.lt_or_ge 1 g.text.length with hlong | hshort
  · have hmem := List.getElem_mem hlong
    rw [List.getElem?_append_left hlong, List.getElem?_eq_getElem hlong, Option.any_some]
    by_contra hsel
    refine hg ⟨hzero, ?_⟩
    rw [List.getElem?_eq_getElem hlong, Option.any_some]
    exact isSome_octalDigit_of_selects (g.all _ hmem) (by simpa using hsel)
  · have hlt := (List.getElem?_eq_some_iff.mp hzero).1
    rw [List.getElem?_append_right hshort, Nat.le_antisymm hshort hlt]
    exact hrest

/-- A digit that does not belong to the run ends it. -/
theorem digitRun_lt {digit : UInt8 → Option ℕ} {w : Text}
    (h : ∃ c ∈ w, digit c = none ∧ c ≠ ch '_') (rest : Text) :
    (digitRun digit (w ++ rest)).2 < w.length := by
  induction w with
  | nil =>
    obtain ⟨c, hc, -⟩ := h
    cases hc
  | cons a w ih =>
    obtain ⟨c, hc, hnone, hne⟩ := h
    have htail : ∀ {k : ℕ}, c ∈ w → k = (digitRun digit (w ++ rest)).2 + 1 → k < w.length + 1 := by
      intro k hmem hk
      have := ih ⟨c, hmem, hnone, hne⟩
      omega
    rw [List.cons_append, digitRun, List.length_cons]
    rcases List.mem_cons.mp hc with rfl | hmem
    · rw [hnone]
      dsimp only
      rw [if_neg hne]
      exact Nat.succ_pos _
    · split
      · exact htail hmem rfl
      · split_ifs
        · exact htail hmem rfl
        · exact Nat.succ_pos _

/-- What is not octal is behind the two characters that look octal. -/
theorem exists_mem_tail {d : UInt8} {x : ℕ} {w : Text} (hd : digitBelow 8 d = some x)
    (h : ∃ c ∈ ch '0' :: d :: w, digitBelow 8 c = none ∧ c ≠ ch '_') :
    ∃ c ∈ w, digitBelow 8 c = none ∧ c ≠ ch '_' := by
  obtain ⟨c, hc, hnone, hne⟩ := h
  rcases List.mem_cons.mp hc with rfl | hc
  · exact absurd hnone (by decide)
  rcases List.mem_cons.mp hc with rfl | hc
  · rw [hd] at hnone
    cases hnone
  · exact ⟨c, hc, hnone, hne⟩

/-- **Decimal literals.** -/
theorem reads_decimal_literal_iff (g : DecimalGroup)
    (hg : g.text.head? = some (ch '0') → g.text = [ch '0'] ∨
      ∃ c ∈ g.text, digitBelow 8 c = none ∧ c ≠ ch '_') (h : Follows after)
    (hfits : if sign = .minus then g.value 10 ≤ 2 ^ 63 else g.value 10 < 2 ^ 64) :
    (readMagnitude (g.text ++ after) (decide (sign = .minus))).Reads g.text.length
      (sign.apply (g.value 10)) ↔ ¬ g.LooksOctal := by
  by_cases hoctal : g.LooksOctal
  · refine iff_of_false (fun hread => ?_) fun h => h hoctal
    obtain ⟨d, x, w, htext, hd⟩ := g.cons_cons_of_looksOctal hoctal
    obtain ⟨hrange, -⟩ := octalDigit_cases hd
    obtain ⟨hhex, hbin⟩ := octalDigit_not_base hrange
    obtain ⟨c, hc, hnone, hne⟩ : ∃ c ∈ w, digitBelow 8 c = none ∧ c ≠ ch '_' := by
      rw [htext] at hg
      exact exists_mem_tail hd ((hg rfl).resolve_left fun hone => by cases hone)
    have hlt := digitRun_lt ⟨c, hc, hnone, hne⟩ after
    have hstop := hread.1
    rw [htext, List.cons_append, List.cons_append,
      readMagnitude_base (List.append_ne_nil_of_left_ne_nil (List.ne_nil_of_mem hc) _)] at hstop
    dsimp only at hstop
    rw [if_neg hhex, if_neg hbin, if_pos hrange] at hstop
    change 2 + (digitRun (digitBelow 8) (w ++ after)).2 = w.length + 1 + 1 at hstop
    omega
  · rw [reads_decimal_iff le_rfl g h
      (fun hzero _ => not_selects_of_not_looksOctal hoctal h.not_selects hzero) hfits]
    exact iff_of_true (mod_eq_of_fits hfits) hoctal

/-- An octal literal whose second character is a digit: only the digits behind that one are
read. -/
theorem reads_octal_digit_iff {d : UInt8} {x : ℕ} {w : Text} (g : DigitGroup (digitBelow 8))
    (hg : g.text = ch '0' :: d :: w) (hd : digitBelow 8 d = some x) (h : Follows after)
    (hlong : w ++ after ≠ [])
    (hfits : if sign = .minus then g.value 8 ≤ 2 ^ 63 else g.value 8 < 2 ^ 64) :
    (readMagnitude (g.text ++ after) (decide (sign = .minus))).Reads g.text.length
      (sign.apply (g.value 8)) ↔ d = ch '0' := by
  have hw : ∀ c ∈ w, (digitBelow 8 c).isSome = true ∨ c = ch '_' := by
    intro c hc
    refine g.all c ?_
    rw [hg]
    exact List.mem_cons_of_mem _ (List.mem_cons_of_mem _ hc)
  obtain ⟨hn, hk⟩ := scanDigits_append 8 hw (h.endsDigits (isSome_hexDigit_of_digitBelow 8))
  obtain ⟨hrange, hzero⟩ := octalDigit_cases hd
  obtain ⟨hhex, hbin⟩ := octalDigit_not_base hrange
  have hread : readMagnitude (g.text ++ after) (decide (sign = .minus)) =
      ⟨.octalNumber, g.text.length, possiblySignedValue (decide (sign = .minus))
        (scanDigits 8 (digitBelow 8) (w ++ after)).1⟩ := by
    rw [hg, List.cons_append, List.cons_append, readMagnitude_base hlong]
    dsimp only
    rw [if_neg hhex, if_neg hbin, if_pos hrange, scanOctalDigits, hk, List.length_cons,
      List.length_cons, Nat.add_comm]
  have hvalue : g.value 8 = x * 8 ^ (w.filterMap (digitBelow 8)).length +
      numeral 8 (w.filterMap (digitBelow 8)) := by
    have h₀ : digitBelow 8 (ch '0') = some 0 := by decide
    rw [DigitGroup.value, DigitGroup.digits, hg, List.filterMap_cons_some h₀,
      List.filterMap_cons_some hd, numeral_cons, numeral_cons, Nat.zero_mul, Nat.zero_add]
  have hlt : g.value 8 < 2 ^ 64 := by
    split_ifs at hfits <;> omega
  rw [hread, reads_whole_iff hfits, hn, Nat.mod_eq_of_lt (by omega), hvalue, ← hzero]
  constructor
  · intro heq
    have hprod : x * 8 ^ (w.filterMap (digitBelow 8)).length = 0 := by omega
    exact (Nat.mul_eq_zero.mp hprod).resolve_right (Nat.pow_pos (by decide)).ne'
  · intro hx
    rw [hx, Nat.zero_mul, Nat.zero_add]

/-- **Octal literals.** -/
theorem reads_octal_iff (g : DigitGroup (digitBelow 8)) (hzero : g.text.head? = some (ch '0'))
    (hlong : 1 < g.text.length) (h : Follows after)
    (hfits : if sign = .minus then g.value 8 ≤ 2 ^ 63 else g.value 8 < 2 ^ 64) :
    (readMagnitude (g.text ++ after) (decide (sign = .minus))).Reads g.text.length
      (sign.apply (g.value 8)) ↔ (Magnitude.octal g hzero hlong).Readable sign after := by
  obtain ⟨d, w, hg⟩ : ∃ d w, g.text = ch '0' :: d :: w := by
    cases htext : g.text with
    | nil =>
      rw [htext] at hlong
      cases hlong
    | cons a t =>
      rw [htext] at hzero hlong
      obtain rfl := Option.some.inj hzero
      cases t with
      | nil => exact absurd hlong (by decide)
      | cons d w => exact ⟨d, w, rfl⟩
  have hd : g.text[1]? = some d := by
    rw [hg]
    rfl
  have hmem : d ∈ g.text := List.mem_of_getElem? hd
  unfold Magnitude.Readable
  dsimp only
  rw [hd]
  rcases g.all d hmem with hdigit | rfl
  · -- a digit behind the zero is lost in the octal branch, unless nothing is behind it
    obtain ⟨x, hx⟩ := Option.isSome_iff_exists.mp hdigit
    have hne : some d ≠ some (ch '_') := by
      intro heq
      rw [Option.some.inj heq, digitBelow_underscore] at hx
      cases hx
    rw [if_neg hne, Option.some.injEq]
    by_cases hshort : w ++ after = []
    · obtain ⟨rfl, rfl⟩ := List.append_eq_nil_iff.mp hshort
      have hlen : g.text.length = 2 := by rw [hg]; rfl
      refine iff_of_true ?_ (.inr ⟨hlen, rfl⟩)
      refine (reads_decimal_iff (by decide) g h (fun _ hlt => ?_) hfits).mpr ?_
      · rw [List.append_nil, hlen] at hlt
        exact absurd hlt (lt_irrefl 2)
      · have h₀ : digitBelow 8 (ch '0') = some 0 := by decide
        have hdigits : g.digits = [0, x] := by
          rw [DigitGroup.digits, hg, List.filterMap_cons_some h₀, List.filterMap_cons_some hx]
          rfl
        have heq : g.value 10 = g.value 8 := by
          simp only [DigitGroup.value, hdigits, numeral_cons, List.length_singleton,
            List.length_nil, pow_zero, Nat.zero_mul]
          rfl
        rw [heq, mod_eq_of_fits hfits]
    · rw [reads_octal_digit_iff g hg hx h hshort hfits]
      refine ⟨Or.inl, fun hor => hor.resolve_right fun hend => hshort ?_⟩
      rw [hg] at hend
      rw [List.length_eq_zero_iff.mp (Nat.succ.inj (Nat.succ.inj hend.1)), hend.2]
      rfl
  · -- an underscore behind the zero: the number is read as a decimal one
    rw [if_pos rfl]
    refine reads_decimal_iff (by decide) g h (fun _ _ => ?_) hfits
    rw [hg]
    exact (by decide : selectsBase (ch '_') = false)

end Formats
/-! ### Floating-point literals -/

section FloatingPoint

variable {sign : Sign} {after : Text} {n : UInt64} {w : ℕ}

theorem Scanned.shift_reads_iff {s : Scanned} {k l : ℕ} {x : ℚ} :
    (s.shift k).Reads (k + l) x ↔ s.Reads l x := by
  unfold Scanned.Reads Scanned.shift
  exact and_congr_left fun _ => Nat.add_right_inj

theorem DigitGroup.value_lt (g : DecimalGroup) : g.value 10 < 10 ^ g.digits.length := by
  rw [DigitGroup.value, numeral, ← List.length_reverse]
  refine Nat.ofDigits_lt_base_pow_length (by decide) fun d hd => ?_
  obtain ⟨c, -, hc⟩ := List.mem_filterMap.mp (List.mem_reverse.mp hd)
  unfold digitBelow at hc
  split_ifs at hc with hlt
  obtain rfl := Option.some.inj hc
  exact hlt.2

theorem Sign.apply_inj (sign : Sign) {x y : ℚ} : sign.apply x = sign.apply y ↔ x = y := by
  unfold Sign.apply
  split_ifs
  · exact neg_inj
  · exact Iff.rfl

theorem Sign.apply_eq (sign : Sign) (x : ℚ) :
    (if decide (sign = .minus) = true then x * -1 else x) = sign.apply x := by
  unfold Sign.apply
  simp only [decide_eq_true_eq, mul_neg_one]

/-- The power of ten, as the lexer computes it. -/
theorem Exponent.factor_eq (e : Exponent) :
    e.factor = if decide (e.sign = .minus) = true then ((10 : ℚ) ^ e.digits.value 10)⁻¹
      else 10 ^ e.digits.value 10 := by
  unfold Exponent.factor
  simp only [decide_eq_true_eq]
  split_ifs
  · rw [zpow_neg, zpow_natCast]
  · rw [zpow_natCast]

theorem DigitGroup.fraction_eq_zero (g : DecimalGroup) : g.fraction = 0 ↔ g.value 10 = 0 := by
  have hten : (10 : ℚ) ^ g.digits.length ≠ 0 := pow_ne_zero _ (by norm_num)
  rw [DigitGroup.fraction, div_eq_zero_iff, or_iff_left hten, Nat.cast_eq_zero]

theorem DigitGroup.fraction_nonneg (g : DecimalGroup) : 0 ≤ g.fraction := by
  rw [DigitGroup.fraction]
  exact div_nonneg (Nat.cast_nonneg _) (pow_nonneg (by norm_num) _)

/-- Without an exponent the sign of a number is lost. -/
theorem unsigned_eq_iff {f : ℚ} (hf : 0 ≤ f) :
    ((w % 2 ^ 64 : ℕ) : ℚ) + f = sign.apply (w + f) ↔
      w < 2 ^ 64 ∧ (sign = .minus → w = 0 ∧ f = 0) := by
  have hw : (0 : ℚ) ≤ w := Nat.cast_nonneg w
  have hm : (0 : ℚ) ≤ (w % 2 ^ 64 : ℕ) := Nat.cast_nonneg _
  unfold Sign.apply
  split_ifs with hsign
  · constructor
    · intro h
      have hzero : (w : ℚ) = 0 := by linarith
      have hw0 : w = 0 := Nat.cast_eq_zero.mp hzero
      exact ⟨by omega, fun _ => ⟨hw0, by linarith⟩⟩
    · rintro ⟨-, h⟩
      obtain ⟨rfl, rfl⟩ := h hsign
      simp
  · rw [add_left_inj, Nat.cast_inj]
    constructor
    · intro h
      exact ⟨by omega, fun h => absurd h hsign⟩
    · exact fun h => Nat.mod_eq_of_lt h.1

/-- **Fractions.** The part of a literal behind its fraction, when `w` is its whole part. -/
theorem reads_fraction_iff (g : DecimalGroup) (exponent : Option Exponent) (h : Follows after)
    (hn : n.toNat = w % 2 ^ 64) :
    (finishNumber (exponent.elim [] Exponent.text ++ after) (decide (sign = .minus)) n
        (some (g.digits, n)) 0).Reads (exponent.elim [] Exponent.text).length
        (sign.apply ((w + g.fraction) * exponent.elim 1 Exponent.factor)) ↔
      w < 2 ^ 64 ∧ (exponent = none → sign = .minus → w = 0 ∧ g.value 10 = 0) ∧
        ∀ e ∈ exponent, e.digits.value 10 < 2 ^ 64 ∨ w = 0 ∧ g.value 10 = 0 := by
  have hfraction : postRadix g.digits = g.fraction := postRadix_eq g.digits
  cases exponent with
  | none =>
    have hread : (finishNumber after (decide (sign = .minus)) n (some (g.digits, n)) 0).Reads 0
        (sign.apply (w + g.fraction)) ↔
        ((w % 2 ^ 64 : ℕ) : ℚ) + g.fraction = sign.apply (w + g.fraction) := by
      rw [(finishNumber_follows h).1, Scanned.Reads]
      simp only [true_and, Value.number?, Option.some.injEq, Floating.toRat, Option.elim_some,
        Option.elim_none, hfraction, hn, Bool.false_eq_true, if_false]
      rw [add_comm]
    simp only [Option.elim_none, List.nil_append, List.length_nil, mul_one, hread,
      unsigned_eq_iff g.fraction_nonneg, g.fraction_eq_zero, true_implies, Option.mem_def,
      reduceCtorEq, false_implies, implies_true, and_true]
  | some e =>
    obtain ⟨x, hx, hfinish⟩ := finishNumber_exponent (decide (sign = .minus)) n e h
      (some (g.digits, n))
    have hread : (finishNumber (e.text ++ after) (decide (sign = .minus)) n (some (g.digits, n))
        0).Reads e.text.length (sign.apply ((w + g.fraction) * e.factor)) ↔
        (((w % 2 ^ 64 : ℕ) : ℚ) + g.fraction) * powTen (decide (e.sign = .minus)) x =
          (w + g.fraction) * e.factor := by
      rw [hfinish, Scanned.Reads]
      simp only [true_and, Value.number?, Option.some.injEq, Floating.toRat, Option.elim_some,
        hfraction, hn, Sign.apply_eq, Sign.apply_inj]
      rw [add_comm]
    simp only [Option.elim_some]
    rw [hread, e.factor_eq, powTen, hx]
    refine (dropped_iff g.value_lt _).trans (and_congr_right fun _ => ?_)
    simp only [reduceCtorEq, false_implies, true_and, Option.mem_def, Option.some.injEq,
      forall_eq']

/-- **Exponents without a radix.** The number before the exponent is not used. -/
theorem reads_scientific_iff (e : Exponent) (h : Follows after) :
    (finishNumber (e.text ++ after) (decide (sign = .minus)) n none 0).Reads e.text.length
      (sign.apply (w * e.factor)) ↔ w = 0 := by
  obtain ⟨x, hx, hfinish⟩ := finishNumber_exponent (decide (sign = .minus)) n e h none
  have hfactor : e.factor ≠ 0 := zpow_ne_zero _ (by norm_num)
  rw [hfinish, Scanned.Reads]
  simp only [true_and, Value.number?, Option.some.injEq, Floating.toRat, Option.elim_some,
    Option.elim_none, Sign.apply_eq, Sign.apply_inj]
  rw [zero_mul, eq_comm, mul_eq_zero, or_iff_left hfactor, Nat.cast_eq_zero]

/-! ### Whole parts -/

theorem digitRun_append_le {digit : UInt8 → Option ℕ} {rest : Text}
    (hrest : EndsDigits digit rest) (w : Text) : (digitRun digit (w ++ rest)).2 ≤ w.length := by
  induction w with
  | nil =>
    have hnil := digitRun_of_ends (w := []) (fun c hc => absurd hc List.not_mem_nil) hrest
    rw [hnil]
  | cons c w ih =>
    rw [List.cons_append, digitRun]
    split
    · exact Nat.succ_le_succ ih
    · split_ifs
      · exact Nat.succ_le_succ ih
      · exact Nat.zero_le _

/-- A whole part that looks like an octal number ends the token. -/
theorem stop_le_of_looksOctal (negative : Bool) {g : DecimalGroup} (hg : g.LooksOctal)
    {rest : Text} (hne : rest ≠ []) (hrest : EndsDigits (digitBelow 8) rest) :
    (readMagnitude (g.text ++ rest) negative).stop ≤ g.text.length := by
  obtain ⟨d, x, w, htext, hd⟩ := g.cons_cons_of_looksOctal hg
  obtain ⟨hrange, -⟩ := octalDigit_cases hd
  obtain ⟨hhex, hbin⟩ := octalDigit_not_base hrange
  have hle := digitRun_append_le hrest w
  have hlong : w ++ rest ≠ [] := fun h => hne (List.append_eq_nil_iff.mp h).2
  rw [htext, List.cons_append, List.cons_append, readMagnitude_base hlong]
  dsimp only
  rw [if_neg hhex, if_neg hbin, if_pos hrange]
  change 2 + (digitRun _ (w ++ rest)).2 ≤ w.length + 1 + 1
  omega

/-- **Whole parts.** A literal whose whole part looks like an octal number is not read; the whole
part of another is read in 64 bits, and the rest of the literal behind it. -/
theorem reads_whole_part_iff (sign : Sign) (g : DecimalGroup) (rest : Text) (l : ℕ) (x : ℚ)
    (hl : 0 < l) (hne : rest ≠ []) (hends : EndsDigits (digitBelow 10) rest)
    (hbase : rest[0]?.any selectsBase = false) :
    ∃ n : UInt64, n.toNat = g.value 10 % 2 ^ 64 ∧
      ((readMagnitude (g.text ++ rest) (decide (sign = .minus))).Reads (g.text.length + l) x ↔
        ¬ g.LooksOctal ∧ (readRadix rest (decide (sign = .minus)) n).Reads l x) := by
  obtain ⟨n, hn, hread⟩ :=
    getDecimalNumber_append (decide (sign = .minus)) g.all hends
  refine ⟨n, hn, ?_⟩
  by_cases hg : g.LooksOctal
  · refine iff_of_false (fun h => ?_) fun h => h.1 hg
    have hends' : EndsDigits (digitBelow 8) rest := by
      intro c hc
      refine ⟨Option.not_isSome_iff_eq_none.mp fun hsome => ?_, (hends c hc).2⟩
      rw [← digitBelow_ten (by decide) hsome, (hends c hc).1] at hsome
      cases hsome
    have hle := stop_le_of_looksOctal (decide (sign = .minus)) hg hne hends'
    rw [h.1] at hle
    omega
  · rw [readMagnitude_decimal g fun hzero _ => not_selects_of_not_looksOctal hg hbase hzero, hread,
      Scanned.shift_reads_iff]
    exact (and_iff_right hg).symm

end FloatingPoint
/-! ### Literals in a text -/

section Literals

variable {sign : Sign} {after : Text}

/-- What is behind a fraction or a whole part: an exponent, or the rest of the text. -/
theorem exponent_endsDigits (exponent : Option Exponent) (h : Follows after) :
    EndsDigits (digitBelow 10) (exponent.elim [] Exponent.text ++ after) := by
  cases exponent with
  | none => exact h.endsDigits (isSome_hexDigit_of_digitBelow 10)
  | some e =>
    obtain ⟨c, hc, hmark⟩ := e.exists_first after
    intro d hd
    rw [Option.elim_some, List.head?_eq_getElem?, hc] at hd
    obtain rfl := Option.some.inj hd
    rcases hmark with rfl | rfl
    · exact ⟨by decide, by decide⟩
    · exact ⟨by decide, by decide⟩

/-- A literal from its radix on. -/
theorem reads_radix_iff {n : UInt64} {w : ℕ} (g : DecimalGroup) (exponent : Option Exponent)
    (h : Follows after) (hn : n.toNat = w % 2 ^ 64) :
    (readRadix (ch '.' :: (g.text ++ exponent.elim [] Exponent.text) ++ after)
        (decide (sign = .minus)) n).Reads
        (ch '.' :: (g.text ++ exponent.elim [] Exponent.text)).length
        (sign.apply ((w + g.fraction) * exponent.elim 1 Exponent.factor)) ↔
      w < 2 ^ 64 ∧ (exponent = none → sign = .minus → w = 0 ∧ g.value 10 = 0) ∧
        ∀ e ∈ exponent, e.digits.value 10 < 2 ^ 64 ∨ w = 0 ∧ g.value 10 = 0 := by
  have hlen : (ch '.' :: (g.text ++ exponent.elim [] Exponent.text)).length =
      1 + g.text.length + (exponent.elim [] Exponent.text).length := by
    rw [List.length_cons, List.length_append]
    omega
  rw [List.cons_append, List.append_assoc, readRadix_fraction g (exponent_endsDigits exponent h),
    hlen, Scanned.shift_reads_iff, reads_fraction_iff g exponent h hn]

/-- **Magnitudes.** -/
theorem Magnitude.reads_iff (mag : Magnitude) (h : Follows after)
    (hfits : ∀ k ∈ mag.whole?, if sign = .minus then k ≤ 2 ^ 63 else k < 2 ^ 64)
    (hsign : mag.text[0]? = some (ch '.') → sign = .none) :
    (readMagnitude (mag.text ++ after) (decide (sign = .minus))).Reads mag.text.length
      (sign.apply mag.value) ↔ mag.Readable sign after := by
  cases mag with
  | decimal g hg => exact reads_decimal_literal_iff g hg h (hfits _ rfl)
  | hex upper g => exact iff_of_true (readMagnitude_hex upper g h (hfits _ rfl)) trivial
  | binary upper g => exact iff_of_true (readMagnitude_binary upper g h (hfits _ rfl)) trivial
  | octal g hzero hlong => exact reads_octal_iff g hzero hlong h (hfits _ rfl)
  | fraction whole g exponent =>
    cases whole with
    | none =>
      obtain rfl := hsign rfl
      have hvalue : (Magnitude.fraction none g exponent).value =
          ((0 : ℕ) + g.fraction) * exponent.elim 1 Exponent.factor := by
        rw [Nat.cast_zero]
        rfl
      have htext : (Magnitude.fraction none g exponent).text =
          ch '.' :: (g.text ++ exponent.elim [] Exponent.text) := rfl
      rw [hvalue, htext, List.cons_append, readMagnitude_radix]
      refine (reads_radix_iff g exponent h rfl).trans ?_
      simp [Magnitude.Readable]
    | some whole =>
      obtain ⟨n, hn, hiff⟩ := reads_whole_part_iff sign whole
        (ch '.' :: (g.text ++ exponent.elim [] Exponent.text) ++ after)
        (ch '.' :: (g.text ++ exponent.elim [] Exponent.text)).length
        (sign.apply (Magnitude.fraction (some whole) g exponent).value)
        (Nat.succ_pos _) (List.cons_ne_nil _ _)
        (fun c hc => by
          obtain rfl := Option.some.inj hc
          exact ⟨by decide, by decide⟩)
        (by decide : selectsBase (ch '.') = false)
      have htext : (Magnitude.fraction (some whole) g exponent).text =
          whole.text ++ ch '.' :: (g.text ++ exponent.elim [] Exponent.text) := rfl
      rw [htext, List.append_assoc, List.length_append, hiff]
      exact and_congr_right fun _ => reads_radix_iff g exponent h hn
  | scientific whole e =>
    obtain ⟨c, hc, hmark⟩ := e.exists_first after
    have hbase : (e.text ++ after)[0]?.any selectsBase = false := by
      rw [hc]
      rcases hmark with rfl | rfl
      · decide
      · decide
    have hdot : (e.text ++ after)[0]? ≠ some (ch '.') := by
      rw [hc]
      rcases hmark with rfl | rfl
      · decide
      · decide
    obtain ⟨n, hn, hiff⟩ := reads_whole_part_iff sign whole (e.text ++ after) e.text.length
      (sign.apply (Magnitude.scientific whole e).value) (Nat.succ_pos _) (List.cons_ne_nil _ _)
      (exponent_endsDigits (some e) h) hbase
    have hradix : readRadix (e.text ++ after) (decide (sign = .minus)) n =
        finishNumber (e.text ++ after) (decide (sign = .minus)) n none 0 := by
      rw [readRadix, if_neg hdot]
    have htext : (Magnitude.scientific whole e).text = whole.text ++ e.text := rfl
    rw [htext, List.append_assoc, List.length_append, hiff, hradix]
    exact and_congr_right fun _ => reads_scientific_iff e h

end Literals

section Tokens

variable {v : View} {m : Lexer} {p : ℕ} {after : Text}

theorem isdigit_of_digitBelow {base : ℕ} {c : UInt8} (h : (digitBelow base c).isSome = true) :
    isdigit c = true := by
  by_contra hnot
  rw [digitBelow, if_neg fun h => hnot h.1] at h
  cases h

/-- A literal begins with a digit, or with a radix in front of its fraction. -/
theorem Magnitude.first_cases (mag : Magnitude) :
    (∃ g e, mag = .fraction none g e) ∨ ∃ c, mag.text[0]? = some c ∧ isdigit c = true := by
  have hgroup : ∀ {base} (g : DigitGroup (digitBelow base)) (rest : Text),
      ∃ c, (g.text ++ rest)[0]? = some c ∧ isdigit c = true := by
    intro base g rest
    obtain ⟨c, hc, hdigit, -⟩ := g.exists_first rest
    exact ⟨c, hc, isdigit_of_digitBelow hdigit⟩
  cases mag with
  | decimal g h =>
    have := hgroup g []
    rw [List.append_nil] at this
    exact .inr this
  | hex upper g => exact .inr ⟨ch '0', rfl, by decide⟩
  | binary upper g => exact .inr ⟨ch '0', rfl, by decide⟩
  | octal g hzero hlong =>
    refine .inr ⟨ch '0', ?_, by decide⟩
    rw [Magnitude.text, ← List.head?_eq_getElem?, hzero]
  | fraction whole g e =>
    cases whole with
    | none => exact .inl ⟨g, e, rfl⟩
    | some whole => exact .inr (hgroup whole _)
  | scientific whole e => exact .inr (hgroup whole _)


end Tokens
end Intent.Old
