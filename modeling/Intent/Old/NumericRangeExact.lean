import Intent.Old.LiteralText
import Intent.Old.NumericRange

/-!
# Where range validation is exact

`in_numeric_range` is meant to accept the literals in an allowed format whose number is in the
range. What it accepts is what `scan_number` consumes to its end, and of that the format and the
number that `scan_number` found (`LooseNumber.seen`, `isValid_text`). For a literal these are
`Literal.seen`:

* a `0` and an octal digit are a base, so that a whole part with another digit, a radix or an
  exponent behind them is not consumed, and that octal digit is no part of the number;
* `0_7` and `07` are read in base ten;
* nothing of `.5` is consumed;
* the sign of a fraction is dropped, unless there is an exponent;
* the number before an exponent is dropped, unless there is a radix;
* whole parts and exponents are kept in 64 bits.

`Literal.ReadExactly` says of a literal that it escapes all of this (`Magnitude.seen_eq_iff`). The
empty string is accepted in every format if `0` is in the range, and texts that are no literals are
accepted as well, so that a text is judged rightly in every range if and only if it is such a
literal, or is nothing that `scan_number` consumes: `inNumericRange_exact_iff`.
-/

namespace Intent.Old

/-! ### What is seen of a literal -/

instance {digit : UInt8 → Option ℕ} (g : DigitGroup digit) : Decidable g.LooksOctal :=
  inferInstanceAs (Decidable (_ ∧ _))

/-- The power of ten of a signed exponent, which has 64 bits. -/
def keptFactor (sign : Sign) (k : ℕ) : ℚ :=
  10 ^ (if sign = .minus then -((k % 2 ^ 64 : ℕ) : ℤ) else (k % 2 ^ 64 : ℕ))

/-- A whole number as it is seen, if it can be. -/
def wholeSeen (format : NumericFormats) (sign : Sign) (k : ℕ) : NumericFormats × Option ℚ :=
  (format, (int64Of sign k).map Int.cast)

/-- What is seen of a magnitude behind a sign; `none` where it is not consumed to its end. -/
def Magnitude.seen (sign : Sign) : Magnitude → Option (NumericFormats × Option ℚ)
  | decimal g _ => if g.LooksOctal then none else some (wholeSeen .decimal sign (g.value 10))
  | hex _ g => some (wholeSeen .hex sign (g.value 16))
  | binary _ g => some (wholeSeen .binary sign (g.value 2))
  | octal g _ _ =>
    if g.text[1]? = some (ch '_') ∨ g.text.length = 2 then
      some (wholeSeen .decimal sign (g.value 10))
    else some (wholeSeen .octal sign (numeral 8 ((g.text.drop 2).filterMap (digitBelow 8))))
  | fraction none _ _ => none
  | fraction (some whole) g exponent =>
    if whole.LooksOctal then none
    else
      let x : ℚ := g.fraction + (whole.value 10 % 2 ^ 64 : ℕ)
      some (.floatingPointOnly, some (exponent.elim x fun e =>
        sign.apply (x * keptFactor e.sign (e.digits.value 10))))
  | scientific whole _ => if whole.LooksOctal then none else some (.floatingPointOnly, some 0)

/-- What is seen of a literal. -/
def Literal.seen (lit : Literal) : Option (NumericFormats × Option ℚ) :=
  lit.magnitude.seen lit.sign

/-- What is seen of a number behind a sign. -/
def LooseNumber.seen (sign : Sign) : LooseNumber → NumericFormats × Option ℚ
  | based b _ digits _ _ _ => wholeSeen b.format sign (numeral b.base (digits.filterMap b.digit))
  | decimal whole none none _ _ _ _ =>
    wholeSeen .decimal sign (numeral 10 (whole.filterMap (digitBelow 10)))
  | decimal _ none (some _) _ _ _ _ => (.floatingPointOnly, some 0)
  | decimal whole (some f) exponent _ _ _ _ =>
    let digits := f.filterMap (digitBelow 10)
    let x : ℚ := numeral 10 digits / 10 ^ digits.length +
      (numeral 10 (whole.filterMap (digitBelow 10)) % 2 ^ 64 : ℕ)
    (.floatingPointOnly, some (exponent.elim x fun e =>
      sign.apply (x * keptFactor e.sign (numeral 10 (e.digits.filterMap (digitBelow 10))))))

section Seen

variable {sign : Sign}

theorem powTen_ofNat (sign : Sign) (k : ℕ) :
    powTen (decide (sign = .minus)) (UInt64.ofNat k) = keptFactor sign k := by
  have hk : (UInt64.ofNat k).toNat = k % 2 ^ 64 := UInt64.toNat_ofNat'
  simp only [powTen, keptFactor, hk, decide_eq_true_eq]
  split_ifs
  · rw [zpow_neg, zpow_natCast]
  · rw [zpow_natCast]

/-- **What is found is what is seen.** -/
theorem LooseNumber.info_eq (sign : Sign) (n : LooseNumber) :
    ((n.info (decide (sign = .minus))).format, (n.info (decide (sign = .minus))).compared) =
      n.seen sign := by
  cases n with
  | based b c digits hc hne hrun => exact Prod.ext rfl (compared_whole _ sign _)
  | decimal whole fraction exponent hwhole hfraction hne hbase =>
    cases fraction with
    | none =>
      cases exponent with
      | none => exact Prod.ext rfl (compared_whole _ sign _)
      | some e =>
        refine Prod.ext rfl ?_
        change some (if decide (sign = .minus) then 0 * e.factor * -1 else 0 * e.factor) =
          some (0 : ℚ)
        rw [zero_mul, zero_mul, ite_self]
    | some f =>
      have hn : (kept 10 (digitBelow 10) whole).toNat =
          numeral 10 (whole.filterMap (digitBelow 10)) % 2 ^ 64 := UInt64.toNat_ofNat'
      refine Prod.ext ?_ ?_
      · cases exponent with
        | none => rfl
        | some e => rfl
      · cases exponent with
        | none =>
          change some (postRadix _ + ((kept 10 (digitBelow 10) whole).toNat : ℚ)) = _
          rw [postRadix_eq, hn]
          rfl
        | some e =>
          change some (if decide (sign = .minus) then (postRadix _ +
            ((kept 10 (digitBelow 10) whole).toNat : ℚ)) * e.factor * -1 else (postRadix _ +
            ((kept 10 (digitBelow 10) whole).toNat : ℚ)) * e.factor) = _
          rw [Sign.apply_eq, postRadix_eq, hn, LooseExponent.factor, powTen_ofNat]
          rfl

/-- An exponent, as it is read. -/
def Exponent.loose (e : Exponent) : LooseExponent where
  upper := e.upper
  sign := e.sign
  digits := e.digits.text
  run := e.digits.all
  ne_nil := List.append_ne_nil_of_right_ne_nil _ e.digits.ne_nil

theorem exponentText_loose (exponent : Option Exponent) :
    exponentText (exponent.map Exponent.loose) = exponent.elim [] Exponent.text := by
  cases exponent with
  | none => rfl
  | some e => rfl

/-- A group that does not look octal selects no base. -/
theorem DigitGroup.not_hasBase {g : DecimalGroup} (hg : ¬ g.LooksOctal) {rest : Text}
    (hrest : rest[0]?.any selectsBase = false) : ¬ HasBase (g.text ++ rest) := by
  rintro ⟨hzero, hsel, -⟩
  obtain ⟨c, hc, -, htext⟩ := g.exists_first rest
  rw [not_selects_of_not_looksOctal hg hrest (htext.trans (hc.symm.trans hzero))] at hsel
  cases hsel

theorem exponent_not_selects (e : Exponent) : e.text[0]?.any selectsBase = false := by
  obtain ⟨c, hc, hmark⟩ := e.exists_first []
  rw [List.append_nil] at hc
  rw [hc, Option.any_some]
  rcases hmark with rfl | rfl
  · decide
  · decide

/-- A group that looks octal is consumed up to the first character that is no octal digit. -/
theorem DigitGroup.not_consumed {digit : UInt8 → Option ℕ} {g : DigitGroup digit}
    (hg : g.LooksOctal) {rest : Text} (negative : Bool)
    (h : ∃ c ∈ g.text ++ rest, digitBelow 8 c = none ∧ c ≠ ch '_') :
    (scanBehindSign (g.text ++ rest) negative).2 ≠ (g.text ++ rest).length := by
  obtain ⟨d, x, w, htext, hd⟩ := g.cons_cons_of_looksOctal hg
  obtain ⟨hrange, -⟩ := octalDigit_cases hd
  rw [htext, List.cons_append, List.cons_append] at h ⊢
  obtain ⟨c, hc, hnone, hne⟩ := exists_mem_tail hd h
  have hlt := digitRun_lt ⟨c, hc, hnone, hne⟩ []
  rw [List.append_nil] at hlt
  rw [scanBehindSign_based .octal hrange (List.ne_nil_of_mem hc), List.length_cons,
    List.length_cons]
  change 2 + (Old.digitRun (digitBelow 8) (w ++ rest)).2 ≠ _
  omega

/-- **What is not consumed.** -/
theorem Magnitude.not_consumed {mag : Magnitude} (h : mag.seen sign = none) (negative : Bool) :
    (scanBehindSign mag.text negative).2 ≠ mag.text.length := by
  cases mag with
  | decimal g hg =>
    rw [Magnitude.seen, ite_eq_left_iff] at h
    have hoctal : g.LooksOctal := by
      by_contra hnot
      cases h hnot
    -- a decimal group with a leading `0` has a digit that is not octal
    have hbad : ∃ c ∈ g.text, digitBelow 8 c = none ∧ c ≠ ch '_' := by
      rw [List.head?_eq_getElem?] at hg
      refine (hg hoctal.1).resolve_left fun hone => ?_
      have hnext := hoctal.2
      rw [hone] at hnext
      cases hnext
    rw [← List.append_nil g.text] at hbad
    rw [Magnitude.text, ← List.append_nil g.text]
    exact g.not_consumed hoctal negative hbad
  | hex upper g => cases h
  | binary upper g => cases h
  | octal g hzero hlong =>
    rw [Magnitude.seen] at h
    split_ifs at h
  | fraction whole g exponent =>
    cases whole with
    | none =>
      rw [scanBehindSign_radix (t := (Magnitude.fraction none g exponent).text) rfl]
      exact (Nat.succ_ne_zero _).symm
    | some whole =>
      rw [Magnitude.seen, ite_eq_left_iff] at h
      have hoctal : whole.LooksOctal := by
        by_contra hnot
        cases h hnot
      exact whole.not_consumed hoctal negative
        ⟨ch '.', List.mem_append_right _ List.mem_cons_self, by decide, by decide⟩
  | scientific whole e =>
    rw [Magnitude.seen, ite_eq_left_iff] at h
    have hoctal : whole.LooksOctal := by
      by_contra hnot
      cases h hnot
    refine whole.not_consumed hoctal negative ⟨_, List.mem_append_right _ List.mem_cons_self, ?_⟩
    cases e.upper with
    | true => exact ⟨by decide, by decide⟩
    | false => exact ⟨by decide, by decide⟩

/-- Digits that select no base are read in base ten. -/
theorem exists_whole (sign : Sign) {w : Text} (hw : IsRun (digitBelow 10) w) (hbase : ¬ HasBase w) :
    ∃ n : LooseNumber, n.text = w ∧
      n.seen sign = wholeSeen .decimal sign (numeral 10 (w.filterMap (digitBelow 10))) := by
  rw [← List.append_nil w] at hbase
  exact ⟨.decimal w none none hw (fun _ hf => by cases hf) (fun hf => absurd rfl hf) hbase,
    List.append_nil w, rfl⟩

/-- An octal number with a digit behind the `0`, and more behind that. -/
theorem DigitGroup.exists_second_digit {g : DigitGroup (digitBelow 8)}
    (hzero : g.text.head? = some (ch '0')) (hlong : 1 < g.text.length)
    (hdigit : ¬ (g.text[1]? = some (ch '_') ∨ g.text.length = 2)) :
    ∃ d x w, g.text = ch '0' :: d :: w ∧ digitBelow 8 d = some x ∧ w ≠ [] := by
  obtain ⟨d, w, htext⟩ : ∃ d w, g.text = ch '0' :: d :: w := by
    obtain ⟨t, ht⟩ := List.head?_eq_some_iff.mp hzero
    cases t with
    | nil =>
      rw [ht] at hlong
      exact absurd hlong (by decide)
    | cons d w => exact ⟨d, w, ht⟩
  have hall := g.all
  rw [htext] at hdigit hall
  have hd : (digitBelow 8 d).isSome = true := by
    refine (hall d (List.mem_cons_of_mem _ List.mem_cons_self)).resolve_right ?_
    rintro rfl
    exact hdigit (.inl rfl)
  obtain ⟨x, hx⟩ := Option.isSome_iff_exists.mp hd
  refine ⟨d, x, w, htext, hx, ?_⟩
  rintro rfl
  exact hdigit (.inr rfl)

/-- The second digit of an octal number selects the base, and is lost. -/
theorem DigitGroup.exists_octal (sign : Sign) (g : DigitGroup (digitBelow 8))
    (hzero : g.text.head? = some (ch '0')) (hlong : 1 < g.text.length)
    (hdigit : ¬ (g.text[1]? = some (ch '_') ∨ g.text.length = 2)) :
    ∃ n : LooseNumber, n.text = g.text ∧ n.seen sign =
      wholeSeen .octal sign (numeral 8 ((g.text.drop 2).filterMap (digitBelow 8))) := by
  obtain ⟨d, x, w, htext, hx, hw⟩ := exists_second_digit hzero hlong hdigit
  have hall := g.all
  rw [htext] at hall ⊢
  exact ⟨.based .octal d w (octalDigit_cases hx).1 hw fun c hc =>
    hall c (List.mem_cons_of_mem _ (List.mem_cons_of_mem _ hc)), rfl, rfl⟩

/-- A fraction whose whole part does not look octal. -/
theorem exists_fraction (sign : Sign) {whole : DecimalGroup} (hoctal : ¬ whole.LooksOctal)
    (g : DecimalGroup) (exponent : Option Exponent) :
    ∃ n : LooseNumber, n.text = (Magnitude.fraction (some whole) g exponent).text ∧
      some (n.seen sign) = (Magnitude.fraction (some whole) g exponent).seen sign := by
  have hbase : ¬ HasBase (whole.text ++ looseRest (some g.text)
      (exponent.map Exponent.loose)) :=
    DigitGroup.not_hasBase hoctal rfl
  refine ⟨.decimal whole.text (some g.text) (exponent.map Exponent.loose) whole.all
    (fun f hf => by obtain rfl := Option.some.inj hf; exact g.all) (fun _ => whole.ne_nil)
    hbase, ?_, ?_⟩
  · change whole.text ++ (ch '.' :: g.text ++ exponentText (exponent.map Exponent.loose)) = _
    rw [exponentText_loose]
    rfl
  · rw [Magnitude.seen, if_neg hoctal]
    cases exponent with
    | none => rfl
    | some e => rfl

/-- **What is consumed.** A magnitude that is seen is a number for `scan_number`, and seen as
that. -/
theorem Magnitude.exists_looseNumber {mag : Magnitude} {r : NumericFormats × Option ℚ}
    (h : mag.seen sign = some r) : ∃ n : LooseNumber, n.text = mag.text ∧ n.seen sign = r := by
  cases mag with
  | decimal g hg =>
    rw [Magnitude.seen] at h
    split_ifs at h with hoctal
    obtain rfl := Option.some.inj h
    have hbase : ¬ HasBase (g.text ++ []) := DigitGroup.not_hasBase hoctal rfl
    rw [List.append_nil] at hbase
    exact exists_whole sign g.all hbase
  | hex upper g =>
    obtain rfl := Option.some.inj h
    have hletter : LiteralBase.hex.Selects (if upper then ch 'X' else ch 'x') := by
      cases upper with
      | true => exact .inr rfl
      | false => exact .inl rfl
    exact ⟨.based .hex _ g.text hletter g.ne_nil g.all, rfl, rfl⟩
  | binary upper g =>
    obtain rfl := Option.some.inj h
    have hletter : LiteralBase.binary.Selects (if upper then ch 'B' else ch 'b') := by
      cases upper with
      | true => exact .inr rfl
      | false => exact .inl rfl
    exact ⟨.based .binary _ g.text hletter g.ne_nil g.all, rfl, rfl⟩
  | octal g hzero hlong =>
    rw [Magnitude.seen] at h
    split_ifs at h with hdecimal
    · -- behind the `0` is an underscore, or too little
      obtain rfl := Option.some.inj h
      obtain ⟨hall, hdigits⟩ := g.decimal (by decide)
      have hbase : ¬ HasBase g.text := by
        rintro ⟨-, hsel, hlen⟩
        rcases hdecimal with hunderscore | htwo
        · rw [hunderscore] at hsel
          exact absurd hsel (by decide)
        · omega
      obtain ⟨n, htext, hn⟩ := exists_whole sign hall hbase
      refine ⟨n, htext, ?_⟩
      rw [hn, hdigits]
      rfl
    · obtain rfl := Option.some.inj h
      exact g.exists_octal sign hzero hlong hdecimal
  | fraction whole g exponent =>
    cases whole with
    | none => cases h
    | some whole =>
      have hoctal : ¬ whole.LooksOctal := fun hoctal => by
        rw [Magnitude.seen, if_pos hoctal] at h
        cases h
      obtain ⟨n, htext, hn⟩ := exists_fraction sign hoctal g exponent
      exact ⟨n, htext, Option.some.inj (hn.trans h)⟩
  | scientific whole e =>
    rw [Magnitude.seen] at h
    split_ifs at h with hoctal
    obtain rfl := Option.some.inj h
    have hbase : ¬ HasBase (whole.text ++ looseRest none (some e.loose)) :=
      DigitGroup.not_hasBase hoctal (exponent_not_selects e)
    exact ⟨.decimal whole.text none (some e.loose) whole.all (fun _ hf => by cases hf)
      (fun hf => absurd rfl hf) hbase, rfl, rfl⟩

end Seen

/-! ### What is seen as it is meant -/

/-- A magnitude is read as it is meant behind a sign. -/
def Magnitude.ReadExactly (sign : Sign) : Magnitude → Prop
  | decimal g _ => ¬ g.LooksOctal ∧ g.value 10 < 2 ^ 63
  | hex _ g => g.value 16 < 2 ^ 63
  | binary _ g => g.value 2 < 2 ^ 63
  -- only a `0` can be lost behind the leading one
  | octal g _ _ => g.text[1]? = some (ch '0') ∧ 2 < g.text.length ∧ g.value 8 < 2 ^ 63
  | fraction none _ _ => False
  | fraction (some whole) g exponent =>
    ¬ whole.LooksOctal ∧ whole.value 10 < 2 ^ 64 ∧
      (exponent = none → sign = .minus → whole.value 10 = 0 ∧ g.value 10 = 0) ∧
      ∀ e ∈ exponent, e.digits.value 10 < 2 ^ 64 ∨ whole.value 10 = 0 ∧ g.value 10 = 0
  | scientific whole _ => ¬ whole.LooksOctal ∧ whole.value 10 = 0

/-- A literal is read as it is meant. -/
def Literal.ReadExactly (lit : Literal) : Prop := lit.magnitude.ReadExactly lit.sign

section Exactly

variable {sign : Sign}

theorem wholeSeen_eq_iff (format : NumericFormats) {k : ℕ} :
    some (wholeSeen format sign k) = some (format, some (sign.apply k)) ↔ k < 2 ^ 63 := by
  rw [Option.some.injEq, wholeSeen, Prod.mk.injEq, and_iff_right rfl, int64Of_eq_iff]

theorem ite_none_eq_some {c : Prop} [Decidable c] {α : Type} {x : Option α} {y : α} :
    (if c then none else x) = some y ↔ ¬ c ∧ x = some y := by
  split_ifs with h
  · exact iff_of_false (fun h => by cases h) fun h' => h'.1 h
  · exact (and_iff_right h).symm

/-- A fraction, in 64 bits and without its sign where there is no exponent. -/
theorem keptFraction_eq_iff {w : ℕ} (g : DecimalGroup) (exponent : Option Exponent) :
    (exponent.elim (g.fraction + (w % 2 ^ 64 : ℕ)) fun e =>
        sign.apply ((g.fraction + (w % 2 ^ 64 : ℕ)) * keptFactor e.sign (e.digits.value 10))) =
      sign.apply ((w + g.fraction) * exponent.elim 1 Exponent.factor) ↔
      w < 2 ^ 64 ∧ (exponent = none → sign = .minus → w = 0 ∧ g.value 10 = 0) ∧
        ∀ e ∈ exponent, e.digits.value 10 < 2 ^ 64 ∨ w = 0 ∧ g.value 10 = 0 := by
  cases exponent with
  | none =>
    simp only [Option.elim_none, mul_one]
    rw [add_comm, unsigned_eq_iff g.fraction_nonneg, g.fraction_eq_zero]
    simp only [true_implies, Option.mem_def, reduceCtorEq, false_implies, implies_true, and_true]
  | some e =>
    simp only [Option.elim_some, Sign.apply_inj, reduceCtorEq, false_implies, true_and,
      Option.mem_def, Option.some.injEq, forall_eq']
    rw [← powTen_ofNat, powTen, UInt64.toNat_ofNat', e.factor_eq, add_comm]
    exact dropped_iff g.value_lt _

/-- The second digit of an octal number is lost, which only a `0` allows. -/
theorem octal_eq_iff {d : UInt8} {x : ℕ} {w : Text} (hx : digitBelow 8 d = some x) :
    (int64Of sign (numeral 8 (w.filterMap (digitBelow 8)))).map (Int.cast : ℤ → ℚ) =
        some (sign.apply (numeral 8 ((ch '0' :: d :: w).filterMap (digitBelow 8)))) ↔
      d = ch '0' ∧ numeral 8 ((ch '0' :: d :: w).filterMap (digitBelow 8)) < 2 ^ 63 := by
  have hzero : digitBelow 8 (ch '0') = some 0 := by decide
  rw [List.filterMap_cons_some hzero, List.filterMap_cons_some hx, numeral_cons, numeral_cons,
    Nat.zero_mul, Nat.zero_add, ← (octalDigit_cases hx).2]
  constructor
  · intro h
    have hle := le_of_int64Of h
    obtain rfl : x = 0 := by
      by_contra hne
      have hpos := Nat.mul_pos (Nat.pos_of_ne_zero hne)
        (Nat.pow_pos (n := (w.filterMap (digitBelow 8)).length) (by decide : 0 < 8))
      omega
    rw [Nat.zero_mul, Nat.zero_add] at h ⊢
    exact ⟨rfl, int64Of_eq_iff.mp h⟩
  · rintro ⟨rfl, hlt⟩
    rw [Nat.zero_mul, Nat.zero_add] at hlt ⊢
    exact int64Of_eq_iff.mpr hlt

/-- **What is read as it is meant.** -/
theorem Magnitude.seen_eq_iff (mag : Magnitude) :
    mag.seen sign = some (mag.format, some (sign.apply mag.value)) ↔ mag.ReadExactly sign := by
  cases mag with
  | decimal g hg => exact ite_none_eq_some.trans (and_congr_right fun _ => wholeSeen_eq_iff _)
  | hex upper g => exact wholeSeen_eq_iff _
  | binary upper g => exact wholeSeen_eq_iff _
  | octal g hzero hlong =>
    rw [Magnitude.seen, Magnitude.ReadExactly]
    split_ifs with hdecimal
    · -- the format is another one
      refine iff_of_false (fun h => ?_) fun h => ?_
      · have hformat := congrArg Prod.fst (Option.some.inj h)
        cases (show NumericFormats.decimal ≠ .octal by decide) hformat
      · rcases hdecimal with hunderscore | htwo
        · rw [h.1] at hunderscore
          exact absurd hunderscore (by decide)
        · exact absurd htwo (by omega)
    · obtain ⟨d, x, w, htext, hx, hw⟩ := g.exists_second_digit hzero hlong hdecimal
      have hvalue : g.value 8 = numeral 8 ((ch '0' :: d :: w).filterMap (digitBelow 8)) := by
        rw [DigitGroup.value, DigitGroup.digits, htext]
      have hlength : 2 < (ch '0' :: d :: w).length :=
        Nat.succ_lt_succ (Nat.succ_lt_succ (List.length_pos_iff.mpr hw))
      have hmeant : (octal g hzero hlong).value = (g.value 8 : ℕ) := rfl
      rw [Option.some.injEq, wholeSeen, Prod.mk.injEq, hmeant, hvalue, htext]
      refine (and_iff_right rfl).trans ((octal_eq_iff hx).trans (and_congr ?_ ?_))
      · exact ⟨congrArg some, Option.some.inj⟩
      · exact (and_iff_right hlength).symm
  | fraction whole g exponent =>
    cases whole with
    | none => exact iff_of_false (fun h => by cases h) id
    | some whole =>
      refine ite_none_eq_some.trans (and_congr_right fun _ => ?_)
      rw [← keptFraction_eq_iff g exponent]
      simp only [Option.some.injEq, Prod.mk.injEq]
      exact and_iff_right rfl
  | scientific whole e =>
    refine ite_none_eq_some.trans (and_congr_right fun _ => ?_)
    have hfactor : e.factor ≠ 0 := zpow_ne_zero _ (by norm_num)
    have hzero : (0 : ℚ) = sign.apply 0 := by simp [Sign.apply]
    rw [Option.some.injEq, Prod.mk.injEq, Option.some.injEq]
    refine (and_iff_right rfl).trans ?_
    rw [hzero, sign.apply_inj, Magnitude.value, eq_comm, mul_eq_zero, or_iff_left hfactor,
      Nat.cast_eq_zero]

/-- The format that is seen is the one of the literal, or has no bit of it. -/
theorem Magnitude.seen_format {mag : Magnitude} {r : NumericFormats × Option ℚ}
    (h : mag.seen sign = some r) : r.1 = mag.format ∨ r.1 &&& mag.format = 0 := by
  cases mag with
  | decimal g hg => exact .inl (congrArg Prod.fst (Option.some.inj (ite_none_eq_some.mp h).2)).symm
  | hex upper g => exact .inl (congrArg Prod.fst (Option.some.inj h)).symm
  | binary upper g => exact .inl (congrArg Prod.fst (Option.some.inj h)).symm
  | octal g hzero hlong =>
    rw [Magnitude.seen] at h
    split_ifs at h with hdecimal
    · have hformat : NumericFormats.decimal = r.1 := congrArg Prod.fst (Option.some.inj h)
      rw [← hformat]
      exact .inr (show NumericFormats.decimal &&& .octal = 0 by decide)
    · exact .inl (congrArg Prod.fst (Option.some.inj h)).symm
  | fraction whole g exponent =>
    cases whole with
    | none => cases h
    | some whole => exact .inl (congrArg Prod.fst (Option.some.inj (ite_none_eq_some.mp h).2)).symm
  | scientific whole e =>
    exact .inl (congrArg Prod.fst (Option.some.inj (ite_none_eq_some.mp h).2)).symm

theorem Magnitude.format_ne_zero (mag : Magnitude) : mag.format ≠ 0 := by
  cases mag with
  | decimal g hg => exact (by decide : NumericFormats.decimal ≠ 0)
  | hex upper g => exact (by decide : NumericFormats.hex ≠ 0)
  | binary upper g => exact (by decide : NumericFormats.binary ≠ 0)
  | octal g hzero hlong => exact (by decide : NumericFormats.octal ≠ 0)
  | fraction whole g exponent => exact (by decide : NumericFormats.floatingPointOnly ≠ 0)
  | scientific whole e => exact (by decide : NumericFormats.floatingPointOnly ≠ 0)

theorem Literal.format_ne_zero (lit : Literal) : lit.format ≠ 0 := lit.magnitude.format_ne_zero

theorem LooseNumber.seen_format_ne_zero (n : LooseNumber) : (n.seen sign).1 ≠ 0 := by
  cases n with
  | based b c digits hc hne hrun =>
    cases b with
    | hex => exact (by decide : NumericFormats.hex ≠ 0)
    | binary => exact (by decide : NumericFormats.binary ≠ 0)
    | octal => exact (by decide : NumericFormats.octal ≠ 0)
  | decimal whole fraction exponent hwhole hfraction hne hbase =>
    cases fraction with
    | none =>
      cases exponent with
      | none => exact (by decide : NumericFormats.decimal ≠ 0)
      | some e => exact (by decide : NumericFormats.floatingPointOnly ≠ 0)
    | some f => exact (by decide : NumericFormats.floatingPointOnly ≠ 0)

end Exactly

/-! ### The verdict -/

namespace Cli

/-- A number of this format is in an allowed format and in the range. -/
def NumericRangeInfo.Passes (nri : NumericRangeInfo) (r : NumericFormats × ℚ) : Prop :=
  r.1 &&& nri.allowedFormats ≠ 0 ∧ nri.Contains r.2

instance (nri : NumericRangeInfo) (r : NumericFormats × ℚ) : Decidable (nri.Passes r) :=
  inferInstanceAs (Decidable (_ ∧ _))

/-- A value is a literal that passes. -/
def NumericRangeInfo.Allows (nri : NumericRangeInfo) (s : Text) : Prop :=
  ∃ lit : Literal, lit.text = s ∧ nri.Passes (lit.format, lit.value)

/-- The verdict on a value is right: the validator returns, and it has no message if and only if the
value is allowed. -/
def Judges (lib : CLibrary ℚ) (param : CmdlineParam) (s : Text) (nri : NumericRangeInfo) : Prop :=
  ∃ message, inNumericRange lib param s (some nri) = .returns message ∧
    (message = [] ↔ nri.Allows s)

/-- **A value is read as what it is**: it is a literal that is read as it is meant, or it is neither
a literal nor empty nor anything else that is consumed. -/
def ReadExactly (s : Text) : Prop :=
  (∃ lit : Literal, lit.text = s ∧ lit.ReadExactly) ∨
    s ≠ [] ∧ (¬ ∃ lit : Literal, lit.text = s) ∧
      ¬ ∃ (sign : Sign) (n : LooseNumber), sign.text ++ n.text = s

/-- The verdict on a number that is seen, if there is one. -/
def NumericRangeInfo.judge (nri : NumericRangeInfo) (r : NumericFormats × Option ℚ) :
    Option Bool :=
  if r.1 &&& nri.allowedFormats ≠ 0 then r.2.map fun x => decide (nri.Contains x) else some false

/-- A range does not tell what a value is from what it is read as. -/
structure NumericRangeInfo.Overlooks (nri : NumericRangeInfo) (s : Text) : Prop where
  /-- The empty string is read as `0`, in every format. -/
  empty : s = [] → ¬ nri.Contains 0
  /-- Other texts that are no literals may be read as numbers, which do not pass. -/
  malformed : s ≠ [] → (¬ ∃ lit : Literal, lit.text = s) →
    ∀ (sign : Sign) (n : LooseNumber), sign.text ++ n.text = s →
      nri.judge (n.seen sign) = some false
  /-- A literal passes as it is seen exactly if it passes as it is meant. -/
  literal : ∀ lit : Literal, lit.text = s →
    lit.seen.elim (some false) nri.judge = some (decide (nri.Passes (lit.format, lit.value)))

section Verdict

variable {s : Text} {nri : NumericRangeInfo}

theorem isValid_nil : isValid [] nri = some (decide (nri.Contains 0)) := by
  have hscan : scanAnyNumber ⟨[], fun _ => 0⟩ 0 = (⟨.decimal, .wholeNumber 0, false⟩, 0) := rfl
  have hstop : (scanNumber ⟨[], fun _ => 0⟩ 0 nri.allowedFormats).2 = 0 := by
    simp only [scanNumber, hscan, ite_self]
  have hcompared : (scanNumber ⟨[], fun _ => 0⟩ 0 nri.allowedFormats).1.compared = some 0 := by
    simp only [scanNumber, hscan]
    rfl
  rw [isValid, hstop, hcompared]
  rfl

/-- A value is judged by what is found, if it is consumed to its end. -/
theorem isValid_eq (hs : s ≠ []) :
    isValid s nri = if (scanAnyNumber ⟨s, fun _ => 0⟩ 0).2 = s.length then
      nri.judge ((scanAnyNumber ⟨s, fun _ => 0⟩ 0).1.format,
        (scanAnyNumber ⟨s, fun _ => 0⟩ 0).1.compared)
    else some false := by
  have hpos := List.length_pos_iff.mpr hs
  by_cases hallowed : (scanAnyNumber ⟨s, fun _ => 0⟩ 0).1.format &&& nri.allowedFormats ≠ 0
  · have hscan : scanNumber ⟨s, fun _ => 0⟩ 0 nri.allowedFormats =
        scanAnyNumber ⟨s, fun _ => 0⟩ 0 := Prod.ext rfl (if_pos hallowed)
    rw [isValid, hscan, NumericRangeInfo.judge, if_pos hallowed]
  · have hscan : scanNumber ⟨s, fun _ => 0⟩ 0 nri.allowedFormats =
        ((scanAnyNumber ⟨s, fun _ => 0⟩ 0).1, 0) := Prod.ext rfl (if_neg hallowed)
    rw [isValid, hscan, NumericRangeInfo.judge, if_neg hallowed, ite_self]
    exact if_neg hpos.ne

/-- Numbers of the grammar. -/
theorem isValid_text (sign : Sign) (n : LooseNumber) (hs : sign.text ++ n.text ≠ []) :
    isValid (sign.text ++ n.text) nri = nri.judge (n.seen sign) := by
  rw [isValid_eq hs, scanAnyNumber_text, n.info_eq]
  exact if_pos rfl

/-- Whatever else there is, is rejected. -/
theorem isValid_of_not_text (hs : s ≠ [])
    (h : ¬ ∃ (sign : Sign) (n : LooseNumber), sign.text ++ n.text = s) :
    isValid s nri = some false := by
  rw [isValid_eq hs, if_neg fun hstop => h ?_]
  obtain ⟨sign, n, rfl⟩ := exists_looseNumber_of_stop hstop
  exact ⟨sign, n, rfl⟩

/-- **Literals.** A literal is judged as it is seen. -/
theorem isValid_literal (lit : Literal) :
    isValid lit.text nri = lit.seen.elim (some false) nri.judge := by
  cases hseen : lit.seen with
  | none =>
    rw [isValid_eq lit.ne_nil, Option.elim_none, if_neg fun hstop => ?_]
    rw [Literal.text, scanAnyNumber_sign fun h => by rw [h]; exact lit.magnitude.not_sign,
      List.length_append] at hstop
    exact Magnitude.not_consumed hseen _ (Nat.add_left_cancel hstop)
  | some r =>
    obtain ⟨n, htext, hn⟩ := Magnitude.exists_looseNumber hseen
    have hne := lit.ne_nil
    rw [Literal.text, ← htext] at hne ⊢
    rw [isValid_text lit.sign n hne, hn, Option.elim_some]

/-- The verdict is right if and only if the value is valid where it is allowed. -/
theorem judges_iff (lib : CLibrary ℚ) (param : CmdlineParam) (name : Text) (names : List Text) :
    Judges lib { param with names := name :: names } s nri ↔
      ∃ valid, isValid s nri = some valid ∧ (valid = true ↔ nri.Allows s) := by
  rw [Judges, inNumericRange]
  cases isValid s nri with
  | none => exact iff_of_false (fun ⟨_, h, _⟩ => by cases h) fun ⟨_, h, _⟩ => by cases h
  | some valid =>
    cases valid with
    | true =>
      simp only [Validated.returns.injEq, exists_eq_left', Option.some.injEq, true_iff]
    | false =>
      simp only [Validated.returns.injEq, exists_eq_left', Option.some.injEq, interp_rangeMessage]
      refine iff_congr (iff_of_false (fun h => by cases h) Bool.false_ne_true) Iff.rfl

/-- A literal is allowed if it passes. -/
theorem allows_text (lit : Literal) :
    nri.Allows lit.text ↔ nri.Passes (lit.format, lit.value) := by
  refine ⟨fun ⟨lit', htext, h⟩ => ?_, fun h => ⟨lit, rfl, h⟩⟩
  rwa [Literal.text_injective htext] at h

/-- **One range.** The verdict on a value is right if and only if the range does not tell what the
value is from what it is read as. -/
theorem judges_iff_overlooks (lib : CLibrary ℚ) (param : CmdlineParam) (name : Text)
    (names : List Text) :
    Judges lib { param with names := name :: names } s nri ↔ nri.Overlooks s := by
  rw [judges_iff]
  by_cases hs : s = []
  · -- the empty string is no literal
    subst hs
    have hnot : ¬ nri.Allows [] := fun ⟨lit, htext, _⟩ => lit.ne_nil htext
    rw [isValid_nil]
    constructor
    · rintro ⟨valid, hvalid, hiff⟩
      refine ⟨fun _ hcontains => hnot (hiff.mp ?_), fun hne => absurd rfl hne,
        fun lit htext => absurd htext lit.ne_nil⟩
      rw [← Option.some.inj hvalid, decide_eq_true hcontains]
    · exact fun h => ⟨_, rfl, iff_of_false (by simpa using h.empty rfl) hnot⟩
  by_cases hlit : ∃ lit : Literal, lit.text = s
  · -- a literal is known from its text
    obtain ⟨lit, rfl⟩ := hlit
    rw [isValid_literal, allows_text]
    constructor
    · rintro ⟨valid, hvalid, hiff⟩
      refine ⟨fun hnil => absurd hnil hs, fun _ hno => absurd ⟨lit, rfl⟩ hno,
        fun lit' htext => ?_⟩
      rw [Literal.text_injective htext, hvalid, Option.some.injEq, Bool.eq_iff_iff, hiff,
        decide_eq_true_iff]
    · exact fun h => ⟨_, h.literal lit rfl, decide_eq_true_iff⟩
  · -- any other text is invalid exactly if it is no number, or does not pass
    have hnot : ¬ nri.Allows s := fun ⟨lit, htext, _⟩ => hlit ⟨lit, htext⟩
    constructor
    · rintro ⟨valid, hvalid, hiff⟩
      refine ⟨fun hnil => absurd hnil hs, fun _ _ sign n htext => ?_,
        fun lit htext => absurd ⟨lit, htext⟩ hlit⟩
      subst htext
      rw [← isValid_text sign n hs, hvalid, (Bool.not_eq_true _).mp (mt hiff.mp hnot)]
    · intro h
      refine ⟨false, ?_, iff_of_false Bool.false_ne_true hnot⟩
      by_cases hread : ∃ (sign : Sign) (n : LooseNumber), sign.text ++ n.text = s
      · obtain ⟨sign, n, rfl⟩ := hread
        rw [isValid_text sign n hs]
        exact h.malformed hs hlit sign n rfl
      · exact isValid_of_not_text hs hread

/-- What is read as what it is, is judged rightly in every range. -/
theorem ReadExactly.overlooks (h : ReadExactly s) (nri : NumericRangeInfo) : nri.Overlooks s := by
  rcases h with ⟨lit, rfl, hexact⟩ | ⟨hs, hlit, hread⟩
  · have hseen : lit.seen = some (lit.format, some lit.value) :=
      (Magnitude.seen_eq_iff lit.magnitude).mpr hexact
    refine ⟨fun hnil => absurd hnil lit.ne_nil, fun _ hno => absurd ⟨lit, rfl⟩ hno,
      fun lit' htext => ?_⟩
    obtain rfl := Literal.text_injective htext
    rw [hseen, Option.elim_some, NumericRangeInfo.judge]
    split_ifs with hallowed
    · simp only [Option.map_some, NumericRangeInfo.Passes, hallowed, ne_eq, not_false_eq_true,
        true_and]
    · rw [decide_eq_false fun hpasses => hallowed hpasses.1]
  · exact ⟨fun hnil => absurd hnil hs, fun _ _ sign n htext => absurd ⟨sign, n, htext⟩ hread,
      fun lit htext => absurd ⟨lit, htext⟩ hlit⟩

/-- The range of one number, in some formats. -/
def onlyRange (x : ℚ) (formats : NumericFormats) : NumericRangeInfo := ⟨x, x, formats, le_rfl⟩

/-- The range of one number, in one format, is passed by nothing else. -/
theorem judge_onlyRange {x : ℚ} {format : NumericFormats} {r : NumericFormats × Option ℚ}
    (h : (onlyRange x format).judge r = some true) : r.1 &&& format ≠ 0 ∧ r.2 = some x := by
  rw [NumericRangeInfo.judge] at h
  split_ifs at h with hformat
  · obtain ⟨y, hy, hcontains⟩ := Option.map_eq_some_iff.mp h
    obtain ⟨hmin, hmax⟩ := of_decide_eq_true hcontains
    exact ⟨hformat, hy.trans (congrArg some (le_antisymm hmax hmin))⟩
  · cases h

theorem judge_onlyRange_self {x : ℚ} {r : NumericFormats × Option ℚ} (h : r.1 ≠ 0) :
    (onlyRange x r.1).judge r = r.2.map fun y => decide ((onlyRange x r.1).Contains y) :=
  if_pos (by simpa [onlyRange] using h)

/-- What is judged rightly in every range is read as what it is: otherwise the range of the one
number tells the difference. -/
theorem ReadExactly.of_overlooks (h : ∀ nri : NumericRangeInfo, nri.Overlooks s) :
    ReadExactly s := by
  by_cases hs : s = []
  · exact absurd ⟨le_rfl, le_rfl⟩ ((h (onlyRange 0 .all)).empty hs)
  by_cases hlit : ∃ lit : Literal, lit.text = s
  · obtain ⟨lit, rfl⟩ := hlit
    refine .inl ⟨lit, rfl, (Magnitude.seen_eq_iff lit.magnitude).mp ?_⟩
    have hjudge := (h (onlyRange lit.value lit.format)).literal lit rfl
    have hpasses : (onlyRange lit.value lit.format).Passes (lit.format, lit.value) :=
      ⟨by simpa [onlyRange] using lit.format_ne_zero, le_rfl, le_rfl⟩
    rw [decide_eq_true hpasses] at hjudge
    change lit.seen = _
    cases hseen : lit.seen with
    | none =>
      rw [hseen] at hjudge
      cases hjudge
    | some r =>
      rw [hseen, Option.elim_some] at hjudge
      obtain ⟨hformat, hvalue⟩ := judge_onlyRange hjudge
      exact congrArg some (Prod.ext ((Magnitude.seen_format hseen).resolve_right hformat) hvalue)
  · refine .inr ⟨hs, hlit, fun ⟨sign, n, htext⟩ => ?_⟩
    have hjudge := fun x => (h (onlyRange x (n.seen sign).1)).malformed hs hlit sign n htext
    simp only [judge_onlyRange_self n.seen_format_ne_zero] at hjudge
    cases hx : (n.seen sign).2 with
    | none => cases (congrArg (Option.map _) hx).symm.trans (hjudge 0)
    | some x =>
      have hfalse := (congrArg (Option.map _) hx).symm.trans (hjudge x)
      have hcontains : (onlyRange x (n.seen sign).1).Contains x := ⟨le_rfl, le_rfl⟩
      rw [Option.map_some, decide_eq_true hcontains] at hfalse
      cases hfalse

end Verdict

/-- **Range validation.** The verdict on a value is right in every range if and only if the value is
read as what it is; in one range, if and only if the range does not tell the difference. -/
theorem inNumericRange_exact_iff (lib : CLibrary ℚ) (param : CmdlineParam) (name : Text)
    (names : List Text) (s : Text) :
    ((∀ nri, Judges lib { param with names := name :: names } s nri) ↔ ReadExactly s) ∧
      ∀ nri, Judges lib { param with names := name :: names } s nri ↔ nri.Overlooks s := by
  refine ⟨⟨fun h => .of_overlooks fun nri => ?_, fun h nri => ?_⟩, fun nri => ?_⟩
  · exact (judges_iff_overlooks lib param name names).mp (h nri)
  · exact (judges_iff_overlooks lib param name names).mpr (h.overlooks nri)
  · exact judges_iff_overlooks lib param name names

/-- The group of one digit. -/
def oneDigit (c : UInt8) (h : (digitBelow 10 c).isSome = true) : DecimalGroup where
  text := [c]
  first := h
  last := h
  all := List.forall_mem_singleton.mpr (.inl h)

/-- The literal `-1.5`. -/
def minusOneAndHalf : Literal :=
  ⟨.minus, .fraction (some (oneDigit (ch '1') (by decide))) (oneDigit (ch '5') (by decide)) none⟩

/-- The range from `0` to `31`, in every format. -/
def zeroTo31 : NumericRangeInfo := ⟨0, 31, .all, by norm_num⟩

/-- `-1.5` is accepted between `0` and `31`, as `1.5`. -/
theorem not_inNumericRange_exact :
    ¬ ∀ (lib : CLibrary ℚ) (param : CmdlineParam) (name : Text) (names : List Text) (s : Text)
      (nri : NumericRangeInfo), Judges lib { param with names := name :: names } s nri := by
  intro h
  have hone : (oneDigit (ch '1') (by decide)).value 10 = 1 := by decide
  have hfive : (oneDigit (ch '5') (by decide)).value 10 = 5 := by decide
  have hhalf : (oneDigit (ch '5') (by decide)).fraction = 1 / 2 := by
    rw [DigitGroup.fraction, hfive]
    change ((5 : ℕ) : ℚ) / 10 ^ 1 = 1 / 2
    norm_num
  have hseen : minusOneAndHalf.seen = some (.floatingPointOnly, some (3 / 2 : ℚ)) := by
    have hoctal : ¬ (oneDigit (ch '1') (by decide)).LooksOctal := by decide
    change (if (oneDigit (ch '1') (by decide)).LooksOctal then none else
      some (NumericFormats.floatingPointOnly, some ((oneDigit (ch '5') (by decide)).fraction +
        (((oneDigit (ch '1') (by decide)).value 10 % 2 ^ 64 : ℕ) : ℚ)))) = _
    rw [if_neg hoctal, hone, hhalf]
    norm_num
  have hvalid : isValid minusOneAndHalf.text zeroTo31 = some true := by
    have hformat : NumericFormats.floatingPointOnly &&& zeroTo31.allowedFormats ≠ 0 := by decide
    have hcontains : zeroTo31.Contains (3 / 2) := by
      constructor
      · norm_num [zeroTo31]
      · norm_num [zeroTo31]
    rw [isValid_literal, hseen, Option.elim_some, NumericRangeInfo.judge, if_pos hformat,
      Option.map_some, decide_eq_true hcontains]
  obtain ⟨valid, hvalid', hiff⟩ := (judges_iff _ _ _ _).mp (h ⟨fun _ _ => [], fun _ => 0⟩
    ⟨[], [], ch '?', []⟩ [ch '-', ch 'n'] [] minusOneAndHalf.text zeroTo31)
  obtain ⟨lit, htext, -, hmin, -⟩ := hiff.mp (Option.some.inj (hvalid'.symm.trans hvalid))
  have hvalue : lit.value = -(3 / 2) := by
    rw [Literal.text_injective htext]
    change -((((oneDigit (ch '1') (by decide)).value 10 : ℕ) +
      (oneDigit (ch '5') (by decide)).fraction) * 1) = -(3 / 2)
    rw [hone, hhalf]
    norm_num
  rw [hvalue] at hmin
  norm_num [zeroTo31] at hmin

end Cli

end Intent.Old
