import Intent.Old.LexerNumbers

/-!
# What `scan_number` takes to be a number

`LooseNumber` is a grammar of the texts that `scan_number` consumes to their end: digits and
underscores in any order, a `0` and a character that selects a base with anything of the kind behind
it, a radix or an exponent without digits, and no digits at all. `LooseNumber.info` is what is found
then.

A scan of `n.text` finds `n.info` (`scanBehindSign_text`), and whatever is consumed to its end is
such a text (`exists_looseNumber`).
-/

namespace Intent.Old

/-! ### The grammar -/

/-- Digits and underscores, in any order. -/
def IsRun (digit : UInt8 → Option ℕ) (w : Text) : Prop :=
  ∀ c ∈ w, (digit c).isSome = true ∨ c = ch '_'

/-- The bases that are selected by a character behind a `0`. -/
inductive LiteralBase where
  | hex | binary | octal
  deriving DecidableEq

namespace LiteralBase

/-- The base is selected by this character. -/
def Selects : LiteralBase → UInt8 → Prop
  | hex, c => c = ch 'x' ∨ c = ch 'X'
  | binary, c => c = ch 'b' ∨ c = ch 'B'
  | octal, c => ch '0' ≤ c ∧ c ≤ ch '7'

/-- The digits in this base. -/
def digit : LiteralBase → UInt8 → Option ℕ
  | hex => hexDigit
  | binary => digitBelow 2
  | octal => digitBelow 8

/-- The base as a number. -/
def base : LiteralBase → ℕ
  | hex => 16
  | binary => 2
  | octal => 8

/-- The format of a literal in this base. -/
def format : LiteralBase → NumericFormats
  | hex => .hex
  | binary => .binary
  | octal => .octal

end LiteralBase

/-- What is read behind an `e`. -/
structure LooseExponent where
  upper : Bool
  sign : Sign
  digits : Text
  run : IsRun (digitBelow 10) digits
  ne_nil : sign.text ++ digits ≠ []

namespace LooseExponent

/-- The characters of an exponent. -/
def text (e : LooseExponent) : Text :=
  (if e.upper then ch 'E' else ch 'e') :: (e.sign.text ++ e.digits)

/-- The power of ten, whose exponent has 64 bits. -/
def factor (e : LooseExponent) : ℚ :=
  powTen (decide (e.sign = .minus)) (UInt64.ofNat (numeral 10 (e.digits.filterMap (digitBelow 10))))

end LooseExponent

/-- The characters of an exponent, if there is one. -/
def exponentText (exponent : Option LooseExponent) : Text := exponent.elim [] LooseExponent.text

/-- The characters behind the whole part. -/
def looseRest (fraction : Option Text) (exponent : Option LooseExponent) : Text :=
  fraction.elim [] (ch '.' :: ·) ++ exponentText exponent

/-- A text that begins with a `0` and a character that selects a base, and goes on. -/
def HasBase (t : Text) : Prop :=
  t[0]? = some (ch '0') ∧ t[1]?.any selectsBase = true ∧ 2 < t.length

/-- A number behind its sign. -/
inductive LooseNumber where
  | based (b : LiteralBase) (c : UInt8) (digits : Text) (selects : b.Selects c)
      (ne_nil : digits ≠ []) (run : IsRun b.digit digits)
  | decimal (whole : Text) (fraction : Option Text) (exponent : Option LooseExponent)
      (whole_run : IsRun (digitBelow 10) whole)
      (fraction_run : ∀ f ∈ fraction, IsRun (digitBelow 10) f)
      (whole_ne_nil : fraction ≠ none → whole ≠ [])
      (not_hasBase : ¬ HasBase (whole ++ looseRest fraction exponent))

/-- The number that digits denote, in 64 bits. -/
def kept (base : ℕ) (digit : UInt8 → Option ℕ) (w : Text) : UInt64 :=
  UInt64.ofNat (numeral base (w.filterMap digit))

/-- What `finishScan` finds at this exponent. -/
def finishInfo (negative floatingPoint : Bool) (whole : UInt64) (significand : ℚ) :
    Option LooseExponent → NumberInfo
  | some e => ⟨.floatingPointOnly, .floatingPoint
      (if negative then significand * e.factor * -1 else significand * e.factor), negative⟩
  | none =>
    if floatingPoint then ⟨.floatingPointOnly, .floatingPoint significand, negative⟩
    else ⟨.decimal, .wholeNumber whole, negative⟩

namespace LooseNumber

/-- The characters of a number. -/
def text : LooseNumber → Text
  | based _ c digits _ _ _ => ch '0' :: c :: digits
  | decimal whole fraction exponent _ _ _ _ => whole ++ looseRest fraction exponent

/-- What is found. Without a radix, an exponent has nothing to scale. -/
def info (negative : Bool) : LooseNumber → NumberInfo
  | based b _ digits _ _ _ => ⟨b.format, .wholeNumber (kept b.base b.digit digits), negative⟩
  | decimal whole fraction exponent _ _ _ _ =>
    let n := kept 10 (digitBelow 10) whole
    finishInfo negative fraction.isSome n
      (fraction.elim 0 fun f => postRadix (f.filterMap (digitBelow 10)) + n.toNat) exponent

end LooseNumber

/-! ### The end of a scan -/

section Ends

variable {digit : UInt8 → Option ℕ} {t w rest : Text} {negative fp : Bool} {n : UInt64} {x : ℚ}
variable {exponent : Option LooseExponent}

theorem scanDigits_run (base : ℕ) (hw : IsRun digit w) (hrest : EndsDigits digit rest) :
    scanDigits base digit (w ++ rest) = (kept base digit w, w.length) := by
  obtain ⟨hn, hk⟩ := scanDigits_append base hw hrest
  refine Prod.ext (UInt64.toNat_inj.mp ?_) hk
  rw [hn, kept, UInt64.toNat_ofNat']

/-- A text begins with its longest run of digits. -/
theorem exists_digits (digit : UInt8 → Option ℕ) (t : Text) :
    ∃ w rest, t = w ++ rest ∧ IsRun digit w ∧ EndsDigits digit rest := by
  induction t with
  | nil => exact ⟨[], [], rfl, List.forall_mem_nil _, fun c hc => by cases hc⟩
  | cons c t ih =>
    by_cases hc : (digit c).isSome = true ∨ c = ch '_'
    · obtain ⟨w, rest, rfl, hw, hrest⟩ := ih
      exact ⟨c :: w, rest, rfl, List.forall_mem_cons.mpr ⟨hc, hw⟩, hrest⟩
    · refine ⟨[], c :: t, rfl, List.forall_mem_nil _, fun d hd => ?_⟩
      obtain rfl := Option.some.inj hd
      rw [not_or, Option.not_isSome_iff_eq_none] at hc
      exact hc

theorem endsDigits_nil (digit : UInt8 → Option ℕ) : EndsDigits digit [] := fun c hc => by cases hc

/-- A sign, and what is behind it. -/
theorem exists_sign (t : Text) : ∃ (sign : Sign) (s : Text), t = sign.text ++ s ∧
    (sign = .none → t[0]? ≠ some (ch '+') ∧ t[0]? ≠ some (ch '-')) := by
  by_cases hplus : t[0]? = some (ch '+')
  · rw [← List.head?_eq_getElem?] at hplus
    obtain ⟨s, rfl⟩ := List.head?_eq_some_iff.mp hplus
    exact ⟨.plus, s, rfl, fun h => by cases h⟩
  by_cases hminus : t[0]? = some (ch '-')
  · rw [← List.head?_eq_getElem?] at hminus
    obtain ⟨s, rfl⟩ := List.head?_eq_some_iff.mp hminus
    exact ⟨.minus, s, rfl, fun h => by cases h⟩
  · exact ⟨.none, t, rfl, fun _ => ⟨hplus, hminus⟩⟩

/-- The tests for a sign. -/
theorem sign_tests (sign : Sign) {s : Text} (hsign : sign = .none →
      (sign.text ++ s)[0]? ≠ some (ch '+') ∧ (sign.text ++ s)[0]? ≠ some (ch '-')) :
    ((sign.text ++ s)[0]? = some (ch '+') ↔ sign = .plus) ∧
      ((sign.text ++ s)[0]? = some (ch '-') ↔ sign = .minus) := by
  cases sign with
  | none => exact ⟨iff_of_false (hsign rfl).1 (by decide), iff_of_false (hsign rfl).2 (by decide)⟩
  | plus => exact ⟨iff_of_true rfl rfl, iff_of_false
      (fun h => absurd (Option.some.inj h) (by decide)) (by decide)⟩
  | minus => exact ⟨iff_of_false (fun h => absurd (Option.some.inj h) (by decide)) (by decide),
      iff_of_true rfl rfl⟩

/-- The number behind a character. -/
theorem scanDecimalNumber_sign (c : UInt8) (sign : Sign) {w : Text}
    (hw : IsRun (digitBelow 10) w) (hrest : EndsDigits (digitBelow 10) rest)
    (hsign : sign = .none → (sign.text ++ (w ++ rest))[0]? ≠ some (ch '+') ∧
      (sign.text ++ (w ++ rest))[0]? ≠ some (ch '-')) :
    scanDecimalNumber (c :: (sign.text ++ (w ++ rest))) 1 =
      (decide (sign = .minus), kept 10 (digitBelow 10) w,
        (c :: (sign.text ++ w)).length) := by
  obtain ⟨hplus, hminus⟩ := sign_tests sign hsign
  have hdrop : (c :: (sign.text ++ (w ++ rest))).drop (1 + sign.text.length) = w ++ rest := by
    rw [Nat.add_comm, List.drop_succ_cons, List.drop_left]
  simp only [scanDecimalNumber, List.getElem?_cons_succ, hplus, hminus, sign.length_text, hdrop,
    scanDecimalDigitsPreRadix, scanDigits_run 10 hw hrest]
  rw [List.length_cons, List.length_append]
  refine Prod.ext rfl (Prod.ext rfl ?_)
  dsimp only
  omega

/-- A run of digits does not begin with a sign. -/
theorem run_not_sign (hw : IsRun (digitBelow 10) w) :
    w[0]? ≠ some (ch '+') ∧ w[0]? ≠ some (ch '-') := by
  refine ⟨fun h => ?_, fun h => ?_⟩
  · exact absurd (hw _ (List.mem_of_getElem? h)) (by decide)
  · exact absurd (hw _ (List.mem_of_getElem? h)) (by decide)

/-- The end of a scan at an exponent, or at the end of the text. -/
theorem finishScan_text (negative fp : Bool) (n : UInt64) (x : ℚ)
    (exponent : Option LooseExponent) :
    finishScan (exponentText exponent) negative fp n x 0 =
      (finishInfo negative fp n x exponent, (exponentText exponent).length) := by
  cases exponent with
  | none =>
    cases fp with
    | false => rfl
    | true => rfl
  | some e =>
    have hscan := scanDecimalNumber_sign (if e.upper then ch 'E' else ch 'e') e.sign e.run
      (endsDigits_nil _) fun h => by
        rw [h, Sign.text, List.nil_append, List.append_nil]
        exact run_not_sign e.run
    rw [List.append_nil] at hscan
    have hexp : HasExponent (exponentText (some e)) 0 := by
      refine ⟨Nat.succ_lt_succ (List.length_pos_iff.mpr e.ne_nil), ?_⟩
      cases hupper : e.upper with
      | true => exact .inr (by simp [exponentText, LooseExponent.text, hupper])
      | false => exact .inl (by simp [exponentText, LooseExponent.text, hupper])
    unfold finishScan
    rw [if_pos hexp]
    change (_ : NumberInfo × ℕ) = _
    dsimp only [exponentText, Option.elim_some, LooseExponent.text] at hscan ⊢
    rw [Nat.zero_add, hscan]
    rfl

/-- A scan that ends at the end of the text is at an exponent, or there. -/
theorem exists_exponent (h : (finishScan t negative fp n x 0).2 = t.length) :
    ∃ exponent, t = exponentText exponent := by
  unfold finishScan at h
  by_cases hexp : HasExponent t 0
  · rw [if_pos hexp] at h
    obtain ⟨hlen, hmark⟩ := hexp
    obtain ⟨c, y, rfl⟩ := List.exists_cons_of_ne_nil (l := t) (List.length_pos_iff.mp (by omega))
    obtain ⟨sign, s, rfl, hsign⟩ := exists_sign y
    obtain ⟨w, rest, rfl, hw, hrest⟩ := exists_digits (digitBelow 10) s
    have hstop : (scanDecimalNumber (c :: (sign.text ++ (w ++ rest))) (0 + 1)).2.2 =
        (c :: (sign.text ++ (w ++ rest))).length := h
    rw [Nat.zero_add, scanDecimalNumber_sign c sign hw hrest hsign] at hstop
    have hnil : rest = [] := by
      simp only [List.length_cons, List.length_append] at hstop
      exact List.eq_nil_of_length_eq_zero (by omega)
    subst hnil
    rw [List.append_nil] at hlen hmark ⊢
    have hne : sign.text ++ w ≠ [] := by
      rw [List.length_cons] at hlen
      exact List.length_pos_iff.mp (by omega)
    rcases hmark with he | he
    · obtain rfl := Option.some.inj he
      exact ⟨some ⟨false, sign, w, hw, hne⟩, rfl⟩
    · obtain rfl := Option.some.inj he
      exact ⟨some ⟨true, sign, w, hw, hne⟩, rfl⟩
  · rw [if_neg hexp] at h
    refine ⟨none, List.eq_nil_of_length_eq_zero ?_⟩
    cases fp with
    | false => exact h.symm
    | true => exact h.symm

end Ends

/-! ### The beginning of a scan -/

section Begins

variable {t w f s rest : Text} {c : UInt8} {negative fp : Bool}

/-- `scanAnyNumber` behind the sign, on the rest of the text. -/
def scanBehindSign (t : Text) (negative : Bool) : NumberInfo × ℕ :=
  if t[0]? = some (ch '.') then scanDecimal t negative true 0
  else
    match if t[0]? = some (ch '0') then scanPrefixed t 0 else none with
    | some (format, n, stop) => (⟨format, .wholeNumber n, negative⟩, stop)
    | none => scanDecimal t negative false 0

theorem finishScan_drop (t : Text) (negative fp : Bool) (n : UInt64) (x : ℚ) (q p : ℕ) :
    finishScan t negative fp n x (q + p) =
      ((finishScan (t.drop q) negative fp n x p).1,
        q + (finishScan (t.drop q) negative fp n x p).2) := by
  have hlen : p + 1 < (t.drop q).length ↔ q + p + 1 < t.length := by
    rw [List.length_drop]
    omega
  simp only [finishScan, hlen, List.getElem?_drop]
  split_ifs
  · rw [Nat.add_assoc, scanDecimalNumber_drop]
  · rw [Nat.add_assoc, scanDecimalNumber_drop]
  · rfl
  · rfl

/-- A decimal number with a radix. -/
theorem scanDecimal_radix (negative : Bool) (hw : IsRun (digitBelow 10) w)
    (hf : IsRun (digitBelow 10) f) (hrest : EndsDigits (digitBelow 10) rest) :
    scanDecimal (w ++ ch '.' :: (f ++ rest)) negative false 0 =
      let n := kept 10 (digitBelow 10) w
      let r := finishScan rest negative true n (postRadix (f.filterMap (digitBelow 10)) + n.toNat) 0
      (r.1, (w ++ ch '.' :: f).length + r.2) := by
  have hdot : EndsDigits (digitBelow 10) (ch '.' :: (f ++ rest)) := by
    rintro _ ⟨⟩
    decide
  have hget : (w ++ ch '.' :: (f ++ rest))[0 + w.length]? = some (ch '.') := by
    rw [Nat.zero_add, List.getElem?_append_right le_rfl, Nat.sub_self, List.getElem?_cons_zero]
  have hfrac : (w ++ ch '.' :: (f ++ rest)).drop (0 + w.length + 1) = f ++ rest := by
    rw [Nat.zero_add, ← List.drop_drop, List.drop_left, List.drop_succ_cons, List.drop_zero]
  have hdrop : (w ++ ch '.' :: (f ++ rest)).drop (0 + w.length + 1 + f.length) = rest := by
    rw [← List.drop_drop, hfrac, List.drop_left]
  simp only [scanDecimal, Bool.false_eq_true, if_false, not_false_eq_true, true_and,
    scanDecimalDigitsPreRadix, List.drop_zero, scanDigits_run 10 hw hdot, hget, if_true, hfrac,
    scanDecimalDigitsPostRadix, digitRun_of_ends hf hrest]
  have hfinish := finishScan_drop (w ++ ch '.' :: (f ++ rest)) negative true
    (kept 10 (digitBelow 10) w) (postRadix (f.filterMap (digitBelow 10)) +
      (kept 10 (digitBelow 10) w).toNat) (0 + w.length + 1 + f.length) 0
  rw [hdrop, Nat.add_zero] at hfinish
  rw [hfinish, List.length_append, List.length_cons]
  refine Prod.ext rfl ?_
  dsimp only
  omega

/-- A decimal number without a radix. -/
theorem scanDecimal_whole (negative : Bool) (hw : IsRun (digitBelow 10) w)
    (hrest : EndsDigits (digitBelow 10) rest)
    (hdot : rest[0]? ≠ some (ch '.')) :
    scanDecimal (w ++ rest) negative false 0 =
      let r := finishScan rest negative false (kept 10 (digitBelow 10) w) 0 0
      (r.1, w.length + r.2) := by
  have hget : (w ++ rest)[0 + w.length]? = rest[0]? := by
    rw [Nat.zero_add, List.getElem?_append_right le_rfl, Nat.sub_self]
  simp only [scanDecimal, Bool.false_eq_true, if_false, not_false_eq_true, true_and,
    scanDecimalDigitsPreRadix, List.drop_zero, scanDigits_run 10 hw hrest, hget, hdot]
  have hfinish := finishScan_drop (w ++ rest) negative false
    (kept 10 (digitBelow 10) w) 0 w.length 0
  rw [List.drop_left, Nat.add_zero] at hfinish
  rw [Nat.zero_add, hfinish]

/-- A character selects a base. -/
theorem selectsBase_iff : selectsBase c = true ↔ ∃ b : LiteralBase, b.Selects c := by
  simp only [selectsBase, Bool.or_eq_true, beq_iff_eq, Bool.and_eq_true, decide_eq_true_eq]
  constructor
  · rintro ((((h | h) | h) | h) | h)
    · exact ⟨.hex, .inl h⟩
    · exact ⟨.hex, .inr h⟩
    · exact ⟨.binary, .inl h⟩
    · exact ⟨.binary, .inr h⟩
    · exact ⟨.octal, h⟩
  · rintro ⟨b, h⟩
    cases b with
    | hex => exact .inl (.inl (.inl h))
    | binary =>
      rcases h with h | h
      · exact .inl (.inl (.inr h))
      · exact .inl (.inr h)
    | octal => exact .inr h

/-- A base that is selected. -/
theorem scanPrefixed_selects (b : LiteralBase) (hc : b.Selects c) (hs : s ≠ []) :
    scanPrefixed (ch '0' :: c :: s) 0 =
      some (b.format, (scanDigits b.base b.digit s).1, 2 + (scanDigits b.base b.digit s).2) := by
  have hlen : 0 + 2 < (ch '0' :: c :: s).length := by
    have hpos := List.length_pos_iff.mpr hs
    simp only [List.length_cons]
    omega
  have hget : (ch '0' :: c :: s).getD (0 + 1) 0 = c := rfl
  rw [scanPrefixed, if_pos hlen]
  simp only [hget, Nat.zero_add, List.drop_succ_cons, List.drop_zero]
  cases b with
  | hex =>
    have hhex : c = ch 'x' ∨ c = ch 'X' := hc
    rw [if_pos hhex]
    rfl
  | binary =>
    have hbin : c = ch 'b' ∨ c = ch 'B' := hc
    have hhex : ¬ (c = ch 'x' ∨ c = ch 'X') := by
      rcases hbin with rfl | rfl
      · decide
      · decide
    rw [if_neg hhex, if_pos hbin]
    rfl
  | octal =>
    have hoctal : ch '0' ≤ c ∧ c ≤ ch '7' := hc
    obtain ⟨hhex, hbin⟩ := octalDigit_not_base hoctal
    rw [if_neg hhex, if_neg hbin, if_pos hoctal]
    rfl

/-- Without a base there is none. -/
theorem scanPrefixed_eq_none (h : 2 < s.length → s[1]?.any selectsBase = false) :
    scanPrefixed s 0 = none := by
  -- the two scanners take the same branch
  rcases getPrefixedNumber_aligned s 0 false with ⟨format, n, stop, type, -, hget, -⟩ | ⟨hnone, -⟩
  · rw [getPrefixedNumber_eq_none h] at hget
    cases hget
  · exact hnone

/-- The scan of a text without a base. -/
theorem scanBehindSign_decimal (hdot : t[0]? ≠ some (ch '.')) (hbase : ¬ HasBase t) :
    scanBehindSign t negative = scanDecimal t negative false 0 := by
  rw [scanBehindSign, if_neg hdot]
  have hnone : (if t[0]? = some (ch '0') then scanPrefixed t 0 else none) = none := by
    split_ifs with hzero
    · refine scanPrefixed_eq_none fun hlen => ?_
      by_contra hsel
      exact hbase ⟨hzero, by simpa using hsel, hlen⟩
    · rfl
  rw [hnone]

/-- The scan of a text with a base. -/
theorem scanBehindSign_based (b : LiteralBase) (hc : b.Selects c) (hs : s ≠ []) :
    scanBehindSign (ch '0' :: c :: s) negative =
      (⟨b.format, .wholeNumber (scanDigits b.base b.digit s).1, negative⟩,
        2 + (scanDigits b.base b.digit s).2) := by
  have hdot : (ch '0' :: c :: s)[0]? ≠ some (ch '.') := by
    rw [List.getElem?_cons_zero]
    decide
  rw [scanBehindSign, if_neg hdot, if_pos List.getElem?_cons_zero, scanPrefixed_selects b hc hs]

/-- A radix in front is not consumed. -/
theorem scanBehindSign_radix (h : t[0]? = some (ch '.')) : (scanBehindSign t negative).2 = 0 := by
  have hexp : ¬ (some (ch '.') = some (ch 'e') ∨ some (ch '.') = some (ch 'E')) := by decide
  simp only [scanBehindSign, h, if_true, scanDecimal, finishScan, Nat.add_zero, not_true_eq_false,
    false_and, if_false, hexp, and_false]

theorem exponentText_first (exponent : Option LooseExponent) :
    ∀ c ∈ (exponentText exponent).head?, c = ch 'e' ∨ c = ch 'E' := by
  cases exponent with
  | none => exact fun c hc => by cases hc
  | some e =>
    rintro _ ⟨⟩
    cases e.upper with
    | true => exact .inr rfl
    | false => exact .inl rfl

theorem exponentText_ends (exponent : Option LooseExponent) :
    EndsDigits (digitBelow 10) (exponentText exponent) := by
  intro c hc
  rcases exponentText_first exponent c hc with rfl | rfl
  · decide
  · decide

/-- A decimal number begins with a digit, an underscore or the mark of an exponent. -/
theorem looseDecimal_first {fraction : Option Text} (exponent : Option LooseExponent)
    (hw : IsRun (digitBelow 10) w) (hne : fraction ≠ none → w ≠ [])
    (hc : (w ++ looseRest fraction exponent)[0]? = some c) :
    ((digitBelow 10 c).isSome = true ∨ c = ch '_') ∨ c = ch 'e' ∨ c = ch 'E' := by
  cases w with
  | cons d w =>
    obtain rfl := Option.some.inj hc
    exact .inl (hw _ List.mem_cons_self)
  | nil =>
    cases fraction with
    | some f => exact absurd rfl (hne fun h => by cases h)
    | none =>
      rw [← List.head?_eq_getElem?] at hc
      exact .inr (exponentText_first exponent _ hc)

/-- **What is found.** A number of the grammar is consumed to its end. -/
theorem scanBehindSign_text (n : LooseNumber) (negative : Bool) :
    scanBehindSign n.text negative = (n.info negative, n.text.length) := by
  cases n with
  | based b c digits hc hne hrun =>
    have hscan := scanDigits_run b.base hrun (endsDigits_nil b.digit)
    rw [List.append_nil] at hscan
    rw [LooseNumber.text, scanBehindSign_based b hc hne, hscan, List.length_cons, List.length_cons,
      Nat.add_comm]
    rfl
  | decimal whole fraction exponent hwhole hfraction hne hbase =>
    have hradix : (whole ++ looseRest fraction exponent)[0]? ≠ some (ch '.') := fun hdot =>
      absurd (looseDecimal_first exponent hwhole hne hdot) (by decide)
    rw [LooseNumber.text, scanBehindSign_decimal hradix hbase]
    cases fraction with
    | some f =>
      have hscan := scanDecimal_radix negative hwhole (hfraction f rfl)
        (exponentText_ends exponent)
      simp only [finishScan_text] at hscan
      refine hscan.trans (Prod.ext rfl ?_)
      simp only [looseRest, Option.elim_some, List.length_append, List.length_cons]
      omega
    | none =>
      have hdot : (exponentText exponent)[0]? ≠ some (ch '.') := fun hdot => by
        rw [← List.head?_eq_getElem?] at hdot
        exact absurd (exponentText_first exponent _ hdot) (by decide)
      have hscan := scanDecimal_whole negative hwhole (exponentText_ends exponent)
        hdot
      simp only [finishScan_text] at hscan
      refine hscan.trans (Prod.ext rfl ?_)
      simp only [looseRest, Option.elim_none, List.nil_append, List.length_append]

/-- **Nothing else** is consumed to its end. -/
theorem exists_looseNumber (h : (scanBehindSign t negative).2 = t.length) :
    ∃ n : LooseNumber, n.text = t := by
  by_cases hdot : t[0]? = some (ch '.')
  · -- nothing is consumed, and there is a character
    rw [scanBehindSign_radix hdot] at h
    rw [List.eq_nil_of_length_eq_zero h.symm] at hdot
    cases hdot
  by_cases hbase : HasBase t
  · obtain ⟨hzero, hsel, hlen⟩ := hbase
    obtain ⟨z, c, s, rfl⟩ : ∃ z c s, t = z :: c :: s := by
      match t, hlen with
      | z :: c :: s, _ => exact ⟨z, c, s, rfl⟩
    obtain rfl := Option.some.inj hzero
    obtain ⟨b, hb⟩ := selectsBase_iff.mp hsel
    have hs : s ≠ [] := by
      simp only [List.length_cons] at hlen
      exact List.length_pos_iff.mp (by omega)
    -- the digits of the base have to be the rest of the text
    obtain ⟨w, rest, rfl, hw, hrest⟩ := exists_digits b.digit s
    rw [scanBehindSign_based b hb hs, scanDigits_run b.base hw hrest] at h
    have hnil : rest = [] := by
      simp only [List.length_cons, List.length_append] at h
      exact List.eq_nil_of_length_eq_zero (by omega)
    subst hnil
    rw [List.append_nil] at hs ⊢
    exact ⟨.based b c w hb hs hw, rfl⟩
  · rw [scanBehindSign_decimal hdot hbase] at h
    obtain ⟨w, rest, rfl, hw, hrest⟩ := exists_digits (digitBelow 10) t
    by_cases hradix : rest[0]? = some (ch '.')
    · -- digits, the radix and more digits: what is left is the exponent
      rw [← List.head?_eq_getElem?] at hradix
      obtain ⟨u, rfl⟩ := List.head?_eq_some_iff.mp hradix
      obtain ⟨f, rest, rfl, hf, hrest⟩ := exists_digits (digitBelow 10) u
      rw [scanDecimal_radix _ hw hf hrest] at h
      have hlen : (finishScan rest negative true (kept 10 (digitBelow 10) w)
          (postRadix (f.filterMap (digitBelow 10)) + (kept 10 (digitBelow 10) w).toNat) 0).2 =
          rest.length := by
        simp only [List.length_append, List.length_cons] at h
        omega
      obtain ⟨exponent, rfl⟩ := exists_exponent hlen
      refine ⟨.decimal w (some f) exponent hw (fun g hg => ?_) (fun _ hnil => ?_) hbase, rfl⟩
      · obtain rfl := Option.some.inj hg
        exact hf
      · rw [hnil] at hdot
        exact hdot rfl
    · rw [scanDecimal_whole _ hw hrest hradix] at h
      have hlen : (finishScan rest negative false (kept 10 (digitBelow 10) w) 0 0).2 =
          rest.length := by
        simp only [List.length_append] at h
        omega
      obtain ⟨exponent, rfl⟩ := exists_exponent hlen
      exact ⟨.decimal w none exponent hw (fun g hg => by cases hg) (fun h => absurd rfl h) hbase,
        rfl⟩

end Begins

/-! ### The sign -/

section Signs

variable {s t : Text} {negative fp : Bool} {sign : Sign}

theorem scanPrefixed_drop (q : ℕ) :
    scanPrefixed t q = (scanPrefixed (t.drop q) 0).map fun r => (r.1, r.2.1, q + r.2.2) := by
  have hlen : 0 + 2 < (t.drop q).length ↔ q + 2 < t.length := by
    rw [List.length_drop]
    omega
  have hget : (t.drop q).getD (0 + 1) 0 = t.getD (q + 1) 0 := by
    rw [List.getD_eq_getElem?_getD, List.getD_eq_getElem?_getD, List.getElem?_drop]
  simp only [scanPrefixed, hlen, hget, List.drop_drop]
  split_ifs <;> simp only [Option.map_some, Option.map_none, Nat.zero_add, Nat.add_assoc]

theorem scanDecimal_drop (fp : Bool) (q : ℕ) :
    scanDecimal t negative fp q =
      ((scanDecimal (t.drop q) negative fp 0).1, q + (scanDecimal (t.drop q) negative fp 0).2) := by
  simp only [scanDecimal, List.getElem?_drop, List.drop_drop, Nat.zero_add, Nat.add_zero,
    Nat.add_assoc]
  split_ifs
  all_goals exact finishScan_drop _ _ _ _ _ q _

/-- The byte at an address of a C string. -/
theorem cString_byte_eq_iff {p : ℕ} {c : UInt8} (hc : c ≠ 0) :
    (⟨s, fun _ => 0⟩ : View).byte p = c ↔ s[p]? = some c := by
  rw [View.byte]
  cases hget : s[p]? with
  | none => exact iff_of_false hc.symm fun h => by cases h
  | some d => exact ⟨congrArg some, Option.some.inj⟩

/-- **The scan of a C string.** -/
theorem scanAnyNumber_sign (hsign : sign = .none →
      (sign.text ++ t)[0]? ≠ some (ch '+') ∧ (sign.text ++ t)[0]? ≠ some (ch '-')) :
    scanAnyNumber ⟨sign.text ++ t, fun _ => 0⟩ 0 =
      ((scanBehindSign t (decide (sign = .minus))).1,
        sign.text.length + (scanBehindSign t (decide (sign = .minus))).2) := by
  obtain ⟨hplus, hminus⟩ := sign_tests sign hsign
  have hget : (sign.text ++ t)[sign.text.length]? = t[0]? := by
    rw [List.getElem?_append_right le_rfl, Nat.sub_self]
  have hdrop : (sign.text ++ t).drop sign.text.length = t := List.drop_left
  have hlen : (if sign = .plus ∨ sign = .minus then 0 + 1 else 0) = sign.text.length :=
    sign.length_text.trans (Nat.zero_add _)
  simp only [scanAnyNumber, cString_byte_eq_iff (show ch '-' ≠ 0 by decide),
    cString_byte_eq_iff (show ch '+' ≠ 0 by decide), hplus, hminus, hlen,
    cString_byte_eq_iff (show ch '.' ≠ 0 by decide),
    cString_byte_eq_iff (show ch '0' ≠ 0 by decide), hget, scanBehindSign]
  rw [scanPrefixed_drop, scanDecimal_drop true, scanDecimal_drop false, hdrop]
  split_ifs
  · rfl
  · cases scanPrefixed t 0 with
    | none => rfl
    | some r => rfl
  · rfl

/-- A number does not begin with a sign. -/
theorem LooseNumber.not_sign (n : LooseNumber) :
    n.text[0]? ≠ some (ch '+') ∧ n.text[0]? ≠ some (ch '-') := by
  cases n with
  | based b c digits hc hne hrun =>
    exact ⟨fun h => absurd (Option.some.inj h : ch '0' = ch '+') (by decide),
      fun h => absurd (Option.some.inj h : ch '0' = ch '-') (by decide)⟩
  | decimal whole fraction exponent hwhole hfraction hne hbase =>
    exact ⟨fun h => absurd (looseDecimal_first exponent hwhole hne h) (by decide),
      fun h => absurd (looseDecimal_first exponent hwhole hne h) (by decide)⟩

/-- **What `scan_number` finds.** -/
theorem scanAnyNumber_text (sign : Sign) (n : LooseNumber) :
    scanAnyNumber ⟨sign.text ++ n.text, fun _ => 0⟩ 0 =
      (n.info (decide (sign = .minus)), (sign.text ++ n.text).length) := by
  rw [scanAnyNumber_sign fun h => by rw [h]; exact n.not_sign, scanBehindSign_text,
    List.length_append]

/-- **What `scan_number` takes to be a number.** -/
theorem exists_looseNumber_of_stop (h : (scanAnyNumber ⟨s, fun _ => 0⟩ 0).2 = s.length) :
    ∃ (sign : Sign) (n : LooseNumber), s = sign.text ++ n.text := by
  obtain ⟨sign, t, rfl, hsign⟩ := exists_sign s
  rw [scanAnyNumber_sign hsign, List.length_append] at h
  obtain ⟨n, rfl⟩ := exists_looseNumber (Nat.add_left_cancel h)
  exact ⟨sign, n, rfl⟩

end Signs

end Intent.Old
