import Intent.Old.NumericLiteral

/-!
# The scanners of digits

The four loops of `core/text/scan_numbers.cpp` that read the digits of a whole number, as they are
written: each with its own tests of a character, and `n` computed along the way. They have in
common what a character does to `n` (`DigitStep.Reads`), and so they are the scanners in whose terms
the lexer and `scan_number` are described (`scanLoop_eq`).

`digit_scanners_read` says where they stop and what `n` is then.
-/

namespace Intent.Old

/-! ### The loops -/

/-- What a character does to `n`; `none` where the scan stops in front of it. -/
abbrev DigitStep := UInt64 → UInt8 → Option UInt64

/-- The loop: `n` at its end, and how many characters it took. -/
def scanLoop (step : DigitStep) : UInt64 → Text → UInt64 × ℕ
  | n, [] => (n, 0)
  | n, c :: cs =>
    match step n c with
    | none => (n, 0)
    | some n' => ((scanLoop step n' cs).1, (scanLoop step n' cs).2 + 1)

namespace DigitLoops

/-- The loop body of `scan_hex_digits`. -/
def hexStep : DigitStep := fun n c =>
  if ch '0' ≤ c ∧ c ≤ ch '9' then some (n * 16 + (c - ch '0').toUInt64)
  else if ch 'a' ≤ c ∧ c ≤ ch 'f' then some (n * 16 + 10 + (c - ch 'a').toUInt64)
  else if ch 'A' ≤ c ∧ c ≤ ch 'F' then some (n * 16 + 10 + (c - ch 'A').toUInt64)
  else if c ≠ ch '_' then none
  else some n

/-- The loop body of `scan_binary_digits`. -/
def binaryStep : DigitStep := fun n c =>
  if c = ch '0' then some (n <<< 1)
  else if c = ch '1' then some (n <<< 1 ||| 1)
  else if c ≠ ch '_' then none
  else some n

/-- The loop body of `scan_octal_digits`. -/
def octalStep : DigitStep := fun n c =>
  if ch '0' ≤ c ∧ c ≤ ch '7' then some (n * 8 + (c - ch '0').toUInt64)
  else if c ≠ ch '_' then none
  else some n

/-- The loop body of `scan_decimal_digits_pre_radix`. -/
def decimalStep : DigitStep := fun n c =>
  if ch '0' ≤ c ∧ c ≤ ch '9' then some (n * 10 + (c - ch '0').toUInt64)
  else if c ≠ ch '_' then none
  else some n

/-- `scan_hex_digits`, on the bytes from `p` to `end`. -/
def scanHexDigits (s : Text) : UInt64 × ℕ := scanLoop hexStep 0 s

/-- `scan_binary_digits`. -/
def scanBinaryDigits (s : Text) : UInt64 × ℕ := scanLoop binaryStep 0 s

/-- `scan_octal_digits`. -/
def scanOctalDigits (s : Text) : UInt64 × ℕ := scanLoop octalStep 0 s

/-- `scan_decimal_digits_pre_radix`. -/
def scanDecimalDigitsPreRadix (s : Text) : UInt64 × ℕ := scanLoop decimalStep 0 s

end DigitLoops

/-! ### One character -/

/-- A loop body that reads digits of a base: a digit goes behind those in `n`, an underscore is
skipped, and the scan stops at anything else. -/
def DigitStep.Reads (step : DigitStep) (base : ℕ) (digit : UInt8 → Option ℕ) : Prop :=
  ∀ n c, step n c =
    match digit c with
    | some d => some (n * UInt64.ofNat base + UInt64.ofNat d)
    | none => if c = ch '_' then some n else none

section Steps

variable {base : ℕ} {digit : UInt8 → Option ℕ} {step : DigitStep} {c : UInt8} {n : UInt64}

theorem toUInt64_sub {a : UInt8} (h : a ≤ c) :
    (c - a).toUInt64 = UInt64.ofNat (c.toNat - a.toNat) := by
  rw [← UInt64.toNat_inj, UInt8.toNat_toUInt64, UInt8.toNat_sub_of_le _ _ h, UInt64.toNat_ofNat']
  have hc := c.toNat_lt
  exact (Nat.mod_eq_of_lt (by omega)).symm

theorem isdigit_eq_true_iff : isdigit c = true ↔ ch '0' ≤ c ∧ c ≤ ch '9' := by
  rw [isdigit, Bool.and_eq_true, decide_eq_true_eq, decide_eq_true_eq]

/-- A loop body with one range of digits, which begins at `0`. -/
theorem reads_of_range (last : UInt8) (hlast : last.toNat = 47 + base) (hle : base ≤ 10)
    (hstep : ∀ n c, step n c =
      if ch '0' ≤ c ∧ c ≤ last then some (n * UInt64.ofNat base + (c - ch '0').toUInt64)
      else if c ≠ ch '_' then none else some n) :
    step.Reads base (digitBelow base) := by
  intro n c
  have hzero : (ch '0').toNat = 48 := rfl
  have hnine : (ch '9').toNat = 57 := rfl
  have hrange : (isdigit c = true ∧ c.toNat - (ch '0').toNat < base) ↔ ch '0' ≤ c ∧ c ≤ last := by
    rw [isdigit_eq_true_iff, UInt8.le_iff_toNat_le, UInt8.le_iff_toNat_le, UInt8.le_iff_toNat_le]
    omega
  rw [hstep, digitBelow]
  by_cases hc : ch '0' ≤ c ∧ c ≤ last
  · rw [if_pos hc, if_pos (hrange.mpr hc), toUInt64_sub hc.1]
  · rw [if_neg hc, if_neg (mt hrange.mp hc), ite_not]

theorem hexStep_reads : DigitLoops.hexStep.Reads 16 hexDigit := by
  intro n c
  rw [DigitLoops.hexStep, hexDigit]
  have hletter : ∀ k, n * 16 + 10 + UInt64.ofNat k = n * UInt64.ofNat 16 + UInt64.ofNat (10 + k) :=
    fun k => by
      rw [UInt64.ofNat_add, ← UInt64.add_assoc]
      rfl
  by_cases hdigit : ch '0' ≤ c ∧ c ≤ ch '9'
  · rw [if_pos hdigit, if_pos (isdigit_eq_true_iff.mpr hdigit), toUInt64_sub hdigit.1]
    rfl
  rw [if_neg hdigit, if_neg (mt isdigit_eq_true_iff.mp hdigit)]
  by_cases hlower : ch 'a' ≤ c ∧ c ≤ ch 'f'
  · rw [if_pos hlower, if_pos hlower, toUInt64_sub hlower.1, hletter]
  rw [if_neg hlower, if_neg hlower]
  by_cases hupper : ch 'A' ≤ c ∧ c ≤ ch 'F'
  · rw [if_pos hupper, if_pos hupper, toUInt64_sub hupper.1, hletter]
  rw [if_neg hupper, if_neg hupper, ite_not]

theorem shiftLeft_one (n : UInt64) : n <<< 1 = n * 2 := by
  rw [← UInt64.toNat_inj, UInt64.toNat_shiftLeft, UInt64.toNat_mul]
  exact congrArg (· % 2 ^ 64) (Nat.shiftLeft_eq _ _)

/-- The last bit of a doubled number is free. -/
theorem shiftLeft_one_or_one (n : UInt64) : n <<< 1 ||| 1 = n * 2 + 1 := by
  rw [shiftLeft_one, ← UInt64.toNat_inj, UInt64.toNat_or, UInt64.toNat_add, UInt64.toNat_mul]
  have htwo : (2 : UInt64).toNat = 2 := rfl
  have hone : (1 : UInt64).toNat = 1 := rfl
  rw [htwo, hone]
  obtain ⟨k, hk⟩ : ∃ k, n.toNat * 2 % 2 ^ 64 = k <<< 1 :=
    ⟨n.toNat * 2 % 2 ^ 64 / 2, by rw [Nat.shiftLeft_eq]; omega⟩
  rw [hk, ← Nat.shiftLeft_add_eq_or_of_lt (by decide), ← hk]
  omega

theorem binaryStep_reads : DigitLoops.binaryStep.Reads 2 (digitBelow 2) := by
  refine reads_of_range (ch '1') rfl (by decide) fun n c => ?_
  have hzero : (ch '0').toNat = 48 := rfl
  have hone : (ch '1').toNat = 49 := rfl
  have hiff : ch '0' ≤ c ∧ c ≤ ch '1' ↔ c = ch '0' ∨ c = ch '1' := by
    rw [UInt8.le_iff_toNat_le, UInt8.le_iff_toNat_le, ← UInt8.toNat_inj, ← UInt8.toNat_inj]
    omega
  rw [DigitLoops.binaryStep]
  by_cases h0 : c = ch '0'
  · rw [if_pos h0, if_pos (hiff.mpr (.inl h0)), h0, shiftLeft_one]
    exact congrArg some (UInt64.add_zero _).symm
  rw [if_neg h0]
  by_cases h1 : c = ch '1'
  · rw [if_pos h1, if_pos (hiff.mpr (.inr h1)), h1, shiftLeft_one_or_one]
    rfl
  · rw [if_neg h1, if_neg (mt hiff.mp (not_or.mpr ⟨h0, h1⟩))]

theorem octalStep_reads : DigitLoops.octalStep.Reads 8 (digitBelow 8) :=
  reads_of_range (ch '7') rfl (by decide) fun _ _ => rfl

theorem decimalStep_reads : DigitLoops.decimalStep.Reads 10 (digitBelow 10) :=
  reads_of_range (ch '9') rfl (by decide) fun _ _ => rfl

/-! ### A whole run -/

/-- **The loop** is the reading of a run of digits, and of its number from `n` on. -/
theorem scanLoop_eq (h : step.Reads base digit) (n : UInt64) (s : Text) :
    scanLoop step n s =
      ((digitRun digit s).1.foldl (fun n d => n * UInt64.ofNat base + UInt64.ofNat d) n,
        (digitRun digit s).2) := by
  induction s generalizing n with
  | nil => rfl
  | cons c cs ih =>
    rw [scanLoop, h n c]
    cases hc : digit c with
    | some d =>
      simp only [digitRun, hc, ih, List.foldl_cons]
    | none =>
      by_cases hunder : c = ch '_'
      · simp only [digitRun, hc, if_pos hunder, ih]
      · simp only [digitRun, hc, if_neg hunder]
        rfl

/-- The four loops are the scanners of the other modules. -/
theorem scanLoop_eq_scanDigits (h : step.Reads base digit) (s : Text) :
    scanLoop step 0 s = scanDigits base digit s := scanLoop_eq h 0 s

theorem scanHexDigits_eq (s : Text) : DigitLoops.scanHexDigits s = scanHexDigits s :=
  scanLoop_eq_scanDigits hexStep_reads s

theorem scanBinaryDigits_eq (s : Text) : DigitLoops.scanBinaryDigits s = scanBinaryDigits s :=
  scanLoop_eq_scanDigits binaryStep_reads s

theorem scanOctalDigits_eq (s : Text) : DigitLoops.scanOctalDigits s = scanOctalDigits s :=
  scanLoop_eq_scanDigits octalStep_reads s

theorem scanDecimalDigitsPreRadix_eq (s : Text) :
    DigitLoops.scanDecimalDigitsPreRadix s = scanDecimalDigitsPreRadix s :=
  scanLoop_eq_scanDigits decimalStep_reads s

end Steps

/-! ### Where a scanner stops, and with what -/

/-- The first `k` characters are the longest beginning of `s` that has only digits and
underscores. -/
structure LongestRun (digit : UInt8 → Option ℕ) (s : Text) (k : ℕ) : Prop where
  le : k ≤ s.length
  all : ∀ c ∈ s.take k, (digit c).isSome = true ∨ c = ch '_'
  longest : ∀ j ≤ s.length, (∀ c ∈ s.take j, (digit c).isSome = true ∨ c = ch '_') → j ≤ k

/-- A scanner of the digits of a base. -/
def ReadsDigits (scan : Text → UInt64 × ℕ) (base : ℕ) (digit : UInt8 → Option ℕ) : Prop :=
  ∀ s, LongestRun digit s (scan s).2 ∧
    (scan s).1.toNat = numeral base ((s.take (scan s).2).filterMap digit) % 2 ^ 64

/-- A run of digits is the longest one, and its digits are those of its characters. -/
theorem digitRun_spec (digit : UInt8 → Option ℕ) (s : Text) :
    LongestRun digit s (digitRun digit s).2 ∧
      (digitRun digit s).1 = (s.take (digitRun digit s).2).filterMap digit := by
  induction s with
  | nil => exact ⟨⟨le_rfl, by simp [digitRun], fun j hj _ => hj⟩, rfl⟩
  | cons c cs ih =>
    obtain ⟨⟨hle, hall, hlongest⟩, hdigits⟩ := ih
    -- a character of the run, in front of the run behind it
    have hcons : ((digit c).isSome = true ∨ c = ch '_') →
        LongestRun digit (c :: cs) ((digitRun digit cs).2 + 1) := fun hc => by
      refine ⟨Nat.succ_le_succ hle, ?_, fun j hj hrun => ?_⟩
      · rw [List.take_succ_cons, List.forall_mem_cons]
        exact ⟨hc, hall⟩
      · cases j with
        | zero => exact Nat.zero_le _
        | succ j =>
          rw [List.take_succ_cons, List.forall_mem_cons] at hrun
          exact Nat.succ_le_succ (hlongest j (Nat.le_of_succ_le_succ hj) hrun.2)
    cases hc : digit c with
    | some d =>
      simp only [digitRun, hc]
      refine ⟨hcons (.inl (by rw [hc]; rfl)), ?_⟩
      rw [List.take_succ_cons, List.filterMap_cons_some hc, ← hdigits]
    | none =>
      by_cases hunder : c = ch '_'
      · simp only [digitRun, hc, if_pos hunder]
        refine ⟨hcons (.inr hunder), ?_⟩
        rw [List.take_succ_cons, List.filterMap_cons_none hc, ← hdigits]
      · simp only [digitRun, hc, if_neg hunder]
        refine ⟨⟨Nat.zero_le _, by simp, fun j _ hrun => ?_⟩, rfl⟩
        cases j with
        | zero => exact le_rfl
        | succ j =>
          rw [List.take_succ_cons, List.forall_mem_cons, hc] at hrun
          exact absurd (hrun.1.resolve_left Bool.false_ne_true) hunder

/-- A loop with such a body. -/
theorem scanLoop_readsDigits {step : DigitStep} {base : ℕ} {digit : UInt8 → Option ℕ}
    (h : step.Reads base digit) : ReadsDigits (scanLoop step 0) base digit := by
  intro s
  obtain ⟨hrun, hdigits⟩ := digitRun_spec digit s
  rw [scanLoop_eq_scanDigits h, toNat_scanDigits, hdigits, scanDigits]
  exact ⟨hrun, rfl⟩

/-- **The digit scanners** stop behind the longest run of digits of their base and underscores, with
the number that the digits denote in 64 bits. -/
theorem digit_scanners_read :
    ReadsDigits DigitLoops.scanHexDigits 16 hexDigit ∧
      ReadsDigits DigitLoops.scanBinaryDigits 2 (digitBelow 2) ∧
      ReadsDigits DigitLoops.scanOctalDigits 8 (digitBelow 8) ∧
      ReadsDigits DigitLoops.scanDecimalDigitsPreRadix 10 (digitBelow 10) :=
  ⟨scanLoop_readsDigits hexStep_reads, scanLoop_readsDigits binaryStep_reads,
    scanLoop_readsDigits octalStep_reads, scanLoop_readsDigits decimalStep_reads⟩

end Intent.Old
