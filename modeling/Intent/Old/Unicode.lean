import Mathlib.Tactic.Common
import Mathlib.Data.UInt

/-!
# UTF-8 in `core/text/unicode.cpp`

A NUL-terminated string is the list of its bytes before the terminator; a byte read past them
is the terminator, `0`. No function here reads beyond it, because `0` is neither a lead byte
nor a continuation byte. `getCodepointFromUtf8` returns the codepoint with the distance to the
next one.

`is_well_formed_utf8` takes a replacement character for an error only when the decoder moved
by a single byte. A sequence of three or four bytes that breaks off after its first
continuation byte moves the decoder by two or three bytes, and passes: `LooseUtf8` is the
language that is accepted, and `isWellFormedUtf8_exact_iff` says that the answer is right
except on the strings that hold such a `BrokenOff` sequence and nothing worse.
-/

namespace Intent.Old

/-! ### The decoder -/

/-- The byte at offset `k` of a NUL-terminated string. -/
def byteAt (txt : List UInt8) (k : ℕ) : UInt8 := txt.getD k 0

/-- `MAX_UNICODE_CHAR`. -/
def maxUnicodeChar : ℕ := 0x10FFFF

/-- `UNICODE_REPLACEMENT_CHAR`. -/
def unicodeReplacementChar : ℕ := 0xFFFD

/-- `is_utf8_continuation_byte`. -/
def isUtf8ContinuationByte (c : UInt8) : Bool := c &&& 0xC0 == 0x80

/-- `predict_length_of_codepoint_from_lead_byte`. -/
def predictLengthOfCodepointFromLeadByte (c : UInt8) : ℕ :=
  if c < 0x80 then if c ≠ 0 then 1 else 0
  else if c &&& 0xE0 = 0xC0 then if c ≥ 0xC2 then 2 else 0
  else if c &&& 0xF0 = 0xE0 then 3
  else if c &&& 0xF0 = 0xF0 ∧ c ≤ 0xF4 then 4
  else 0

/-- `proper_length_of_codepoint`. -/
def properLengthOfCodepoint (cp : ℕ) : ℕ :=
  if cp ≤ 0x7F then 1 else if cp ≤ 0x7FF then 2 else if cp ≤ 0xFFFF then 3 else 4

/-- `is_surrogate`. -/
def isSurrogate (cp : ℕ) : Bool := decide (0xD800 ≤ cp ∧ cp ≤ 0xDFFF)

/-- The macro `or_continuation_byte`, on the byte at offset `k`: the codepoint with six more
bits, or the offset of a byte that is not a continuation byte. -/
def orContinuationByte (utf8 : List UInt8) (k cp : ℕ) : Except ℕ ℕ :=
  if isUtf8ContinuationByte (byteAt utf8 k) then
    .ok (cp <<< 6 ||| (byteAt utf8 k &&& 0x3F).toNat)
  else .error k

/-- What the decoder returns: a replacement character, and the offending byte as the next
one, after an error. -/
def decodedOrReplacement : Except ℕ (ℕ × ℕ) → ℕ × ℕ
  | .ok r => r
  | .error k => (unicodeReplacementChar, k)

/-- `get_codepoint_from_utf8`: the codepoint, and the distance to the next one. -/
def getCodepointFromUtf8 (utf8 : List UInt8) : ℕ × ℕ :=
  let c := byteAt utf8 0
  decodedOrReplacement <|
    match predictLengthOfCodepointFromLeadByte c with
    | 1 => pure (c.toNat, 1)
    | 2 => do
      let cp ← orContinuationByte utf8 1 (c &&& 0x1F).toNat
      pure (cp, 2)
    | 3 => do
      let cp ← orContinuationByte utf8 1 (c &&& 0x0F).toNat
      let cp ← orContinuationByte utf8 2 cp
      pure (cp, 3)
    | 4 => do
      let cp ← orContinuationByte utf8 1 (c &&& 0x07).toNat
      let cp ← orContinuationByte utf8 2 cp
      let cp ← orContinuationByte utf8 3 cp
      if cp > maxUnicodeChar then pure (unicodeReplacementChar, 4 - 3) else pure (cp, 4)
    | _ => pure (unicodeReplacementChar, 1)

/-- The tests of `is_well_formed_utf8` on a decoded codepoint: not a replacement character
after a single byte, not overlong, not a surrogate. -/
def acceptsCodepoint (cp byteCount : ℕ) : Bool :=
  !(cp == unicodeReplacementChar && byteCount == 1) &&
    !(decide (byteCount > 1) && decide (properLengthOfCodepoint cp < byteCount)) &&
    !isSurrogate cp

@[simp]
theorem decodedOrReplacement_bind (utf8 : List UInt8) (k cp : ℕ)
    (f : ℕ → Except ℕ (ℕ × ℕ)) :
    decodedOrReplacement (orContinuationByte utf8 k cp >>= f) =
      if isUtf8ContinuationByte (byteAt utf8 k) then
        decodedOrReplacement (f (cp <<< 6 ||| (byteAt utf8 k &&& 0x3F).toNat))
      else (unicodeReplacementChar, k) := by
  unfold orContinuationByte
  split_ifs <;> rfl

@[simp]
theorem decodedOrReplacement_pure (r : ℕ × ℕ) : decodedOrReplacement (pure r) = r := rfl

theorem getCodepointFromUtf8_pos (utf8 : List UInt8) : 0 < (getCodepointFromUtf8 utf8).2 := by
  unfold getCodepointFromUtf8
  dsimp only
  split
  · exact Nat.one_pos
  · simp only [decodedOrReplacement_bind, decodedOrReplacement_pure]
    split_ifs <;> exact Nat.succ_pos _
  · simp only [decodedOrReplacement_bind, decodedOrReplacement_pure]
    split_ifs <;> exact Nat.succ_pos _
  · simp only [decodedOrReplacement_bind]
    split_ifs <;> exact Nat.succ_pos _
  · exact Nat.one_pos

/-- The loop of `is_well_formed_utf8`. -/
def wellFormedLoop (txt : List UInt8) : Bool :=
  match txt with
  | [] => true
  | c :: cs =>
    if c = 0 then true
    else
      let r := getCodepointFromUtf8 (c :: cs)
      if acceptsCodepoint r.1 r.2 then wellFormedLoop ((c :: cs).drop r.2) else false
termination_by txt.length
decreasing_by
  have := getCodepointFromUtf8_pos (c :: cs)
  simp only [List.length_drop, List.length_cons]
  omega

/-- `is_well_formed_utf8`; `none` is the null pointer. -/
def isWellFormedUtf8 : Option (List UInt8) → Bool
  | none => false
  | some txt => wellFormedLoop txt

/-! ### Table 3-7 -/

/-- A byte in an interval. -/
def InRange (lo hi : ℕ) (c : UInt8) : Prop := lo ≤ c.toNat ∧ c.toNat ≤ hi

/-- A byte of `80..BF`. -/
abbrev Trail (c : UInt8) : Prop := InRange 0x80 0xBF c

/-- The rows of Table 3-7, without the NUL byte: the well-formed byte sequences. -/
inductive Utf8Sequence : List UInt8 → Prop where
  | ascii {a : UInt8} : InRange 0x01 0x7F a → Utf8Sequence [a]
  | two {a b : UInt8} : InRange 0xC2 0xDF a → Trail b → Utf8Sequence [a, b]
  | e0 {a b c : UInt8} : InRange 0xE0 0xE0 a → InRange 0xA0 0xBF b → Trail c →
      Utf8Sequence [a, b, c]
  | e1 {a b c : UInt8} : InRange 0xE1 0xEC a → Trail b → Trail c → Utf8Sequence [a, b, c]
  | ed {a b c : UInt8} : InRange 0xED 0xED a → InRange 0x80 0x9F b → Trail c →
      Utf8Sequence [a, b, c]
  | ee {a b c : UInt8} : InRange 0xEE 0xEF a → Trail b → Trail c → Utf8Sequence [a, b, c]
  | f0 {a b c d : UInt8} : InRange 0xF0 0xF0 a → InRange 0x90 0xBF b → Trail c → Trail d →
      Utf8Sequence [a, b, c, d]
  | f1 {a b c d : UInt8} : InRange 0xF1 0xF3 a → Trail b → Trail c → Trail d →
      Utf8Sequence [a, b, c, d]
  | f4 {a b c d : UInt8} : InRange 0xF4 0xF4 a → InRange 0x80 0x8F b → Trail c → Trail d →
      Utf8Sequence [a, b, c, d]

/-- A concatenation of well-formed sequences. -/
inductive WellFormedUtf8 : List UInt8 → Prop where
  | nil : WellFormedUtf8 []
  | append {s txt : List UInt8} : Utf8Sequence s → WellFormedUtf8 txt → WellFormedUtf8 (s ++ txt)

/-- A sequence that breaks off after its first continuation byte: a lead byte of three with
one of them, or a lead byte of four with one or two. -/
inductive BrokenOff : List UInt8 → Prop where
  | three {a b : UInt8} : InRange 0xE0 0xEF a → Trail b → BrokenOff [a, b]
  | four {a b : UInt8} : InRange 0xF0 0xF4 a → Trail b → BrokenOff [a, b]
  | four' {a b c : UInt8} : InRange 0xF0 0xF4 a → Trail b → Trail c → BrokenOff [a, b, c]

instance (lo hi : ℕ) (c : UInt8) : Decidable (InRange lo hi c) :=
  inferInstanceAs (Decidable (_ ∧ _))

/-- The accepted strings: well-formed and broken-off sequences in any order. The flag says
whether a sequence was broken off; what follows it is not a continuation byte. -/
inductive LooseUtf8 : Bool → List UInt8 → Prop where
  | nil : LooseUtf8 false []
  | append {f : Bool} {s txt : List UInt8} : Utf8Sequence s → LooseUtf8 f txt →
      LooseUtf8 f (s ++ txt)
  | broken {f : Bool} {s txt : List UInt8} : BrokenOff s → ¬ Trail (byteAt txt 0) →
      LooseUtf8 f txt → LooseUtf8 true (s ++ txt)

/-! ### What the decoder returns -/

section Decoder

variable {a b c : UInt8} {txt s : List UInt8} {f g : Bool}

/-- Bytes as the elements of a finite type, whose properties can be checked one by one. -/
private theorem exists_eq_ofFin (c : UInt8) : ∃ n : Fin 256, c = UInt8.ofFin n := ⟨c.toFin, rfl⟩

@[simp]
theorem isUtf8ContinuationByte_iff : isUtf8ContinuationByte c = true ↔ Trail c := by
  obtain ⟨n, rfl⟩ := exists_eq_ofFin c
  revert n
  decide +kernel

theorem predictLength_iff :
    (predictLengthOfCodepointFromLeadByte c = 1 ↔ InRange 0x01 0x7F c) ∧
    (predictLengthOfCodepointFromLeadByte c = 2 ↔ InRange 0xC2 0xDF c) ∧
    (predictLengthOfCodepointFromLeadByte c = 3 ↔ InRange 0xE0 0xEF c) ∧
    (predictLengthOfCodepointFromLeadByte c = 4 ↔ InRange 0xF0 0xF4 c) := by
  obtain ⟨n, rfl⟩ := exists_eq_ofFin c
  revert n
  decide +kernel

/-- The bits of a byte that the decoder keeps. -/
theorem masked_byte :
    (Trail c → (c &&& 0x3F).toNat = c.toNat - 0x80) ∧
    (InRange 0xC2 0xDF c → (c &&& 0x1F).toNat = c.toNat - 0xC0) ∧
    (InRange 0xE0 0xEF c → (c &&& 0x0F).toNat = c.toNat - 0xE0) ∧
    (InRange 0xF0 0xF4 c → (c &&& 0x07).toNat = c.toNat - 0xF0) := by
  obtain ⟨n, rfl⟩ := exists_eq_ofFin c
  revert n
  decide +kernel

/-- Six more bits of a codepoint. -/
theorem orContinuation_eq (h : Trail c) (cp : ℕ) :
    cp <<< 6 ||| (c &&& 0x3F).toNat = cp * 64 + (c.toNat - 0x80) := by
  have hlt : c.toNat - 0x80 < 2 ^ 6 := by
    have := h.2
    omega
  rw [masked_byte.1 h, ← Nat.shiftLeft_add_eq_or_of_lt hlt, Nat.shiftLeft_eq]

@[simp] theorem byteAt_cons_zero : byteAt (a :: txt) 0 = a := rfl

@[simp] theorem byteAt_cons_succ (k : ℕ) : byteAt (a :: txt) (k + 1) = byteAt txt k := rfl

theorem getCodepoint_one (ha : InRange 0x01 0x7F a) :
    getCodepointFromUtf8 (a :: txt) = (a.toNat, 1) := by
  simp only [getCodepointFromUtf8, byteAt_cons_zero, predictLength_iff.1.mpr ha,
    decodedOrReplacement_pure]

theorem getCodepoint_two (ha : InRange 0xC2 0xDF a) : getCodepointFromUtf8 (a :: txt) =
    if Trail (byteAt txt 0) then ((a.toNat - 0xC0) * 64 + ((byteAt txt 0).toNat - 0x80), 2)
    else (unicodeReplacementChar, 1) := by
  simp only [getCodepointFromUtf8, byteAt_cons_zero, predictLength_iff.2.1.mpr ha,
    decodedOrReplacement_bind, decodedOrReplacement_pure, byteAt_cons_succ,
    isUtf8ContinuationByte_iff, masked_byte.2.1 ha]
  split_ifs with h₀
  · rw [orContinuation_eq h₀]
  · rfl

theorem getCodepoint_three (ha : InRange 0xE0 0xEF a) : getCodepointFromUtf8 (a :: txt) =
    if Trail (byteAt txt 0) then
      if Trail (byteAt txt 1) then
        (((a.toNat - 0xE0) * 64 + ((byteAt txt 0).toNat - 0x80)) * 64 +
          ((byteAt txt 1).toNat - 0x80), 3)
      else (unicodeReplacementChar, 2)
    else (unicodeReplacementChar, 1) := by
  simp only [getCodepointFromUtf8, byteAt_cons_zero, predictLength_iff.2.2.1.mpr ha,
    decodedOrReplacement_bind, decodedOrReplacement_pure, byteAt_cons_succ,
    isUtf8ContinuationByte_iff, masked_byte.2.2.1 ha]
  split_ifs with h₀ h₁
  · rw [orContinuation_eq h₀, orContinuation_eq h₁]
  · rfl
  · rfl

theorem getCodepoint_four (ha : InRange 0xF0 0xF4 a) : getCodepointFromUtf8 (a :: txt) =
    if Trail (byteAt txt 0) then
      if Trail (byteAt txt 1) then
        if Trail (byteAt txt 2) then
          let cp := (((a.toNat - 0xF0) * 64 + ((byteAt txt 0).toNat - 0x80)) * 64 +
            ((byteAt txt 1).toNat - 0x80)) * 64 + ((byteAt txt 2).toNat - 0x80)
          if cp > maxUnicodeChar then (unicodeReplacementChar, 1) else (cp, 4)
        else (unicodeReplacementChar, 3)
      else (unicodeReplacementChar, 2)
    else (unicodeReplacementChar, 1) := by
  simp only [getCodepointFromUtf8, byteAt_cons_zero, predictLength_iff.2.2.2.mpr ha,
    decodedOrReplacement_bind, byteAt_cons_succ, isUtf8ContinuationByte_iff,
    masked_byte.2.2.2 ha]
  by_cases h₀ : Trail (byteAt txt 0)
  · by_cases h₁ : Trail (byteAt txt 1)
    · by_cases h₂ : Trail (byteAt txt 2)
      · simp only [h₀, h₁, h₂, if_true, orContinuation_eq h₀, orContinuation_eq h₁,
          orContinuation_eq h₂, Nat.reduceSub]
        exact apply_ite decodedOrReplacement _ _ _
      · simp only [h₀, h₁, h₂, if_true, if_false]
    · simp only [h₀, h₁, if_true, if_false]
  · simp only [h₀, if_false]

/-! ### One step of the check -/

theorem acceptsCodepoint_one {cp : ℕ} (h : cp ≤ 0x7F) : acceptsCodepoint cp 1 = true := by
  have h₁ : cp ≠ unicodeReplacementChar := by
    unfold unicodeReplacementChar
    omega
  have h₂ : ¬ (0xD800 ≤ cp ∧ cp ≤ 0xDFFF) := by omega
  simp [acceptsCodepoint, isSurrogate, h₁, h₂]

theorem acceptsCodepoint_many {cp n : ℕ} (h : 1 < n) : acceptsCodepoint cp n = true ↔
    n ≤ properLengthOfCodepoint cp ∧ (cp < 0xD800 ∨ 0xDFFF < cp) := by
  have hne : n ≠ 1 := by omega
  have hdec : (1 < n) = True := eq_true h
  simp only [acceptsCodepoint, isSurrogate, gt_iff_lt, hdec, decide_true, Bool.true_and,
    beq_eq_false_iff_ne.mpr hne, Bool.and_false, Bool.not_false, Bool.and_eq_true,
    Bool.not_eq_true', decide_eq_false_iff_not, not_lt, not_and_or, not_le]

theorem le_properLength {cp : ℕ} :
    (2 ≤ properLengthOfCodepoint cp ↔ 0x80 ≤ cp) ∧
    (3 ≤ properLengthOfCodepoint cp ↔ 0x800 ≤ cp) ∧
    (4 ≤ properLengthOfCodepoint cp ↔ 0x10000 ≤ cp) := by
  unfold properLengthOfCodepoint
  split_ifs <;> omega

/-- An error is only seen after a single byte. -/
theorem acceptsCodepoint_replacement : acceptsCodepoint unicodeReplacementChar 1 = false ∧
    acceptsCodepoint unicodeReplacementChar 2 = true ∧
    acceptsCodepoint unicodeReplacementChar 3 = true := by
  decide

/-- The tests of one round of the loop. -/
def acceptsNext (txt : List UInt8) : Bool :=
  acceptsCodepoint (getCodepointFromUtf8 txt).1 (getCodepointFromUtf8 txt).2

theorem acceptsNext_two (ha : InRange 0xC2 0xDF a) (hb : Trail b) :
    (getCodepointFromUtf8 (a :: b :: txt)).2 = 2 ∧ acceptsNext (a :: b :: txt) = true := by
  rw [acceptsNext, getCodepoint_two ha, byteAt_cons_zero, if_pos hb]
  refine ⟨rfl, ?_⟩
  obtain ⟨h₁, h₂⟩ := ha
  obtain ⟨h₃, h₄⟩ := hb
  rw [acceptsCodepoint_many (Nat.one_lt_succ_succ _), le_properLength.1]
  omega

/-- Three bytes are overlong after `E0` and a surrogate after `ED`, depending on the second. -/
theorem acceptsNext_three (ha : InRange 0xE0 0xEF a) (hb : Trail b) (hc : Trail c) :
    (getCodepointFromUtf8 (a :: b :: c :: txt)).2 = 3 ∧
      (acceptsNext (a :: b :: c :: txt) = true ↔
        (a.toNat = 0xE0 → 0xA0 ≤ b.toNat) ∧ (a.toNat = 0xED → b.toNat ≤ 0x9F)) := by
  rw [acceptsNext, getCodepoint_three ha, byteAt_cons_zero, byteAt_cons_succ, byteAt_cons_zero,
    if_pos hb, if_pos hc]
  refine ⟨rfl, ?_⟩
  obtain ⟨h₁, h₂⟩ := ha
  obtain ⟨h₃, h₄⟩ := hb
  obtain ⟨h₅, h₆⟩ := hc
  rw [acceptsCodepoint_many (Nat.one_lt_succ_succ _), le_properLength.2.1]
  omega

/-- Four bytes are overlong after `F0` and too large after `F4`, depending on the second. -/
theorem acceptsNext_four {d : UInt8} (ha : InRange 0xF0 0xF4 a) (hb : Trail b) (hc : Trail c)
    (hd : Trail d) :
    (acceptsNext (a :: b :: c :: d :: txt) = true ↔
      (a.toNat = 0xF0 → 0x90 ≤ b.toNat) ∧ (a.toNat = 0xF4 → b.toNat ≤ 0x8F)) ∧
    (acceptsNext (a :: b :: c :: d :: txt) = true →
      (getCodepointFromUtf8 (a :: b :: c :: d :: txt)).2 = 4) := by
  rw [acceptsNext, getCodepoint_four ha, byteAt_cons_zero, byteAt_cons_succ, byteAt_cons_zero,
    byteAt_cons_succ, byteAt_cons_succ, byteAt_cons_zero, if_pos hb, if_pos hc, if_pos hd]
  obtain ⟨h₁, h₂⟩ := ha
  obtain ⟨h₃, h₄⟩ := hb
  obtain ⟨h₅, h₆⟩ := hc
  obtain ⟨h₇, h₈⟩ := hd
  dsimp only
  split_ifs with hmax
  · rw [acceptsCodepoint_replacement.1, maxUnicodeChar] at *
    simp only [Bool.false_eq_true, false_iff, false_implies, and_true]
    omega
  · refine ⟨?_, fun _ => rfl⟩
    rw [maxUnicodeChar] at hmax
    rw [acceptsCodepoint_many (Nat.one_lt_succ_succ _), le_properLength.2.2]
    omega

theorem InRange.mono {lo hi lo' hi' : ℕ} (h : InRange lo hi c) (h₁ : lo' ≤ lo) (h₂ : hi ≤ hi') :
    InRange lo' hi' c := ⟨h₁.trans h.1, h.2.trans h₂⟩

/-- The number of bytes that the lead byte of a sequence announces. -/
def announced (txt : List UInt8) : ℕ := predictLengthOfCodepointFromLeadByte (byteAt txt 0)

/-- A well-formed sequence is accepted as a whole. -/
theorem Utf8Sequence.accepted (h : Utf8Sequence s) : acceptsNext (s ++ txt) = true ∧
    (getCodepointFromUtf8 (s ++ txt)).2 = s.length ∧ announced s = s.length := by
  have three : ∀ {a b c : UInt8}, InRange 0xE0 0xEF a → Trail b → Trail c →
      (a.toNat = 0xE0 → 0xA0 ≤ b.toNat) ∧ (a.toNat = 0xED → b.toNat ≤ 0x9F) →
      acceptsNext ([a, b, c] ++ txt) = true ∧
        (getCodepointFromUtf8 ([a, b, c] ++ txt)).2 = 3 ∧ announced [a, b, c] = 3 :=
    fun ha hb hc h => ⟨(acceptsNext_three ha hb hc).2.mpr h, (acceptsNext_three ha hb hc).1,
      predictLength_iff.2.2.1.mpr ha⟩
  have four : ∀ {a b c d : UInt8}, InRange 0xF0 0xF4 a → Trail b → Trail c → Trail d →
      (a.toNat = 0xF0 → 0x90 ≤ b.toNat) ∧ (a.toNat = 0xF4 → b.toNat ≤ 0x8F) →
      acceptsNext ([a, b, c, d] ++ txt) = true ∧
        (getCodepointFromUtf8 ([a, b, c, d] ++ txt)).2 = 4 ∧ announced [a, b, c, d] = 4 :=
    fun ha hb hc hd h => ⟨(acceptsNext_four ha hb hc hd).1.mpr h,
      (acceptsNext_four ha hb hc hd).2 ((acceptsNext_four ha hb hc hd).1.mpr h),
      predictLength_iff.2.2.2.mpr ha⟩
  cases h with
  | ascii ha =>
    refine ⟨?_, ?_, predictLength_iff.1.mpr ha⟩
    · rw [List.singleton_append, acceptsNext, getCodepoint_one ha]
      exact acceptsCodepoint_one ha.2
    · rw [List.singleton_append, getCodepoint_one ha]
      rfl
  | two ha hb =>
    exact ⟨(acceptsNext_two ha hb).2, (acceptsNext_two ha hb).1, predictLength_iff.2.1.mpr ha⟩
  | e0 ha hb hc =>
    refine three (ha.mono (by decide) (by decide)) (hb.mono (by decide) le_rfl) hc ?_
    have := ha.2
    have := hb.1
    omega
  | e1 ha hb hc =>
    refine three (ha.mono (by decide) (by decide)) hb hc ?_
    have := ha.1
    have := ha.2
    omega
  | ed ha hb hc =>
    refine three (ha.mono (by decide) (by decide)) (hb.mono le_rfl (by decide)) hc ?_
    have := ha.1
    have := hb.2
    omega
  | ee ha hb hc =>
    refine three (ha.mono (by decide) le_rfl) hb hc ?_
    have := ha.1
    omega
  | f0 ha hb hc hd =>
    refine four (ha.mono le_rfl (by decide)) (hb.mono (by decide) le_rfl) hc hd ?_
    have := ha.2
    have := hb.1
    omega
  | f1 ha hb hc hd =>
    refine four (ha.mono (by decide) (by decide)) hb hc hd ?_
    have := ha.1
    have := ha.2
    omega
  | f4 ha hb hc hd =>
    refine four (ha.mono (by decide) le_rfl) (hb.mono le_rfl (by decide)) hc hd ?_
    have := ha.1
    have := hb.2
    omega

/-- The decoder reports a broken-off sequence at the byte after it. -/
theorem BrokenOff.decoded (h : BrokenOff s) (hrest : ¬ Trail (byteAt txt 0)) :
    getCodepointFromUtf8 (s ++ txt) = (unicodeReplacementChar, s.length) := by
  cases h with
  | three ha hb =>
    rw [List.cons_append, List.cons_append, getCodepoint_three ha, byteAt_cons_zero, if_pos hb,
      byteAt_cons_succ, List.nil_append, if_neg hrest]
    rfl
  | four ha hb =>
    rw [List.cons_append, List.cons_append, getCodepoint_four ha, byteAt_cons_zero, if_pos hb,
      byteAt_cons_succ, List.nil_append, if_neg hrest]
    rfl
  | four' ha hb hc =>
    rw [List.cons_append, List.cons_append, List.cons_append, getCodepoint_four ha,
      byteAt_cons_zero, if_pos hb, byteAt_cons_succ, byteAt_cons_zero, if_pos hc,
      byteAt_cons_succ, byteAt_cons_succ, List.nil_append, if_neg hrest]
    rfl

/-- **The slip**: a broken-off sequence is accepted too. -/
theorem BrokenOff.accepted (h : BrokenOff s) (hrest : ¬ Trail (byteAt txt 0)) :
    acceptsNext (s ++ txt) = true ∧ (getCodepointFromUtf8 (s ++ txt)).2 = s.length ∧
      s.length < announced s := by
  rw [acceptsNext, h.decoded hrest]
  cases h with
  | three ha hb =>
    refine ⟨acceptsCodepoint_replacement.2.1, rfl, ?_⟩
    rw [announced, byteAt_cons_zero, predictLength_iff.2.2.1.mpr ha]
    exact Nat.lt_succ_self 2
  | four ha hb =>
    refine ⟨acceptsCodepoint_replacement.2.1, rfl, ?_⟩
    rw [announced, byteAt_cons_zero, predictLength_iff.2.2.2.mpr ha]
    exact Nat.lt_succ_of_lt (Nat.lt_succ_self 2)
  | four' ha hb hc =>
    refine ⟨acceptsCodepoint_replacement.2.2, rfl, ?_⟩
    rw [announced, byteAt_cons_zero, predictLength_iff.2.2.2.mpr ha]
    exact Nat.lt_succ_self 3

/-- The rows of three bytes, by what their second byte depends on. -/
theorem Utf8Sequence.of_three (ha : InRange 0xE0 0xEF a) (hb : Trail b) (hc : Trail c)
    (h : (a.toNat = 0xE0 → 0xA0 ≤ b.toNat) ∧ (a.toNat = 0xED → b.toNat ≤ 0x9F)) :
    Utf8Sequence [a, b, c] := by
  obtain ⟨h₁, h₂⟩ := ha
  rcases Nat.lt_or_ge 0xE0 a.toNat with hgt | hle
  · rcases lt_trichotomy a.toNat 0xED with hlt | heq | hgt'
    · exact .e1 ⟨hgt, by omega⟩ hb hc
    · exact .ed ⟨heq.ge, heq.le⟩ ⟨hb.1, h.2 heq⟩ hc
    · exact .ee ⟨hgt', h₂⟩ hb hc
  · exact .e0 ⟨h₁, hle⟩ ⟨h.1 (by omega), hb.2⟩ hc

/-- The rows of four bytes, by what their second byte depends on. -/
theorem Utf8Sequence.of_four {d : UInt8} (ha : InRange 0xF0 0xF4 a) (hb : Trail b) (hc : Trail c)
    (hd : Trail d) (h : (a.toNat = 0xF0 → 0x90 ≤ b.toNat) ∧ (a.toNat = 0xF4 → b.toNat ≤ 0x8F)) :
    Utf8Sequence [a, b, c, d] := by
  obtain ⟨h₁, h₂⟩ := ha
  rcases Nat.lt_or_ge 0xF0 a.toNat with hgt | hle
  · rcases Nat.lt_or_ge a.toNat 0xF4 with hlt | hge
    · exact .f1 ⟨hgt, by omega⟩ hb hc hd
    · exact .f4 ⟨hge, h₂⟩ ⟨hb.1, h.2 (by omega)⟩ hc hd
  · exact .f0 ⟨h₁, hle⟩ ⟨h.1 (by omega), hb.2⟩ hc hd

/-- A continuation byte is a byte of the string: the terminator is none. -/
private theorem exists_cons_of_trail (h : Trail (byteAt txt 0)) :
    ∃ b txt', txt = b :: txt' ∧ Trail b := by
  cases txt with
  | nil => exact absurd h.1 (by decide)
  | cons b txt' => exact ⟨b, txt', rfl, h⟩

/-- Whatever the check accepts is a well-formed or a broken-off sequence. -/
theorem exists_piece (h : acceptsNext (a :: txt) = true) :
    ∃ s rest, a :: txt = s ++ rest ∧
      (Utf8Sequence s ∨ BrokenOff s ∧ ¬ Trail (byteAt rest 0)) := by
  have hrefused : getCodepointFromUtf8 (a :: txt) ≠ (unicodeReplacementChar, 1) := by
    intro heq
    rw [acceptsNext, heq, acceptsCodepoint_replacement.1] at h
    cases h
  have hle : predictLengthOfCodepointFromLeadByte a ≤ 4 := by
    unfold predictLengthOfCodepointFromLeadByte
    split_ifs <;> decide
  obtain ⟨h₁, h₂, h₃, h₄⟩ := predictLength_iff (c := a)
  have hcases : predictLengthOfCodepointFromLeadByte a = 0 ∨ InRange 0x01 0x7F a ∨
      InRange 0xC2 0xDF a ∨ InRange 0xE0 0xEF a ∨ InRange 0xF0 0xF4 a := by
    rw [← h₁, ← h₂, ← h₃, ← h₄]
    omega
  rcases hcases with h₀ | ha | ha | ha | ha
  · refine absurd ?_ hrefused
    simp only [getCodepointFromUtf8, byteAt_cons_zero, h₀, decodedOrReplacement_pure]
  · exact ⟨[a], txt, rfl, .inl (.ascii ha)⟩
  · rw [getCodepoint_two ha] at hrefused
    by_cases hb : Trail (byteAt txt 0)
    · obtain ⟨b, txt, rfl, hb⟩ := exists_cons_of_trail hb
      exact ⟨[a, b], txt, rfl, .inl (.two ha hb)⟩
    · exact absurd (if_neg hb) hrefused
  · rw [getCodepoint_three ha] at hrefused
    by_cases hb : Trail (byteAt txt 0)
    · obtain ⟨b, txt, rfl, hb⟩ := exists_cons_of_trail hb
      by_cases hc : Trail (byteAt txt 0)
      · obtain ⟨c, txt, rfl, hc⟩ := exists_cons_of_trail hc
        refine ⟨[a, b, c], txt, rfl, .inl ?_⟩
        exact .of_three ha hb hc ((acceptsNext_three ha hb hc).2.mp h)
      · exact ⟨[a, b], txt, rfl, .inr ⟨.three ha hb, hc⟩⟩
    · exact absurd (if_neg hb) hrefused
  · rw [getCodepoint_four ha] at hrefused
    by_cases hb : Trail (byteAt txt 0)
    · obtain ⟨b, txt, rfl, hb⟩ := exists_cons_of_trail hb
      by_cases hc : Trail (byteAt txt 0)
      · obtain ⟨c, txt, rfl, hc⟩ := exists_cons_of_trail hc
        by_cases hd : Trail (byteAt txt 0)
        · obtain ⟨d, txt, rfl, hd⟩ := exists_cons_of_trail hd
          refine ⟨[a, b, c, d], txt, rfl, .inl ?_⟩
          exact .of_four ha hb hc hd ((acceptsNext_four ha hb hc hd).1.mp h)
        · exact ⟨[a, b, c], txt, rfl, .inr ⟨.four' ha hb hc, hd⟩⟩
      · exact ⟨[a, b], txt, rfl, .inr ⟨.four ha hb, hc⟩⟩
    · exact absurd (if_neg hb) hrefused

/-! ### The language of the check -/

/-- A sequence announces at least one byte, so it starts with a byte other than NUL. -/
private theorem exists_cons_of_announced (h : 0 < announced s) (hlen : 0 < s.length) :
    ∃ c cs, s = c :: cs ∧ c ≠ 0 := by
  cases s with
  | nil => cases hlen
  | cons c cs =>
    refine ⟨c, cs, rfl, ?_⟩
    rintro rfl
    cases h

/-- One round of the loop, over a piece that is accepted as a whole. -/
private theorem wellFormedLoop_append (hacc : acceptsNext (s ++ txt) = true)
    (hnext : (getCodepointFromUtf8 (s ++ txt)).2 = s.length) (hann : s.length ≤ announced s) :
    wellFormedLoop (s ++ txt) = wellFormedLoop txt := by
  have hpos : 0 < s.length := hnext ▸ getCodepointFromUtf8_pos _
  obtain ⟨c, cs, rfl, hc⟩ := exists_cons_of_announced (hpos.trans_le hann) hpos
  rw [acceptsNext] at hacc
  rw [List.cons_append] at hacc hnext ⊢
  rw [wellFormedLoop, if_neg hc]
  dsimp only
  rw [if_pos hacc, hnext, ← List.cons_append, List.drop_left]

/-- **Completeness**: the check accepts the loose strings. -/
theorem wellFormedLoop_of_loose (h : LooseUtf8 f txt) : wellFormedLoop txt = true := by
  induction h with
  | nil => rw [wellFormedLoop]
  | append hs _ ih =>
    obtain ⟨hacc, hnext, hann⟩ := hs.accepted
    rw [wellFormedLoop_append hacc hnext hann.ge, ih]
  | broken hs hrest _ ih =>
    obtain ⟨hacc, hnext, hann⟩ := hs.accepted hrest
    rw [wellFormedLoop_append hacc hnext hann.le, ih]

/-- **Soundness**: it accepts nothing else. -/
theorem exists_loose_of_wellFormedLoop (hnul : 0 ∉ txt) (h : wellFormedLoop txt = true) :
    ∃ f, LooseUtf8 f txt := by
  induction hn : txt.length using Nat.strong_induction_on generalizing txt with
  | _ n ih =>
    cases txt with
    | nil => exact ⟨false, .nil⟩
    | cons c cs =>
      have hc : c ≠ 0 := fun h => hnul (h ▸ List.mem_cons_self)
      have hacc : acceptsNext (c :: cs) = true := by
        rw [wellFormedLoop, if_neg hc] at h
        simp only at h
        split_ifs at h with hacc
        exact hacc
      obtain ⟨s, rest, heq, hs⟩ := exists_piece hacc
      -- the loop goes on after the piece
      have hstep : wellFormedLoop (s ++ rest) = wellFormedLoop rest ∧ 0 < s.length := by
        rcases hs with hs | ⟨hs, hrest⟩
        · obtain ⟨hacc, hnext, hann⟩ := @Utf8Sequence.accepted rest _ hs
          exact ⟨wellFormedLoop_append hacc hnext hann.ge, hnext ▸ getCodepointFromUtf8_pos _⟩
        · obtain ⟨hacc, hnext, hann⟩ := hs.accepted hrest
          exact ⟨wellFormedLoop_append hacc hnext hann.le, hnext ▸ getCodepointFromUtf8_pos _⟩
      rw [heq] at h hnul hn ⊢
      rw [hstep.1] at h
      have hlen : rest.length < n := by
        rw [← hn, List.length_append]
        omega
      obtain ⟨f, hf⟩ := ih rest.length hlen (fun h => hnul (List.mem_append_right s h)) h rfl
      rcases hs with hs | ⟨hs, hrest⟩
      · exact ⟨f, .append hs hf⟩
      · exact ⟨true, .broken hs hrest hf⟩

/-- The first piece of a loose string, as the decoder sees it. -/
private theorem LooseUtf8.first (h : LooseUtf8 f txt) : (txt = [] ∧ f = false) ∨
    ∃ s rest f' b, txt = s ++ rest ∧ LooseUtf8 f' rest ∧ f = (f' || b) ∧
      (getCodepointFromUtf8 txt).2 = s.length ∧ (b = true ↔ s.length < announced s) := by
  cases h with
  | nil => exact .inl ⟨rfl, rfl⟩
  | @append f s rest hs h =>
    obtain ⟨-, hnext, hann⟩ := @Utf8Sequence.accepted rest _ hs
    exact .inr ⟨s, rest, f, false, rfl, h, (Bool.or_false f).symm, hnext, by simp [hann]⟩
  | @broken f s rest hs hrest h =>
    obtain ⟨-, hnext, hann⟩ := hs.accepted hrest
    exact .inr ⟨s, rest, f, true, rfl, h, (Bool.or_true f).symm, hnext, by simp [hann]⟩

/-- A string is read in one way only. -/
theorem LooseUtf8.unique (h : LooseUtf8 f txt) (h' : LooseUtf8 g txt) : f = g := by
  induction hn : txt.length using Nat.strong_induction_on generalizing txt f g with
  | _ n ih =>
    rcases h.first with ⟨rfl, rfl⟩ | ⟨s, rest, f', b, heq, hf, rfl, hnext, hb⟩
    · rcases h'.first with ⟨-, rfl⟩ | ⟨s, rest, g', b, heq, -, -, hnext, -⟩
      · rfl
      · have hpos := getCodepointFromUtf8_pos []
        rw [hnext, (List.append_eq_nil_iff.mp heq.symm).1] at hpos
        cases hpos
    · have hpos := getCodepointFromUtf8_pos txt
      rcases h'.first with ⟨rfl, rfl⟩ | ⟨s', rest', g', b', heq', hg, rfl, hnext', hb'⟩
      · rw [hnext, (List.append_eq_nil_iff.mp heq.symm).1] at hpos
        cases hpos
      · -- both pieces are what the decoder moves past
        obtain ⟨rfl, rfl⟩ := List.append_inj (heq.symm.trans heq') (hnext.symm.trans hnext')
        have hlen : rest.length < n := by
          rw [← hn, heq, List.length_append]
          omega
        rw [ih rest.length hlen hf hg rfl, Bool.eq_iff_iff.mpr (hb.trans hb'.symm)]

theorem wellFormedUtf8_iff : WellFormedUtf8 txt ↔ LooseUtf8 false txt := by
  constructor
  · intro h
    induction h with
    | nil => exact .nil
    | append hs _ ih => exact .append hs ih
  · generalize hf : false = f
    intro h
    induction h with
    | nil => exact .nil
    | append hs _ ih => exact .append hs (ih hf)
    | broken => cases hf

end Decoder

/-- **Exactness of the check.** On a NUL-terminated string `is_well_formed_utf8` says whether
its bytes are well-formed UTF-8, unless they are a concatenation of well-formed sequences and
of sequences that break off after their first continuation byte, with at least one of the
latter. -/
theorem isWellFormedUtf8_exact_iff (txt : List UInt8) (hnul : 0 ∉ txt) :
    (isWellFormedUtf8 (some txt) = true ↔ WellFormedUtf8 txt) ↔ ¬ LooseUtf8 true txt := by
  rw [wellFormedUtf8_iff]
  constructor
  · intro h hbroken
    have hfalse := h.mp (wellFormedLoop_of_loose hbroken)
    cases hbroken.unique hfalse
  · intro hnot
    refine ⟨fun h => ?_, wellFormedLoop_of_loose⟩
    obtain ⟨f, hf⟩ := exists_loose_of_wellFormedLoop hnul h
    cases f with
    | false => exact hf
    | true => exact absurd hf hnot

/-- A sequence of three bytes that ends with the string after two is accepted. -/
theorem isWellFormedUtf8_accepts_broken : ¬ (∀ txt : List UInt8, 0 ∉ txt →
    (isWellFormedUtf8 (some txt) = true ↔ WellFormedUtf8 txt)) := by
  intro h
  have hbroken : LooseUtf8 true [0xE1, 0x80] :=
    .broken (s := [0xE1, 0x80]) (.three (by decide) (by decide)) (by decide) .nil
  have hwf := (h [0xE1, 0x80] (by decide)).mp (by decide +kernel)
  cases hbroken.unique (wellFormedUtf8_iff.mp hwf)

/-- On the text `é` the check is exact. -/
theorem isWellFormedUtf8_exact_two : isWellFormedUtf8 (some [0xC3, 0xA9]) = true ↔
    WellFormedUtf8 [0xC3, 0xA9] := by
  refine (isWellFormedUtf8_exact_iff [0xC3, 0xA9] (by decide)).mpr fun h => ?_
  have hseq : LooseUtf8 false [0xC3, 0xA9] :=
    .append (s := [0xC3, 0xA9]) (.two (by decide) (by decide)) .nil
  cases hseq.unique h

end Intent.Old
