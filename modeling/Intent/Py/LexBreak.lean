import Intent.Py.Lex

/-!
# What a break scan returns

`breakOnAny` is the one scanner behind names, definitions, paragraphs and hypertext. Its
result is specified once, as the structure `IsBreak`: blanks up to `begin`, no stop character
in `[begin, j)`, blanks from `stop` to `j`, and a stop character at `j` unless the text ends
there. The triple that callers cannot unpack is returned exactly when only blanks are left
(`breakOnAny_eq_none_iff`).
-/

namespace Intent.Py

variable {text any : List Char} {i j n b e last : ℕ} {c : Option Char}

theorem isBlank_iff {ch : Char} : isBlank ch = true ↔ ch = ' ' ∨ ch = '\t' ∨ ch = '\r' := by
  simp [isBlank, skippableWhitespace]

/-- Characters from `i` up to `j` are all blank. -/
def BlankRun (text : List Char) (i j : ℕ) : Prop :=
  ∀ k, i ≤ k → k < j → isBlank (charAt text k) = true

theorem BlankRun.trans {k : ℕ} (h₁ : BlankRun text i j) (h₂ : BlankRun text j k) :
    BlankRun text i k := by
  intro m hi hk
  rcases Nat.lt_or_ge m j with h | h
  · exact h₁ m hi h
  · exact h₂ m h hk

theorem BlankRun.refl (text : List Char) (i : ℕ) : BlankRun text i i := by
  intro k h₁ h₂
  omega

theorem BlankRun.no_feed (h : BlankRun text i j) : ∀ k, i ≤ k → k < j → charAt text k ≠ '\n' := by
  intro k hi hj hfeed
  have hblank := h k hi hj
  rw [hfeed] at hblank
  cases hblank

/-! ### Skipping blanks -/

theorem le_skipWhitespace (text : List Char) (i n : ℕ) : i ≤ skipWhitespace text i n :=
  le_scanWhile _ _ _

theorem skipWhitespace_le (text : List Char) (h : i ≤ n) : skipWhitespace text i n ≤ n :=
  scanWhile_le h

theorem blankRun_skipWhitespace (text : List Char) (i n : ℕ) :
    BlankRun text i (skipWhitespace text i n) :=
  fun _ hi hk => of_lt_scanWhile (q := fun k => isBlank (charAt text k)) hi hk

theorem not_blank_skipWhitespace (h : skipWhitespace text i n < n) :
    isBlank (charAt text (skipWhitespace text i n)) = false :=
  scanWhile_stop (q := fun k => isBlank (charAt text k)) h

theorem skipWhitespace_of_not_blank (h : isBlank (charAt text i) = false) :
    skipWhitespace text i n = i :=
  scanWhile_of_false (q := fun k => isBlank (charAt text k)) h

/-! ### The inner loop -/

theorem breakLoop_snd (text any : List Char) (i n last : ℕ) :
    (breakLoop text any i n last).2 = scanWhile (fun k => charAt text k ∉ any) i n := by
  fun_induction breakLoop text any i n last with
  | case1 i last hi hany =>
    rw [scanWhile_of_false (by simpa using hany)]
  | case2 i last hi hany ih =>
    rw [scanWhile_of_true hi (by simpa using hany), ← ih]
    rfl
  | case3 i last hi => rw [scanWhile_of_le (by omega)]

/-- The accumulated `last` either never changed, and then the whole stretch is blank, or it
is the position after the last non-blank character. -/
theorem breakLoop_fst (text any : List Char) (i n last : ℕ) :
    ((breakLoop text any i n last).1 = last ∧ BlankRun text i (breakLoop text any i n last).2) ∨
      (i < (breakLoop text any i n last).1 ∧
        (breakLoop text any i n last).1 ≤ (breakLoop text any i n last).2 ∧
        isBlank (charAt text ((breakLoop text any i n last).1 - 1)) = false ∧
        BlankRun text (breakLoop text any i n last).1 (breakLoop text any i n last).2) := by
  fun_induction breakLoop text any i n last with
  | case1 i last hi hany => exact .inl ⟨rfl, BlankRun.refl text i⟩
  | case2 i last hi hany ih =>
    simp only [dite_eq_ite] at ih
    have hle : i + 1 ≤ (breakLoop text any (i + 1) n
        (if isBlank (charAt text i) = true then last else i + 1)).2 := by
      rw [breakLoop_snd]
      exact le_scanWhile _ _ _
    rcases ih with ⟨hlast, hblank⟩ | ⟨hlt, hle', hnb, hblank⟩
    · by_cases hb : isBlank (charAt text i) = true
      · rw [if_pos hb] at hlast hblank ⊢
        refine .inl ⟨hlast, fun k hk hkj => ?_⟩
        rcases Nat.eq_or_lt_of_le hk with rfl | hlt
        · exact hb
        · exact hblank k hlt hkj
      · rw [if_neg hb] at hlast hblank hle ⊢
        refine .inr ⟨by omega, by omega, ?_, ?_⟩
        · rw [hlast]
          simpa using hb
        · rw [hlast]
          exact hblank
    · exact .inr ⟨by omega, hle', hnb, hblank⟩
  | case3 i last hi => exact .inl ⟨rfl, BlankRun.refl text i⟩

/-! ### The specification -/

/-- A break scan over `[i, n)` for the characters `any` found a run that begins at `b`, is
trimmed to `e`, and stops at `j`, on the character `c` if there is one. -/
structure IsBreak (text any : List Char) (i n b e j : ℕ) (c : Option Char) : Prop where
  le_begin : i ≤ b
  begin_lt : b < n
  begin_le : b ≤ e
  end_le : e ≤ j
  le_stop : j ≤ n
  lead_blank : BlankRun text i b
  begin_not_blank : isBlank (charAt text b) = false
  not_any : ∀ k, b ≤ k → k < j → charAt text k ∉ any
  stop_any : j < n → charAt text j ∈ any
  char_eq : c = if j < n then some (charAt text j) else none
  tail_blank : BlankRun text e j
  end_not_blank : b < e → isBlank (charAt text (e - 1)) = false
  lt_end : b < j → b < e

theorem IsBreak.char_of_lt (h : IsBreak text any i n b e j c) (hj : j < n) :
    c = some (charAt text j) := by
  rw [h.char_eq, if_pos hj]

theorem IsBreak.char_of_ge (h : IsBreak text any i n b e j c) (hj : n ≤ j) : c = none := by
  rw [h.char_eq, if_neg (by omega)]

/-- A break inside the text stops on one of the characters it was given. -/
theorem IsBreak.char_mem (h : IsBreak text any i n b e j c) {ch : Char} (hc : c = some ch) :
    j < n ∧ charAt text j = ch ∧ ch ∈ any := by
  rcases Nat.lt_or_ge j n with hj | hj
  · have heq : charAt text j = ch := by
      have := h.char_of_lt hj
      rw [hc] at this
      exact (Option.some.inj this).symm
    exact ⟨hj, heq, heq ▸ h.stop_any hj⟩
  · rw [h.char_of_ge hj] at hc
    cases hc

theorem IsBreak.le (h : IsBreak text any i n b e j c) : i ≤ j :=
  h.le_begin.trans (h.begin_le.trans h.end_le)

/-- **Specification of a successful break scan.** -/
theorem isBreak_of_breakOnAny (hi : i ≤ n) (h : breakOnAny text any i n = some (b, e, j, c)) :
    IsBreak text any i n b e j c := by
  unfold breakOnAny at h
  have hle := skipWhitespace_le text hi
  have hblank := blankRun_skipWhitespace text i n
  have hnot := @not_blank_skipWhitespace text i n
  have hge := le_skipWhitespace text i n
  generalize skipWhitespace text i n = b' at h hle hblank hnot hge
  by_cases hb : b' = n
  · simp [hb] at h
  have hbn : b' < n := by omega
  simp only [if_neg hb, Option.some.injEq, Prod.mk.injEq] at h
  obtain ⟨rfl, rfl, rfl, rfl⟩ := h
  have hsnd := breakLoop_snd text any b' n 0
  have hfst := breakLoop_fst text any b' n 0
  generalize breakLoop text any b' n 0 = r at hsnd hfst
  have h1 : b' ≤ r.2 := hsnd ▸ le_scanWhile _ _ _
  have h2 : r.2 ≤ n := hsnd ▸ scanWhile_le hle
  -- the trimmed end is `begin` exactly when the scan stopped at once
  have hnb := hnot hbn
  have hcase : r.2 = b' ∧ r.1 = 0 ∨ b' < r.1 ∧ r.1 ≤ r.2 ∧
      isBlank (charAt text (r.1 - 1)) = false ∧ BlankRun text r.1 r.2 := by
    rcases hfst with ⟨h0, hrun⟩ | h
    · rcases Nat.eq_or_lt_of_le h1 with heq | hlt
      · exact .inl ⟨heq.symm, h0⟩
      · rw [hrun b' le_rfl hlt] at hnb
        cases hnb
    · exact .inr h
  refine ⟨hge, hbn, le_max_right _ _, ?_, h2, hblank, hnb, ?_, ?_, rfl, ?_, ?_, ?_⟩
  · rcases hcase with ⟨h3, h4⟩ | ⟨h3, h4, -, -⟩ <;> omega
  · intro k hk hkj
    have := of_lt_scanWhile (q := fun k => charAt text k ∉ any) hk (hsnd ▸ hkj)
    simpa using this
  · intro hj
    have := scanWhile_stop (q := fun k => charAt text k ∉ any) (p := b') (hsnd ▸ hj)
    rw [← hsnd] at this
    simpa using this
  · intro k hk hkj
    rcases hcase with ⟨h3, h4⟩ | ⟨h3, h4, -, h5⟩
    · omega
    · exact h5 k (by omega) hkj
  · intro hlt
    rcases hcase with ⟨h3, h4⟩ | ⟨h3, h4, h5, -⟩
    · omega
    · rwa [show max r.1 b' = r.1 by omega]
  · intro hlt
    rcases hcase with ⟨h3, h4⟩ | ⟨h3, -, -, -⟩ <;> omega

/-- Where a scan stops, whatever position it started from. -/
theorem stop_of_breakOnAny (h : breakOnAny text any i n = some (b, e, j, c)) :
    (j < n → charAt text j ∈ any) ∧ c = if j < n then some (charAt text j) else none := by
  unfold breakOnAny at h
  by_cases hb : skipWhitespace text i n = n
  · simp [hb] at h
  · simp only [if_neg hb, Option.some.injEq, Prod.mk.injEq] at h
    obtain ⟨rfl, rfl, rfl, rfl⟩ := h
    refine ⟨fun hj => ?_, rfl⟩
    rw [breakLoop_snd] at hj ⊢
    have := scanWhile_stop hj
    simpa using this

/-- **The scan that callers cannot unpack**: only blanks are left. -/
theorem breakOnAny_eq_none_iff (hi : i ≤ n) :
    breakOnAny text any i n = none ↔ BlankRun text i n := by
  have hle := skipWhitespace_le text hi
  have hblank := blankRun_skipWhitespace text i n
  unfold breakOnAny
  constructor
  · intro h
    by_cases hb : skipWhitespace text i n = n
    · rwa [hb] at hblank
    · simp [hb] at h
  · intro h
    have hb : skipWhitespace text i n = n := by
      by_contra hne
      have hnot := @not_blank_skipWhitespace text i n (by omega)
      rw [h _ (le_skipWhitespace text i n) (by omega)] at hnot
      cases hnot
    simp [hb]

/-- A scan that starts on a character that is not blank begins there. -/
theorem breakOnAny_of_not_blank (hi : i < n) (h : isBlank (charAt text i) = false) :
    ∃ e j c, breakOnAny text any i n = some (i, e, j, c) := by
  have hskip : skipWhitespace text i n = i := skipWhitespace_of_not_blank h
  unfold breakOnAny
  simp only [hskip]
  rw [if_neg (by omega)]
  exact ⟨_, _, _, rfl⟩

end Intent.Py
