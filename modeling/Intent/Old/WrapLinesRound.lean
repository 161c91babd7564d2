import Intent.Library.Run
import Intent.Old.WrapLines

/-!
# Rounds of `wrap_lines`

`Round` is all that a round of the outer loop of `wrap_lines` can do, for any text. A round copies
the rest of the text, or it copies the text up to a place where the line is wrapped, or up to a line
break. `wrapRound_round` is the only place where the inner loop is taken apart. Its invariant is
`Scanned`, until there is a line break.

There are two conditions. The line must have room for a character (`HasRoom`), since the cursor
would not move on from the beginning otherwise. And the counter for the columns, which has 32 bits,
must not overflow at a line break (`BreaksCount`): the inner loop is ended there by setting the
counter to the width. If it does not overflow anywhere (`Counts`), then it counts the columns.
-/

namespace Intent.Old

/-! ### Ranges -/

section Ranges

variable {txt : Text} {p q r : ℕ}

theorem slice_append (hpq : p ≤ q) (hqr : q ≤ r) :
    slice txt p r = slice txt p q ++ slice txt q r := by
  rw [slice, slice, slice, show r - p = (q - p) + (r - q) by omega, List.take_add, List.drop_drop,
    show p + (q - p) = q by omega]

theorem exists_of_mem_slice {c : UInt8} (h : c ∈ slice txt p q) :
    ∃ i, p ≤ i ∧ i < q ∧ txt[i]? = some c := by
  obtain ⟨i, hi⟩ := List.getElem?_of_mem h
  rw [slice, List.getElem?_take, List.getElem?_drop] at hi
  split_ifs at hi with hlt
  exact ⟨p + i, by omega, by omega, hi⟩

theorem slice_to_length (txt : Text) (p : ℕ) : slice txt p txt.length = txt.drop p := by
  rw [slice, ← List.length_drop, List.take_length]

theorem length_slice_le (txt : Text) (p q : ℕ) : (slice txt p q).length ≤ q - p := by
  rw [slice, List.length_take]
  exact Nat.min_le_left _ _

/-- The number of codepoints in a text in UTF-8: its bytes that `next_utf8_char` does not skip. -/
def numChars (s : Text) : ℕ := s.countP fun c => !isSkipped c

theorem numChars_append (s t : Text) : numChars (s ++ t) = numChars s + numChars t :=
  List.countP_append

theorem numChars_le (s : Text) : numChars s ≤ s.length := List.countP_le_length

/-- Codepoints in a longer range. -/
theorem numChars_slice_le (hpq : p ≤ q) (hqr : q ≤ r) :
    numChars (slice txt p r) ≤ numChars (slice txt p q) + (r - q) := by
  rw [slice_append hpq hqr, numChars_append]
  exact Nat.add_le_add_left ((numChars_le _).trans (length_slice_le _ _ _)) _

end Ranges

theorem not_isLineBreak_of_isSkipped {c : UInt8} (h : isSkipped c = true) :
    isLineBreak c = false := by
  rw [Bool.eq_false_iff]
  intro hbreak
  rw [isLineBreak, Bool.or_eq_true, beq_iff_eq, beq_iff_eq] at hbreak
  rcases hbreak with rfl | rfl
  · exact absurd h (by decide)
  · exact absurd h (by decide)

namespace Wrapping

variable {w : Wrapping} {p q ptr : ℕ}

theorem numChars_nxt (hp : p ≤ ptr) :
    numChars (slice w.text p (w.nxt ptr)) ≤ numChars (slice w.text p ptr) + 1 := by
  have hlt := lt_nxt w ptr
  have hzero : numChars (slice w.text (ptr + 1) (w.nxt ptr)) = 0 := by
    rw [numChars, List.countP_eq_zero]
    intro c hc
    obtain ⟨i, hi, hi', hget⟩ := exists_of_mem_slice hc
    obtain ⟨hend, -⟩ := List.getElem?_eq_some_iff.mp hget
    rw [skipped_of_lt_nxt (by omega) hi hi' c hget]
    decide
  rw [slice_append (hp.trans (Nat.le_succ ptr)) hlt, numChars_append, hzero]
  exact (numChars_slice_le hp (Nat.le_succ ptr)).trans (by omega)

/-! ### Conditions on a round -/

/-- The test of the shortcut, that what is left of the text fits into the line. -/
def Shortcut (w : Wrapping) (s : WrapState) : Prop :=
  w.text.length - s.p + (s.len - 1) < w.width

/-- The line that begins with `s` has room for a character, or it is at the last column and no
character begins there but a line break. -/
def HasRoom (w : Wrapping) (s : WrapState) : Prop :=
  s.len < w.width ∨
    s.len = w.width ∧ ∀ c ∈ w.text[s.p]?, isLineBreak c = true ∨ isSkipped c = true

/-- A step of the inner loop, in a line that begins at `p`. -/
def LineStep (w : Wrapping) (p : ℕ) (t : LineScan) (_ : Unit) (t' : LineScan) : Prop :=
  t.len ≤ w.width ∧ t.ptr < w.text.length ∧ t' = w.lineRound p t

/-- The states of the inner loop, in the line that begins with `s`. -/
def InLine (w : Wrapping) (s : WrapState) (t : LineScan) : Prop :=
  Reaches (w.LineStep s.p) (fun _ _ => True) (beginLine s) t

/-- The counter overflows in a round of the inner loop: it is not greater than before. -/
def Overflows (w : Wrapping) (p : ℕ) (t : LineScan) : Prop := (w.lineRound p t).len ≤ t.len

/-- The counter does not overflow in the line that begins with `s`. -/
def Counts (w : Wrapping) (s : WrapState) : Prop :=
  ∀ t, w.InLine s t → t.len ≤ w.width → t.ptr < w.text.length → ¬w.Overflows s.p t

/-- The counter does not overflow at a line break, in the line that begins with `s`. -/
def BreaksCount (w : Wrapping) (s : WrapState) : Prop :=
  ∀ t, w.InLine s t → t.len ≤ w.width → w.text[t.ptr]?.any isLineBreak = true →
    ¬w.Overflows s.p t

variable {s : WrapState} {t : LineScan}

theorem InLine.round (h : w.InLine s t) (hlen : t.len ≤ w.width) (hptr : t.ptr < w.text.length) :
    w.InLine s (w.lineRound s.p t) := .tail () h trivial ⟨hlen, hptr, rfl⟩

theorem lt_of_any_getElem? {f : UInt8 → Bool} {txt : Text} (h : txt[q]?.any f = true) :
    q < txt.length := by
  by_contra hge
  rw [List.getElem?_eq_none (not_lt.mp hge)] at h
  cases h

theorem Counts.breaksCount (h : w.Counts s) : w.BreaksCount s :=
  fun t ht hlen hbreak => h t ht hlen (lt_of_any_getElem? hbreak)

/-- A counter that is greater than before has not overflowed. -/
theorem unsigned_of_lt {n k : ℕ} (hk : k ≤ w.width) (h : n < unsigned (k + 1)) :
    unsigned (k + 1) = k + 1 := by
  have hlt := w.width_lt
  rw [unsigned] at h ⊢
  rcases Nat.lt_or_ge (k + 1) (2 ^ 32) with hsmall | hlarge
  · exact Nat.mod_eq_of_lt hsmall
  · obtain rfl : k = 2 ^ 32 - 1 := by omega
    exact absurd h (Nat.not_lt_zero n)

/-- The same behind two hyphens of which one is in the last column. -/
theorem unsigned_of_lt_split {n : ℕ} (hn : n + 1 = w.width)
    (h : n < unsigned (unsigned (n + 2) + 1)) : unsigned (unsigned (n + 2) + 1) = w.width + 2 := by
  have hlt := w.width_lt
  rw [unsigned, unsigned] at h ⊢
  omega

/-- A range of spaces. -/
def Spaces (w : Wrapping) (p q : ℕ) : Prop :=
  ∀ i, p ≤ i → i < q → w.text[i]? = some (ch ' ')

/-- A range of spaces, and of bytes that `next_utf8_char` skips. -/
def Blank (w : Wrapping) (p q : ℕ) : Prop :=
  ∀ i, p ≤ i → i < q → ∀ c ∈ w.text[i]?, c = ch ' ' ∨ isSkipped c = true

/-- Line breaks in a range are directly behind hyphens. -/
def BreaksBehind (w : Wrapping) (p q : ℕ) : Prop :=
  ∀ i, p ≤ i → i < q → w.text[i]?.any isLineBreak = true →
    p < i ∧ w.text[i - 1]? = some (ch '-')

/-- A range fits into a line that begins with `s`. -/
def Fits (w : Wrapping) (s : WrapState) (q : ℕ) : Prop :=
  w.Counts s → s.len + numChars (slice w.text s.p q) ≤ w.width

/-- **The invariant of the inner loop**, in a line that begins with `s`, up to a line break. -/
structure Scanned (w : Wrapping) (s : WrapState) (t : LineScan) : Prop where
  wrapped : t.wrapped = s.wrapped
  copies : t.copies = s.copies
  soft : t.softWrap = true
  le : s.p ≤ t.ptr
  start : s.p < t.ptr → w.Start t.ptr
  bound : t.ptr ≤ w.text.length ∨ t.wrapBefore = some w.text.length
  before : ∀ b ∈ t.wrapBefore, s.p < b ∧ b ≤ w.text.length ∧ b ≤ t.ptr
  blank : t.foundVisibleChar = false → t.wrapBefore = none ∧ t.indent = s.indent ∧
    w.Blank s.p t.ptr
  first : t.ptr = s.p → t.foundVisibleChar = false ∧ t.len = s.len
  indent : ∀ k ∈ t.indent, k ≤ maxIndent
  breaks : w.BreaksBehind s.p t.ptr
  column : w.Counts s → t.len ≤ w.width → s.len + numChars (slice w.text s.p t.ptr) ≤ t.len
  columnBefore : ∀ b ∈ t.wrapBefore, w.Fits s b
  columnEnd : w.width < t.len → t.foundVisibleChar = true → t.wrapBefore = none → w.Fits s t.ptr

/-- What the inner loop leaves behind a line break at `q`. -/
structure Broken (w : Wrapping) (s : WrapState) (t : LineScan) (q : ℕ) : Prop where
  le : s.p ≤ q
  lineBreak : w.text[q]?.any isLineBreak = true
  ptr : t.ptr = w.nxt (consumeLineBreak w.text q - 1)
  len : w.width < t.len
  indent : t.indent = none
  soft : t.softWrap = false
  wrapped : t.wrapped = s.wrapped ++ slice w.text s.p q ++ w.lineDelim ∧
      t.copies = s.copies ++ [(s.p, q)] ∨
    t.wrapped = s.wrapped ++ w.lineDelim ∧ t.copies = s.copies ∧ w.Blank s.p q
  breaks : w.BreaksBehind s.p q
  fits : w.Fits s q

theorem scanned_beginLine (hp : s.p ≤ w.text.length) (hindent : ∀ k ∈ s.indent, k ≤ maxIndent) :
    w.Scanned s (beginLine s) where
  wrapped := rfl
  copies := rfl
  soft := rfl
  le := le_rfl
  start := fun hlt => absurd hlt (lt_irrefl _)
  bound := .inl hp
  before := fun b hb => by cases hb
  blank := fun _ => ⟨rfl, rfl, fun i hi hi' => absurd hi (not_le.mpr hi')⟩
  first := fun _ => ⟨rfl, rfl⟩
  indent := hindent
  breaks := fun i hi hi' => absurd hi (not_le.mpr hi')
  column := fun _ _ => by
    rw [beginLine, slice, Nat.sub_self, List.take_zero]
    exact le_rfl
  columnBefore := fun b hb => by cases hb
  columnEnd := fun _ hfound => by cases hfound

theorem Scanned.lt_of_found (h : w.Scanned s t) (hfound : t.foundVisibleChar = true) :
    s.p < t.ptr := by
  refine lt_of_le_of_ne h.le fun heq => ?_
  rw [(h.first heq.symm).1] at hfound
  cases hfound

/-- The cursor moves on, and the place to wrap stays. -/
theorem Scanned.before_of_le (h : w.Scanned s t) (hq : t.ptr ≤ q) {b : ℕ}
    (hb : b ∈ t.wrapBefore) : s.p < b ∧ b ≤ w.text.length ∧ b ≤ q := by
  obtain ⟨hlt, hend, hle⟩ := h.before b hb
  exact ⟨hlt, hend, hle.trans hq⟩

/-- What the line has up to the cursor fits, where the counter is still in the line. -/
theorem Scanned.fits (h : w.Scanned s t) (hlen : t.len ≤ w.width) : w.Fits s t.ptr :=
  fun hcounts => (h.column hcounts hlen).trans hlen

/-- A longer range without a line break in what is added. -/
theorem BreaksBehind.append {r : ℕ} (h : w.BreaksBehind p q)
    (hr : ∀ i, q ≤ i → i < r → w.text[i]?.any isLineBreak = false) : w.BreaksBehind p r := by
  intro i hi hi' hbreak
  by_cases hlt : i < q
  · exact h i hi hlt hbreak
  · rw [hr i (by omega) hi'] at hbreak
    cases hbreak

/-- There is no line break behind a character and before the next. -/
theorem not_lineBreak_of_lt_nxt {i : ℕ} (hi : ptr < i) (hi' : i < w.nxt ptr) :
    w.text[i]?.any isLineBreak = false := by
  cases hget : w.text[i]? with
  | none => rfl
  | some c =>
    obtain ⟨hend, -⟩ := List.getElem?_eq_some_iff.mp hget
    exact not_isLineBreak_of_isSkipped (skipped_of_lt_nxt (by omega) hi hi' c hget)

/-- A character that is not a line break, and the bytes that are skipped behind it. -/
theorem Scanned.breaks_nxt (h : w.Scanned s t) {c : UInt8} (hc : w.text[t.ptr]? = some c)
    (hbreak : isLineBreak c = false) : w.BreaksBehind s.p (w.nxt t.ptr) := by
  refine h.breaks.append fun i hi hi' => ?_
  rcases Nat.eq_or_lt_of_le hi with rfl | hbehind
  · rw [hc, Option.any_some, hbreak]
  · exact not_lineBreak_of_lt_nxt hbehind hi'

/-- Columns up to the next character. -/
theorem Scanned.column_nxt (h : w.Scanned s t) (hcounts : w.Counts s) (hlen : t.len ≤ w.width) :
    s.len + numChars (slice w.text s.p (w.nxt t.ptr)) ≤ t.len + 1 := by
  have hcol := h.column hcounts hlen
  have hslice : numChars (slice w.text s.p (w.nxt t.ptr)) ≤
    numChars (slice w.text s.p t.ptr) + 1 := numChars_nxt h.le
  omega

/-- The counter behind a round in which it does not overflow. -/
theorem Counts.unsigned_eq (hcounts : w.Counts s) (ht : w.InLine s t) (hlen : t.len ≤ w.width)
    (hptr : t.ptr < w.text.length) {k : ℕ} (hround : (w.lineRound s.p t).len = unsigned (k + 1))
    (hk : k ≤ w.width) : unsigned (k + 1) = k + 1 := by
  have hover := hcounts t ht hlen hptr
  rw [Overflows, hround] at hover
  exact unsigned_of_lt hk (not_le.mp hover)

/-- A space. -/
theorem Scanned.blank_round (h : w.Scanned s t) (hlen : t.len ≤ w.width)
    (hc : w.text[t.ptr]? = some (ch ' '))
    (hunsigned : w.Counts s → unsigned (t.len + 1) = t.len + 1) :
    w.Scanned s (w.advance { t with
      wrapBefore := if t.foundVisibleChar then some t.ptr else t.wrapBefore }) := by
  obtain ⟨hend, -⟩ := List.getElem?_eq_some_iff.mp hc
  have hle := h.le
  have hlt := lt_nxt w t.ptr
  refine
    { wrapped := h.wrapped, copies := h.copies, soft := h.soft, le := ?_, start := ?_, bound := ?_,
      before := ?_, blank := ?_, first := ?_, indent := h.indent,
      breaks := h.breaks_nxt hc (by decide), column := ?_, columnBefore := ?_, columnEnd := ?_ }
  all_goals simp only [advance_ptr, advance_len, advance_foundVisibleChar, advance_wrapBefore,
    advance_indent]
  · omega
  · exact fun _ => start_nxt hend
  · exact .inl (nxt_le hend)
  · intro b hb
    split_ifs at hb with hfound
    · obtain rfl := Option.some.inj hb
      exact ⟨h.lt_of_found hfound, hend.le, hlt.le⟩
    · exact h.before_of_le hlt.le hb
  · -- up to the first visible character, there is nothing but spaces
    intro hfound
    obtain ⟨h₁, h₂, h₃⟩ := h.blank hfound
    refine ⟨?_, h₂, fun i hi hi' c hget => ?_⟩
    · rw [hfound, if_neg Bool.false_ne_true, h₁]
    · rcases lt_trichotomy i t.ptr with hbefore | rfl | hbehind
      · exact h₃ i hi hbefore c hget
      · exact .inl (Option.some.inj (hget.symm.trans hc))
      · exact .inr (skipped_of_lt_nxt hend hbehind hi' c hget)
  · intro heq
    omega
  · intro hcounts _
    rw [hunsigned hcounts]
    exact h.column_nxt hcounts hlen
  · intro b hb
    split_ifs at hb with hfound
    · obtain rfl := Option.some.inj hb
      exact h.fits hlen
    · exact h.columnBefore b hb
  · intro _ hfound hnone
    rw [if_pos hfound] at hnone
    cases hnone

/-- At the first byte of a line, a character in the last column is a byte that is skipped, and the
cursor moves on to the next one that is not. -/
theorem Scanned.skipped_of_full (h : w.Scanned s t) (hroom : w.HasRoom s) {c : UInt8}
    (hc : w.text[t.ptr]? = some c) (hbreak : isLineBreak c = false) (hfull : t.len = w.width)
    (hfirst : s.p = t.ptr) :
    t.ptr < w.nxt (t.ptr - 1) ∧
      ∀ i, s.p ≤ i → i < w.nxt (t.ptr - 1) → ∀ d ∈ w.text[i]?, isSkipped d = true := by
  obtain ⟨hptr, -⟩ := List.getElem?_eq_some_iff.mp hc
  obtain ⟨-, hlen⟩ := h.first hfirst.symm
  have hskipped : isSkipped c = true := by
    rcases hroom with hroom | ⟨-, hroom⟩
    · omega
    · refine (hroom c (hfirst ▸ hc)).resolve_left fun hbreak' => ?_
      rw [hbreak] at hbreak'
      cases hbreak'
  have hmoves : t.ptr < w.nxt (t.ptr - 1) := by
    refine lt_of_le_of_ne (Nat.le_of_pred_lt (lt_nxt w (t.ptr - 1))) fun heq => ?_
    have hstart := start_nxt (w := w) (show t.ptr - 1 < w.text.length by omega) c (heq ▸ hc)
    rw [hskipped] at hstart
    cases hstart
  refine ⟨hmoves, fun i hi hi' d hd => ?_⟩
  rcases Nat.eq_or_lt_of_le (hfirst ▸ hi) with rfl | hbehind
  · rwa [Option.some.inj (hd.symm.trans hc)]
  · exact skipped_of_lt_nxt (by omega) (show t.ptr - 1 < i by omega) hi' d hd

/-- A character in the last column: the cursor goes back, and comes to it again. Where it is the
first byte of the line, it is skipped. -/
theorem Scanned.back_round (h : w.Scanned s t) (hroom : w.HasRoom s) {c : UInt8}
    (hc : w.text[t.ptr]? = some c) (hbreak : isLineBreak c = false) (hfull : t.len = w.width)
    (hunsigned : w.Counts s → unsigned (t.len + 1) = t.len + 1) :
    w.Scanned s (w.advance { t with ptr := t.ptr - 1 }) := by
  obtain ⟨hptr, -⟩ := List.getElem?_eq_some_iff.mp hc
  have hover : w.Counts s → ¬unsigned (t.len + 1) ≤ w.width := by
    intro hcounts
    rw [hunsigned hcounts, hfull]
    exact Nat.not_succ_le_self _
  rcases Nat.eq_or_lt_of_le h.le with hfirst | hlt
  · obtain ⟨hmoves, hrange⟩ := h.skipped_of_full hroom hc hbreak hfull hfirst
    obtain ⟨hfound, -⟩ := h.first hfirst.symm
    obtain ⟨hnone, hindent, -⟩ := h.blank hfound
    refine
      { wrapped := h.wrapped, copies := h.copies, soft := h.soft, le := ?_, start := ?_,
        bound := ?_, before := ?_, blank := ?_, first := ?_, indent := h.indent,
        breaks := ?_, column := ?_, columnBefore := h.columnBefore, columnEnd := ?_ }
    all_goals simp only [advance_ptr, advance_len, advance_foundVisibleChar, advance_wrapBefore,
      advance_indent]
    · omega
    · exact fun _ => start_nxt (by omega)
    · exact .inl (nxt_le (by omega))
    · intro b hb
      rw [hnone] at hb
      cases hb
    · exact fun _ => ⟨hnone, hindent, fun i hi hi' d hd => .inr (hrange i hi hi' d hd)⟩
    · intro heq
      omega
    · intro i hi hi' hany
      obtain ⟨d, hd, hbreak'⟩ := (Option.any_eq_true _ _).mp hany
      rw [not_isLineBreak_of_isSkipped (hrange i hi hi' d hd)] at hbreak'
      cases hbreak'
    · exact fun hcounts hle => absurd hle (hover hcounts)
    · intro _ hfound'
      rw [hfound] at hfound'
      cases hfound'
  · have hnxt : w.nxt (t.ptr - 1) = t.ptr := nxt_pred (h.start hlt) (by omega) hptr.le
    refine
      { wrapped := h.wrapped, copies := h.copies, soft := h.soft, le := ?_, start := ?_,
        bound := ?_, before := ?_, blank := ?_, first := ?_, indent := h.indent,
        breaks := ?_, column := ?_, columnBefore := h.columnBefore, columnEnd := ?_ }
    all_goals simp only [advance_ptr, advance_len, advance_foundVisibleChar, advance_wrapBefore,
      advance_indent, hnxt]
    · exact h.le
    · exact h.start
    · exact h.bound
    · exact h.before
    · exact h.blank
    · intro heq
      omega
    · exact h.breaks
    · exact fun hcounts hle => absurd hle (hover hcounts)
    · exact fun _ _ _ => h.fits hfull.le

/-- Hyphens behind something visible, and the character behind them. -/
theorem Scanned.hyphens_round (h : w.Scanned s t) {stop n : ℕ}
    (hstop : stop = t.ptr + n) (hn : 0 < n)
    (hend : stop ≤ w.text.length) (hlen : t.len + n ≤ w.width) (hfound : t.foundVisibleChar = true)
    (hc : ∀ i, t.ptr ≤ i → i < stop → w.text[i]? = some (ch '-'))
    (hunsigned : w.Counts s → unsigned (t.len + n + 1) = t.len + n + 1) :
    w.Scanned s (w.advance { t with ptr := stop, len := t.len + n, wrapBefore := some stop }) := by
  have hle := h.le
  have hlt := lt_nxt w stop
  have hlast : w.text[stop - 1]? = some (ch '-') := hc (stop - 1) (by omega) (by omega)
  have hcolumn : w.Counts s → s.len + numChars (slice w.text s.p stop) ≤ t.len + n := by
    intro hcounts
    have hcol := h.column hcounts (by omega)
    have hslice : numChars (slice w.text s.p stop) ≤ numChars (slice w.text s.p t.ptr) +
      (stop - t.ptr) := numChars_slice_le hle (by omega)
    omega
  refine
    { wrapped := h.wrapped, copies := h.copies, soft := h.soft, le := ?_, start := ?_, bound := ?_,
      before := ?_, blank := ?_, first := ?_, indent := h.indent,
      breaks := ?_, column := ?_, columnBefore := ?_, columnEnd := ?_ }
  all_goals simp only [advance_ptr, advance_len, advance_foundVisibleChar, advance_wrapBefore,
    advance_indent]
  · omega
  · -- `next_utf8_char` may be called at the NUL
    intro _
    by_cases hstop' : stop < w.text.length
    · exact start_nxt hstop'
    · intro c hc
      rw [List.getElem?_eq_none (by omega)] at hc
      cases hc
  · rcases Nat.eq_or_lt_of_le hend with rfl | hlt
    · exact .inr rfl
    · exact .inl (nxt_le hlt)
  · intro b hb
    obtain rfl := Option.some.inj hb
    exact ⟨by omega, hend, hlt.le⟩
  · intro hnot
    rw [hfound] at hnot
    cases hnot
  · intro heq
    omega
  · -- a line break is before the hyphens, or is the character right behind them
    intro i hi hi' hbreak
    by_cases hold : i < t.ptr
    · exact h.breaks i hi hold hbreak
    by_cases hhyphen : i < stop
    · rw [hc i (by omega) hhyphen] at hbreak
      exact absurd hbreak (by decide)
    rcases Nat.eq_or_lt_of_le (not_lt.mp hhyphen) with rfl | hbehind
    · exact ⟨by omega, hlast⟩
    · rw [not_lineBreak_of_lt_nxt hbehind hi'] at hbreak
      cases hbreak
  · intro hcounts _
    have hcol := hcolumn hcounts
    have hslice : numChars (slice w.text s.p (w.nxt stop)) ≤
      numChars (slice w.text s.p stop) + 1 := numChars_nxt (by omega)
    rw [hunsigned hcounts]
    omega
  · intro b hb
    obtain rfl := Option.some.inj hb
    exact fun hcounts => (hcolumn hcounts).trans hlen
  · intro _ _ hnone
    cases hnone

/-- Two hyphens of which one is in the last column. -/
theorem Scanned.split_round (h : w.Scanned s t)
    (hlen : t.len + 1 = w.width) (hfound : t.foundVisibleChar = true)
    (hc : w.text[t.ptr]? = some (ch '-'))
    (hunsigned : w.Counts s → unsigned (unsigned (t.len + 2) + 1) = w.width + 2) :
    w.Scanned s (w.advance { t with len := unsigned (t.len + 2) }) := by
  obtain ⟨hend, -⟩ := List.getElem?_eq_some_iff.mp hc
  have hle := h.le
  have hlt := lt_nxt w t.ptr
  refine
    { wrapped := h.wrapped, copies := h.copies, soft := h.soft, le := ?_, start := ?_, bound := ?_,
      before := ?_, blank := ?_, first := ?_, indent := h.indent,
      breaks := h.breaks_nxt hc (by decide), column := ?_, columnBefore := h.columnBefore,
      columnEnd := ?_ }
  all_goals simp only [advance_ptr, advance_len, advance_foundVisibleChar, advance_wrapBefore,
    advance_indent]
  · omega
  · exact fun _ => start_nxt hend
  · exact .inl (nxt_le hend)
  · exact fun b hb => h.before_of_le hlt.le hb
  · intro hnot
    rw [hfound] at hnot
    cases hnot
  · intro heq
    omega
  · intro hcounts hle'
    rw [hunsigned hcounts] at hle'
    omega
  · intro _ _ _ hcounts
    have hcol := h.column_nxt hcounts (by omega)
    omega

/-- Something visible. -/
theorem Scanned.visible_round (h : w.Scanned s t) {c : UInt8}
    (hc : w.text[t.ptr]? = some c) (hbreak : isLineBreak c = false) (hlen : t.len < w.width) :
    w.Scanned s (w.advance (if t.foundVisibleChar then t else foundVisible s.p t)) := by
  obtain ⟨hend, -⟩ := List.getElem?_eq_some_iff.mp hc
  have hle := h.le
  have hlt := lt_nxt w t.ptr
  -- only the indentation depends on whether this is the first visible character
  obtain ⟨indent, heq, hindent⟩ : ∃ indent : Option ℕ,
      (if t.foundVisibleChar then t else foundVisible s.p t) =
        { t with foundVisibleChar := true, indent := indent } ∧ ∀ k ∈ indent, k ≤ maxIndent := by
    cases hfound : t.foundVisibleChar with
    | true =>
      refine ⟨t.indent, ?_, h.indent⟩
      rw [if_pos rfl, ← hfound]
    | false =>
      refine ⟨_, if_neg Bool.false_ne_true, fun k hk => ?_⟩
      split_ifs at hk with hgt
      · obtain rfl := Option.some.inj hk
        exact Nat.min_le_left _ _
      · exact h.indent k hk
  rw [heq]
  refine
    { wrapped := h.wrapped, copies := h.copies, soft := h.soft, le := ?_, start := ?_, bound := ?_,
      before := ?_, blank := ?_, first := ?_, indent := hindent,
      breaks := h.breaks_nxt hc hbreak, column := ?_, columnBefore := h.columnBefore,
      columnEnd := ?_ }
  all_goals simp only [advance_ptr, advance_len, advance_foundVisibleChar, advance_wrapBefore,
    advance_indent, unsigned_of_le hlen]
  · omega
  · exact fun _ => start_nxt hend
  · exact .inl (nxt_le hend)
  · exact fun b hb => h.before_of_le hlt.le hb
  · intro hnot
    cases hnot
  · intro heq
    omega
  · exact fun hcounts _ => h.column_nxt hcounts hlen.le
  · intro hlt'
    omega

theorem consumeLineBreak_eq {txt : Text} {c : UInt8} (hc : txt[q]? = some c) :
    consumeLineBreak txt q =
      if c = ch '\r' ∧ txt[q + 1]? = some (ch '\n') then q + 2 else q + 1 := by
  rw [consumeLineBreak]
  simp only [hc, Option.some.injEq]

/-- A line break. -/
theorem Scanned.lineBreak_round (h : w.Scanned s t) (hlen : t.len ≤ w.width) {c : UInt8}
    (hc : w.text[t.ptr]? = some c) (hbreak : isLineBreak c = true)
    (hunsigned : unsigned (w.width + 1) = w.width + 1) :
    w.Broken s (w.advance { t with
      ptr := if c = ch '\r' ∧ w.text[t.ptr + 1]? = some (ch '\n') then t.ptr + 1 else t.ptr
      len := w.width
      indent := none
      softWrap := false
      wrapped := t.wrapped ++ (if t.foundVisibleChar then slice w.text s.p t.ptr else []) ++
        w.lineDelim
      copies := t.copies ++ if t.foundVisibleChar then [(s.p, t.ptr)] else [] }) t.ptr := by
  refine
    { le := h.le, lineBreak := ?_, ptr := ?_, len := ?_, indent := rfl, soft := rfl,
      wrapped := ?_, breaks := h.breaks, fits := h.fits hlen }
  · rw [hc, Option.any_some, hbreak]
  · rw [advance_ptr, consumeLineBreak_eq hc]
    dsimp only
    split_ifs
    · rfl
    · rfl
  · rw [advance_len, hunsigned]
    exact Nat.lt_succ_self _
  · simp only [advance_wrapped, advance_copies, h.wrapped, h.copies]
    cases hfound : t.foundVisibleChar with
    | true =>
      rw [if_pos rfl, if_pos rfl]
      exact .inl ⟨rfl, rfl⟩
    | false =>
      rw [if_neg Bool.false_ne_true, if_neg Bool.false_ne_true, List.append_nil, List.append_nil]
      exact .inr ⟨rfl, rfl, (h.blank hfound).2.2⟩

/-- **A round of the inner loop.** -/
theorem Scanned.round (h : w.Scanned s t) (ht : w.InLine s t) (hroom : w.HasRoom s)
    (hcounts : w.BreaksCount s) (hlen : t.len ≤ w.width) (hptr : t.ptr < w.text.length) :
    w.Scanned s (w.lineRound s.p t) ∨ ∃ q, w.Broken s (w.lineRound s.p t) q := by
  obtain ⟨t', ht', hround⟩ := lineRound_cases (p := s.p) hlen hptr
  have hround' := congrArg LineScan.len hround
  rw [hround]
  cases ht' with
  | blank hc =>
    exact .inl (h.blank_round hlen hc fun hcounts => hcounts.unsigned_eq ht hlen hptr hround' hlen)
  | back c hc hblank hbreak hfull =>
    exact .inl (h.back_round hroom hc hbreak hfull fun hcounts =>
      hcounts.unsigned_eq ht hlen hptr hround' hlen)
  | hyphens stop n hstop hn hle hlen' hfound hc =>
    exact .inl (h.hyphens_round hstop hn hle hlen' hfound hc fun hcounts =>
      hcounts.unsigned_eq ht hlen hptr hround' hlen')
  | split hlen' hfound hc hnext =>
    refine .inl (h.split_round hlen' hfound hc fun hcounts => ?_)
    have hover := hcounts t ht hlen hptr
    rw [Overflows, hround, advance_len] at hover
    exact unsigned_of_lt_split hlen' (not_le.mp hover)
  | visible c hc hblank hbreak hlt => exact .inl (h.visible_round hc hbreak hlt)
  | lineBreak c hc hbreak =>
    have hover := hcounts t ht hlen (by rw [hc, Option.any_some, hbreak])
    rw [Overflows, hround, advance_len] at hover
    exact .inr ⟨t.ptr, h.lineBreak_round hlen hc hbreak
      (unsigned_of_lt le_rfl (not_le.mp hover))⟩

/-- The states of the inner loop. -/
theorem InLine.scanned (h : w.InLine s t) (hp : s.p ≤ w.text.length)
    (hindent : ∀ k ∈ s.indent, k ≤ maxIndent) (hroom : w.HasRoom s) (hcounts : w.BreaksCount s) :
    w.Scanned s t ∨ ∃ q, w.Broken s t q := by
  refine (Reaches.invariant (P := fun t => w.InLine s t ∧ (w.Scanned s t ∨ ∃ q, w.Broken s t q)) h
    ⟨.refl, .inl (scanned_beginLine hp hindent)⟩ ?_).2
  rintro t _ - ⟨ht, h | ⟨q, h⟩⟩ - ⟨hlen, hptr, rfl⟩
  · exact ⟨ht.round hlen hptr, h.round ht hroom hcounts hlen hptr⟩
  · exact absurd hlen (not_le.mpr h.len)

theorem inLine_scanLine (w : Wrapping) (s : WrapState) :
    w.InLine s (w.scanLine s.p (beginLine s)) :=
  (scanLine_invariant (I := w.InLine s) (fun _ h hlen hptr => h.round hlen hptr) .refl).1

/-- The inner loop ends behind the last column, or at the end of the text. -/
theorem scanLine_ended (w : Wrapping) (p : ℕ) (t : LineScan) :
    w.width < (w.scanLine p t).len ∨ w.text.length ≤ (w.scanLine p t).ptr :=
  (scanLine_invariant (I := fun _ => True) (fun _ _ _ _ => trivial) trivial).2

/-! ### A round of the outer loop -/

/-- All that a round of the outer loop can do. -/
inductive Round (w : Wrapping) (s : WrapState) : WrapState → Prop where
  | shortcut (h : w.Shortcut s) :
      Round w s { s with
        p := w.text.length
        wrapped := s.wrapped ++ slice w.text s.p w.text.length }
  | last (len : ℕ) (indent : Option ℕ) (h : ¬w.Shortcut s)
      (hbreaks : w.BreaksBehind s.p w.text.length) (hfits : w.Fits s w.text.length) :
      Round w s
        { p := w.text.length, len, indent
          wrapped := s.wrapped ++ slice w.text s.p w.text.length
          copies := s.copies ++ [(s.p, w.text.length)] }
  | wrap (t : LineScan) (b p : ℕ) (h : ¬w.Shortcut s) (ht : w.InLine s t) (hscan : w.Scanned s t)
      (hat : b = t.wrapBefore.getD t.ptr) (hb : s.p < b) (hp : b ≤ p) (hend : p ≤ w.text.length)
      (hspaces : w.Spaces b p) (hstop : w.text[p]? ≠ some (ch ' '))
      (hbreaks : w.BreaksBehind s.p b) (hfits : w.Blank s.p b ∨ w.Fits s b) :
      Round w s
        { p, len := t.indent.getD 0 + 1, indent := t.indent
          wrapped := s.wrapped ++ slice w.text s.p b ++ w.lineDelim ++
            List.replicate (t.indent.getD 0) (ch ' ')
          copies := s.copies ++ [(s.p, b)] }
  | lineBreak (q : ℕ) (wrapped : Text) (copies : List (ℕ × ℕ)) (h : ¬w.Shortcut s) (hq : s.p ≤ q)
      (hbreak : w.text[q]?.any isLineBreak = true) (hbreaks : w.BreaksBehind s.p q)
      (hfits : w.Fits s q)
      (hwrapped : wrapped = s.wrapped ++ slice w.text s.p q ++ w.lineDelim ∧
          copies = s.copies ++ [(s.p, q)] ∨
        wrapped = s.wrapped ++ w.lineDelim ∧ copies = s.copies ∧ w.Blank s.p q) :
      Round w s
        { p := w.nxt (consumeLineBreak w.text q - 1), len := 1, indent := none, wrapped, copies }

/-- The place where a line is wrapped. -/
theorem Scanned.wrap_at (h : w.Scanned s t) (hroom : w.HasRoom s) (hp : s.p < w.text.length)
    (hend : w.width < t.len ∨ w.text.length ≤ t.ptr) :
    let b := t.wrapBefore.getD t.ptr
    s.p < b ∧ b ≤ w.text.length ∧ b ≤ t.ptr ∧ (w.Blank s.p b ∨ w.Fits s b) := by
  cases hbefore : t.wrapBefore with
  | some b =>
    obtain ⟨h₁, h₂, h₃⟩ := h.before b hbefore
    exact ⟨h₁, h₂, h₃, .inr (h.columnBefore b hbefore)⟩
  | none =>
    have hle : t.ptr ≤ w.text.length := h.bound.resolve_right fun heq => by
      rw [hbefore] at heq
      cases heq
    have hlt : s.p < t.ptr := by
      refine lt_of_le_of_ne h.le fun heq => ?_
      have hlen := (h.first heq.symm).2
      rcases hroom with hroom | ⟨hroom, -⟩
      · omega
      · omega
    refine ⟨hlt, hle, le_rfl, ?_⟩
    cases hfound : t.foundVisibleChar with
    | false => exact .inl (h.blank hfound).2.2
    | true =>
      rcases Nat.lt_or_ge w.width t.len with hlen | hlen
      · exact .inr (h.columnEnd hlen hfound hbefore)
      · exact .inr (h.fits hlen)

theorem unsigned_indent (h : ∀ k ∈ t.indent, k ≤ maxIndent) :
    unsigned (t.indent.getD 0 + 1) = t.indent.getD 0 + 1 := by
  refine Nat.mod_eq_of_lt ?_
  cases hindent : t.indent with
  | none => exact (by decide : 0 + 1 < 2 ^ 32)
  | some k =>
    have hle : k ≤ 64 := h k hindent
    exact show k + 1 < 2 ^ 32 by omega

theorem Scanned.wrap_round (h : w.Scanned s t) (ht : w.InLine s t) (hroom : w.HasRoom s)
    (hcut : ¬w.Shortcut s) (hp : s.p < w.text.length)
    (hend : w.width < t.len ∨ w.text.length ≤ t.ptr) : w.Round s (w.insertSoftWrap s.p t) := by
  obtain ⟨hb, hle, hptr, hfits⟩ := h.wrap_at hroom hp hend
  rw [insertSoftWrap, unsigned_indent h.indent, h.wrapped, h.copies]
  refine .wrap t _ _ hcut ht h rfl hb (le_scanWhile _ _ _) (scanWhile_le hle)
    (fun i hi hi' => by simpa using of_lt_scanWhile hi hi') (fun hspace => ?_)
    (fun i hi hi' => h.breaks i hi (hi'.trans_le hptr)) hfits
  obtain ⟨hlt, -⟩ := List.getElem?_eq_some_iff.mp hspace
  have hstop := scanWhile_stop hlt
  rw [hspace, decide_eq_true rfl] at hstop
  cases hstop

/-- **A round of the outer loop.** -/
theorem wrapRound_round (hindent : ∀ k ∈ s.indent, k ≤ maxIndent) (hp : s.p < w.text.length)
    (hroom : ¬w.Shortcut s → w.HasRoom s) (hcounts : ¬w.Shortcut s → w.BreaksCount s) :
    w.Round s (w.wrapRound s) := by
  by_cases hcut : w.Shortcut s
  · have hround := Round.shortcut hcut
    rw [wrapRound]
    exact (if_pos hcut).symm ▸ hround
  have hround : w.wrapRound s = _ := if_neg hcut
  rw [hround]
  have ht := inLine_scanLine w s
  have hend := scanLine_ended w s.p (beginLine s)
  dsimp only
  set t := w.scanLine s.p (beginLine s)
  rcases ht.scanned hp.le hindent (hroom hcut) (hcounts hcut) with h | ⟨q, h⟩
  · split_ifs with hlast hsoft
    · obtain ⟨hptr, hlen⟩ := hlast
      rw [h.wrapped, h.copies, hptr]
      exact .last _ _ hcut (hptr ▸ h.breaks) (hptr ▸ h.fits hlen.le)
    · exact h.wrap_round ht (hroom hcut) hcut hp hend
    · exact absurd h.soft hsoft
  · have hlast : ¬(t.ptr = w.text.length ∧ t.len < w.width) := fun hlast =>
      absurd hlast.2 (not_lt.mpr h.len.le)
    rw [if_neg hlast, if_neg (by rw [h.soft]; exact Bool.false_ne_true), h.ptr, h.indent]
    exact .lineBreak q _ _ hcut h.le h.lineBreak h.breaks h.fits h.wrapped

end Wrapping

end Intent.Old
