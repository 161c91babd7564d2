import Intent.Library.Gen
import Intent.Old.Lexer
import Intent.Old.UnicodeText

/-!
# `wrap_lines`

`core/text/wrap_lines.cpp` breaks a text into lines of a given width. A pointer into the text is
its offset. The outer loop is at the beginning of a line. The inner loop (`scanLine`) looks for the
end of the line, with a cursor that it moves by `next_utf8_char`, and a counter for the columns that
has 32 bits.

`lineRound_cases` says what a round of the inner loop can do. From it the inner loop ends, whatever
the text is. The outer loop does not have to.
-/

namespace Intent.Old

/-! ### The function -/

/-- The arguments of a call of `wrap_lines`. The text is followed by a NUL. `stray` is the number of
bytes that `next_utf8_char` skips if it is called at the NUL, and depends on the memory there. -/
structure Wrapping where
  text : Text
  stray : ℕ
  width : ℕ
  width_lt : width < 2 ^ 32
  lineDelim : Text

/-- The variables of the inner loop, and the ranges of the text that were copied as lines so far. -/
structure LineScan where
  ptr : ℕ
  /-- `len_after_this_char`, an `unsigned`. -/
  len : ℕ
  foundVisibleChar : Bool
  wrapBefore : Option ℕ
  /-- The number of spaces that `indent` is behind `EIGHTY_SPACES`, if it is not null. -/
  indent : Option ℕ
  softWrap : Bool
  wrapped : Text
  copies : List (ℕ × ℕ)
  deriving DecidableEq, Repr

/-- The variables of the outer loop, and the ranges of the text that were copied as lines so far. -/
structure WrapState where
  p : ℕ
  len : ℕ
  indent : Option ℕ
  wrapped : Text
  copies : List (ℕ × ℕ)
  deriving DecidableEq, Repr

/-- A value of type `unsigned`. -/
def unsigned (n : ℕ) : ℕ := n % 2 ^ 32

/-- `MAX_INDENT`. -/
def maxIndent : ℕ := 64

namespace Wrapping

variable (w : Wrapping)

/-- `nxt`, which is `next_utf8_char`. -/
def nxt (ptr : ℕ) : ℕ :=
  if ptr < w.text.length then ptr + nextUtf8Char (w.text.drop ptr) else ptr + 1 + w.stray

/-- `find_best_hyphen_wrap`. -/
def findBestHyphenWrap (s : LineScan) : LineScan :=
  let doubleHyphen := w.text[s.ptr + 1]? = some (ch '-')
  let manyHyphens := w.text[s.ptr - 1]? = some (ch '-') ∨
    (doubleHyphen ∧ w.text[s.ptr + 2]? = some (ch '-'))
  if manyHyphens then
    -- the loop ends at the end of the text, in the last column, or behind the hyphens
    let stop := scanWhile (fun i => w.text[i]? = some (ch '-')) s.ptr
      (min w.text.length (s.ptr + (w.width - s.len)))
    { s with ptr := stop, len := unsigned (s.len + (stop - s.ptr)), wrapBefore := some stop }
  else if doubleHyphen then
    if s.len < w.width - 1 then
      { s with ptr := s.ptr + 2, len := unsigned (s.len + 2), wrapBefore := some (s.ptr + 2) }
    else { s with len := unsigned (s.len + 2) }
  else { s with ptr := s.ptr + 1, len := unsigned (s.len + 1), wrapBefore := some (s.ptr + 1) }

/-- The first visible character of a line that begins at `p`. -/
def foundVisible (p : ℕ) (s : LineScan) : LineScan :=
  { s with
    foundVisibleChar := true
    indent := if s.ptr > p then some (min maxIndent (s.ptr - p)) else s.indent }

/-- The `switch` of the inner loop, for a line that begins at `p`. -/
def examine (p : ℕ) (s : LineScan) : LineScan :=
  let c := byteAt w.text s.ptr
  if c = ch ' ' then if s.foundVisibleChar then { s with wrapBefore := some s.ptr } else s
  else if c = ch '-' then
    if s.len = w.width then { s with ptr := s.ptr - 1 }
    else if s.foundVisibleChar then w.findBestHyphenWrap s
    else foundVisible p s
  else if isLineBreak c then
    { s with
      ptr := if c = ch '\r' ∧ w.text[s.ptr + 1]? = some (ch '\n') then s.ptr + 1 else s.ptr
      len := w.width
      indent := none
      softWrap := false
      wrapped := s.wrapped ++ (if s.foundVisibleChar then slice w.text p s.ptr else []) ++
        w.lineDelim
      copies := s.copies ++ if s.foundVisibleChar then [(p, s.ptr)] else [] }
  else if s.len = w.width then { s with ptr := s.ptr - 1 }
  else if s.foundVisibleChar then s
  else foundVisible p s

/-- The step of the inner loop to the next character. -/
def advance (t : LineScan) : LineScan :=
  { t with ptr := w.nxt t.ptr, len := unsigned (t.len + 1) }

/-- A round of the inner loop. -/
def lineRound (p : ℕ) (s : LineScan) : LineScan := w.advance (w.examine p s)

/-! ### A round of the inner loop -/

/-- The character at an offset is not skipped by `next_utf8_char`. -/
def Start (ptr : ℕ) : Prop := ∀ c ∈ w.text[ptr]?, isSkipped c = false

/-- All that the `switch` of the inner loop can do. -/
inductive Examined (p : ℕ) (s : LineScan) : LineScan → Prop where
  | blank (hc : w.text[s.ptr]? = some (ch ' ')) :
      Examined p s { s with
        wrapBefore := if s.foundVisibleChar then some s.ptr else s.wrapBefore }
  | back (c : UInt8) (hc : w.text[s.ptr]? = some c) (hblank : c ≠ ch ' ')
      (hbreak : isLineBreak c = false) (hlen : s.len = w.width) :
      Examined p s { s with ptr := s.ptr - 1 }
  | hyphens (stop n : ℕ) (hstop : stop = s.ptr + n) (hn : 0 < n) (hle : stop ≤ w.text.length)
      (hlen : s.len + n ≤ w.width) (hfound : s.foundVisibleChar = true)
      (hc : ∀ i, s.ptr ≤ i → i < stop → w.text[i]? = some (ch '-')) :
      Examined p s { s with ptr := stop, len := s.len + n, wrapBefore := some stop }
  | split (hlen : s.len + 1 = w.width) (hfound : s.foundVisibleChar = true)
      (hc : w.text[s.ptr]? = some (ch '-')) (hnext : w.text[s.ptr + 1]? = some (ch '-')) :
      Examined p s { s with len := unsigned (s.len + 2) }
  | visible (c : UInt8) (hc : w.text[s.ptr]? = some c) (hblank : c ≠ ch ' ')
      (hbreak : isLineBreak c = false) (hlen : s.len < w.width) :
      Examined p s (if s.foundVisibleChar then s else foundVisible p s)
  | lineBreak (c : UInt8) (hc : w.text[s.ptr]? = some c) (hbreak : isLineBreak c = true) :
      Examined p s { s with
        ptr := if c = ch '\r' ∧ w.text[s.ptr + 1]? = some (ch '\n') then s.ptr + 1 else s.ptr
        len := w.width
        indent := none
        softWrap := false
        wrapped := s.wrapped ++ (if s.foundVisibleChar then slice w.text p s.ptr else []) ++
          w.lineDelim
        copies := s.copies ++ if s.foundVisibleChar then [(p, s.ptr)] else [] }

variable {w} {p ptr : ℕ} {s : LineScan}

theorem unsigned_of_le {n : ℕ} (h : n ≤ w.width) : unsigned n = n :=
  Nat.mod_eq_of_lt (h.trans_lt w.width_lt)

/-- Hyphens that are found in a line, behind something visible. -/
theorem findBestHyphenWrap_examined (hfound : s.foundVisibleChar = true)
    (hc : w.text[s.ptr]? = some (ch '-')) (hlen : s.len < w.width) :
    w.Examined p s (w.findBestHyphenWrap s) := by
  obtain ⟨hptr, -⟩ := List.getElem?_eq_some_iff.mp hc
  rw [findBestHyphenWrap]
  dsimp only
  split_ifs with hmany hdouble hfits
  · set limit := min w.text.length (s.ptr + (w.width - s.len)) with hlimit
    set stop := scanWhile (fun i => w.text[i]? = some (ch '-')) s.ptr limit with hstop
    have hle : stop ≤ limit := scanWhile_le (by omega)
    have hlt : s.ptr < stop := by
      rw [hstop, scanWhile_of_true (by omega) (by simpa using hc)]
      exact Nat.lt_of_lt_of_le (Nat.lt_succ_self _) (le_scanWhile _ _ _)
    have hlen' : s.len + (stop - s.ptr) ≤ w.width := by omega
    rw [unsigned_of_le hlen']
    refine .hyphens stop _ (by omega) (by omega) (by omega) hlen' hfound fun i hi hi' => ?_
    simpa using of_lt_scanWhile hi hi'
  · obtain ⟨hnext, -⟩ := List.getElem?_eq_some_iff.mp hdouble
    have hlen' : s.len + 2 ≤ w.width := by omega
    rw [unsigned_of_le hlen']
    refine .hyphens _ 2 rfl (by omega) (by omega) hlen' hfound fun i hi hi' => ?_
    obtain rfl | rfl : i = s.ptr ∨ i = s.ptr + 1 := by omega
    · exact hc
    · exact hdouble
  · exact .split (by omega) hfound hc hdouble
  · have hlen' : s.len + 1 ≤ w.width := hlen
    rw [unsigned_of_le hlen']
    refine .hyphens _ 1 rfl (by omega) (by omega) hlen' hfound fun i hi hi' => ?_
    obtain rfl : i = s.ptr := by omega
    exact hc

theorem examine_examined (hlen : s.len ≤ w.width) (hptr : s.ptr < w.text.length) :
    w.Examined p s (w.examine p s) := by
  obtain ⟨c, hc⟩ : ∃ c, w.text[s.ptr]? = some c := ⟨_, List.getElem?_eq_getElem hptr⟩
  have hbyte : byteAt w.text s.ptr = c := by
    rw [byteAt, List.getD_eq_getElem?_getD, hc, Option.getD_some]
  rw [examine, hbyte]
  by_cases hblank : c = ch ' '
  · subst hblank
    rw [if_pos rfl]
    have hexamined := Examined.blank (w := w) (p := p) hc
    by_cases hfound : s.foundVisibleChar = true
    · rw [if_pos hfound] at hexamined ⊢
      exact hexamined
    · rw [if_neg hfound] at hexamined ⊢
      exact hexamined
  rw [if_neg hblank]
  by_cases hbreak : isLineBreak c = true
  · have hhyphen : c ≠ ch '-' := by
      rintro rfl
      exact absurd hbreak (by decide)
    rw [if_neg hhyphen, if_pos hbreak]
    exact .lineBreak c hc hbreak
  have hnot : isLineBreak c = false := Bool.eq_false_iff.mpr hbreak
  by_cases hfull : s.len = w.width
  · have hback : w.Examined p s { s with ptr := s.ptr - 1 } := .back c hc hblank hnot hfull
    split_ifs
    · exact hback
    · exact hback
  have hlt : s.len < w.width := by omega
  have hvisible := Examined.visible (w := w) (p := p) c hc hblank hnot hlt
  by_cases hfound : s.foundVisibleChar = true
  · rw [if_pos hfound] at hvisible
    split_ifs with hhyphen
    · subst hhyphen
      exact findBestHyphenWrap_examined hfound hc hlt
    · exact hvisible
  · rw [if_neg hfound] at hvisible
    split_ifs
    · exact hvisible
    · exact hvisible

section Advance

variable (w) (t : LineScan)

@[simp] theorem advance_ptr : (w.advance t).ptr = w.nxt t.ptr := rfl

@[simp] theorem advance_len : (w.advance t).len = unsigned (t.len + 1) := rfl

@[simp] theorem advance_foundVisibleChar :
    (w.advance t).foundVisibleChar = t.foundVisibleChar := rfl

@[simp] theorem advance_wrapBefore : (w.advance t).wrapBefore = t.wrapBefore := rfl

@[simp] theorem advance_indent : (w.advance t).indent = t.indent := rfl

@[simp] theorem advance_softWrap : (w.advance t).softWrap = t.softWrap := rfl

@[simp] theorem advance_wrapped : (w.advance t).wrapped = t.wrapped := rfl

@[simp] theorem advance_copies : (w.advance t).copies = t.copies := rfl

end Advance

theorem lineRound_cases (hlen : s.len ≤ w.width) (hptr : s.ptr < w.text.length) :
    ∃ t, w.Examined p s t ∧ w.lineRound p s = w.advance t :=
  ⟨_, examine_examined hlen hptr, rfl⟩

/-! ### `next_utf8_char` -/

theorem nxt_of_lt (h : ptr < w.text.length) :
    w.nxt ptr = ptr + 1 + ((w.text.drop (ptr + 1)).takeWhile isSkipped).length := by
  rw [nxt, if_pos h, nextUtf8Char, List.drop_drop]
  omega

theorem lt_nxt (w : Wrapping) (ptr : ℕ) : ptr < w.nxt ptr := by
  rw [nxt, nextUtf8Char]
  split_ifs
  · omega
  · omega

theorem nxt_le (h : ptr < w.text.length) : w.nxt ptr ≤ w.text.length := by
  have hle := (List.takeWhile_prefix isSkipped (l := w.text.drop (ptr + 1))).length_le
  rw [List.length_drop] at hle
  rw [nxt_of_lt h]
  omega

theorem getElem?_length_takeWhile (q : UInt8 → Bool) (l : Text) :
    l[(l.takeWhile q).length]? = (l.dropWhile q).head? := by
  induction l with
  | nil => rfl
  | cons c l ih =>
    cases hc : q c with
    | false => simp [hc]
    | true => simp [hc, ih]

theorem start_nxt (h : ptr < w.text.length) : w.Start (w.nxt ptr) := by
  intro c hc
  rw [nxt_of_lt h, ← List.getElem?_drop] at hc
  set rest := w.text.drop (ptr + 1)
  have hnot := List.head?_dropWhile_not isSkipped rest
  rwa [← getElem?_length_takeWhile, hc] at hnot

/-- Only bytes that are skipped are between a character and the next. -/
theorem skipped_of_lt_nxt (h : ptr < w.text.length) {i : ℕ} (hi : ptr < i) (hi' : i < w.nxt ptr) :
    ∀ c ∈ w.text[i]?, isSkipped c = true := by
  intro c hc
  obtain ⟨k, rfl⟩ : ∃ k, i = ptr + 1 + k := ⟨i - (ptr + 1), by omega⟩
  rw [nxt_of_lt h] at hi'
  rw [← List.getElem?_drop] at hc
  set rest := w.text.drop (ptr + 1)
  have hlt : k < (rest.takeWhile isSkipped).length := by omega
  rw [← List.takeWhile_append_dropWhile (p := isSkipped) (l := rest),
    List.getElem?_append_left hlt] at hc
  exact List.mem_takeWhile_imp (List.mem_of_getElem? hc)

/-- From the byte before, `next_utf8_char` comes back. -/
theorem nxt_pred (h : w.Start ptr) (hpos : 0 < ptr) (hptr : ptr ≤ w.text.length) :
    w.nxt (ptr - 1) = ptr := by
  have hlt : ptr - 1 < w.text.length := by omega
  have hge : ptr ≤ w.nxt (ptr - 1) := Nat.le_of_pred_lt (lt_nxt w (ptr - 1))
  by_contra hne
  have hend := nxt_le hlt
  obtain ⟨c, hc⟩ : ∃ c, w.text[ptr]? = some c := ⟨_, List.getElem?_eq_getElem (by omega)⟩
  have hskipped := skipped_of_lt_nxt hlt (show ptr - 1 < ptr by omega) (by omega) c hc
  rw [h c hc] at hskipped
  cases hskipped

/-! ### The loops -/

/-- A round moves on, or it is the one that goes back from the last column. -/
theorem lineRound_moves (hlen : s.len ≤ w.width) (hptr : s.ptr < w.text.length) :
    s.ptr < (w.lineRound p s).ptr ∨
      s.ptr ≤ (w.lineRound p s).ptr ∧ s.len = w.width ∧ (w.lineRound p s).len ≠ w.width := by
  obtain ⟨t, ht, hround⟩ := lineRound_cases (p := p) hlen hptr
  rw [hround, advance_ptr, advance_len]
  cases ht with
  | blank hc => exact .inl (lt_nxt w s.ptr)
  | back c hc hblank hbreak hfull =>
    refine .inr ⟨Nat.le_of_pred_lt (lt_nxt w (s.ptr - 1)), hfull, fun heq => ?_⟩
    have hlt := w.width_lt
    have hover : (w.width + 1) % 2 ^ 32 = w.width := hfull ▸ heq
    omega
  | hyphens stop n hstop hn hle hlen hfound hc =>
    have hlt : stop < w.nxt stop := lt_nxt w stop
    exact .inl (show s.ptr < w.nxt stop by omega)
  | split hlen hfound hc hnext => exact .inl (lt_nxt w s.ptr)
  | visible c hc hblank hbreak hlt =>
    left
    split_ifs
    · exact lt_nxt w s.ptr
    · exact lt_nxt w s.ptr
  | lineBreak c hc hbreak =>
    left
    dsimp only
    split_ifs
    · exact (Nat.lt_succ_self _).trans (lt_nxt w (s.ptr + 1))
    · exact lt_nxt w s.ptr

/-- The inner loop. -/
def scanLine (w : Wrapping) (p : ℕ) (s : LineScan) : LineScan :=
  if _h : s.len ≤ w.width ∧ s.ptr < w.text.length then scanLine w p (w.lineRound p s) else s
termination_by 2 * (w.text.length - s.ptr) + if s.len = w.width then 1 else 0
decreasing_by
  rcases lineRound_moves (p := p) _h.1 _h.2 with hlt | ⟨hle, hlen, hne⟩
  · split_ifs
    all_goals omega
  · rw [if_pos hlen, if_neg hne]
    omega

/-- **Invariants of the inner loop.** -/
theorem scanLine_invariant {I : LineScan → Prop}
    (hstep : ∀ s, I s → s.len ≤ w.width → s.ptr < w.text.length → I (w.lineRound p s)) (h : I s) :
    I (w.scanLine p s) ∧
      (w.width < (w.scanLine p s).len ∨ w.text.length ≤ (w.scanLine p s).ptr) := by
  fun_induction scanLine w p s with
  | case1 s hin ih => exact ih (hstep s h hin.1 hin.2)
  | case2 s hout => exact ⟨h, by omega⟩

/-- `insert_soft_wrap`, for a line that begins at `p`. -/
def insertSoftWrap (w : Wrapping) (p : ℕ) (t : LineScan) : WrapState :=
  let wrapBefore := t.wrapBefore.getD t.ptr
  let indentWidth := t.indent.getD 0
  { p := scanWhile (fun i => w.text[i]? = some (ch ' ')) wrapBefore w.text.length
    len := unsigned (indentWidth + 1)
    indent := t.indent
    wrapped := t.wrapped ++ slice w.text p wrapBefore ++ w.lineDelim ++
      List.replicate indentWidth (ch ' ')
    copies := t.copies ++ [(p, wrapBefore)] }

/-- The variables of the inner loop at first. -/
def beginLine (s : WrapState) : LineScan :=
  { ptr := s.p, len := s.len, foundVisibleChar := false, wrapBefore := none, indent := s.indent,
    softWrap := true, wrapped := s.wrapped, copies := s.copies }

/-- A round of the outer loop. Its `break` is a round that ends with `p` at the end. -/
def wrapRound (w : Wrapping) (s : WrapState) : WrapState :=
  if w.text.length - s.p + (s.len - 1) < w.width then
    { s with
      p := w.text.length
      wrapped := s.wrapped ++ slice w.text s.p w.text.length }
  else
    let t := w.scanLine s.p (beginLine s)
    if t.ptr = w.text.length ∧ t.len < w.width then
      { p := t.ptr, len := t.len, indent := t.indent,
        wrapped := t.wrapped ++ slice w.text s.p t.ptr, copies := t.copies ++ [(s.p, t.ptr)] }
    else if t.softWrap then w.insertSoftWrap s.p t
    else { p := t.ptr, len := 1, indent := t.indent, wrapped := t.wrapped, copies := t.copies }

/-- The outer loop, with a bound on the number of its rounds. -/
def wrapRounds (w : Wrapping) : ℕ → WrapState → Option WrapState
  | 0, s => if s.p < w.text.length then none else some s
  | fuel + 1, s => if s.p < w.text.length then wrapRounds w fuel (w.wrapRound s) else some s

/-- The variables of the outer loop at first. -/
def initial : WrapState := { p := 0, len := 1, indent := none, wrapped := [], copies := [] }

end Wrapping

/-- A precondition of a function does not hold. -/
inductive ContractViolation where
  | pre
  deriving DecidableEq, Repr

/-- `wrap_lines`, with a bound on the number of rounds of its outer loop. -/
def wrapLines (fuel : ℕ) (w : Wrapping) : Ending ContractViolation Text :=
  if w.width ≥ 10 then (w.wrapRounds fuel Wrapping.initial).elim .hung fun s => .returned s.wrapped
  else .raised .pre

/-- `wrap_lines` ends, and returns `out`. -/
def Wraps (w : Wrapping) (out : Text) : Prop := ∃ fuel, wrapLines fuel w = .returned out

end Intent.Old
