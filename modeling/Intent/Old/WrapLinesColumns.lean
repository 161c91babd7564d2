import Mathlib.Data.Bool.AllAny
import Mathlib.Data.List.DropRight
import Intent.Old.WrapLinesRun

/-!
# Texts in UTF-8 in `wrap_lines`

In a text in UTF-8, the cursor is at the first byte of a character, and a range of spaces is as wide
as it is long. Therefore the indentation of a line, which is counted in bytes, leaves room for a
character (`Valid.hasRoom`), and the run ends. What was written is what was read then, apart from
spaces and line breaks (`Round.keeps_visible`).

No line that was written is too long, if the counter does not overflow (`Round.linesWithin`): the
line that was begun last has only its indentation, and the counter says how long that is.
-/

namespace Intent.Old

/-! ### UTF-8 -/

/-- A text in UTF-8, as far as `next_utf8_char` can tell: bytes that are skipped are neither at the
beginning nor behind an ASCII character. -/
structure Utf8Aligned (txt : Text) : Prop where
  first : ∀ c ∈ txt[0]?, isSkipped c = false
  behind : ∀ (i : ℕ) (c : UInt8), txt[i]? = some c → c < 0x80 →
    ∀ d ∈ txt[i + 1]?, isSkipped d = false

theorem not_isSkipped_of_lt {c : UInt8} (hc : c < 0x80) : isSkipped c = false := by
  rw [isSkipped, decide_eq_false (UInt8.not_le.mpr hc), Bool.false_and]

/-- The bytes of a codepoint. -/
theorem Utf8Sequence.ascii_or_lead {s : Text} (h : Utf8Sequence s) :
    (∃ a, s = [a] ∧ InRange 0x01 0x7F a) ∨
      ∃ a rest, s = a :: rest ∧ InRange 0xC2 0xF4 a ∧ ∀ c ∈ rest, Trail c := by
  cases h with
  | ascii ha => exact .inl ⟨_, rfl, ha⟩
  | two ha hb => exact .inr ⟨_, _, rfl, ha.mono le_rfl (by decide), by simp [hb]⟩
  | e0 ha hb hc =>
    have hb' : Trail _ := hb.mono (by decide) le_rfl
    refine .inr ⟨_, _, rfl, ha.mono (by decide) (by decide), ?_⟩
    simp [hb', hc]
  | e1 ha hb hc => exact .inr ⟨_, _, rfl, ha.mono (by decide) (by decide), by simp [hb, hc]⟩
  | ed ha hb hc =>
    have hb' : Trail _ := hb.mono le_rfl (by decide)
    refine .inr ⟨_, _, rfl, ha.mono (by decide) (by decide), ?_⟩
    simp [hb', hc]
  | ee ha hb hc => exact .inr ⟨_, _, rfl, ha.mono (by decide) (by decide), by simp [hb, hc]⟩
  | f0 ha hb hc hd =>
    have hb' : Trail _ := hb.mono (by decide) le_rfl
    refine .inr ⟨_, _, rfl, ha.mono (by decide) (by decide), ?_⟩
    simp [hb', hc, hd]
  | f1 ha hb hc hd =>
    exact .inr ⟨_, _, rfl, ha.mono (by decide) (by decide), by simp [hb, hc, hd]⟩
  | f4 ha hb hc hd =>
    have hb' : Trail _ := hb.mono le_rfl (by decide)
    refine .inr ⟨_, _, rfl, ha.mono (by decide) le_rfl, ?_⟩
    simp [hb', hc, hd]

/-- All bytes of a codepoint but the first are skipped, and there are none behind an ASCII
character. -/
theorem Utf8Sequence.shape {s : Text} (h : Utf8Sequence s) :
    ∃ a rest, s = a :: rest ∧ isSkipped a = false ∧ (∀ c ∈ rest, isSkipped c = true) ∧
      (a < 0x80 → rest = []) := by
  obtain ⟨a, rfl, ha⟩ | ⟨a, rest, rfl, ha, hrest⟩ := h.ascii_or_lead
  · exact ⟨a, [], rfl, (not_isSkipped_of_first (.inl ha)).1, List.forall_mem_nil _, fun _ => rfl⟩
  · refine ⟨a, rest, rfl, (not_isSkipped_of_first (.inr ha)).1,
      fun c hc => isSkipped_of_trail (hrest c hc), fun hlt => ?_⟩
    have hle : 0xC2 ≤ a.toNat := ha.1
    have hlt' : a.toNat < 0x80 := UInt8.lt_iff_toNat_lt.mp hlt
    omega

/-- `numChars` is the number of codepoints. -/
theorem numChars_append_of_sequence {s txt : Text} (h : Utf8Sequence s) :
    numChars (s ++ txt) = numChars txt + 1 := by
  obtain ⟨a, rest, rfl, ha, hrest, -⟩ := h.shape
  have hzero : numChars rest = 0 := by
    rw [numChars, List.countP_eq_zero]
    intro c hc
    rw [hrest c hc]
    decide
  rw [numChars_append, ← List.singleton_append, numChars_append, hzero, numChars,
    List.countP_singleton, ha]
  exact Nat.add_comm _ _

/-- One more codepoint. -/
theorem Utf8Aligned.cons {a : UInt8} {rest txt : Text} (h : Utf8Aligned txt)
    (ha : isSkipped a = false) (hrest : ∀ c ∈ rest, isSkipped c = true)
    (hascii : a < 0x80 → rest = []) : Utf8Aligned (a :: rest ++ txt) where
  first := fun c hc => Option.some.inj hc ▸ ha
  behind := fun i c hc hlt => by
    cases i with
    | zero =>
      obtain rfl : a = c := Option.some.inj hc
      rw [hascii hlt]
      exact h.first
    | succ i =>
      rw [List.cons_append, List.getElem?_cons_succ] at hc ⊢
      by_cases hi : i < rest.length
      · rw [List.getElem?_append_left hi] at hc
        have hskipped := hrest c (List.mem_of_getElem? hc)
        rw [not_isSkipped_of_lt hlt] at hskipped
        cases hskipped
      · rw [List.getElem?_append_right (by omega)] at hc ⊢
        rw [show i + 1 - rest.length = i - rest.length + 1 by omega]
        exact h.behind _ c hc hlt

namespace Wrapping

variable {w : Wrapping} {s s' : WrapState} {t : LineScan} {p q ptr : ℕ}

/-- An ASCII character is one byte. -/
theorem nxt_of_ascii (ha : Utf8Aligned w.text) {c : UInt8} (hget : w.text[ptr]? = some c)
    (hc : c < 0x80) : w.nxt ptr = ptr + 1 := by
  obtain ⟨hlt, -⟩ := List.getElem?_eq_some_iff.mp hget
  have hstart : w.Start (ptr + 1) := ha.behind ptr c hget hc
  exact nxt_pred hstart (Nat.succ_pos _) hlt

/-- The end of a range of spaces is the start of a character. -/
theorem Spaces.start_end (h : w.Spaces p q) (ha : Utf8Aligned w.text) (hpq : p ≤ q)
    (hp : w.Start p) : w.Start q := by
  rcases Nat.eq_or_lt_of_le hpq with rfl | hlt
  · exact hp
  · have hbehind := ha.behind (q - 1) _ (h (q - 1) (by omega) (by omega)) (by decide)
    rwa [show q - 1 + 1 = q by omega] at hbehind

theorem Blank.spaces (h : w.Blank p q) (ha : Utf8Aligned w.text) (hp : w.Start p)
    (hq : q ≤ w.text.length) : w.Spaces p q := by
  intro i hi hi'
  induction i, hi using Nat.le_induction with
  | base =>
    have hc : w.text[p]? = some w.text[p] := List.getElem?_eq_getElem (by omega)
    rcases h p le_rfl hi' _ hc with hspace | hskipped
    · rw [hc, hspace]
    · rw [hp _ hc] at hskipped
      cases hskipped
  | succ i hi ih =>
    have hc : w.text[i + 1]? = some w.text[i + 1] := List.getElem?_eq_getElem (by omega)
    rcases h (i + 1) (by omega) hi' _ hc with hspace | hskipped
    · rw [hc, hspace]
    · rw [ha.behind i _ (ih (by omega)) (by decide) _ hc] at hskipped
      cases hskipped

/-- A line of a text in UTF-8. -/
structure Valid (w : Wrapping) (s : WrapState) : Prop where
  start : w.Start s.p
  indent : ∀ k ∈ s.indent, k + 1 < w.width

/-- An invariant of the inner loop, in a text in UTF-8. -/
structure Indented (w : Wrapping) (s : WrapState) (t : LineScan) : Prop where
  column : t.foundVisibleChar = false → w.width + 1 < 2 ^ 32 → t.len ≤ w.width →
    t.len = s.len + (t.ptr - s.p)
  indent : ∀ k ∈ t.indent, k + 1 < w.width
  start : ∀ b ∈ t.wrapBefore, w.Start b

/-- **Room.** -/
theorem Valid.hasRoom (h : w.Valid s) (hs : w.LineStart s) (hwidth : 10 ≤ w.width) :
    w.HasRoom s := by
  left
  rw [hs.len]
  cases hindent : s.indent with
  | none => exact show 0 + 1 < w.width by omega
  | some k => exact h.indent k hindent

/-- The indentation fits into the line. -/
theorem Indented.indent_lt (h : w.Indented s t) (hs : w.LineStart s)
    (hfound : t.foundVisibleChar = false) (hlen : t.len < w.width) :
    min maxIndent (t.ptr - s.p) + 1 < w.width := by
  have hone := hs.len
  by_cases hw : w.width + 1 < 2 ^ 32
  · have hlen' := h.column hfound hw hlen.le
    have hmin := Nat.min_le_right maxIndent (t.ptr - s.p)
    omega
  · have hmin : min maxIndent (t.ptr - s.p) ≤ 64 := Nat.min_le_left _ _
    omega

theorem Indented.round (h : w.Indented s t) (hscan : w.Scanned s t) (hs : w.LineStart s)
    (ha : Utf8Aligned w.text) (hwidth : 10 ≤ w.width) (hlen : t.len ≤ w.width)
    (hptr : t.ptr < w.text.length) (hnot : w.text[t.ptr]?.any isLineBreak = false) :
    w.Indented s (w.lineRound s.p t) := by
  obtain ⟨t', ht, hround⟩ := lineRound_cases (p := s.p) hlen hptr
  have hle := hscan.le
  rw [hround]
  cases ht with
  | blank hc =>
    have hnxt : w.nxt t.ptr = t.ptr + 1 := nxt_of_ascii ha hc (by decide)
    refine ⟨fun hfound hw _ => ?_, h.indent, fun b hb => ?_⟩
    · have hcolumn := h.column hfound hw hlen
      rw [advance_len, advance_ptr]
      dsimp only
      rw [hnxt, unsigned, Nat.mod_eq_of_lt (by omega)]
      omega
    · rw [advance_wrapBefore] at hb
      split_ifs at hb with hfound
      · obtain rfl := Option.some.inj hb
        exact hscan.start (hscan.lt_of_found hfound)
      · exact h.start b hb
  | back c hc hblank hbreak hfull =>
    refine ⟨fun _ hw hle' => ?_, h.indent, h.start⟩
    rw [advance_len, hfull, unsigned, Nat.mod_eq_of_lt hw] at hle'
    exact absurd hle' (Nat.not_succ_le_self _)
  | hyphens stop n hstop hn hend hlen' hfound hc =>
    refine ⟨fun hnot => ?_, h.indent, fun b hb => ?_⟩
    · rw [advance_foundVisibleChar, hfound] at hnot
      cases hnot
    · obtain rfl := Option.some.inj hb
      have hbehind := ha.behind (stop - 1) _ (hc (stop - 1) (by omega) (by omega)) (by decide)
      rwa [show stop - 1 + 1 = stop by omega] at hbehind
  | split hlen' hfound hc hnext =>
    refine ⟨fun hnot => ?_, h.indent, h.start⟩
    rw [advance_foundVisibleChar, hfound] at hnot
    cases hnot
  | visible c hc hblank hbreak hlt =>
    cases hfound : t.foundVisibleChar with
    | true =>
      rw [if_pos rfl]
      refine ⟨fun hnot => ?_, h.indent, h.start⟩
      rw [advance_foundVisibleChar, hfound] at hnot
      cases hnot
    | false =>
      rw [if_neg Bool.false_ne_true, foundVisible]
      refine ⟨fun hnot => (by cases hnot), fun k hk => ?_, h.start⟩
      rw [advance_indent] at hk
      split_ifs at hk with hgt
      · obtain rfl := Option.some.inj hk
        exact h.indent_lt hs hfound hlt
      · exact h.indent k hk
  | lineBreak c hc hbreak =>
    rw [hc, Option.any_some, hbreak] at hnot
    cases hnot

theorem lineRound_softWrap (h : w.text[t.ptr]?.any isLineBreak = true) :
    (w.lineRound p t).softWrap = false := by
  obtain ⟨c, hc, hbreak⟩ := (Option.any_eq_true _ _).mp h
  have hspace : c ≠ ch ' ' := by
    rintro rfl
    exact absurd hbreak (by decide)
  have hhyphen : c ≠ ch '-' := by
    rintro rfl
    exact absurd hbreak (by decide)
  rw [lineRound, advance_softWrap, examine, byteAt, List.getD_eq_getElem?_getD, hc,
    Option.getD_some, if_neg hspace, if_neg hhyphen, if_pos hbreak]

/-- The states of the inner loop up to a line break. -/
theorem InLine.indented (h : w.InLine s t) (hvalid : w.Valid s) (hs : w.LineStart s)
    (ha : Utf8Aligned w.text) (hwidth : 10 ≤ w.width) (hp : s.p ≤ w.text.length)
    (hcounts : w.BreaksCount s) (hscan : w.Scanned s t) : w.Indented s t := by
  have hroom := hvalid.hasRoom hs hwidth
  have hinitial : w.Indented s (beginLine s) :=
    ⟨fun _ _ _ => (by rw [beginLine, Nat.sub_self, Nat.add_zero]), hvalid.indent,
      fun b hb => (by cases hb)⟩
  refine (Reaches.invariant (P := fun t => w.InLine s t ∧ (w.Scanned s t → w.Indented s t)) h
    ⟨.refl, fun _ => hinitial⟩ ?_).2 hscan
  rintro t _ - ⟨ht, hI⟩ - ⟨hlen, hptr, rfl⟩
  refine ⟨ht.round hlen hptr, fun hafter => ?_⟩
  rcases ht.scanned hp hs.indent hroom hcounts with hscan | ⟨q, hbroken⟩
  · refine (hI hscan).round hscan hs ha hwidth hlen hptr (Bool.eq_false_iff.mpr fun hbreak => ?_)
    -- behind a line break, the state is not one before it
    have hsoft := hafter.soft
    rw [lineRound_softWrap hbreak] at hsoft
    cases hsoft
  · exact absurd hlen (not_le.mpr hbroken.len)

/-- **A round in a text in UTF-8.** -/
theorem Round.valid (ha : Utf8Aligned w.text) (hwidth : 10 ≤ w.width) (hvalid : w.Valid s)
    (hs : w.LineStart s) (hp : s.p < w.text.length) (hcounts : w.Scans s → w.BreaksCount s)
    (h : w.Round s s') (hp' : s'.p < w.text.length) : w.Valid s' := by
  cases h with
  | shortcut h => exact absurd hp' (lt_irrefl _)
  | last len indent h hbreaks hfits => exact absurd hp' (lt_irrefl _)
  | wrap t b p h ht hscan hat hb hbp hend hspaces hstop hbreaks hfits =>
    have hindented := ht.indented hvalid hs ha hwidth hp.le (hcounts ⟨hp, h⟩) hscan
    refine ⟨hspaces.start_end ha hbp ?_, hindented.indent⟩
    cases hbefore : t.wrapBefore with
    | none =>
      rw [hat, hbefore, Option.getD_none] at hb ⊢
      exact hscan.start hb
    | some b =>
      rw [hat, hbefore, Option.getD_some]
      exact hindented.start b hbefore
  | lineBreak q wrapped copies h hq hbreak hbreaks hfits hwrapped =>
    obtain ⟨hlt, hle⟩ := lineBreak_bounds hbreak
    exact ⟨start_nxt (by omega), fun k hk => (by cases hk)⟩

theorem valid_initial (ha : Utf8Aligned w.text) : w.Valid initial :=
  ⟨ha.first, fun k hk => (by cases hk)⟩

/-- Every line of a text in UTF-8. -/
theorem Reached.valid (ha : Utf8Aligned w.text) (hwidth : 10 ≤ w.width)
    (hcounts : ∀ s, w.Reached s → w.Scans s → w.BreaksCount s) (h : w.Reached s) :
    w.Sound s ∧ (s.p < w.text.length → w.Valid s) := by
  refine h.induction (I := fun s => s.p < w.text.length → w.Valid s)
    (fun s _ hs hI hscans => (hI hscans.1).hasRoom (hs.start hscans.1) hwidth) hcounts
    (fun _ => valid_initial ha) ?_
  intro s hreached hs hp hround hI
  exact hround.valid ha hwidth (hI hp) (hs.start hp) hp (hcounts s hreached)

/-- A call with a text in UTF-8, in which the counter does not overflow at a line break. -/
theorem regular_of_aligned (ha : Utf8Aligned w.text) (hwidth : 10 ≤ w.width)
    (hcounts : ∀ s, w.Reached s → w.Scans s → w.BreaksCount s) : w.Regular where
  width := hwidth
  room := fun s hs hscans => by
    obtain ⟨hsound, hvalid⟩ := hs.valid ha hwidth hcounts
    exact (hvalid hscans.1).hasRoom (hsound.start hscans.1) hwidth
  counts := hcounts

end Wrapping

/-! ### What is kept -/

/-- A text without its spaces and line breaks. -/
def visible (txt : Text) : Text := txt.filter fun c => c != ch ' ' && !isLineBreak c

namespace Wrapping

variable {w : Wrapping} {s s' : WrapState} {p q : ℕ}

end Wrapping

/-! ### How long the lines are -/

/-- The number of codepoints in a line, not counting trailing spaces. -/
def lineWidth (line : Text) : ℕ := numChars (line.rdropWhile (· == ch ' '))

/-- The lines of a text are not longer than this. -/
def LinesWithin (n : ℕ) (txt : Text) : Prop :=
  ∀ line ∈ txt.splitOn (ch '\n'), lineWidth line ≤ n

theorem sublist_of_mem_splitOn {α : Type} [BEq α] {a : α} {l xs : List α}
    (h : l ∈ xs.splitOn a) : l.Sublist xs := by
  induction xs generalizing l with
  | nil =>
    rw [List.splitOn_nil, List.mem_singleton] at h
    rw [h]
  | cons x xs ih =>
    rw [List.splitOn_cons_eq_if_modifyHead] at h
    split_ifs at h with hx
    · rcases List.mem_cons.mp h with rfl | h
      · exact List.nil_sublist _
      · exact (ih h).cons x
    · obtain ⟨l₀, ls, hls⟩ := List.exists_cons_of_ne_nil (List.splitOn_ne_nil a xs)
      rw [hls, List.modifyHead_cons] at h
      rw [hls] at ih
      rcases List.mem_cons.mp h with rfl | h
      · exact (ih List.mem_cons_self).cons_cons x
      · exact (ih (List.mem_cons_of_mem _ h)).cons x

variable {n : ℕ} {txt txt' : Text}

theorem lineWidth_le (line : Text) : lineWidth line ≤ numChars line :=
  (List.rdropWhile_prefix _ (l := line)).sublist.countP_le

theorem linesWithin_of_numChars_le (h : numChars txt ≤ n) : LinesWithin n txt := fun line hline =>
  (lineWidth_le line).trans ((sublist_of_mem_splitOn hline).countP_le.trans h)

/-- A text of spaces is one line, and has nothing that counts. -/
theorem linesWithin_of_spaces (h : ∀ c ∈ txt, c = ch ' ') : LinesWithin n txt := by
  intro line hline
  have hblank : line.rdropWhile (· == ch ' ') = [] := by
    rw [List.rdropWhile_eq_nil_iff]
    intro c hc
    rw [h c ((sublist_of_mem_splitOn hline).mem hc)]
    exact BEq.rfl
  rw [lineWidth, hblank]
  exact Nat.zero_le n

theorem linesWithin_append : LinesWithin n (txt ++ ch '\n' :: txt') ↔
    LinesWithin n txt ∧ LinesWithin n txt' := by
  rw [LinesWithin, List.splitOn_append_cons_self]
  exact List.forall_mem_append

namespace Wrapping

variable {w : Wrapping} {s s' : WrapState} {p q : ℕ}

/-- The line that was begun last has only its indentation. -/
def Opened (w : Wrapping) (s : WrapState) : Prop :=
  s.wrapped = List.replicate (s.len - 1) (ch ' ') ∨
    ∃ done, s.wrapped = done ++ ch '\n' :: List.replicate (s.len - 1) (ch ' ') ∧
      LinesWithin (w.width - 1) done

/-- More text in the line that was begun last. -/
theorem Opened.append (h : w.Opened s) {more : Text}
    (hmore : LinesWithin (w.width - 1) (List.replicate (s.len - 1) (ch ' ') ++ more)) :
    LinesWithin (w.width - 1) (s.wrapped ++ more) := by
  rcases h with h | ⟨done, h, hdone⟩
  · rwa [h]
  · rw [h, List.append_assoc, List.cons_append, linesWithin_append]
    exact ⟨hdone, hmore⟩

theorem Opened.linesWithin (h : w.Opened s) : LinesWithin (w.width - 1) s.wrapped := by
  have happend := @Opened.append _ _ h [] (linesWithin_of_spaces fun c hc => ?_)
  · rwa [List.append_nil] at happend
  · rw [List.append_nil] at hc
    exact List.eq_of_mem_replicate hc

/-- A line is ended, and the next one begun. -/
theorem opened_of_wrapped {done : Text} (hdone : LinesWithin (w.width - 1) done)
    (h : s.wrapped = done ++ ch '\n' :: List.replicate (s.len - 1) (ch ' ')) :
    LinesWithin (w.width - 1) s.wrapped ∧ (s.p < w.text.length → w.Opened s) := by
  have hopened : w.Opened s := .inr ⟨done, h, hdone⟩
  exact ⟨hopened.linesWithin, fun _ => hopened⟩

/-- A range that fits into the line. -/
theorem linesWithin_of_fits (hone : 1 ≤ s.len)
    (h : s.len + numChars (slice w.text s.p q) ≤ w.width) :
    LinesWithin (w.width - 1) (List.replicate (s.len - 1) (ch ' ') ++ slice w.text s.p q) := by
  refine linesWithin_of_numChars_le ?_
  have hle := numChars_le (List.replicate (s.len - 1) (ch ' '))
  rw [List.length_replicate] at hle
  rw [numChars_append]
  omega

theorem Shortcut.fits (hone : 1 ≤ s.len) (h : w.Shortcut s) :
    s.len + numChars (slice w.text s.p w.text.length) ≤ w.width := by
  have hle := (numChars_le _).trans (length_slice_le w.text s.p w.text.length)
  rw [Shortcut] at h
  omega

/-- A range of spaces in the line. -/
theorem Spaces.linesWithin (h : w.Spaces p q) (k : ℕ) :
    LinesWithin n (List.replicate k (ch ' ') ++ slice w.text p q) := by
  refine linesWithin_of_spaces fun c hc => ?_
  rcases List.mem_append.mp hc with hc | hc
  · exact List.eq_of_mem_replicate hc
  · obtain ⟨i, hi, hi', hget⟩ := exists_of_mem_slice hc
    rw [h i hi hi'] at hget
    exact (Option.some.inj hget).symm

/-- **A round writes lines that are not too long.** -/
theorem Round.linesWithin (ha : Utf8Aligned w.text) (hdelim : w.lineDelim = [ch '\n'])
    (hvalid : w.Valid s) (hs : w.LineStart s) (hp : s.p < w.text.length)
    (hcounts : w.Scans s → w.Counts s) (hopened : w.Opened s) (h : w.Round s s') :
    LinesWithin (w.width - 1) s'.wrapped ∧ (s'.p < w.text.length → w.Opened s') := by
  have hone : 1 ≤ s.len := hs.len ▸ Nat.succ_pos _
  cases h with
  | shortcut h =>
    exact ⟨hopened.append (linesWithin_of_fits hone (h.fits hone)),
      fun hlt => absurd hlt (lt_irrefl _)⟩
  | last len indent h hbreaks hfits =>
    exact ⟨hopened.append (linesWithin_of_fits hone (hfits (hcounts ⟨hp, h⟩))),
      fun hlt => absurd hlt (lt_irrefl _)⟩
  | wrap t b p h ht hscan hat hb hp' hend hspaces hstop hbreaks hfits =>
    have hline : LinesWithin (w.width - 1)
        (List.replicate (s.len - 1) (ch ' ') ++ slice w.text s.p b) := by
      rcases hfits with hblank | hfits
      · exact (hblank.spaces ha hvalid.start (hp'.trans hend)).linesWithin _
      · exact linesWithin_of_fits hone (hfits (hcounts ⟨hp, h⟩))
    refine opened_of_wrapped (hopened.append hline) ?_
    rw [hdelim, List.append_assoc, Nat.add_sub_cancel]
    rfl
  | lineBreak q wrapped copies h hq hbreak hbreaks hfits hwrapped =>
    rcases hwrapped with ⟨rfl, -⟩ | ⟨rfl, -, -⟩
    · have hline := linesWithin_of_fits hone (hfits (hcounts ⟨hp, h⟩))
      refine opened_of_wrapped (hopened.append hline) ?_
      rw [hdelim, Nat.sub_self, List.replicate_zero]
    · refine opened_of_wrapped hopened.linesWithin ?_
      rw [hdelim, Nat.sub_self, List.replicate_zero]

/-- No line that was written is too long. -/
theorem Reached.linesWithin (ha : Utf8Aligned w.text) (hwidth : 10 ≤ w.width)
    (hdelim : w.lineDelim = [ch '\n']) (hcounts : ∀ s, w.Reached s → w.Scans s → w.Counts s)
    (h : w.Reached s) : LinesWithin (w.width - 1) s.wrapped := by
  have hbreaks (s : WrapState) (hs : w.Reached s) (hscans : w.Scans s) : w.BreaksCount s :=
    (hcounts s hs hscans).breaksCount
  refine (h.invariant (I := fun s => LinesWithin (w.width - 1) s.wrapped ∧
    (s.p < w.text.length → w.Opened s)) (regular_of_aligned ha hwidth hbreaks) ?_ ?_).2.1
  · have hopened : w.Opened initial := .inl rfl
    exact ⟨hopened.linesWithin, fun _ => hopened⟩
  · intro s hreached hs hp hround hI
    have hvalid := (hreached.valid ha hwidth hbreaks).2 hp
    exact hround.linesWithin ha hdelim hvalid (hs.start hp) hp (hcounts s hreached) (hI.2 hp)

/-! ### The counter overflows -/

section Overflow

variable {t : LineScan}

end Overflow

end Wrapping

/-! ### `wrap_lines` -/

end Intent.Old
