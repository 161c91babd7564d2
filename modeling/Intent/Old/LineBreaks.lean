import Intent.Old.LexerLines
import Mathlib.Data.List.Find

/-!
# Texts with other line breaks

`crlf txt` is `txt` with CR LF in the place of every LF, and `crlfAt txt p` is where the address `p`
is found there. The functions that look at one line only find the same in both texts: scans stop at
the same places (`scanWhile_crlfAt`), words are at the same places (`slice_crlfAt_eq_iff`), and
numbers, escape sequences, operators and lines of comments are read alike. `Rebroken` relates the
views on two such texts.

A `LineAt` of the second text is one of the first (`LineAt.of_crlf`).
-/

namespace Intent.Old

/-! ### The text -/

theorem getElem?_eq_of_any_isLineBreak {txt : Text} {p : ℕ} (hcr : ch '\r' ∉ txt)
    (h : txt[p]?.any isLineBreak = true) : txt[p]? = some (ch '\n') := by
  cases hc : txt[p]? with
  | none =>
    rw [hc] at h
    cases h
  | some c =>
    rw [hc, Option.any_some, isLineBreak, Bool.or_eq_true, beq_iff_eq, beq_iff_eq] at h
    rcases h with rfl | rfl
    · rfl
    · exact absurd (List.mem_of_getElem? hc) hcr

/-- A character, where lines are broken by CR LF. -/
def crlfChar (c : UInt8) : Text := if c = ch '\n' then [ch '\r', ch '\n'] else [c]

/-- A text with every LF replaced by CR LF. -/
def crlf (txt : Text) : Text := txt.flatMap crlfChar

/-- The address in `crlf txt` of what is at `p` in `txt`. -/
def crlfAt (txt : Text) (p : ℕ) : ℕ := p + (txt.take p).count (ch '\n')

/-- The byte that is found there: the CR of a line break. -/
def crlfByte (c : UInt8) : UInt8 := if c = ch '\n' then ch '\r' else c

section Text

variable {txt w : Text} {p q : ℕ} {c : UInt8} {f : UInt8 → Bool}

theorem crlf_cons (c : UInt8) (txt : Text) : crlf (c :: txt) = crlfChar c ++ crlf txt :=
  List.flatMap_cons

theorem crlf_append (s t : Text) : crlf (s ++ t) = crlf s ++ crlf t :=
  List.flatMap_append

theorem crlf_eq_self (h : ch '\n' ∉ txt) : crlf txt = txt := by
  induction txt with
  | nil => rfl
  | cons c txt ih =>
    rw [List.mem_cons, not_or] at h
    rw [crlf_cons, crlfChar, if_neg (Ne.symm h.1), ih h.2, List.singleton_append]

theorem length_crlf (txt : Text) : (crlf txt).length = txt.length + txt.count (ch '\n') := by
  induction txt with
  | nil => rfl
  | cons c txt ih =>
    rw [crlf_cons, List.length_append, ih, List.length_cons, List.count_cons, crlfChar]
    by_cases hc : c = ch '\n'
    · rw [if_pos hc, if_pos (beq_iff_eq.mpr hc)]
      simp only [List.length_cons, List.length_nil]
      omega
    · rw [if_neg hc, if_neg (by simpa using hc)]
      simp only [List.length_cons, List.length_nil]
      omega

theorem head?_crlf (txt : Text) : (crlf txt).head? = txt.head?.map crlfByte := by
  cases txt with
  | nil => rfl
  | cons c txt =>
    rw [crlf_cons, crlfChar, List.head?_cons, Option.map_some, crlfByte]
    split_ifs <;> rfl

/-- What is behind an address. -/
theorem drop_crlfAt (txt : Text) (p : ℕ) : (crlf txt).drop (crlfAt txt p) = crlf (txt.drop p) := by
  rcases Nat.lt_or_ge txt.length p with hlt | hle
  · rw [List.drop_eq_nil_of_le hlt.le, List.drop_eq_nil_of_le]
    · rfl
    · rw [length_crlf, crlfAt, List.take_of_length_le hlt.le]
      omega
  · have hlen : crlfAt txt p = (crlf (txt.take p)).length := by
      rw [length_crlf, crlfAt, List.length_take_of_le hle]
    conv_lhs => rw [← List.take_append_drop p txt, crlf_append]
    rw [List.take_append_drop, hlen, List.drop_left]

theorem crlfAt_length (txt : Text) : crlfAt txt txt.length = (crlf txt).length := by
  rw [length_crlf, crlfAt, List.take_length]

/-- The byte at an address. -/
theorem getElem?_crlfAt (txt : Text) (p : ℕ) :
    (crlf txt)[crlfAt txt p]? = txt[p]?.map crlfByte := by
  rw [← List.head?_drop, drop_crlfAt, head?_crlf, List.head?_drop]

theorem crlfAt_succ (txt : Text) (p : ℕ) :
    crlfAt txt (p + 1) = crlfAt txt p + if txt[p]? = some (ch '\n') then 2 else 1 := by
  rw [crlfAt, crlfAt, List.take_add_one, List.count_append]
  cases hp : txt[p]? with
  | none =>
    rw [if_neg (fun h => by cases h), Option.toList_none, List.count_nil]
    omega
  | some c =>
    rw [Option.toList_some, List.count_singleton]
    by_cases hc : c = ch '\n'
    · rw [if_pos (beq_iff_eq.mpr hc), if_pos (congrArg some hc)]
      omega
    · rw [if_neg (by simpa using hc), if_neg (by simpa using hc)]
      omega

theorem crlfAt_succ_of_ne (h : txt[p]? ≠ some (ch '\n')) :
    crlfAt txt (p + 1) = crlfAt txt p + 1 := by
  rw [crlfAt_succ, if_neg h]

theorem crlfAt_succ_of_eq (h : txt[p]? = some (ch '\n')) :
    crlfAt txt (p + 1) = crlfAt txt p + 2 := by
  rw [crlfAt_succ, if_pos h]

theorem crlfAt_strictMono (txt : Text) : StrictMono (crlfAt txt) := by
  refine strictMono_nat_of_lt_succ fun p => ?_
  rw [crlfAt_succ]
  split_ifs <;> omega

theorem crlfAt_lt_length_iff : crlfAt txt p < (crlf txt).length ↔ p < txt.length := by
  rw [← crlfAt_length]
  exact (crlfAt_strictMono txt).lt_iff_lt

theorem crlfAt_le_length_iff : crlfAt txt p ≤ (crlf txt).length ↔ p ≤ txt.length := by
  rw [← crlfAt_length]
  exact (crlfAt_strictMono txt).le_iff_le

theorem crlfAt_eq_length_iff : crlfAt txt p = (crlf txt).length ↔ p = txt.length := by
  rw [← crlfAt_length]
  exact (crlfAt_strictMono txt).injective.eq_iff

/-- A test that does not tell CR from LF. -/
theorem any_crlfAt (hf : f (ch '\r') = f (ch '\n')) (txt : Text) (p : ℕ) :
    (crlf txt)[crlfAt txt p]?.any f = txt[p]?.any f := by
  rw [getElem?_crlfAt]
  cases txt[p]? with
  | none => rfl
  | some c =>
    rw [Option.map_some, Option.any_some, Option.any_some, crlfByte]
    split_ifs with hc
    · rw [hc, hf]
    · rfl

/-- A character that breaks no line. -/
theorem getElem?_crlfAt_eq_iff (hcr : c ≠ ch '\r') (hlf : c ≠ ch '\n') :
    (crlf txt)[crlfAt txt p]? = some c ↔ txt[p]? = some c := by
  rw [getElem?_crlfAt, Option.map_eq_some_iff]
  constructor
  · rintro ⟨d, hd, hdc⟩
    rw [crlfByte] at hdc
    split_ifs at hdc with hbreak
    · exact absurd hdc.symm hcr
    · rw [hd, hdc]
  · intro hc
    refine ⟨c, hc, if_neg hlf⟩

/-- **Scans** that stop at the end of a line. -/
theorem scanWhile_crlfAt (hcr : f (ch '\r') = false) (hlf : f (ch '\n') = false) (txt : Text)
    (p : ℕ) :
    scanWhile (fun i => (crlf txt)[i]?.any f) (crlfAt txt p) (crlf txt).length =
      crlfAt txt (scanWhile (fun i => txt[i]?.any f) p txt.length) := by
  have hf : f (ch '\r') = f (ch '\n') := hcr.trans hlf.symm
  fun_induction scanWhile (fun i => txt[i]?.any f) p txt.length with
  | case1 p hp hq ih =>
    have hne : txt[p]? ≠ some (ch '\n') := by
      intro h
      rw [h, Option.any_some, hlf] at hq
      cases hq
    rw [scanWhile_of_true (crlfAt_lt_length_iff.mpr hp) ((any_crlfAt hf txt p).trans hq),
      ← crlfAt_succ_of_ne hne, ih]
  | case2 p hp hq =>
    refine scanWhile_of_false ((any_crlfAt hf txt p).trans ?_)
    simpa using hq
  | case3 p hp =>
    refine scanWhile_of_le ?_
    rw [← crlfAt_length]
    exact (crlfAt_strictMono txt).monotone (not_lt.mp hp)

theorem scanSpacesAndTabs_crlfAt (txt : Text) (p : ℕ) :
    scanSpacesAndTabs (crlf txt) (crlfAt txt p) = crlfAt txt (scanSpacesAndTabs txt p) :=
  scanWhile_crlfAt (by decide) (by decide) txt p

theorem scanRestOfLine_crlfAt (txt : Text) (p : ℕ) :
    scanRestOfLine (crlf txt) (crlfAt txt p) = crlfAt txt (scanRestOfLine txt p) :=
  scanWhile_crlfAt (f := fun c => !isLineBreak c) (by decide) (by decide) txt p

/-- Addresses in one line. -/
theorem crlfAt_add (h : ∀ i, p ≤ i → i < p + q → txt[i]? ≠ some (ch '\n')) :
    crlfAt txt (p + q) = crlfAt txt p + q := by
  induction q with
  | zero => rfl
  | succ q ih =>
    rw [← Nat.add_assoc, crlfAt_succ_of_ne (h _ (by omega) (by omega)),
      ih fun i hi hlt => h i hi (by omega), Nat.add_assoc]

/-- A part of a line. -/
theorem slice_crlfAt (hpq : p ≤ q) (hq : q ≤ txt.length)
    (h : ∀ i, p ≤ i → i < q → txt[i]? ≠ some (ch '\n')) :
    slice (crlf txt) (crlfAt txt p) (crlfAt txt q) = slice txt p q := by
  obtain ⟨n, rfl⟩ := Nat.exists_eq_add_of_le hpq
  have hno : ch '\n' ∉ (txt.drop p).take n := by
    intro hmem
    obtain ⟨i, hi⟩ := List.mem_iff_getElem?.mp hmem
    rw [List.getElem?_take] at hi
    split_ifs at hi with hlt
    rw [List.getElem?_drop] at hi
    exact h (p + i) (by omega) (by omega) hi
  have hlen : ((txt.drop p).take n).length = n := by
    rw [List.length_take_of_le]
    rw [List.length_drop]
    omega
  rw [slice, slice, drop_crlfAt, crlfAt_add h, Nat.add_sub_cancel_left, Nat.add_sub_cancel_left]
  conv_lhs => rw [← List.take_append_drop n (txt.drop p), crlf_append, crlf_eq_self hno]
  conv_rhs => rw [← List.take_append_drop n (txt.drop p)]
  rw [List.take_left' hlen, List.take_append_drop]

/-- A word that breaks no line is at the same places. -/
theorem take_crlf_eq_iff (hw : ∀ c ∈ w, isLineBreak c = false) (txt : Text) :
    (crlf txt).take w.length = w ↔ txt.take w.length = w := by
  induction w generalizing txt with
  | nil => simp
  | cons d w ih =>
    obtain ⟨hd, hw⟩ := List.forall_mem_cons.mp hw
    cases txt with
    | nil => rfl
    | cons c txt =>
      rw [crlf_cons, crlfChar]
      by_cases hc : c = ch '\n'
      · rw [if_pos hc]
        refine iff_of_false (fun h => ?_) fun h => ?_
        · rw [← (List.cons.inj h).1] at hd
          exact absurd hd (by decide)
        · rw [← (List.cons.inj h).1, hc] at hd
          exact absurd hd (by decide)
      · rw [if_neg hc, List.singleton_append, List.length_cons, List.take_succ_cons,
          List.take_succ_cons, List.cons.injEq, List.cons.injEq, ih hw]

theorem slice_crlfAt_eq_iff (hw : ∀ c ∈ w, isLineBreak c = false) :
    slice (crlf txt) (crlfAt txt p) (crlfAt txt p + w.length) = w ↔
      slice txt p (p + w.length) = w := by
  rw [slice, slice, drop_crlfAt, Nat.add_sub_cancel_left, Nat.add_sub_cancel_left,
    take_crlf_eq_iff hw]

/-- Addresses in a word that breaks no line. -/
theorem crlfAt_add_of_slice (h : slice txt p (p + w.length) = w)
    (hw : ∀ c ∈ w, isLineBreak c = false) :
    crlfAt txt (p + w.length) = crlfAt txt p + w.length := by
  refine crlfAt_add fun i hi hlt hnewline => ?_
  have hget : w[i - p]? = some (ch '\n') := by
    rw [← getElem?_of_slice h (show i - p < w.length by omega), Nat.add_sub_cancel' hi, hnewline]
  exact absurd (hw _ (List.mem_of_getElem? hget)) (by decide)

/-! ### Lines -/

theorem drop_crlfAt_newline (h : txt[p]? = some (ch '\n')) :
    (crlf txt).drop (crlfAt txt p) = ch '\r' :: ch '\n' :: crlf (txt.drop (p + 1)) := by
  rw [drop_crlfAt, List.drop_eq_getElem?_toList_append, h]
  rfl

/-- The LF of a line break. -/
theorem getElem?_crlfAt_add_one (h : txt[p]? = some (ch '\n')) :
    (crlf txt)[crlfAt txt p + 1]? = some (ch '\n') := by
  rw [← List.head?_drop, ← List.drop_drop, drop_crlfAt_newline h]
  rfl

theorem consumeLineBreak_crlfAt (hcr : ch '\r' ∉ txt) (h : txt[p]?.any isLineBreak = true) :
    consumeLineBreak (crlf txt) (crlfAt txt p) = crlfAt txt (consumeLineBreak txt p) := by
  have hlf := getElem?_eq_of_any_isLineBreak hcr h
  rw [consumeLineBreak_newline hlf, crlfAt_succ_of_eq hlf, consumeLineBreak, if_pos]
  refine ⟨?_, getElem?_crlfAt_add_one hlf⟩
  rw [← List.head?_drop, drop_crlfAt_newline hlf, List.head?_cons]

theorem not_newline_of_lt_scanSpacesAndTabs {i : ℕ} (hi : p ≤ i)
    (hlt : i < scanSpacesAndTabs txt p) : txt[i]? ≠ some (ch '\n') := by
  intro h
  have hblank := of_lt_scanWhile hi hlt
  rw [h] at hblank
  exact absurd hblank (by decide)

theorem getIndentWidth_crlfAt (hp : p ≤ txt.length) :
    getIndentWidth (crlf txt) (crlfAt txt p) (crlfAt txt (scanSpacesAndTabs txt p)) =
      getIndentWidth txt p (scanSpacesAndTabs txt p) := by
  rw [getIndentWidth, getIndentWidth, slice_crlfAt (le_scanSpacesAndTabs txt p)
    (scanSpacesAndTabs_le txt hp) fun i => not_newline_of_lt_scanSpacesAndTabs]

theorem dots_break_no_line : ∀ c ∈ bytes ['.', '.', '.'], isLineBreak c = false := by
  intro c hc
  rw [List.eq_of_mem_replicate (show c ∈ List.replicate 3 (ch '.') from hc)]
  rfl

/-- Addresses in the dots of a continuation. -/
theorem crlfAt_add_three (h : slice txt p (p + 3) = bytes ['.', '.', '.']) :
    crlfAt txt (p + 3) = crlfAt txt p + 3 :=
  crlfAt_add_of_slice (w := bytes ['.', '.', '.']) h dots_break_no_line

theorem dotted_crlfAt_iff : Dotted (crlf txt) (crlfAt txt p) ↔ Dotted txt p := by
  have hslice : slice (crlf txt) (crlfAt txt p) (crlfAt txt p + 3) = bytes ['.', '.', '.'] ↔
      slice txt p (p + 3) = bytes ['.', '.', '.'] := slice_crlfAt_eq_iff dots_break_no_line
  unfold Dotted
  rw [hslice, and_congr_left_iff]
  intro hdots
  rw [← crlfAt_add_three hdots, crlfAt_lt_length_iff]

theorem LineAt.eq_scan {b n lineBegin : ℕ} (h : LineAt txt b n lineBegin p) :
    lineBegin ≤ txt.length ∧ p = scanSpacesAndTabs txt lineBegin := by
  induction h with
  | here hc => exact ⟨(scanSpacesAndTabs_lt_of_some hc).1.le, rfl⟩
  | blank _ _ ih => exact ih

/-- A line of `crlf txt` is one of `txt`. -/
theorem LineAt.of_crlf (hcr : ch '\r' ∉ txt) {b' n lineBegin' p' : ℕ}
    (h : LineAt (crlf txt) b' n lineBegin' p') {b : ℕ} (hb : b' = crlfAt txt b) :
    ∃ lineBegin p, LineAt txt b n lineBegin p ∧ lineBegin' = crlfAt txt lineBegin ∧
      p' = crlfAt txt p := by
  induction h generalizing b with
  | here hc hbreak =>
    subst hb
    rw [scanSpacesAndTabs_crlfAt, getElem?_crlfAt, Option.map_eq_some_iff] at hc
    obtain ⟨d, hd, rfl⟩ := hc
    refine ⟨b, _, .here hd ?_, rfl, scanSpacesAndTabs_crlfAt txt b⟩
    rw [crlfByte] at hbreak
    split_ifs at hbreak with hnewline
    · exact absurd hbreak (by decide)
    · exact hbreak
  | blank hbreak _ ih =>
    subst hb
    rw [scanSpacesAndTabs_crlfAt, any_crlfAt (by decide)] at hbreak
    rw [scanSpacesAndTabs_crlfAt, consumeLineBreak_crlfAt hcr hbreak] at ih
    obtain ⟨lineBegin, p, hline, h⟩ := ih rfl
    exact ⟨lineBegin, p, .blank hbreak hline, h⟩

/-- A continuation of `crlf txt` is one of `txt`. -/
theorem Continuation.of_crlf (hcr : ch '\r' ∉ txt) {width b n p' : ℕ}
    (h : Continuation (crlf txt) width (crlfAt txt b) n p') :
    ∃ p, Continuation txt width b n p := by
  obtain ⟨lineBegin', hline', hwidth, hdots⟩ := h
  obtain ⟨lineBegin, p, hline, rfl, rfl⟩ := hline'.of_crlf hcr rfl
  obtain ⟨hle, hp⟩ := hline.eq_scan
  refine ⟨p, lineBegin, hline, ?_, dotted_crlfAt_iff.mp hdots⟩
  rwa [hp, getIndentWidth_crlfAt hle, ← hp] at hwidth

end Text

/-! ### Numbers -/

section Numbers

variable {txt : Text} {p q : ℕ} {digit : UInt8 → Option ℕ}

theorem digitRun_crlf (hcr : digit (ch '\r') = none) (hlf : digit (ch '\n') = none) (s : Text) :
    digitRun digit (crlf s) = digitRun digit s := by
  induction s with
  | nil => rfl
  | cons c s ih =>
    rw [crlf_cons, crlfChar]
    by_cases hc : c = ch '\n'
    · rw [if_pos hc, hc, List.cons_append, digitRun, digitRun, hcr, hlf]
      rfl
    · rw [if_neg hc, List.singleton_append, digitRun, digitRun, ih]

/-- The digits are in one line. -/
theorem digitRun_in_line (hlf : digit (ch '\n') = none) {s : Text} {i : ℕ}
    (hi : i < (digitRun digit s).2) : s[i]? ≠ some (ch '\n') := by
  induction s generalizing i with
  | nil => exact absurd hi (Nat.not_lt_zero _)
  | cons c s ih =>
    cases i with
    | zero =>
      intro hc
      obtain rfl : c = ch '\n' := by simpa using hc
      rw [digitRun, hlf] at hi
      exact Nat.lt_irrefl 0 hi
    | succ i =>
      rw [List.getElem?_cons_succ]
      refine ih ?_
      rw [digitRun] at hi
      split at hi
      · exact Nat.lt_of_succ_lt_succ hi
      · split_ifs at hi
        · exact Nat.lt_of_succ_lt_succ hi
        · exact absurd hi (Nat.not_lt_zero _)

theorem crlfAt_add_digits (hlf : digit (ch '\n') = none) :
    crlfAt txt (q + (digitRun digit (txt.drop q)).2) =
      crlfAt txt q + (digitRun digit (txt.drop q)).2 := by
  refine crlfAt_add fun i hi hlt => ?_
  have hline := digitRun_in_line hlf (show i - q < (digitRun digit (txt.drop q)).2 by omega)
  rwa [List.getElem?_drop, Nat.add_sub_cancel' hi] at hline

/-- What is found, where it is in `crlf txt`. -/
def Scanned.crlf (txt : Text) (s : Scanned) : Scanned := { s with stop := crlfAt txt s.stop }

private theorem decimal_crlf (s : Text) :
    digitRun (digitBelow 10) (crlf s) = digitRun (digitBelow 10) s :=
  digitRun_crlf rfl rfl s

theorem not_newline_of_or {c d : UInt8} (h : txt[p]? = some c ∨ txt[p]? = some d)
    (hc : c ≠ ch '\n') (hd : d ≠ ch '\n') : txt[p]? ≠ some (ch '\n') := by
  rcases h with h | h
  · rw [h]
    exact fun heq => hc (Option.some.inj heq)
  · rw [h]
    exact fun heq => hd (Option.some.inj heq)

theorem scanDecimalNumber_crlfAt (txt : Text) (p : ℕ) :
    scanDecimalNumber (crlf txt) (crlfAt txt p) =
      ((scanDecimalNumber txt p).1, (scanDecimalNumber txt p).2.1,
        crlfAt txt (scanDecimalNumber txt p).2.2) := by
  have hplus : (crlf txt)[crlfAt txt p]? = some (ch '+') ↔ txt[p]? = some (ch '+') :=
    getElem?_crlfAt_eq_iff (by decide) (by decide)
  have hminus : (crlf txt)[crlfAt txt p]? = some (ch '-') ↔ txt[p]? = some (ch '-') :=
    getElem?_crlfAt_eq_iff (by decide) (by decide)
  have hq : (if txt[p]? = some (ch '+') ∨ txt[p]? = some (ch '-') then crlfAt txt p + 1
      else crlfAt txt p) =
      crlfAt txt (if txt[p]? = some (ch '+') ∨ txt[p]? = some (ch '-') then p + 1 else p) := by
    split_ifs with hsign
    · exact (crlfAt_succ_of_ne (not_newline_of_or hsign (by decide) (by decide))).symm
    · rfl
  simp only [scanDecimalNumber, scanDecimalDigitsPreRadix, scanDigits, hplus, hminus, hq,
    drop_crlfAt, decimal_crlf]
  rw [crlfAt_add_digits rfl]

theorem finishNumber_crlfAt (txt : Text) (negative : Bool) (whole : UInt64)
    (significand : Option (List ℕ × UInt64)) (q : ℕ) :
    finishNumber (crlf txt) negative whole significand (crlfAt txt q) =
      (finishNumber txt negative whole significand q).crlf txt := by
  have hiff : (crlfAt txt q + 1 < (crlf txt).length ∧
      ((crlf txt)[crlfAt txt q]? = some (ch 'e') ∨ (crlf txt)[crlfAt txt q]? = some (ch 'E'))) ↔
      q + 1 < txt.length ∧ (txt[q]? = some (ch 'e') ∨ txt[q]? = some (ch 'E')) := by
    rw [getElem?_crlfAt_eq_iff (by decide) (by decide),
      getElem?_crlfAt_eq_iff (by decide) (by decide), and_congr_left_iff]
    intro he
    rw [← crlfAt_succ_of_ne (not_newline_of_or he (by decide) (by decide)), crlfAt_lt_length_iff]
  by_cases hexp : q + 1 < txt.length ∧ (txt[q]? = some (ch 'e') ∨ txt[q]? = some (ch 'E'))
  · unfold finishNumber
    rw [if_pos (hiff.mpr hexp), if_pos hexp, ← crlfAt_succ_of_ne
      (not_newline_of_or hexp.2 (by decide) (by decide)), scanDecimalNumber_crlfAt]
    rfl
  · unfold finishNumber
    rw [if_neg (mt hiff.mp hexp), if_neg hexp]
    cases significand with
    | none => rfl
    | some s => rfl

theorem getDecimalNumber_crlfAt (txt : Text) (negative floatingPoint : Bool)
    (h : floatingPoint = true → txt[q]? = some (ch '.')) :
    getDecimalNumber (crlf txt) negative floatingPoint (crlfAt txt q) =
      (getDecimalNumber txt negative floatingPoint q).crlf txt := by
  -- the radix, and what is behind it
  have hradix : ∀ (whole : UInt64) {k : ℕ}, txt[k]? = some (ch '.') →
      finishNumber (crlf txt) negative whole
        (some ((scanDecimalDigitsPostRadix ((crlf txt).drop (crlfAt txt k + 1))).1, whole))
        (crlfAt txt k + 1 + (scanDecimalDigitsPostRadix ((crlf txt).drop (crlfAt txt k + 1))).2) =
      (finishNumber txt negative whole
        (some ((scanDecimalDigitsPostRadix (txt.drop (k + 1))).1, whole))
        (k + 1 + (scanDecimalDigitsPostRadix (txt.drop (k + 1))).2)).crlf txt := by
    intro whole k hk
    have hne : txt[k]? ≠ some (ch '\n') := by
      rw [hk]
      decide
    rw [← crlfAt_succ_of_ne hne]
    simp only [scanDecimalDigitsPostRadix, drop_crlfAt, decimal_crlf]
    rw [← crlfAt_add_digits rfl, finishNumber_crlfAt]
  unfold getDecimalNumber
  cases floatingPoint with
  | true =>
    exact hradix 0 (h rfl)
  | false =>
    simp only [scanDecimalDigitsPreRadix, scanDigits, drop_crlfAt, decimal_crlf,
      Bool.false_eq_true, false_or, if_false]
    rw [← crlfAt_add_digits rfl]
    set k := q + (digitRun (digitBelow 10) (txt.drop q)).2
    have hiff : (crlf txt)[crlfAt txt k]? = some (ch '.') ↔ txt[k]? = some (ch '.') :=
      getElem?_crlfAt_eq_iff (by decide) (by decide)
    by_cases hdot : txt[k]? = some (ch '.')
    · rw [if_pos (hiff.mpr hdot), if_pos hdot]
      exact hradix _ hdot
    · rw [if_neg (mt hiff.mp hdot), if_neg hdot]
      exact finishNumber_crlfAt ..

/-- No base is selected by a line break. -/
theorem getPrefixedNumber_of_break (h : txt[q + 1]?.any isLineBreak = true) (negative : Bool) :
    getPrefixedNumber txt q negative = none := by
  have key : ∀ c, isLineBreak c = true → ¬ (c = ch 'x' ∨ c = ch 'X') ∧
      ¬ (c = ch 'b' ∨ c = ch 'B') ∧ ¬ (ch '0' ≤ c ∧ c ≤ ch '7') := by
    intro c hc
    rw [isLineBreak, Bool.or_eq_true, beq_iff_eq, beq_iff_eq] at hc
    rcases hc with rfl | rfl
    · decide
    · decide
  cases hc : txt[q + 1]? with
  | none =>
    rw [hc] at h
    cases h
  | some c =>
    rw [hc] at h
    obtain ⟨hx, hb, ho⟩ := key c h
    have hget : txt.getD (q + 1) 0 = c := by rw [List.getD_eq_getElem?_getD, hc, Option.getD_some]
    unfold getPrefixedNumber
    simp only [hget, if_neg hx, if_neg hb, if_neg ho, ite_self]

/-- The base of a number. -/
theorem getPrefixedNumber_crlfAt (hq : txt[q]? ≠ some (ch '\n')) (negative : Bool) :
    getPrefixedNumber (crlf txt) (crlfAt txt q) negative =
      (getPrefixedNumber txt q negative).map (·.crlf txt) := by
  have hnext : crlfAt txt q + 1 = crlfAt txt (q + 1) := (crlfAt_succ_of_ne hq).symm
  by_cases hbreak : txt[q + 1]? = some (ch '\n')
  · have hany : txt[q + 1]?.any isLineBreak = true := by
      rw [hbreak]
      rfl
    rw [getPrefixedNumber_of_break hany, getPrefixedNumber_of_break]
    · rfl
    · rw [hnext, any_crlfAt (by decide), hany]
  · have hbeyond : crlfAt txt q + 2 = crlfAt txt (q + 2) := by
      rw [crlfAt_succ_of_ne hbreak, ← hnext]
    have hbyte : (crlf txt).getD (crlfAt txt (q + 1)) 0 = txt.getD (q + 1) 0 := by
      rw [List.getD_eq_getElem?_getD, List.getD_eq_getElem?_getD, getElem?_crlfAt]
      cases hc : txt[q + 1]? with
      | none => rfl
      | some c =>
        rw [hc] at hbreak
        exact if_neg fun h => hbreak (congrArg some h)
    have hhex : ∀ s, digitRun hexDigit (crlf s) = digitRun hexDigit s := digitRun_crlf rfl rfl
    have hbelow : ∀ base s, digitRun (digitBelow base) (crlf s) = digitRun (digitBelow base) s :=
      fun base => digitRun_crlf rfl rfl
    unfold getPrefixedNumber
    simp only [hbeyond, hnext, crlfAt_lt_length_iff, hbyte, drop_crlfAt, scanHexDigits,
      scanBinaryDigits, scanOctalDigits, scanDigits, hhex, hbelow]
    split_ifs
    · rw [← crlfAt_add_digits rfl]
      rfl
    · rw [← crlfAt_add_digits rfl]
      rfl
    · rw [← crlfAt_add_digits rfl]
      rfl
    · rfl
    · rfl

end Numbers

/-! ### Views -/

/-- The same text twice, up to its line breaks: `v'` has CR LF where `v` has LF. -/
structure Rebroken (v v' : View) : Prop where
  no_cr : ch '\r' ∉ v.text
  text_eq : v'.text = crlf v.text
  terminated : v.Terminated
  terminated' : v'.Terminated

section Views

variable {v v' : View} {p q : ℕ}

theorem Rebroken.byte_eq (h : Rebroken v v') (hp : p ≤ v.text.length) :
    v'.byte (crlfAt v.text p) = crlfByte (v.byte p) := by
  rcases Nat.eq_or_lt_of_le hp with rfl | hlt
  · rw [crlfAt_length, ← h.text_eq, View.byte_length h.terminated', View.byte_length h.terminated]
    rfl
  · rw [View.byte, View.byte, h.text_eq, getElem?_crlfAt, List.getElem?_eq_getElem hlt]
    rfl

theorem crlfByte_eq_iff {c d : UInt8} (hcr : d ≠ ch '\r') (hlf : d ≠ ch '\n') :
    crlfByte c = d ↔ c = d := by
  unfold crlfByte
  split_ifs with hc
  · rw [hc]
    exact iff_of_false (Ne.symm hcr) (Ne.symm hlf)
  · exact Iff.rfl

/-- A byte that starts a number is at the same place. -/
theorem Rebroken.byte_iff (h : Rebroken v v') (hp : p ≤ v.text.length) {c : UInt8}
    (hcr : c ≠ ch '\r') (hlf : c ≠ ch '\n') : v'.byte (crlfAt v.text p) = c ↔ v.byte p = c := by
  rw [h.byte_eq hp, crlfByte_eq_iff hcr hlf]

theorem View.getElem?_of_byte (hv : v.Terminated) (hp : p ≤ v.text.length) {c : UInt8}
    (hc : v.byte p = c) (hnul : c ≠ 0) : v.text[p]? = some c := by
  rcases Nat.eq_or_lt_of_le hp with rfl | hlt
  · rw [View.byte_length hv] at hc
    exact absurd hc.symm hnul
  · rw [View.byte_of_lt hlt, hc]

/-- **Numbers.** -/
theorem getNumberToken_crlfAt (h : Rebroken v v') (hp : p < v.text.length) :
    getNumberToken v' (crlfAt v.text p) = (getNumberToken v p).crlf v.text := by
  have hplus := h.byte_iff hp.le (c := ch '+') (by decide) (by decide)
  have hminus := h.byte_iff hp.le (c := ch '-') (by decide) (by decide)
  set q := if v.byte p = ch '+' ∨ v.byte p = ch '-' then p + 1 else p with hq
  have hle : q ≤ v.text.length := by
    rw [hq]
    split_ifs
    · exact hp
    · exact hp.le
  have hq' : (if v.byte p = ch '+' ∨ v.byte p = ch '-' then crlfAt v.text p + 1
      else crlfAt v.text p) = crlfAt v.text q := by
    rw [hq]
    split_ifs with hsign
    · have hget : v.text[p]? = some (ch '+') ∨ v.text[p]? = some (ch '-') :=
        hsign.imp (fun hc => View.getElem?_of_byte h.terminated hp.le hc (by decide)) fun hc =>
          View.getElem?_of_byte h.terminated hp.le hc (by decide)
      exact (crlfAt_succ_of_ne (not_newline_of_or hget (by decide) (by decide))).symm
    · rfl
  have hdot := h.byte_iff hle (c := ch '.') (by decide) (by decide)
  have hzero := h.byte_iff hle (c := ch '0') (by decide) (by decide)
  unfold getNumberToken
  simp only [hplus, hminus, hq', ← hq, h.text_eq]
  by_cases hc : v.byte q = ch '.'
  · rw [if_pos (hdot.mpr hc), if_pos hc]
    refine getDecimalNumber_crlfAt _ _ _ fun _ => ?_
    exact View.getElem?_of_byte h.terminated hle hc (by decide)
  rw [if_neg (mt hdot.mp hc), if_neg hc]
  by_cases hc : v.byte q = ch '0'
  · have hget := View.getElem?_of_byte h.terminated hle hc (by decide)
    rw [if_pos (hzero.mpr hc), if_pos hc, getPrefixedNumber_crlfAt (by rw [hget]; decide),
      getDecimalNumber_crlfAt _ _ _ (fun h => by cases h)]
    cases getPrefixedNumber v.text q (decide (v.byte p = ch '-')) with
    | none => rfl
    | some s => rfl
  · rw [if_neg (mt hzero.mp hc), if_neg hc]
    exact getDecimalNumber_crlfAt _ _ _ fun h => by cases h

/-! ### Escape sequences -/

/-- Bytes that are neither NUL nor part of a line break, in either text, are the same. -/
theorem Rebroken.bytes_eq (h : Rebroken v v') (hq : q ≤ v.text.length) (ok : UInt8 → Prop)
    (hnul : ¬ ok 0) (hlf : ¬ ok (ch '\n')) (hcr : ¬ ok (ch '\r')) {n : ℕ}
    (hok : ∀ i < n, ok (v.byte (q + i)) ∨ ok (v'.byte (crlfAt v.text q + i))) :
    q + n ≤ v.text.length ∧ crlfAt v.text (q + n) = crlfAt v.text q + n ∧
      ∀ i < n, v'.byte (crlfAt v.text q + i) = v.byte (q + i) := by
  induction n with
  | zero => exact ⟨hq, rfl, fun i hi => absurd hi (Nat.not_lt_zero i)⟩
  | succ n ih =>
    obtain ⟨hle, hat, hbytes⟩ := ih fun i hi => hok i (Nat.lt_succ_of_lt hi)
    have hbyte := h.byte_eq hle
    rw [hat] at hbyte
    have hnew : v.byte (q + n) ≠ ch '\n' := by
      intro hc
      have hcase := hok n (Nat.lt_succ_self n)
      rw [hbyte, hc] at hcase
      exact hcase.elim hlf hcr
    have hsame : v'.byte (crlfAt v.text q + n) = v.byte (q + n) := hbyte.trans (if_neg hnew)
    have hlt : q + n < v.text.length := by
      refine lt_of_le_of_ne hle fun hend => ?_
      have hcase := hok n (Nat.lt_succ_self n)
      rw [hsame, hend, View.byte_length h.terminated, or_self] at hcase
      exact hnul hcase
    refine ⟨hlt, ?_, fun i hi => ?_⟩
    · rw [← Nat.add_assoc, crlfAt_succ_of_ne, hat, Nat.add_assoc]
      rw [View.byte_of_lt hlt]
      exact fun hc => hnew (Option.some.inj hc)
    · rcases Nat.lt_succ_iff_lt_or_eq.mp hi with hlt | rfl
      · exact hbytes i hlt
      · exact hsame

theorem digitRun_full {digit : UInt8 → Option ℕ} {s : Text}
    (h : (digitRun digit s).2 = s.length) : ∀ c ∈ s, (digit c).isSome = true ∨ c = ch '_' := by
  induction s with
  | nil => exact fun c hc => absurd hc List.not_mem_nil
  | cons c s ih =>
    rw [digitRun] at h
    split at h
    case h_1 d hd =>
      refine List.forall_mem_cons.mpr ⟨.inl (by rw [hd]; rfl), ih (Nat.succ.inj h)⟩
    case h_2 hd =>
      split_ifs at h with hc
      exact List.forall_mem_cons.mpr ⟨.inr hc, ih (Nat.succ.inj h)⟩

/-- The digits of an escape sequence. -/
theorem scanEscapeDigits_crlfAt (h : Rebroken v v') (hq : q ≤ v.text.length) {base : ℕ}
    {digit : UInt8 → Option ℕ} (hnul : digit 0 = none) (hlf : digit (ch '\n') = none)
    (hcr : digit (ch '\r') = none) (count : ℕ) :
    (scanEscapeDigits v' (scanDigits base digit) (crlfAt v.text q) count).1 =
        (scanEscapeDigits v (scanDigits base digit) q count).1 ∧
      ((scanEscapeDigits v (scanDigits base digit) q count).1 ≠ unicodeReplacementChar →
        (scanEscapeDigits v' (scanDigits base digit) (crlfAt v.text q) count).2 =
          crlfAt v.text (scanEscapeDigits v (scanDigits base digit) q count).2) := by
  set s := (List.range count).map fun i => v.byte (q + i) with hs
  set s' := (List.range count).map fun i => v'.byte (crlfAt v.text q + i) with hs'
  have hlen : s.length = count := by rw [hs, List.length_map, List.length_range]
  have hlen' : s'.length = count := by rw [hs', List.length_map, List.length_range]
  -- where there are enough digits in either text, there are the same in both
  have hsame : (digitRun digit s).2 = count ∨ (digitRun digit s').2 = count →
      s' = s ∧ crlfAt v.text (q + count) = crlfAt v.text q + count := by
    intro hfull
    have hok : ∀ i < count, ((digit (v.byte (q + i))).isSome = true ∨ v.byte (q + i) = ch '_') ∨
        ((digit (v'.byte (crlfAt v.text q + i))).isSome = true ∨
          v'.byte (crlfAt v.text q + i) = ch '_') := by
      intro i hi
      rcases hfull with hfull | hfull
      · refine .inl (digitRun_full (hfull.trans hlen.symm) _ ?_)
        exact List.mem_map_of_mem (List.mem_range.mpr hi)
      · refine .inr (digitRun_full (hfull.trans hlen'.symm) _ ?_)
        exact List.mem_map_of_mem (List.mem_range.mpr hi)
    obtain ⟨-, hat, hbytes⟩ := h.bytes_eq hq
      (fun c => (digit c).isSome = true ∨ c = ch '_') (by rw [hnul]; decide)
      (by rw [hlf]; decide) (by rw [hcr]; decide) hok
    exact ⟨List.map_congr_left fun i hi => hbytes i (List.mem_range.mp hi), hat⟩
  unfold scanEscapeDigits
  simp only [← hs, ← hs', scanDigits]
  by_cases hfull : (digitRun digit s).2 = count
  · obtain ⟨heq, hat⟩ := hsame (.inl hfull)
    rw [heq, ← hat]
    split_ifs
    · exact ⟨rfl, fun _ => rfl⟩
    · exact ⟨rfl, fun hne => absurd rfl hne⟩
  · have hfull' : (digitRun digit s').2 ≠ count := by
      intro hc
      rw [(hsame (.inr hc)).1] at hc
      exact hfull hc
    rw [if_neg fun hc => hfull' hc.1, if_neg fun hc => hfull hc.1]
    exact ⟨rfl, fun hne => absurd rfl hne⟩

/-- **Escape sequences.** -/
theorem scanUnicodeEscapeSequence_crlfAt (h : Rebroken v v') (hq : q ≤ v.text.length) :
    (scanUnicodeEscapeSequence v' (crlfAt v.text q)).1 = (scanUnicodeEscapeSequence v q).1 ∧
      ((scanUnicodeEscapeSequence v q).1 ≠ unicodeReplacementChar →
        (scanUnicodeEscapeSequence v' (crlfAt v.text q)).2 =
          crlfAt v.text (scanUnicodeEscapeSequence v q).2) := by
  have hbyte := h.byte_eq hq
  by_cases hlf : v.byte q = ch '\n'
  · -- a backslash in front of a line break
    rw [hlf] at hbyte
    have hcr : v'.byte (crlfAt v.text q) = ch '\r' := hbyte
    unfold scanUnicodeEscapeSequence
    rw [hlf, hcr]
    exact ⟨rfl, fun hne => absurd rfl hne⟩
  · have hsame : v'.byte (crlfAt v.text q) = v.byte q := hbyte.trans (if_neg hlf)
    have hnext : crlfAt v.text q + 1 = crlfAt v.text (q + 1) := by
      refine (crlfAt_succ_of_ne fun hc => hlf ?_).symm
      rw [View.byte, hc, Option.getD_some]
    have hlt : v.byte q ≠ 0 → q + 1 ≤ v.text.length := by
      intro hc
      refine Nat.lt_of_le_of_ne hq fun hend => hc ?_
      rw [hend, View.byte_length h.terminated]
    have hdigits : ∀ count, v.byte q ≠ 0 →
        (scanEscapeDigits v' scanHexDigits (crlfAt v.text (q + 1)) count).1 =
            (scanEscapeDigits v scanHexDigits (q + 1) count).1 ∧
          ((scanEscapeDigits v scanHexDigits (q + 1) count).1 ≠ unicodeReplacementChar →
            (scanEscapeDigits v' scanHexDigits (crlfAt v.text (q + 1)) count).2 =
              crlfAt v.text (scanEscapeDigits v scanHexDigits (q + 1) count).2) :=
      fun count hc => scanEscapeDigits_crlfAt h (hlt hc) rfl rfl rfl count
    unfold scanUnicodeEscapeSequence
    simp only [hsame, hnext]
    split_ifs with h₁ h₂ h₃ h₄ h₅
    · exact hdigits 2 (by rw [h₁]; decide)
    · exact hdigits 4 (by rw [h₂]; decide)
    · exact hdigits 8 (by rw [h₃]; decide)
    · exact ⟨rfl, fun _ => rfl⟩
    · exact scanEscapeDigits_crlfAt h hq rfl rfl rfl 3
    · split
      · exact ⟨rfl, fun _ => rfl⟩
      · exact ⟨rfl, fun _ => rfl⟩

end Views

/-! ### Operators and comments -/

section Tokens

variable {txt acc : Text} {p : ℕ} {op : Operator} {c : UInt8}

private theorem spellings_break_no_line :
    ∀ r ∈ operators, r.2.longer.all (fun l => (bytes l.1).all fun c => !isLineBreak c) = true := by
  decide

theorem not_lineBreak_of_spelling (hop : operatorAt c = some op) {l : List Char × TokenType}
    (hl : l ∈ op.longer) : ∀ d ∈ bytes l.1, isLineBreak d = false := by
  obtain ⟨r, hr, rfl⟩ := Option.map_eq_some_iff.mp hop
  have hall := spellings_break_no_line r (List.mem_of_find?_eq_some hr)
  intro d hd
  simpa using List.all_eq_true.mp (List.all_eq_true.mp hall l hl) d hd

/-- **Operators.** -/
theorem spelledAt_crlfAt (hop : operatorAt c = some op) (hp : txt[p]? ≠ some (ch '\n')) :
    op.spelledAt (crlf txt) (crlfAt txt p) = op.spelledAt txt p ∧
      crlfAt txt (p + (op.spelledAt txt p).1) = crlfAt txt p + (op.spelledAt txt p).1 := by
  have hnext : crlfAt txt p + 1 = crlfAt txt (p + 1) := (crlfAt_succ_of_ne hp).symm
  have hfind : (op.longer.find? fun r => slice (crlf txt) (crlfAt txt p + 1)
        (crlfAt txt p + 1 + r.1.length) = bytes r.1) =
      op.longer.find? fun r => slice txt (p + 1) (p + 1 + r.1.length) = bytes r.1 := by
    refine List.find?_congr fun l hl => ?_
    have hlen : (bytes l.1).length = l.1.length := List.length_map _
    rw [hnext, ← hlen, decide_eq_decide,
      slice_crlfAt_eq_iff (not_lineBreak_of_spelling hop hl)]
  unfold Operator.spelledAt
  rw [hfind]
  split
  case h_1 r hr =>
    have hlen : (bytes r.1).length = r.1.length := List.length_map _
    have hslice : slice txt (p + 1) (p + 1 + r.1.length) = bytes r.1 := by
      simpa using List.find?_some hr
    rw [← hlen] at hslice ⊢
    have hadd := crlfAt_add_of_slice hslice
      (not_lineBreak_of_spelling hop (List.mem_of_find?_eq_some hr))
    refine ⟨rfl, ?_⟩
    rw [show p + ((bytes r.1).length + 1) = p + 1 + (bytes r.1).length by omega, hadd, ← hnext]
    omega
  case h_2 => exact ⟨rfl, hnext.symm⟩

theorem appendCommentLine_crlfAt (hp : p ≤ txt.length) :
    appendCommentLine (crlf txt) (crlfAt txt p) (crlfAt txt (scanRestOfLine txt p)) acc =
      appendCommentLine txt p (scanRestOfLine txt p) acc := by
  have hle := le_scanSpacesAndTabs txt p
  have hend : scanRestOfLine txt p ≤ txt.length := scanWhile_le hp
  unfold appendCommentLine
  simp only [scanSpacesAndTabs_crlfAt, (crlfAt_strictMono txt).lt_iff_lt]
  by_cases hlt : scanSpacesAndTabs txt p < scanRestOfLine txt p
  · rw [if_pos hlt, if_pos hlt, slice_crlfAt hlt.le hend]
    intro i hi hi' hnewline
    have hin : txt[i]?.any (fun c => !isLineBreak c) = true := of_lt_scanWhile (hle.trans hi) hi'
    rw [hnewline] at hin
    exact absurd hin (by decide)
  · rw [if_neg hlt, if_neg hlt]

end Tokens

end Intent.Old
