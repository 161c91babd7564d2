import Intent.Old.LexerBreaks

/-!
# Line numbers

The members `line_begin` and `line_number` belong together if the one is where a line starts and
the other is its number (`LineCounted`). A line is counted as `scan_beginning_of_line` enters it, so
what has to be known in between is that the lexer does not get from one line into the next without
it: `Tracked` says that it is in the line that was counted last, or behind the text. Tokens in one
line keep that (`SameLine`); a comment or a string does unless a line break is directly behind the
dots of a continuation line, where both skip one character unseen.
-/

namespace Intent.Old

open Relation

/-! ### Parts of a line -/

/-- There is no LF from `p` up to `q`. -/
def SameLine (txt : Text) (p q : ℕ) : Prop :=
  p ≤ q ∧ ∀ i, p ≤ i → i < q → txt[i]? ≠ some (ch '\n')

section Parts

variable {txt : Text} {v : View} {p q r : ℕ}

theorem SameLine.refl (txt : Text) (p : ℕ) : SameLine txt p p := ⟨le_rfl, fun _ _ _ => by omega⟩

theorem SameLine.trans (h : SameLine txt p q) (h' : SameLine txt q r) : SameLine txt p r := by
  refine ⟨h.1.trans h'.1, fun i hi hlt => ?_⟩
  rcases Nat.lt_or_ge i q with hiq | hiq
  · exact h.2 i hi hiq
  · exact h'.2 i hiq hlt

theorem sameLine_succ (h : txt[p]? ≠ some (ch '\n')) : SameLine txt p (p + 1) := by
  refine ⟨Nat.le_succ p, fun i hi hlt => ?_⟩
  rwa [show i = p by omega]

theorem SameLine.succ (h : SameLine txt p q) (hq : txt[q]? ≠ some (ch '\n')) :
    SameLine txt p (q + 1) := h.trans (sameLine_succ hq)

theorem not_newline_of_eq {c : UInt8} (h : txt[p]? = some c) (hc : c ≠ ch '\n') :
    txt[p]? ≠ some (ch '\n') := by
  rw [h]
  exact fun heq => hc (Option.some.inj heq)

theorem sameLine_scanSpacesAndTabs (txt : Text) (p : ℕ) :
    SameLine txt p (scanSpacesAndTabs txt p) :=
  ⟨le_scanSpacesAndTabs txt p, fun _ hi hlt => not_newline_of_lt_scanSpacesAndTabs hi hlt⟩

theorem sameLine_digits {digit : UInt8 → Option ℕ} (hlf : digit (ch '\n') = none) (txt : Text)
    (q : ℕ) : SameLine txt q (q + (digitRun digit (txt.drop q)).2) := by
  refine ⟨Nat.le_add_right _ _, fun i hi hlt => ?_⟩
  have hline := digitRun_in_line hlf (show i - q < (digitRun digit (txt.drop q)).2 by omega)
  rwa [List.getElem?_drop, Nat.add_sub_cancel' hi] at hline

theorem sameLine_slice {w : Text} (h : slice txt p (p + w.length) = w)
    (hw : ∀ c ∈ w, isLineBreak c = false) : SameLine txt p (p + w.length) := by
  refine ⟨Nat.le_add_right _ _, fun i hi hlt hnewline => ?_⟩
  have hget : txt[p + (i - p)]? = w[i - p]? := getElem?_of_slice h (by omega)
  rw [Nat.add_sub_cancel' hi, hnewline] at hget
  exact absurd (hw _ (List.mem_of_getElem? hget.symm)) (by decide)

/-! ### Numbers and operators -/

theorem scanDecimalNumber_sameLine (txt : Text) (p : ℕ) :
    SameLine txt p (scanDecimalNumber txt p).2.2 := by
  unfold scanDecimalNumber
  dsimp only
  split_ifs with hsign
  · have hne := not_newline_of_or hsign (by decide) (by decide)
    exact (sameLine_succ hne).trans (sameLine_digits rfl txt _)
  · exact sameLine_digits rfl txt _

theorem finishNumber_sameLine (negative : Bool) (whole : UInt64)
    (significand : Option (List ℕ × UInt64)) (h : SameLine txt p q) :
    SameLine txt p (finishNumber txt negative whole significand q).stop := by
  unfold finishNumber
  split_ifs with hexp
  · have hne := not_newline_of_or hexp.2 (by decide) (by decide)
    exact (h.succ hne).trans (scanDecimalNumber_sameLine txt _)
  · cases significand with
    | none => exact h
    | some s => exact h

theorem getDecimalNumber_sameLine (negative floatingPoint : Bool)
    (hradix : floatingPoint = true → txt[q]? = some (ch '.')) :
    SameLine txt q (getDecimalNumber txt negative floatingPoint q).stop := by
  unfold getDecimalNumber
  dsimp only
  have hdigits : SameLine txt q (q + (scanDecimalDigitsPreRadix (txt.drop q)).2) :=
    sameLine_digits rfl txt q
  have hfraction : ∀ k, txt[k]? = some (ch '.') → SameLine txt q k →
      SameLine txt q (k + 1 + (scanDecimalDigitsPostRadix (txt.drop (k + 1))).2) := by
    intro k hk hline
    exact (hline.succ (not_newline_of_eq hk (by decide))).trans (sameLine_digits rfl txt _)
  by_cases hfloat : floatingPoint = true
  · subst hfloat
    rw [if_pos (.inl rfl)]
    exact finishNumber_sameLine _ _ _ (hfraction q (hradix rfl) (.refl txt q))
  · split_ifs with hpoint
    · exact finishNumber_sameLine _ _ _ (hfraction _ (hpoint.resolve_left hfloat) hdigits)
    · exact finishNumber_sameLine _ _ _ hdigits

/-- A character that selects a base. -/
theorem getPrefixedNumber_sameLine {negative : Bool} {s : Scanned}
    (h : getPrefixedNumber txt q negative = some s) (hq : txt[q]? ≠ some (ch '\n')) :
    SameLine txt q s.stop := by
  have hnext : ∀ {k : ℕ}, txt[q + 1]? ≠ some (ch '\n') → SameLine txt (q + 2) (q + 2 + k) →
      SameLine txt q (q + 2 + k) := fun hne hline => ((sameLine_succ hq).succ hne).trans hline
  by_cases hbreak : txt[q + 1]?.any isLineBreak = true
  · rw [getPrefixedNumber_of_break hbreak] at h
    cases h
  have hne : txt[q + 1]? ≠ some (ch '\n') := by
    intro hlf
    rw [hlf] at hbreak
    exact hbreak (by decide)
  unfold getPrefixedNumber at h
  dsimp only at h
  split_ifs at h
  all_goals
    obtain rfl := Option.some.inj h
    exact hnext hne (sameLine_digits rfl txt _)

/-- **Numbers** are in one line. -/
theorem getNumberToken_sameLine (hv : v.Terminated) (hp : p < v.text.length)
    (hc : v.text[p]? ≠ some (ch '\n')) : SameLine v.text p (getNumberToken v p).stop := by
  unfold getNumberToken
  dsimp only
  set q := if v.byte p = ch '+' ∨ v.byte p = ch '-' then p + 1 else p with hq
  have hle : q ≤ v.text.length := by
    rw [hq]
    split_ifs
    · exact hp
    · exact hp.le
  have hsign : SameLine v.text p q := by
    rw [hq]
    split_ifs
    · exact sameLine_succ hc
    · exact .refl _ _
  split_ifs with hradix hzero
  · refine hsign.trans (getDecimalNumber_sameLine _ _ fun _ => ?_)
    exact View.getElem?_of_byte hv hle hradix (by decide)
  · have hhere := View.getElem?_of_byte hv hle hzero (by decide)
    cases hpre : getPrefixedNumber v.text q (decide (v.byte p = ch '-')) with
    | none => exact hsign.trans (getDecimalNumber_sameLine _ _ fun h => by cases h)
    | some s =>
      exact hsign.trans (getPrefixedNumber_sameLine hpre (not_newline_of_eq hhere (by decide)))
  · exact hsign.trans (getDecimalNumber_sameLine _ _ fun h => by cases h)

/-- **Operators** are in one line. -/
theorem spelledAt_sameLine {c : UInt8} {op : Operator} (hop : operatorAt c = some op)
    (hp : txt[p]? ≠ some (ch '\n')) : SameLine txt p (p + (op.spelledAt txt p).1) := by
  unfold Operator.spelledAt
  split
  case h_1 r hr =>
    have hlen : (bytes r.1).length = r.1.length := List.length_map _
    have hslice : slice txt (p + 1) (p + 1 + r.1.length) = bytes r.1 := by
      simpa using List.find?_some hr
    rw [← hlen] at hslice ⊢
    have hline := sameLine_slice hslice
      (not_lineBreak_of_spelling hop (List.mem_of_find?_eq_some hr))
    rw [show p + ((bytes r.1).length + 1) = p + 1 + (bytes r.1).length by omega]
    exact (sameLine_succ hp).trans hline
  case h_2 => exact sameLine_succ hp

/-! ### Escape sequences -/

theorem scanEscapeDigits_sameLine {base count : ℕ} {digit : UInt8 → Option ℕ}
    (hlf : digit (ch '\n') = none)
    (h : (scanEscapeDigits v (scanDigits base digit) q count).1 ≠ unicodeReplacementChar) :
    SameLine v.text q (scanEscapeDigits v (scanDigits base digit) q count).2 := by
  unfold scanEscapeDigits at h ⊢
  dsimp only at h ⊢
  split_ifs at h ⊢ with hfound
  · refine ⟨Nat.le_add_right _ _, fun i hi hlt hnewline => ?_⟩
    have hfull : (digitRun digit ((List.range count).map fun i => v.byte (q + i))).2 =
        ((List.range count).map fun i => v.byte (q + i)).length := by
      rw [List.length_map, List.length_range]
      exact hfound.1
    have hmem : v.byte i ∈ (List.range count).map fun i => v.byte (q + i) := by
      refine List.mem_map.mpr ⟨i - q, List.mem_range.mpr (by omega), ?_⟩
      rw [Nat.add_sub_cancel' hi]
    have hbyte : v.byte i = ch '\n' := by rw [View.byte, hnewline, Option.getD_some]
    rcases digitRun_full hfull _ hmem with hdigit | hunderscore
    · rw [hbyte, hlf] at hdigit
      cases hdigit
    · rw [hbyte] at hunderscore
      exact absurd hunderscore (by decide)
  · exact absurd rfl h

/-- **Escape sequences** are in one line. -/
theorem scanUnicodeEscapeSequence_sameLine
    (h : (scanUnicodeEscapeSequence v q).1 ≠ unicodeReplacementChar) :
    SameLine v.text q (scanUnicodeEscapeSequence v q).2 := by
  have hnext : v.byte q ≠ ch '\n' → SameLine v.text q (q + 1) := by
    intro hne
    refine sameLine_succ fun hlf => hne ?_
    rw [View.byte, hlf, Option.getD_some]
  unfold scanUnicodeEscapeSequence at h ⊢
  dsimp only at h ⊢
  split_ifs at h ⊢ with h₁ h₂ h₃ h₄ h₅
  · exact (hnext (by rw [h₁]; decide)).trans (scanEscapeDigits_sameLine rfl h)
  · exact (hnext (by rw [h₂]; decide)).trans (scanEscapeDigits_sameLine rfl h)
  · exact (hnext (by rw [h₃]; decide)).trans (scanEscapeDigits_sameLine rfl h)
  · refine hnext ?_
    rcases h₄ with h₄ | h₄ | h₄
    all_goals
      rw [h₄]
      decide
  · exact scanEscapeDigits_sameLine rfl h
  · split at h
    case h_1 cp hcp =>
      refine hnext ?_
      intro hlf
      have hnone : oneCharEscapes.lookup (ch '\n') = none := by decide
      rw [hlf, hnone] at hcp
      cases hcp
    case h_2 => exact absurd rfl h

end Parts

/-! ### Lines -/

/-- A line starts at `b`: at the start of the text, or right behind an LF. -/
def StartsLine (txt : Text) (b : ℕ) : Prop := b = 0 ∨ ∃ i, b = i + 1 ∧ txt[i]? = some (ch '\n')

/-- The members `line_begin` and `line_number` are those of a line of the text. -/
structure LineCounted (txt : Text) (m : Lexer) : Prop where
  starts : StartsLine txt m.lineBegin
  number : m.lineNumber = 1 + (txt.take m.lineBegin).count (ch '\n')

/-- The lexer knows in which line it is, and `q` is in the same line, or behind the text. -/
structure Tracked (txt : Text) (m : Lexer) (q : ℕ) : Prop extends LineCounted txt m where
  line : q < txt.length → SameLine txt m.lineBegin q

/-- If there is a line at `p`, then all lines before it are counted. -/
def Entering (txt : Text) (m : Lexer) : Prop :=
  m.p < txt.length → StartsLine txt m.p ∧ m.lineNumber = (txt.take m.p).count (ch '\n')

section Lines

variable {txt : Text} {m : Lexer} {p q : ℕ}

theorem count_take_of_sameLine (h : SameLine txt p q) :
    (txt.take q).count (ch '\n') = (txt.take p).count (ch '\n') := by
  obtain ⟨i, rfl⟩ := Nat.exists_eq_add_of_le h.1
  have hat := crlfAt_add h.2
  unfold crlfAt at hat
  omega

/-- The next line. -/
theorem Tracked.entering (h : Tracked txt m q) (hq : txt[q]? = some (ch '\n')) :
    Entering txt (m.setP (q + 1)) := by
  intro _
  refine ⟨.inr ⟨q, rfl, hq⟩, ?_⟩
  have hline := count_take_of_sameLine (h.line (List.getElem?_eq_some_iff.mp hq).1)
  have hat := crlfAt_succ_of_eq hq
  have hnumber := h.number
  unfold crlfAt at hat
  change m.lineNumber = (txt.take (q + 1)).count (ch '\n')
  omega

/-- The members that a look at the indent of a line keeps. -/
theorem lookAtIndent_keeps (endOfIndent : ℕ) :
    (lookAtIndent txt endOfIndent).wp m
      (fun _ _ m' => m'.lineBegin = m.lineBegin ∧ m'.lineNumber = m.lineNumber ∧ m'.p = m.p)
      (fun _ _ _ => True) fun _ => True := by
  simp only [lookAtIndent, pushIndent, Gen.wp_bind, Gen.wp_get, Gen.wp_emit, Gen.wp_ite,
    Gen.wp_modify, Gen.wp_raise, Gen.wp_pure]
  exact ⟨fun _ => ⟨fun _ => ⟨trivial, trivial, trivial⟩, fun _ => trivial⟩,
    fun _ => ⟨fun _ => ⟨trivial, trivial, trivial⟩, fun _ => ⟨trivial, trivial, trivial⟩⟩⟩

/-- **The beginning of a line.** Each line is counted as it is entered. -/
theorem scanLines_tracked (hcr : ch '\r' ∉ txt) (hcount : txt.count (ch '\n') + 1 < 2 ^ 32)
    {fuel : ℕ} (hnext : Entering txt m) (hm : m.p < txt.length ∨ LineCounted txt m) :
    (scanLines txt fuel).wp m (fun r _ m' => Tracked txt m' m'.p ∧ Tracked txt m' r)
      (fun _ _ _ => True) fun _ => True := by
  induction fuel generalizing m with
  | zero => trivial
  | succ fuel ih =>
    simp only [scanLines, Gen.wp_bind, Gen.wp_get, Gen.wp_ite, Gen.wp_modify, Gen.wp_pure]
    refine ⟨fun hp => ?_, fun hp => ?_⟩
    · obtain ⟨hstarts, hnumber⟩ := hnext hp
      have hle : (txt.take m.p).count (ch '\n') ≤ txt.count (ch '\n') :=
        (List.take_sublist _ _).count_le _
      have hcounted : LineCounted txt
          { m with lineNumber := (m.lineNumber + 1) % 2 ^ 32, lineBegin := m.p } := by
        refine ⟨hstarts, ?_⟩
        change (m.lineNumber + 1) % 2 ^ 32 = 1 + (txt.take m.p).count (ch '\n')
        omega
      have hindent := sameLine_scanSpacesAndTabs txt m.p
      refine ⟨fun hend => ?_, fun hend => ⟨fun hbreak => ?_, fun hbreak => ?_⟩⟩
      · exact ⟨⟨hcounted, fun _ => .refl txt m.p⟩, ⟨hcounted, fun h => absurd h (lt_irrefl _)⟩⟩
      · have hlf := getElem?_eq_of_any_isLineBreak hcr hbreak
        have htracked : Tracked txt
            { m with lineNumber := (m.lineNumber + 1) % 2 ^ 32, lineBegin := m.p }
            (scanSpacesAndTabs txt m.p) := ⟨hcounted, fun _ => hindent⟩
        rw [consumeLineBreak_newline hlf]
        exact ih (htracked.entering hlf) (.inr ⟨hcounted.starts, hcounted.number⟩)
      · refine (lookAtIndent_keeps _).imp (fun _ _ m' h => ?_) (fun _ _ _ h => h) fun _ h => h
        obtain ⟨hbegin, hnum, hp'⟩ := h
        have hcounted' : LineCounted txt m' := by
          refine ⟨?_, ?_⟩
          · rw [hbegin]
            exact hcounted.starts
          · rw [hbegin, hnum]
            exact hcounted.number
        have hline : SameLine txt m'.lineBegin (scanSpacesAndTabs txt m.p) := by
          rw [hbegin]
          exact hindent
        refine ⟨⟨hcounted', fun _ => ?_⟩, ⟨hcounted', fun _ => hline⟩⟩
        rw [hp']
        exact hline
    · have hcounted := hm.resolve_left hp
      exact ⟨⟨hcounted, fun h => absurd h hp⟩, ⟨hcounted, fun h => absurd h hp⟩⟩

theorem sameLine_dots (h : slice txt p (p + 3) = bytes ['.', '.', '.']) :
    SameLine txt p (p + 3) :=
  sameLine_slice (w := bytes ['.', '.', '.']) h dots_break_no_line

/-- **Continuation lines.** The lexer is in the line that it looked at last. -/
theorem nextLineContinues_tracked (hcr : ch '\r' ∉ txt)
    (hcount : txt.count (ch '\n') + 1 < 2 ^ 32) (hm : Tracked txt m q)
    (hq : txt[q]? = some (ch '\n') ∨ txt.length ≤ q) :
    (nextLineContinues txt (q + 1)).wp m (fun _ _ m' => Tracked txt m' m'.p)
      (fun _ _ _ => True) fun _ => True := by
  have hnext : Entering txt (m.setP (q + 1)) := by
    rcases hq with hlf | hend
    · exact hm.entering hlf
    · intro hlt
      change q + 1 < _ at hlt
      omega
  simp only [nextLineContinues, scanBeginningOfLine, Gen.wp_bind, Gen.wp_get, Gen.wp_ite,
    Gen.wp_modify, Gen.wp_pure]
  refine (scanLines_tracked hcr hcount hnext (.inr ⟨hm.starts, hm.number⟩)).imp
    (fun r _ m' h => ?_) (fun _ _ _ h => h) fun _ h => h
  refine ⟨fun _ => h.1, fun _ => ⟨fun _ => h.1, fun hdots => ?_⟩⟩
  rw [not_or, not_le, not_not] at hdots
  refine ⟨⟨h.2.starts, h.2.number⟩, fun hlt => ?_⟩
  exact (h.2.line (by omega)).trans (sameLine_dots hdots.2)

end Lines

/-! ### Scanners -/

/-- A line of a comment ends at `e'` that continues the one that ends at `e`. -/
def CommentStep (txt : Text) (width e e' : ℕ) : Prop :=
  ∃ n d, n % 2 ^ 32 = 0 ∧ Continuation txt width (e + 1) n d ∧ e' = scanRestOfLine txt (d + 4)

/-- A line of the comment at `p` ends at `e`. -/
def CommentLine (txt : Text) (width p e : ℕ) : Prop :=
  ReflTransGen (CommentStep txt width) (scanRestOfLine txt p) e

/-- No line break is directly behind the dots of a line that continues the comment or the string at
`p`, at a total indent of `width`. -/
structure DotsSpaced (v : View) (width p : ℕ) : Prop where
  comment : v.byte p = ch '#' → ∀ e n d, CommentLine v.text width p e → n % 2 ^ 32 = 0 →
    Continuation v.text width (e + 1) n d → v.text[d + 3]? ≠ some (ch '\n')
  string : IsQuote (v.byte p) → ∀ q d, StringAt v (v.byte p) width (p + 1) q →
    v.text[q]? = some (ch '\n') → ContinuesAt v.text width q d → v.text[d + 3]? ≠ some (ch '\n')

section Scanners

variable {txt : Text} {v : View} {m : Lexer} {q width : ℕ}

theorem Tracked.of_sameLine {p : ℕ} (h : Tracked txt m p) (hline : SameLine txt p q) :
    Tracked txt m q := by
  refine ⟨⟨h.starts, h.number⟩, fun hlt => (h.line ?_).trans hline⟩
  exact hline.1.trans_lt hlt

theorem Tracked.setP {p : ℕ} (h : Tracked txt m q) : Tracked txt (m.setP p) q :=
  ⟨⟨h.starts, h.number⟩, h.line⟩

theorem sameLine_scanRestOfLine (txt : Text) (p : ℕ) : SameLine txt p (scanRestOfLine txt p) := by
  refine ⟨le_scanWhile _ _ _, fun i hi hlt hnewline => ?_⟩
  have hin : txt[i]?.any (fun c => !isLineBreak c) = true := of_lt_scanWhile hi hlt
  rw [hnewline] at hin
  exact absurd hin (by decide)

/-- A line ends with an LF, or with the text. -/
theorem scanRestOfLine_end (hcr : ch '\r' ∉ txt) (p : ℕ) :
    txt[scanRestOfLine txt p]? = some (ch '\n') ∨ txt.length ≤ scanRestOfLine txt p := by
  rcases Nat.lt_or_ge (scanRestOfLine txt p) txt.length with hlt | hge
  · have hstop : txt[scanRestOfLine txt p]?.any (fun c => !isLineBreak c) = false :=
      scanWhile_stop hlt
    refine .inl (getElem?_eq_of_any_isLineBreak hcr ?_)
    rw [List.getElem?_eq_getElem hlt, Option.any_some] at hstop ⊢
    simpa using hstop
  · exact .inr hge

/-- **Comments**, line by line. -/
theorem commentLines_tracked (hcr : ch '\r' ∉ txt) (hcount : txt.count (ch '\n') + 1 < 2 ^ 32)
    {fuel : ℕ} (acc : Text) (hm : Tracked txt m (m.p + 1)) (hwidth : m.totalIndentWidth = width)
    (hp : m.p < txt.length)
    (hspaced : ∀ e n d, ReflTransGen (CommentStep txt width) (scanRestOfLine txt (m.p + 1)) e →
      n % 2 ^ 32 = 0 → Continuation txt width (e + 1) n d → txt[d + 3]? ≠ some (ch '\n')) :
    (commentLines txt fuel acc).wp m (fun _ _ m' => Tracked txt m' m'.p)
      (fun _ _ _ => True) fun _ => True := by
  induction fuel generalizing m acc with
  | zero => trivial
  | succ fuel ih =>
    have hrest := sameLine_scanRestOfLine txt (m.p + 1)
    have hend := scanRestOfLine_end hcr (m.p + 1)
    simp only [commentLines, Gen.wp_bind, Gen.wp_get, Gen.wp_modify, Gen.wp_emit, Gen.wp_ite,
      Gen.wp_pure]
    refine ((nextLineContinues_tracked hcr hcount (m := m.setP (m.p + 1))
      (hm.of_sameLine hrest).setP hend).and (nextLineContinues_dots (m := m.setP (m.p + 1))
      hwidth)).imp (fun r _ m₁ h => ⟨fun hr => ?_, fun _ => h.1⟩) (fun _ _ _ _ => trivial)
      fun _ _ => trivial
    obtain ⟨hm₁, ⟨-, hwidth₁, n, d, hn, hcont, hp₁, hd⟩ | ⟨hfalse, -⟩⟩ := h
    · have hne := hspaced _ n d .refl hn hcont
      have hnext : Tracked txt m₁ (m₁.p + 1) := by
        refine hm₁.of_sameLine (sameLine_succ ?_)
        rwa [hp₁]
      refine ih _ hnext hwidth₁ (by omega) fun e n' d' he => hspaced e n' d' (.head ?_ he)
      exact ⟨n, d, hn, hcont, by rw [hp₁]⟩
    · rw [hfalse] at hr
      cases hr

/-- **Strings**, round by round. -/
theorem stringRounds_tracked (hcr : ch '\r' ∉ v.text)
    (hcount : v.text.count (ch '\n') + 1 < 2 ^ 32) {quote : UInt8}
    (hquote : isLineBreak quote = false) {fuel : ℕ} (acc : Text) (hm : Tracked v.text m m.p)
    (hwidth : m.totalIndentWidth = width)
    (hspaced : ∀ q d, StringAt v quote width m.p q → v.text[q]? = some (ch '\n') →
      ContinuesAt v.text width q d → v.text[d + 3]? ≠ some (ch '\n')) :
    (stringRounds v quote fuel acc).wp m (fun _ _ m' => Tracked v.text m' m'.p)
      (fun _ _ _ => True) fun _ => True := by
  induction fuel generalizing m acc with
  | zero => trivial
  | succ fuel ih =>
    -- a round that stays in its line
    have round : ∀ (q : ℕ) (text : Text), SameLine v.text m.p q →
        StringStep v quote width m.p q →
        (stringRounds v quote fuel text).wp (m.setP q) (fun _ _ m' => Tracked v.text m' m'.p)
          (fun _ _ _ => True) fun _ => True := by
      intro q text hline hstep
      exact ih text (hm.of_sameLine hline).setP hwidth fun r d hr => hspaced r d (.head hstep hr)
    simp only [stringRounds, Gen.wp_bind, Gen.wp_get]
    cases hc : v.text[m.p]? with
    | none => exact hm
    | some c =>
      have hnext : isLineBreak c = false → SameLine v.text m.p (m.p + 1) := by
        intro hbreak
        refine sameLine_succ (not_newline_of_eq hc ?_)
        rintro rfl
        exact absurd hbreak (by decide)
      simp only [Gen.wp_bind, Gen.wp_ite, Gen.wp_modify, Gen.wp_pure]
      refine ⟨fun heq => ?_, fun hne => ⟨fun hback => ?_, fun hback => ⟨fun hbreak => ?_,
        fun hbreak => ?_⟩⟩⟩
      · rw [← heq] at hquote
        exact (hm.of_sameLine (hnext hquote)).setP
      · rw [hback] at hc hne hnext
        have hline := hnext isLineBreak_backslash
        have hstep : StringStep v quote width m.p (escapeEnd v m.p) := .escape hc hne
        refine ⟨fun htaken => ?_, fun hrefused => ?_⟩
        · rw [escapeEnd, if_pos htaken] at hstep
          exact round _ _ (hline.trans (scanUnicodeEscapeSequence_sameLine htaken.1)) hstep
        · rw [escapeEnd, if_neg hrefused] at hstep
          exact round _ _ hline hstep
      · have hlf : v.text[m.p]? = some (ch '\n') :=
          getElem?_eq_of_any_isLineBreak hcr (by rw [hc, Option.any_some, hbreak])
        have hlook : (nextLineContinues v.text (consumeLineBreak v.text m.p)).wp m
            (fun _ _ m' => Tracked v.text m' m'.p) (fun _ _ _ => True) fun _ => True := by
          rw [consumeLineBreak_newline hlf]
          exact nextLineContinues_tracked hcr hcount hm (.inl hlf)
        refine (hlook.and (nextLineContinues_continuesAt hwidth)).imp
          (fun r _ m₁ h => ⟨fun hr => ?_, fun _ => ?_⟩) (fun _ _ _ _ => trivial) fun _ _ => trivial
        · obtain ⟨hm₁, ⟨-, hwidth₁, d, hcont, hp₁, hd⟩ | ⟨hfalse, -⟩⟩ := h
          · have hstep : StringStep v quote width m.p (d + 4) := .continued hc hne hbreak hcont
            have hskip := hspaced m.p d .refl hlf hcont
            refine ih _ (hm₁.of_sameLine (sameLine_succ ?_)).setP hwidth₁
              fun r d' hr => hspaced r d' (.head hstep ?_)
            · rwa [hp₁]
            · have hr' : StringAt v quote width (m₁.p + 1) r := hr
              rwa [hp₁] at hr'
          · rw [hfalse] at hr
            cases hr
        · exact ⟨⟨h.1.starts, h.1.number⟩, h.1.line⟩
      · exact round _ _ (hnext (Bool.eq_false_iff.mpr hbreak))
          (.plain hc hne hback (Bool.eq_false_iff.mpr hbreak))

/-- The end of a token. -/
theorem Tracked.setToken (h : Tracked txt m q) (hbegin : m.t.substr.begin ≤ q) (type : TokenType)
    (value : Value) :
    Tracked txt (m.setToken type q value) (m.setToken type q value).t.substr.stop := by
  have hstop : (m.setToken type q value).t.substr.stop = q := Span.stop_endAt hbegin
  rw [hstop]
  exact ⟨⟨h.starts, h.number⟩, h.line⟩

/-- **Comments.** -/
theorem scanHash_tracked (hcr : ch '\r' ∉ txt) (hcount : txt.count (ch '\n') + 1 < 2 ^ 32)
    (hready : Ready txt m) (hm : Tracked txt m m.p) (hc : txt[m.p]? = some (ch '#'))
    (hspaced : ∀ e n d, CommentLine txt m.totalIndentWidth m.p e → n % 2 ^ 32 = 0 →
      Continuation txt m.totalIndentWidth (e + 1) n d → txt[d + 3]? ≠ some (ch '\n')) :
    (scanHash txt).wp m (fun _ _ m' => Tracked txt m' m'.t.substr.stop)
      (fun _ _ _ => True) fun _ => True := by
  -- the mark of the comment ends at `p₀`, in the same line
  have comment : ∀ {p₀ : ℕ} (type : TokenType), m.p ≤ p₀ → txt[p₀]? = some (ch '#') →
      SameLine txt m.p p₀ → scanRestOfLine txt (p₀ + 1) = scanRestOfLine txt m.p →
      (getCommentToken txt).wp (m.setP p₀)
        (fun r _ m' => Tracked txt (m'.setToken type m'.p (.text r))
          (m'.setToken type m'.p (.text r)).t.substr.stop) (fun _ _ _ => True) fun _ => True := by
    intro p₀ type hle hmark hline hsame
    have hlt := (List.getElem?_eq_some_iff.mp hmark).1
    have hnext : Tracked txt (m.setP p₀) (p₀ + 1) :=
      (hm.of_sameLine (hline.succ (not_newline_of_eq hmark (by decide)))).setP
    unfold CommentLine at hspaced
    rw [← hsame] at hspaced
    refine ((commentLines_tracked hcr hcount (m := m.setP p₀) [] hnext rfl hlt hspaced).and
      (commentLines_spec (m := m.setP p₀) _ [] (by omega) hlt)).imp (fun r _ m' h => ?_)
      (fun _ _ _ _ => trivial) fun _ _ => trivial
    obtain ⟨hm', ht, hfar, -⟩ := h
    refine hm'.setToken ?_ _ _
    have hfar : p₀ < m'.p := hfar
    have ht : m'.t = m.t := ht
    rw [ht, hready.substr_eq]
    exact hle.trans hfar.le
  simp only [scanHash, Gen.wp_bind, Gen.wp_get, Gen.wp_modify]
  by_cases hdoc : slice txt (m.p + 1) (m.p + 3) = bytes ['#', '#']
  · have h₁ : txt[m.p + 1]? = some (ch '#') :=
      getElem?_of_slice (w := bytes ['#', '#']) (i := 0) hdoc (by decide)
    have h₂ : txt[m.p + 2]? = some (ch '#') :=
      getElem?_of_slice (w := bytes ['#', '#']) (i := 1) hdoc (by decide)
    have hline : SameLine txt m.p (m.p + 2) :=
      (sameLine_succ (not_newline_of_eq hc (by decide))).succ (not_newline_of_eq h₁ (by decide))
    have hsame : scanRestOfLine txt (m.p + 2 + 1) = scanRestOfLine txt m.p := by
      rw [scanRestOfLine_succ h₂ (by decide), scanRestOfLine_succ h₁ (by decide),
        scanRestOfLine_succ hc (by decide)]
    simp only [if_pos hdoc]
    exact comment .docComment (by omega) h₂ hline hsame
  · simp only [if_neg hdoc]
    exact comment .comment le_rfl hc (.refl txt m.p) (scanRestOfLine_succ hc (by decide))

/-- **Strings.** -/
theorem scanQuote_tracked (hcr : ch '\r' ∉ v.text) (hcount : v.text.count (ch '\n') + 1 < 2 ^ 32)
    (hready : Ready v.text m) (hm : Tracked v.text m m.p) (hquote : IsQuote (v.byte m.p))
    (hspaced : ∀ q d, StringAt v (v.byte m.p) m.totalIndentWidth (m.p + 1) q →
      v.text[q]? = some (ch '\n') → ContinuesAt v.text m.totalIndentWidth q d →
      v.text[d + 3]? ≠ some (ch '\n')) :
    (scanQuote v).wp m (fun _ _ m' => Tracked v.text m' m'.t.substr.stop)
      (fun _ _ _ => True) fun _ => True := by
  have hp := hready.p_lt
  have hbreak : isLineBreak (v.byte m.p) = false := (Bool.or_eq_false_iff.mp hquote.startsToken.2).2
  have hline : SameLine v.text m.p (m.p + 1) := by
    refine sameLine_succ (not_newline_of_eq (View.byte_of_lt hp) fun hlf => ?_)
    rw [hlf] at hbreak
    exact absurd hbreak (by decide)
  simp only [scanQuote, getStringLiteral, Gen.wp_bind, Gen.wp_get, Gen.wp_modify]
  refine ((stringRounds_tracked hcr hcount hbreak [] (hm.of_sameLine hline).setP rfl hspaced).and
    (stringRounds_spec (m := m.setP (m.p + 1)) _ [] (by omega) hp)).imp (fun r _ m' h => ?_)
    (fun _ _ _ _ => trivial) fun _ _ => trivial
  obtain ⟨hm', ht, hfar, -⟩ := h
  refine hm'.setToken ?_ _ _
  have hfar : m.p + 1 ≤ m'.p := hfar
  have ht : m'.t = m.t := ht
  rw [ht, hready.substr_eq]
  exact (Nat.le_succ _).trans hfar

/-- **Phrases.** -/
theorem getPhraseToken_tracked (hcr : ch '\r' ∉ v.text)
    (hcount : v.text.count (ch '\n') + 1 < 2 ^ 32) (hready : Ready v.text m)
    (hm : Tracked v.text m m.p) :
    (getPhraseToken v).wp m (fun _ _ m' => Tracked v.text m' m'.t.substr.stop)
      (fun _ _ _ => True) fun _ => True := by
  set q := scanWhile (fun i => v.text[i]?.any isPhraseByte) m.p v.text.length with hq
  have hle : m.p ≤ q := le_scanWhile _ _ _
  have hline : SameLine v.text m.p q := by
    refine ⟨hle, fun i hi hlt hnewline => ?_⟩
    have hin : v.text[i]?.any isPhraseByte = true := of_lt_scanWhile hi hlt
    rw [hnewline] at hin
    exact absurd hin (by decide)
  have hbegin : m.t.substr.begin = m.p := by rw [hready.substr_eq]
  simp only [getPhraseToken, Gen.wp_bind, Gen.wp_get, Gen.wp_modify, Gen.wp_ite, ← hq]
  refine ⟨fun hbreak => ?_, fun _ => ?_⟩
  · have hlf := getElem?_eq_of_any_isLineBreak hcr hbreak
    rw [consumeLineBreak_newline hlf]
    refine ((nextLineContinues_tracked hcr hcount (m := m.setP q) (hm.of_sameLine hline).setP
      (.inl hlf)).and (nextLineContinues_spec (m := m.setP q) (q + 1))).imp (fun r _ m' h => ?_)
      (fun _ _ _ _ => trivial) fun _ _ => trivial
    obtain ⟨hm', hcont⟩ := h
    refine hm'.setToken ?_ _ _
    have ht : m'.t = m.t := hcont.t_eq
    rw [ht, hbegin]
    exact hle.trans ((Nat.le_succ q).trans hcont.le_p)
  · have hend : Tracked v.text (m.setP q) (m.setP q).p := (hm.of_sameLine hline).setP
    refine hend.setToken ?_ _ _
    change m.t.substr.begin ≤ q
    rw [hbegin]
    exact hle

/-- **The switch.** -/
theorem scanToken_tracked (hv : v.Terminated) (hcr : ch '\r' ∉ v.text)
    (hcount : v.text.count (ch '\n') + 1 < 2 ^ 32) (hready : Ready v.text m)
    (hm : Tracked v.text m m.p) (hne : v.text[m.p]? ≠ some (ch '\n'))
    (hspaced : DotsSpaced v m.totalIndentWidth m.p) :
    (scanToken v (v.byte m.p)).wp m (fun _ _ m' => Tracked v.text m' m'.t.substr.stop)
      (fun _ _ _ => True) fun _ => True := by
  have hp := hready.p_lt
  have hbegin : m.t.substr.begin = m.p := by rw [hready.substr_eq]
  have assigned : ∀ s : Scanned, SameLine v.text m.p s.stop →
      (assign s).wp m (fun _ _ m' => Tracked v.text m' m'.t.substr.stop)
        (fun _ _ _ => True) fun _ => True := by
    intro s hs
    exact (hm.of_sameLine hs).setToken (hbegin.trans_le hs.1) _ _
  have hnumber := assigned _ (getNumberToken_sameLine hv hp hne)
  unfold scanToken
  cases hop : operatorAt (v.byte m.p) with
  | some op =>
    have hline := spelledAt_sameLine hop hne
    simp only [scanOperator, Gen.wp_bind, Gen.wp_get, Gen.wp_ite]
    refine ⟨fun _ => hnumber, fun _ => ?_⟩
    exact ((hm.of_sameLine hline).setToken (hbegin.trans_le hline.1) _ m.t.value).setP
  | none =>
    simp only [Gen.wp_ite]
    refine ⟨fun hhash => ?_, fun _ => ⟨fun hquote => ?_, fun _ => ⟨fun _ => ?_, fun _ => ?_⟩⟩⟩
    · have hc := View.byte_of_lt hp
      rw [hhash] at hc
      exact scanHash_tracked hcr hcount hready hm hc (hspaced.comment hhash)
    · exact scanQuote_tracked hcr hcount hready hm hquote (hspaced.string hquote)
    · exact getPhraseToken_tracked hcr hcount hready hm
    · simp only [Gen.wp_bind, Gen.wp_get, Gen.wp_ite]
      exact ⟨fun _ => hnumber, fun _ => assigned _ (sameLine_succ hne)⟩

end Scanners
/-! ### Calls of `advance` -/

section Calls

variable {v : View} {m : Lexer} {width : ℕ}

theorem Tracked.reset {txt : Text} (h : Tracked txt m m.t.substr.stop) :
    Tracked txt m.reset m.reset.p := by
  rw [reset_p]
  exact ⟨⟨h.starts, h.number⟩, h.line⟩

/-- The line break behind a token. -/
theorem crossLineBreak_tracked (hcr : ch '\r' ∉ v.text)
    (hcount : v.text.count (ch '\n') + 1 < 2 ^ 32) (hready : Ready v.text m)
    (hm : Tracked v.text m m.p) (hlf : v.text[m.p]? = some (ch '\n')) :
    (crossLineBreak v.text (ch '\n')).wp m (fun _ _ m' => Tracked v.text m' m'.t.substr.stop)
      (fun _ _ _ => True) fun _ => True := by
  have hno : ¬ (ch '\n' = ch '\r' ∧ v.text[m.p + 1]? = some (ch '\n')) := by
    rintro ⟨h, -⟩
    exact absurd h (by decide)
  have hbegin : m.t.substr.begin = m.p := by rw [hready.substr_eq]
  simp only [crossLineBreak, scanBeginningOfLine, Gen.wp_bind, Gen.wp_get, Gen.wp_modify,
    Gen.wp_ite, if_neg hno]
  refine ⟨fun hlt => ?_, fun _ => ?_⟩
  · refine ((scanLines_tracked hcr hcount (hm.entering hlf) (.inl hlt)).and
      (scanLines_spec (m := m.setP (m.p + 1)) (v.text.length + 1) (by omega))).imp
      (fun r _ m' h => ?_) (fun _ _ _ _ => trivial) fun _ _ => trivial
    obtain ⟨⟨-, hr⟩, hcrossed⟩ := h
    refine hr.setToken ?_ m'.t.type m'.t.value
    have ht : m'.t = m.t := hcrossed.t_eq
    have h₁ : m.p + 1 ≤ m'.p := hcrossed.p_le
    have h₂ := hcrossed.p_le_stop
    rw [ht, hbegin]
    omega
  · have hend : Tracked v.text (m.setP (m.p + 1)) v.text.length :=
      ⟨⟨hm.starts, hm.number⟩, fun h => absurd h (lt_irrefl _)⟩
    have hstop := hend.setToken (hbegin.trans_le hready.p_lt.le) m.t.type m.t.value
    exact ⟨⟨hstop.starts, hstop.number⟩, hstop.line⟩

/-- The byte found, from what is known of the calls that follow. -/
theorem dispatchOn_tracked (hv : v.Terminated) (hcr : ch '\r' ∉ v.text)
    (hcount : v.text.count (ch '\n') + 1 < 2 ^ 32) {fuel : ℕ}
    (hm : Tracked v.text m m.t.substr.stop) (hle : m.t.substr.stop ≤ v.text.length)
    (hspaced : ∀ p, .dispatch p ∈ (dispatchOn v fuel (v.byte m.t.substr.stop) m.reset).yields →
      DotsSpaced v m.totalIndentWidth p)
    (hhere : DotsSpaced v m.totalIndentWidth m.t.substr.stop)
    (ih : ∀ m₁ : Lexer, Tracked v.text m₁ m₁.t.substr.stop →
      (m₁.totalIndentWidth = m.totalIndentWidth ∨ m₁.indentDedentDelta = 1) →
      (∀ p, .dispatch p ∈ (advanceWithin v fuel m₁).yields → DotsSpaced v m.totalIndentWidth p) →
      (advanceWithin v fuel).wp m₁ (fun _ _ m' => Tracked v.text m' m'.t.substr.stop)
        (fun _ _ _ => True) fun _ => True) :
    (dispatchOn v fuel (v.byte m.t.substr.stop)).wp m.reset
      (fun _ _ m' => Tracked v.text m' m'.t.substr.stop) (fun _ _ _ => True) fun _ => True := by
  have hreset := hm.reset
  have hp := reset_p m
  unfold dispatchOn at hspaced ⊢
  simp only [Gen.wp_bind, Gen.wp_modify, Gen.wp_ite, Gen.wp_pure]
  refine ⟨fun _ => ?_, fun hnul => ?_⟩
  · rw [reset_substr]
    exact ⟨⟨hm.starts, hm.number⟩, hm.line⟩
  have hlt : m.t.substr.stop < v.text.length := by
    refine lt_of_le_of_ne hle fun heq => hnul ?_
    rw [heq, View.byte_length hv]
  have hc := View.byte_of_lt hlt
  have hready : Ready v.text m.reset := ⟨by rw [reset_substr, hp], by rw [hp]; exact hlt⟩
  rw [if_neg hnul] at hspaced
  refine ⟨fun hbreak => ?_, fun hbreak => ?_⟩
  · rw [if_pos hbreak] at hspaced
    have hlf := getElem?_eq_of_any_isLineBreak hcr (p := m.t.substr.stop) (by rwa [hc])
    have hbyte : v.byte m.t.substr.stop = ch '\n' := Option.some.inj (hc.symm.trans hlf)
    rw [hbyte] at hspaced ⊢
    refine (((crossLineBreak_tracked hcr hcount hready hreset (by rwa [hp])).and
      (crossLineBreak_total _)).and Gen.wp_run).imp (fun _ es m₁ h => ?_) (fun _ _ _ _ => trivial)
      fun _ _ => trivial
    obtain ⟨⟨hm₁, htotal⟩, hrun⟩ := h
    refine ih m₁ hm₁ htotal fun p hmem => hspaced p ?_
    rw [Gen.bind_of_returned hrun]
    exact List.mem_append_right _ hmem
  rw [if_neg hbreak] at hspaced
  have hne : v.text[m.t.substr.stop]? ≠ some (ch '\n') := by
    intro hlf
    rw [Option.some.inj (hc.symm.trans hlf)] at hbreak
    exact hbreak (by decide)
  refine ⟨fun hspace => ?_, fun hspace => ?_⟩
  · rw [if_pos hspace, Gen.modify_bind] at hspaced
    have hline : SameLine v.text m.reset.p (scanSpacesAndTabs v.text (m.reset.p + 1)) := by
      rw [hp]
      exact (sameLine_succ hne).trans (sameLine_scanSpacesAndTabs _ _)
    have hbegin : m.reset.t.substr.begin = m.reset.p := by rw [reset_substr, hp]
    exact ih _ ((hreset.of_sameLine hline).setToken (hbegin.trans_le hline.1) m.reset.t.type
      m.reset.t.value) (.inl rfl) hspaced
  · rw [← hp] at hhere hne ⊢
    exact scanToken_tracked hv hcr hcount hready hreset hne hhere

/-- **One call.** -/
theorem advanceWithin_tracked (hv : v.Terminated) (hcr : ch '\r' ∉ v.text)
    (hcount : v.text.count (ch '\n') + 1 < 2 ^ 32) {fuel : ℕ}
    (hm : Tracked v.text m m.t.substr.stop)
    (hwidth : m.totalIndentWidth = width ∨ m.indentDedentDelta = 1)
    (hspaced : ∀ p, .dispatch p ∈ (advanceWithin v fuel m).yields → DotsSpaced v width p) :
    (advanceWithin v fuel).wp m (fun _ _ m' => Tracked v.text m' m'.t.substr.stop)
      (fun _ _ _ => True) fun _ => True := by
  induction fuel generalizing m with
  | zero => trivial
  | succ fuel ih =>
    have hreset := hm.reset
    by_cases hidle : m.pendingError = none ∧ m.indentDedentDelta = 0 ∧
        m.t.substr.stop ≤ v.text.length
    · obtain ⟨herr, hδ, hle⟩ := hidle
      obtain rfl : m.totalIndentWidth = width := by
        rcases hwidth with hwidth | hpending
        · exact hwidth
        · rw [hδ] at hpending
          cases hpending
      rw [advanceWithin_dispatch herr hδ hle] at hspaced
      rw [Gen.wp, advanceWithin_dispatch herr hδ hle, Trace.after_sat]
      have hhere := hspaced _ List.mem_cons_self
      have hmem := fun p hp => hspaced p (List.mem_cons_of_mem _ hp)
      exact dispatchOn_tracked hv hcr hcount hm hle hmem hhere fun m₁ hm₁ hwidth₁ hspaced₁ =>
        ih hm₁ hwidth₁ hspaced₁
    · -- something is pending, or the last token ends behind the text
      have hkeep : ∀ m' : Lexer, m'.lineBegin = m.lineBegin → m'.lineNumber = m.lineNumber →
          m'.t.substr = m.reset.t.substr → Tracked v.text m' m'.t.substr.stop := by
        intro m' hbegin hnumber hspan
        refine ⟨⟨?_, ?_⟩, ?_⟩
        · rw [hbegin]
          exact hm.starts
        · rw [hbegin, hnumber]
          exact hm.number
        · rw [hbegin, hspan, reset_substr]
          exact hm.line
      simp only [advanceWithin, Gen.wp_bind, Gen.wp_get, Gen.wp_modify]
      cases herr : m.reset.pendingError with
      | some note => exact hkeep _ rfl rfl rfl
      | none =>
        simp only [Gen.wp_bind, Gen.wp_modify, Gen.wp_ite, Gen.wp_pure]
        refine ⟨fun _ => hkeep _ rfl rfl rfl, fun hpos => ⟨fun _ => ?_, fun hneg => ?_⟩⟩
        · simp only [emitDedent, popIndent, Gen.wp_bind, Gen.wp_get, Gen.wp_modify, Gen.wp_ite,
            Gen.wp_pure, Gen.wp_raise]
          exact ⟨fun _ => ⟨fun _ => hkeep _ rfl rfl rfl, fun _ => trivial⟩,
            fun _ => hkeep _ rfl rfl rfl⟩
        · refine ⟨fun _ => hkeep _ rfl rfl rfl, fun hin => ?_⟩
          rw [reset_substr] at hin
          exact absurd ⟨herr, le_antisymm (not_lt.mp hpos) (not_lt.mp hneg), not_lt.mp hin⟩ hidle

end Calls

/-! ### Runs -/

/-- The states after the constructor, up to its call of `advance`, and after any number of calls of
`advance`, whatever they return. -/
inductive Reached (v : View) : Lexer → Prop where
  | start {es : List Event} {m : Lexer} :
      construct v.text Lexer.initial = ⟨es, m, .returned ()⟩ → Reached v m
  | call {es : List Event} {m m' : Lexer} {b : Bool} :
      Reached v m → advance v m = ⟨es, m', .returned b⟩ → Reached v m'

section Runs

variable {v : View} {m : Lexer}

theorem construct_tracked (hcr : ch '\r' ∉ v.text)
    (hcount : v.text.count (ch '\n') + 1 < 2 ^ 32) (hne : v.text ≠ []) :
    (construct v.text).wp Lexer.initial (fun _ _ m' => Tracked v.text m' m'.t.substr.stop)
      (fun _ _ _ => True) fun _ => True := by
  have hlt : Lexer.initial.p < v.text.length := List.length_pos_iff.mpr hne
  have hnext : Entering v.text Lexer.initial := fun _ => ⟨.inl rfl, rfl⟩
  simp only [construct, scanBeginningOfLine, Gen.wp_bind, Gen.wp_modify]
  refine ((scanLines_tracked hcr hcount hnext (.inl hlt)).and
    (scanLines_spec (m := Lexer.initial) (v.text.length + 1) (by omega))).imp
    (fun r _ m' h => ?_) (fun _ _ _ _ => trivial) fun _ _ => trivial
  obtain ⟨⟨-, hr⟩, hcrossed⟩ := h
  refine hr.setToken ?_ m'.t.type m'.t.value
  rw [hcrossed.t_eq]
  exact Nat.zero_le r

/-- **Line numbers.** On a text without CR that is not empty and has fewer than `2 ^ 32 - 1` LF: if
no call dispatches on a comment or a string in which a line break is directly behind the dots of a
continuation line, then in every state that is reached, `line_begin` is where a line starts and
`line_number` is its number. -/
theorem lines_counted (hv : v.Terminated) (hne : v.text ≠ []) (hcr : ch '\r' ∉ v.text)
    (hcount : v.text.count (ch '\n') + 1 < 2 ^ 32)
    (hspaced : ∀ m p, Reached v m → .dispatch p ∈ (advance v m).yields →
      DotsSpaced v m.totalIndentWidth p)
    (hm : Reached v m) : LineCounted v.text m := by
  have htracked : Tracked v.text m m.t.substr.stop := by
    induction hm with
    | start hm => exact (construct_tracked hcr hcount hne).returned hm
    | @call es m m' b hm hadv ih =>
      exact (advanceWithin_tracked hv hcr hcount ih (.inl rfl) fun p hp =>
        hspaced m p hm hp).returned hadv
  exact ⟨htracked.starts, htracked.number⟩

theorem Run.reached {ts : List Token} (h : Run v ts m) : Reached v m := by
  induction h with
  | start hm => exact .start hm
  | next _ hm ih => exact .call ih hm

/-- A state of a run whose line is known. -/
theorem exists_reached {k n b : ℕ}
    (h : (runOf v k).map (fun r => (r.2.lineNumber, r.2.lineBegin)) = some (n, b)) :
    ∃ m, Reached v m ∧ m.lineNumber = n ∧ m.lineBegin = b := by
  obtain ⟨r, hr, heq⟩ := Option.map_eq_some_iff.mp h
  exact ⟨r.2, (runOf_sound hr).reached, congrArg Prod.fst heq, congrArg Prod.snd heq⟩

/-- Two phrases, in two lines. -/
def twoLines : View := ⟨bytes ['a', '\n', 'b'], fun _ => 0⟩

/-- Behind the first phrase, the lexer is in the second line. -/
theorem lines_counted_twoLines :
    ∃ m, Reached twoLines m ∧ m.lineNumber = 2 ∧ LineCounted twoLines.text m := by
  obtain ⟨m, hm, hnumber, -⟩ := @exists_reached twoLines 1 2 2 (by decide +kernel)
  have hplain : ∀ p, twoLines.byte p ≠ ch '#' ∧ ¬ IsQuote (twoLines.byte p) := by
    intro p
    rcases Nat.lt_or_ge p twoLines.text.length with hlt | hge
    · have hall : ∀ p < twoLines.text.length,
          twoLines.byte p ≠ ch '#' ∧ ¬ IsQuote (twoLines.byte p) := by decide
      exact hall p hlt
    · have hnul : twoLines.byte p = 0 := by
        rw [View.byte, List.getElem?_eq_none hge]
        rfl
      rw [hnul]
      decide
  have hv : twoLines.Terminated := rfl
  refine ⟨m, hm, hnumber, lines_counted hv (by decide) (by decide) (by decide)
    (fun _ p _ _ => ⟨fun hhash => ?_, fun hquote => ?_⟩) hm⟩
  · exact absurd hhash (hplain p).1
  · exact absurd hquote (hplain p).2

/-- A string with a line break behind the dots of its second line, and a phrase. -/
def brokenDots : View :=
  ⟨bytes ['"', 'a', '\n', '.', '.', '.', '\n', 'b', '"', '\n', 'c'], fun _ => 0⟩

/-- The phrase is in the fourth line, and the lexer counts three. -/
theorem lines_miscounted : brokenDots.Terminated ∧ brokenDots.text ≠ [] ∧
    ch '\r' ∉ brokenDots.text ∧ ∃ m, Reached brokenDots m ∧ ¬ LineCounted brokenDots.text m := by
  obtain ⟨m, hm, hnumber, hbegin⟩ := @exists_reached brokenDots 2 3 10 (by decide +kernel)
  refine ⟨rfl, by decide, by decide, m, hm, fun h => ?_⟩
  have hcounted := h.number
  rw [hnumber, hbegin] at hcounted
  exact absurd hcounted (by decide)

end Runs

end Intent.Old
