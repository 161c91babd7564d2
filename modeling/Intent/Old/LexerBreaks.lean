import Intent.Library.Simulation
import Intent.Old.LexerStrings
import Intent.Old.LineBreaks

/-!
# The C++ lexer on both kinds of line breaks

The lexer runs on a text and on the same text with CR LF for LF, side by side. `Twin` relates the
two states: they are at corresponding places, with the same indents, and the second one has counted
some lines too many, since `get_comment_token` takes the LF behind a CR for a blank line. The
scanners for lines, phrases, comments, strings, numbers and operators each keep the states alike: a
comment as long as it is not continued (`NotContinued`), a string as long as its line breaks are
treated alike (`PlainBreak`).
-/

namespace Intent.Old

/-! ### States -/

/-- The part of `crlf txt` that corresponds to a part of `txt`. -/
def Span.crlf (txt : Text) (s : Span) : Span :=
  ⟨crlfAt txt s.begin, crlfAt txt s.stop - crlfAt txt s.begin⟩

/-- The token of `crlf txt` that corresponds to a token of `txt`. -/
def Token.crlf (txt : Text) (t : Token) : Token := { t with substr := t.substr.crlf txt }

section Spans

variable {txt : Text}

theorem Span.crlf_stop (s : Span) : (s.crlf txt).stop = crlfAt txt s.stop := by
  have hle := (crlfAt_strictMono txt).monotone (Nat.le_add_right s.begin s.length)
  exact Nat.add_sub_cancel' hle

theorem Span.crlf_endAt (s : Span) (p : ℕ) :
    (s.crlf txt).endAt (crlfAt txt p) = (s.endAt p).crlf txt := by
  have hiff : crlfAt txt p ≥ crlfAt txt s.begin ↔ p ≥ s.begin := (crlfAt_strictMono txt).le_iff_le
  unfold Span.endAt Span.crlf Span.stop
  by_cases hp : p ≥ s.begin
  · simp only [if_pos (hiff.mpr hp), if_pos hp, Nat.add_sub_cancel' hp]
  · simp only [if_neg (mt hiff.mp hp), if_neg hp, Nat.add_zero, Nat.sub_self]

end Spans

/-- Two states of the lexer, on `txt` and on `crlf txt`, that differ in where they are and in the
number of the line, of which the second lexer has counted `k` more. -/
structure Twin (txt : Text) (k : ℕ) (m m' : Lexer) : Prop where
  t_eq : m'.t = m.t.crlf txt
  p_eq : m'.p = crlfAt txt m.p
  indentation_eq : m'.toIndentation = m.toIndentation
  error_eq : m'.pendingError = m.pendingError
  lineNumber_eq : m'.lineNumber = (m.lineNumber + k) % 2 ^ 32
  lineNumber_lt : m.lineNumber < 2 ^ 32

namespace Twin

variable {txt : Text} {k p p' : ℕ} {m m' : Lexer}

theorem setP (h : Twin txt k m m') (hp : p' = crlfAt txt p) : Twin txt k (m.setP p) (m'.setP p') :=
  ⟨h.t_eq, hp, h.indentation_eq, h.error_eq, h.lineNumber_eq, h.lineNumber_lt⟩

/-- A line more. -/
theorem nextLine (h : Twin txt k m m') {b b' : ℕ} :
    Twin txt k { m with lineNumber := (m.lineNumber + 1) % 2 ^ 32, lineBegin := b }
      { m' with lineNumber := (m'.lineNumber + 1) % 2 ^ 32, lineBegin := b' } := by
  refine ⟨h.t_eq, h.p_eq, h.indentation_eq, h.error_eq, ?_, Nat.mod_lt _ (by decide)⟩
  have hline := h.lineNumber_eq
  dsimp only
  omega

theorem setIndentation (h : Twin txt k m m') {s s' : Indentation} (hs : s' = s) :
    Twin txt k { m with toIndentation := s } { m' with toIndentation := s' } :=
  ⟨h.t_eq, h.p_eq, hs, h.error_eq, h.lineNumber_eq, h.lineNumber_lt⟩

theorem setToken (h : Twin txt k m m') (hp : p' = crlfAt txt p) (type : TokenType)
    (value : Value) : Twin txt k (m.setToken type p value) (m'.setToken type p' value) := by
  refine ⟨?_, h.p_eq, h.indentation_eq, h.error_eq, h.lineNumber_eq, h.lineNumber_lt⟩
  simp only [Lexer.setToken, hp, h.t_eq]
  simp only [Token.crlf, Span.crlf_endAt]

end Twin

/-- Two states between calls of `advance`. Where the first lexer is behind the end of its text, the
lines are not counted any more. -/
structure Alike (txt : Text) (k : ℕ) (m m' : Lexer) : Prop where
  t_eq : m'.t = m.t.crlf txt
  indentation_eq : m'.toIndentation = m.toIndentation
  error_eq : m'.pendingError = m.pendingError
  lineNumber_eq : m.t.substr.stop ≤ txt.length → m'.lineNumber = (m.lineNumber + k) % 2 ^ 32
  lineNumber_lt : m.lineNumber < 2 ^ 32

theorem Twin.alike {txt : Text} {k : ℕ} {m m' : Lexer} (h : Twin txt k m m') : Alike txt k m m' :=
  ⟨h.t_eq, h.indentation_eq, h.error_eq, fun _ => h.lineNumber_eq, h.lineNumber_lt⟩

/-- How far the lexer is in its line. -/
def SameOffset (m m' : Lexer) : Prop := (m'.p : ℤ) - m'.lineBegin = (m.p : ℤ) - m.lineBegin

section Lines

variable {txt : Text} {k : ℕ} {m m' : Lexer}

/-- A line that has an indent starts with the same blank. -/
theorem getD_crlfAt {b : ℕ} (h : 0 < getIndentWidth txt b (scanSpacesAndTabs txt b)) :
    (crlf txt).getD (crlfAt txt b) 0 = txt.getD b 0 := by
  have hlt : b < scanSpacesAndTabs txt b := by
    refine lt_of_le_of_ne (le_scanSpacesAndTabs txt b) fun heq => ?_
    rw [← heq, getIndentWidth, slice, Nat.sub_self, List.take_zero] at h
    exact Nat.lt_irrefl 0 h
  have hne := not_newline_of_lt_scanSpacesAndTabs le_rfl hlt
  rw [List.getD_eq_getElem?_getD, List.getD_eq_getElem?_getD, getElem?_crlfAt]
  cases hc : txt[b]? with
  | none => rfl
  | some c =>
    rw [hc] at hne
    exact if_neg fun h => hne (congrArg some h)

/-- The indent of a line. -/
theorem lookAtIndent_sim (hm : Twin txt k m m') (hb : m'.lineBegin = crlfAt txt m.lineBegin)
    (hle : m.lineBegin ≤ txt.length) :
    (lookAtIndent txt (scanSpacesAndTabs txt m.lineBegin)).Sim
      (lookAtIndent (crlf txt) (crlfAt txt (scanSpacesAndTabs txt m.lineBegin)))
      (fun _ m₁ _ m₁' => Twin txt k m₁ m₁' ∧ m₁.p = m.p ∧ m₁.lineBegin = m.lineBegin ∧
        m₁'.lineBegin = m'.lineBegin) m m' := by
  have hwidth := getIndentWidth_crlfAt hle
  have hind := hm.indentation_eq
  have hdeeper : getIndentWidth txt m.lineBegin (scanSpacesAndTabs txt m.lineBegin) >
      m.totalIndentWidth ↔ getIndentWidth (crlf txt) m'.lineBegin
        (crlfAt txt (scanSpacesAndTabs txt m.lineBegin)) > m'.totalIndentWidth := by
    rw [hb, hwidth, hind]
  have hshallower : getIndentWidth txt m.lineBegin (scanSpacesAndTabs txt m.lineBegin) <
      m.totalIndentWidth ↔ getIndentWidth (crlf txt) m'.lineBegin
        (crlfAt txt (scanSpacesAndTabs txt m.lineBegin)) < m'.totalIndentWidth := by
    rw [hb, hwidth, hind]
  simp only [lookAtIndent, pushIndent, Gen.sim_get_left, Gen.sim_get_right, Gen.sim_emit_left,
    Gen.sim_emit_right]
  refine Gen.sim_ite hdeeper (fun hdeep => ?_) fun _ => Gen.sim_ite hshallower (fun _ => ?_)
    fun _ => Gen.sim_pure ⟨hm, rfl, rfl, rfl⟩
  · have hchar := getD_crlfAt (Nat.zero_lt_of_lt hdeep)
    simp only [Gen.sim_modify_left, Gen.sim_modify_right, Gen.sim_get_left, Gen.sim_get_right, hb,
      hchar, hwidth, hind]
    refine Gen.sim_ite Iff.rfl (fun _ => Gen.sim_modify ?_) fun _ => Gen.sim_raise _
    exact ⟨⟨hm.t_eq, hm.p_eq, rfl, hm.error_eq, hm.lineNumber_eq, hm.lineNumber_lt⟩, rfl, rfl, rfl⟩
  · refine Gen.sim_modify ⟨hm.setIndentation ?_, rfl, rfl, rfl⟩
    rw [hb, hwidth, hind]

/-- There is a line behind `b`, or the text goes on to its end without a line break there. -/
def Opens (txt : Text) (b : ℕ) : Prop :=
  (∃ n lineBegin p, LineAt txt b n lineBegin p) ∨
    b < txt.length ∧ txt.getLast? ≠ some (ch '\n')

theorem Opens.blank (hcr : ch '\r' ∉ txt) {b : ℕ} (h : Opens txt b)
    (hbreak : txt[scanSpacesAndTabs txt b]?.any isLineBreak = true) :
    Opens txt (consumeLineBreak txt (scanSpacesAndTabs txt b)) := by
  rcases h with ⟨n, lineBegin, p, hline⟩ | ⟨-, hlast⟩
  · cases hline with
    | here hc hno =>
      rw [hc, Option.any_some, hno] at hbreak
      cases hbreak
    | blank _ hline => exact .inl ⟨_, _, _, hline⟩
  · have hlf := getElem?_eq_of_any_isLineBreak hcr hbreak
    have hlt := (List.getElem?_eq_some_iff.mp hlf).1
    rw [consumeLineBreak_newline hlf]
    refine .inr ⟨lt_of_le_of_ne hlt fun hend => hlast ?_, hlast⟩
    rw [List.getLast?_eq_getElem?, ← hend, Nat.add_sub_cancel, hlf]

theorem Opens.lt {b : ℕ} (h : Opens txt b) : b < txt.length := by
  rcases h with ⟨n, lineBegin, p, hline⟩ | ⟨hlt, -⟩
  · cases hline with
    | here hc => exact (scanSpacesAndTabs_lt_of_some hc).1
    | blank hbreak => exact (le_scanSpacesAndTabs txt b).trans_lt (lt_length_of_any hbreak)
  · exact hlt

/-- **The beginning of a line.** -/
theorem scanLines_sim (hcr : ch '\r' ∉ txt) {fuel fuel' : ℕ} (hfuel : fuel ≤ fuel')
    (hm : Twin txt k m m') :
    (scanLines txt fuel).Sim (scanLines (crlf txt) fuel')
      (fun r m₁ r' m₁' => r' = crlfAt txt r ∧ Twin txt k m₁ m₁' ∧
        (Opens txt m.p → SameOffset m₁ m₁')) m m' := by
  induction fuel generalizing fuel' m m' with
  | zero => exact Gen.sim_hang
  | succ fuel ih =>
    obtain ⟨fuel', rfl⟩ := Nat.exists_eq_succ_of_ne_zero (show fuel' ≠ 0 by omega)
    have hp' := hm.p_eq
    simp only [scanLines, Gen.sim_get_left, Gen.sim_get_right, hp', scanSpacesAndTabs_crlfAt]
    refine Gen.sim_ite crlfAt_lt_length_iff.symm (fun hp => ?_) fun hp => Gen.sim_pure ?_
    · simp only [Gen.sim_modify_left, Gen.sim_modify_right]
      refine Gen.sim_ite crlfAt_eq_length_iff.symm (fun _ => Gen.sim_pure ?_) fun hend => ?_
      · exact ⟨(crlfAt_length txt).symm, hm.nextLine, fun _ => by simp [SameOffset]⟩
      · simp only [Gen.sim_modify_left, Gen.sim_modify_right]
        refine Gen.sim_ite (by rw [any_crlfAt (by decide)]) (fun hbreak => ?_) fun hbreak => ?_
        · simp only [Gen.sim_modify_left, Gen.sim_modify_right]
          refine (ih (by omega) ((hm.nextLine.setP rfl).setP
            (consumeLineBreak_crlfAt hcr hbreak))).imp fun r m₁ r' m₁' h => ?_
          exact ⟨h.1, h.2.1, fun hopens => h.2.2 (hopens.blank hcr hbreak)⟩
        · refine (lookAtIndent_sim (hm.nextLine.setP rfl) hp' hp.le).bind fun _ m₁ _ m₁' h => ?_
          obtain ⟨hm₁, hp₁, hb₁, hb₁'⟩ := h
          refine Gen.sim_pure ⟨rfl, hm₁, fun _ => ?_⟩
          obtain ⟨i, hi⟩ := Nat.exists_eq_add_of_le (le_scanSpacesAndTabs txt m.p)
          have hat : crlfAt txt (m.p + i) = crlfAt txt m.p + i := by
            refine crlfAt_add fun j hj hlt => not_newline_of_lt_scanSpacesAndTabs hj ?_
            rwa [hi]
          have hp₁' : m₁.p = m.p + i := hp₁.trans hi
          have hb₁ : m₁.lineBegin = m.p := hb₁
          have hb₁' : m₁'.lineBegin = crlfAt txt m.p := hb₁'.trans hp'
          rw [SameOffset, hm₁.p_eq, hp₁', hat, hb₁, hb₁']
          omega
    · exact ⟨rfl, hm, fun hopens => absurd hopens.lt hp⟩

/-- **Continuation lines.** -/
theorem nextLineContinues_sim (hcr : ch '\r' ∉ txt) (hm : Twin txt k m m') (b : ℕ) :
    (nextLineContinues txt b).Sim (nextLineContinues (crlf txt) (crlfAt txt b))
      (fun r m₁ r' m₁' => r' = r ∧ Twin txt k m₁ m₁' ∧
        (r = false → Opens txt b → SameOffset m₁ m₁')) m m' := by
  have hlen : txt.length + 1 ≤ (crlf txt).length + 1 := by
    rw [length_crlf]
    omega
  simp only [nextLineContinues, Gen.sim_get_left, Gen.sim_get_right, Gen.sim_modify_left,
    Gen.sim_modify_right]
  refine (scanLines_sim hcr hlen (hm.setP rfl)).bind fun next m₁ next' m₁' h => ?_
  obtain ⟨rfl, hm₁, hoffset⟩ := h
  simp only [Gen.sim_get_left, Gen.sim_get_right]
  have hline : (m.lineNumber + 1) % 2 ^ 32 ≠ m₁.lineNumber ∨
      m.totalIndentWidth ≠ m₁.totalIndentWidth ↔
      (m'.lineNumber + 1) % 2 ^ 32 ≠ m₁'.lineNumber ∨
        m'.totalIndentWidth ≠ m₁'.totalIndentWidth := by
    have h₁ := hm.lineNumber_eq
    have h₂ := hm₁.lineNumber_eq
    have h₃ := hm₁.lineNumber_lt
    rw [hm.indentation_eq, hm₁.indentation_eq]
    omega
  have hdots : next + 3 ≥ txt.length ∨ slice txt next (next + 3) ≠ bytes ['.', '.', '.'] ↔
      crlfAt txt next + 3 ≥ (crlf txt).length ∨
        slice (crlf txt) (crlfAt txt next) (crlfAt txt next + 3) ≠ bytes ['.', '.', '.'] := by
    have hiff : ¬ Dotted txt next ↔ ¬ Dotted (crlf txt) (crlfAt txt next) :=
      not_congr dotted_crlfAt_iff.symm
    unfold Dotted at hiff
    rwa [not_and_or, not_and_or, not_lt, not_lt] at hiff
  refine Gen.sim_ite hline (fun _ => ?_) fun _ => Gen.sim_ite hdots (fun _ => ?_) fun hthere => ?_
  · exact Gen.sim_pure ⟨rfl, hm₁, fun _ => hoffset⟩
  · exact Gen.sim_pure ⟨rfl, hm₁, fun _ => hoffset⟩
  · rw [not_or, not_le, not_not] at hthere
    simp only [Gen.sim_modify_left, Gen.sim_modify_right]
    exact Gen.sim_pure ⟨rfl, hm₁.setP (crlfAt_add_three hthere.2).symm, fun h => by cases h⟩

/-- A continuation behind the CR of a line break has one more blank line before it. -/
theorem Continuation.of_crlf_late (hcr : ch '\r' ∉ txt) {e width n p' : ℕ}
    (he : txt[e]? = some (ch '\n'))
    (h : Continuation (crlf txt) width (crlfAt txt e + 1) n p') :
    ∃ n₀ p, n = n₀ + 1 ∧ Continuation txt width (e + 1) n₀ p := by
  have hlf := getElem?_crlfAt_add_one he
  have hscan : scanSpacesAndTabs (crlf txt) (crlfAt txt e + 1) = crlfAt txt e + 1 := by
    refine scanWhile_of_false ?_
    rw [hlf]
    rfl
  obtain ⟨lineBegin, hline, hwidth, hdots⟩ := h
  cases hline with
  | here hc hbreak =>
    rw [hscan, hlf] at hc
    rw [← Option.some.inj hc] at hbreak
    exact absurd hbreak (by decide)
  | @blank _ n₀ _ _ _ hline =>
    rw [hscan, consumeLineBreak_newline hlf, Nat.add_assoc, ← crlfAt_succ_of_eq he] at hline
    obtain ⟨p, hcont⟩ := Continuation.of_crlf hcr ⟨lineBegin, hline, hwidth, hdots⟩
    exact ⟨n₀, p, rfl, hcont⟩

/-- **The look behind a comment.** The second lexer starts it at the LF of the line break, and
counts one more line. -/
theorem nextLineContinues_sim_late (hcr : ch '\r' ∉ txt) (hm : Twin txt k m m') {e : ℕ}
    (he : txt[e]? = some (ch '\n'))
    (hno : ∀ n p, Continuation txt m.totalIndentWidth (e + 1) n p →
      n % 2 ^ 32 ≠ 0 ∧ (n + 1) % 2 ^ 32 ≠ 0) :
    (nextLineContinues txt (e + 1)).Sim (nextLineContinues (crlf txt) (crlfAt txt e + 1))
      (fun r m₁ r' m₁' => r = false ∧ r' = false ∧ Twin txt (k + 1) m₁ m₁') m m' := by
  have hlf := getElem?_crlfAt_add_one he
  have hscan : scanSpacesAndTabs (crlf txt) (crlfAt txt e + 1) = crlfAt txt e + 1 := by
    refine scanWhile_of_false ?_
    rw [hlf]
    rfl
  have hlt := (List.getElem?_eq_some_iff.mp hlf).1
  have hcount : 0 < txt.count (ch '\n') := List.count_pos_iff.mpr (List.mem_of_getElem? he)
  have hlen := length_crlf txt
  -- the second lexer takes the LF for a blank line
  have hlate : scanBeginningOfLine (crlf txt) (m'.setP (crlfAt txt e + 1)) =
      scanLines (crlf txt) (crlf txt).length
        { m' with
          lineNumber := (m'.lineNumber + 1) % 2 ^ 32
          lineBegin := crlfAt txt e + 1
          p := crlfAt txt (e + 1) } := by
    rw [scanBeginningOfLine, crlfAt_succ_of_eq he]
    simp only [scanLines, Gen.get_bind, Lexer.setP, hlt, if_true, Gen.modify_bind, hscan,
      if_neg hlt.ne, hlf, Option.any_some, if_pos (show isLineBreak (ch '\n') = true by decide),
      consumeLineBreak_newline hlf]
  have hm₀ : Twin txt (k + 1) (m.setP (e + 1)) { m' with
      lineNumber := (m'.lineNumber + 1) % 2 ^ 32
      lineBegin := crlfAt txt e + 1
      p := crlfAt txt (e + 1) } := by
    refine ⟨hm.t_eq, rfl, hm.indentation_eq, hm.error_eq, ?_, hm.lineNumber_lt⟩
    have hline := hm.lineNumber_eq
    dsimp only [Lexer.setP]
    omega
  have hsim : (nextLineContinues txt (e + 1)).Sim (nextLineContinues (crlf txt) (crlfAt txt e + 1))
      (fun r m₁ r' m₁' => r = false → r' = false → Twin txt (k + 1) m₁ m₁') m m' := by
    simp only [nextLineContinues, Gen.sim_get_left, Gen.sim_get_right, Gen.sim_modify_left,
      Gen.sim_modify_right]
    rw [Gen.sim_congr rfl (Gen.bind_congr hlate)]
    refine (scanLines_sim hcr (by omega) hm₀).bind fun next m₁ next' m₁' h => ?_
    simp only [Gen.sim_get_left, Gen.sim_get_right]
    -- a lexer that does not continue is left where it is
    refine Gen.sim_of_returns (fun r t => r = false → t = m₁) (fun r t => r = false → t = m₁') ?_ ?_
      fun r t r' t' ht ht' hr hr' => ?_
    · simp only [Gen.wp_ite, Gen.wp_pure, Gen.wp_bind, Gen.wp_modify]
      exact ⟨fun _ _ => trivial, fun _ => ⟨fun _ _ => trivial, fun _ hr => by cases hr⟩⟩
    · simp only [Gen.wp_ite, Gen.wp_pure, Gen.wp_bind, Gen.wp_modify]
      exact ⟨fun _ _ => trivial, fun _ => ⟨fun _ _ => trivial, fun _ hr => by cases hr⟩⟩
    · rw [ht hr, ht' hr']
      exact h.2.1
  have hrefused : (nextLineContinues txt (e + 1)).wp m (fun r _ _ => r = false)
      (fun _ _ _ => ¬ m.HasRoom) fun _ => False :=
    (nextLineContinues_refused fun n p hn hcont => (hno n p hcont).1 hn).imp (fun _ _ _ h => h.1)
      (fun _ _ _ h => h) fun _ h => h
  have hrefused' : (nextLineContinues (crlf txt) (crlfAt txt e + 1)).wp m' (fun r _ _ => r = false)
      (fun _ _ _ => ¬ m'.HasRoom) fun _ => False := by
    refine (nextLineContinues_refused fun n p hn hcont => ?_).imp (fun _ _ _ h => h.1)
      (fun _ _ _ h => h) fun _ h => h
    rw [hm.indentation_eq] at hcont
    obtain ⟨n₀, p₀, rfl, hcont₀⟩ := hcont.of_crlf_late hcr he
    exact (hno n₀ p₀ hcont₀).2 hn
  refine ((hsim.and_left hrefused).and_right hrefused').imp fun r m₁ r' m₁' h => ?_
  exact ⟨h.1.2, h.2, h.1.1 h.1.2 h.2⟩

end Lines

/-! ### Tokens -/

section Tokens

variable {v v' : View} {txt : Text} {k : ℕ} {m m' : Lexer}

/-- **Phrases.** -/
theorem getPhraseToken_sim (h : Rebroken v v') (hm : Twin v.text k m m')
    (hp : m.p ≤ v.text.length) (hc : v.byte m.p ≠ ch '\n') :
    (getPhraseToken v).Sim (getPhraseToken v') (fun _ m₁ _ m₁' => Twin v.text k m₁ m₁') m m' := by
  have hbyte : v'.byte (crlfAt v.text m.p) = v.byte m.p := (h.byte_eq hp).trans (if_neg hc)
  have hscan := scanWhile_crlfAt (f := isPhraseByte) (by decide) (by decide) v.text m.p
  set q := scanWhile (fun i => v.text[i]?.any isPhraseByte) m.p v.text.length with hq
  have hslice : slice (crlf v.text) (crlfAt v.text m.p) (crlfAt v.text q) = slice v.text m.p q := by
    refine slice_crlfAt (le_scanWhile _ _ _) (scanWhile_le hp) fun i hi hlt hnewline => ?_
    have hin : v.text[i]?.any isPhraseByte = true := of_lt_scanWhile hi hlt
    rw [hnewline] at hin
    exact absurd hin (by decide)
  simp only [getPhraseToken, Gen.sim_get_left, Gen.sim_get_right, hm.p_eq, h.text_eq, hbyte, hscan,
    ← hq, hslice, Gen.sim_modify_left, Gen.sim_modify_right]
  refine Gen.sim_ite (by rw [any_crlfAt (by decide)]) (fun hbreak => ?_) fun _ => ?_
  · rw [consumeLineBreak_crlfAt h.no_cr hbreak]
    refine (nextLineContinues_sim h.no_cr (hm.setP rfl) _).bind fun r m₁ r' m₁' hm₁ => ?_
    obtain ⟨rfl, hm₁, -⟩ := hm₁
    exact Gen.sim_modify (hm₁.setToken hm₁.p_eq _ _)
  · exact Gen.sim_modify ((hm.setP rfl).setToken rfl _ _)

/-- No line passes for a continuation of a comment that ends at `e`, nor does one that seems to be a
line further behind. -/
def NotContinued (txt : Text) (width e : ℕ) : Prop :=
  ∀ n p, Continuation txt width (e + 1) n p → n % 2 ^ 32 ≠ 0 ∧ (n + 1) % 2 ^ 32 ≠ 0

/-- The lines of a comment: it has one. -/
theorem commentLines_sim (hcr : ch '\r' ∉ txt) (hm : Twin txt k m m') (hp : m.p < txt.length)
    (hne : txt[m.p]? ≠ some (ch '\n'))
    (hno : NotContinued txt m.totalIndentWidth (scanRestOfLine txt (m.p + 1))) (fuel fuel' : ℕ)
    (acc : Text) :
    (commentLines txt (fuel + 1) acc).Sim (commentLines (crlf txt) (fuel' + 1) acc)
      (fun r m₁ r' m₁' => r' = r ∧
        (Twin txt (k + 1) m₁ m₁' ∨ Twin txt k m₁ m₁' ∧ txt.length < m₁.p)) m m' := by
  have hnext : m'.p + 1 = crlfAt txt (m.p + 1) := by rw [hm.p_eq, crlfAt_succ_of_ne hne]
  have hm₀ : Twin txt k (m.setP (m.p + 1)) (m'.setP (m'.p + 1)) := hm.setP hnext
  have hle : scanRestOfLine txt (m.p + 1) ≤ txt.length := scanWhile_le hp
  have happ : appendCommentLine (crlf txt) (m'.p + 1) (scanRestOfLine (crlf txt) (m'.p + 1)) acc =
      appendCommentLine txt (m.p + 1) (scanRestOfLine txt (m.p + 1)) acc := by
    rw [hnext, scanRestOfLine_crlfAt]
    exact appendCommentLine_crlfAt hp
  -- behind the line, both lexers refuse to continue
  have hlook : (nextLineContinues txt (scanRestOfLine txt (m.p + 1) + 1)).Sim
      (nextLineContinues (crlf txt) (crlfAt txt (scanRestOfLine txt (m.p + 1)) + 1))
      (fun r m₁ r' m₁' => r = false ∧ r' = false ∧
        (Twin txt (k + 1) m₁ m₁' ∨ Twin txt k m₁ m₁' ∧ txt.length < m₁.p))
      (m.setP (m.p + 1)) (m'.setP (m'.p + 1)) := by
    rcases Nat.eq_or_lt_of_le hle with hend | hlt
    · have hat : crlfAt txt txt.length + 1 = crlfAt txt (txt.length + 1) := by
        refine (crlfAt_succ_of_ne ?_).symm
        rw [List.getElem?_eq_none le_rfl]
        exact fun h => by cases h
      rw [hend, hat]
      have hspec : (nextLineContinues txt (txt.length + 1)).wp (m.setP (m.p + 1))
          (fun r _ m₁ => txt.length < m₁.p ∧ (r = true → m₁.p < txt.length)) Overflows
          fun _ => False :=
        (nextLineContinues_spec _).imp (fun r es m₁ h => ⟨h.le_p, h.p_lt⟩) (fun _ _ _ h => h)
          fun _ h => h
      refine ((nextLineContinues_sim hcr hm₀ _).and_left hspec).imp fun r m₁ r' m₁' h => ?_
      obtain ⟨⟨rfl, hm₁, -⟩, hlt, hback⟩ := h
      have hr : r' = false := Bool.eq_false_iff.mpr fun hr => absurd (hback hr) (by omega)
      exact ⟨hr, hr, .inr ⟨hm₁, hlt⟩⟩
    · have he : txt[scanRestOfLine txt (m.p + 1)]? = some (ch '\n') := by
        refine getElem?_eq_of_any_isLineBreak hcr ?_
        have hstop : txt[scanRestOfLine txt (m.p + 1)]?.any (fun c => !isLineBreak c) = false :=
          scanWhile_stop hlt
        rw [List.getElem?_eq_getElem hlt, Option.any_some] at hstop ⊢
        simpa using hstop
      exact (nextLineContinues_sim_late hcr hm₀ he hno).imp fun r m₁ r' m₁' h =>
        ⟨h.1, h.2.1, .inl h.2.2⟩
  simp only [commentLines, Gen.sim_get_left, Gen.sim_get_right, Gen.sim_modify_left,
    Gen.sim_modify_right, Gen.sim_emit_left, Gen.sim_emit_right]
  change Gen.Sim (nextLineContinues txt (scanRestOfLine txt (m.p + 1) + 1) >>= _)
    (nextLineContinues (crlf txt) (scanRestOfLine (crlf txt) (m'.p + 1) + 1) >>= _) _ _ _
  rw [hnext, scanRestOfLine_crlfAt, ← hnext]
  refine hlook.bind fun r m₁ r' m₁' h => ?_
  obtain ⟨rfl, rfl, hm₁⟩ := h
  exact Gen.sim_pure ⟨happ, hm₁⟩

theorem scanRestOfLine_succ {p : ℕ} {c : UInt8} (h : txt[p]? = some c)
    (hc : isLineBreak c = false) : scanRestOfLine txt (p + 1) = scanRestOfLine txt p := by
  refine (scanWhile_of_true (List.getElem?_eq_some_iff.mp h).1 ?_).symm
  rw [h, Option.any_some, hc]
  rfl

/-- Where a comment is read from: behind its mark. -/
theorem scanHash_start (hm : Twin txt k m m') (hc : txt[m.p]? = some (ch '#')) :
    ∃ p₀ type, m.p ≤ p₀ ∧ txt[p₀]? = some (ch '#') ∧
      scanRestOfLine txt (p₀ + 1) = scanRestOfLine txt m.p ∧
      scanHash txt m = (getCommentToken txt >>= fun text =>
        Gen.modify fun m => m.setToken type m.p (.text text)) (m.setP p₀) ∧
      scanHash (crlf txt) m' = (getCommentToken (crlf txt) >>= fun text =>
        Gen.modify fun m => m.setToken type m.p (.text text)) (m'.setP (crlfAt txt p₀)) := by
  have hnext : m'.p + 1 = crlfAt txt (m.p + 1) := by
    rw [hm.p_eq, crlfAt_succ_of_ne (by rw [hc]; decide)]
  have hiff : slice (crlf txt) (m'.p + 1) (m'.p + 3) = bytes ['#', '#'] ↔
      slice txt (m.p + 1) (m.p + 3) = bytes ['#', '#'] := by
    have hmarks : ∀ c ∈ bytes ['#', '#'], isLineBreak c = false := by
      intro c hc
      rw [List.eq_of_mem_replicate (show c ∈ List.replicate 2 (ch '#') from hc)]
      rfl
    have hslice : slice (crlf txt) (crlfAt txt (m.p + 1)) (crlfAt txt (m.p + 1) + 2) =
        bytes ['#', '#'] ↔ slice txt (m.p + 1) (m.p + 1 + 2) = bytes ['#', '#'] :=
      slice_crlfAt_eq_iff hmarks
    rwa [← hnext] at hslice
  by_cases hdoc : slice txt (m.p + 1) (m.p + 3) = bytes ['#', '#']
  · -- the three marks of a doc comment are in one line
    have h₁ : txt[m.p + 1]? = some (ch '#') :=
      getElem?_of_slice (w := bytes ['#', '#']) (i := 0) hdoc (by decide)
    have h₂ : txt[m.p + 2]? = some (ch '#') :=
      getElem?_of_slice (w := bytes ['#', '#']) (i := 1) hdoc (by decide)
    have hat : m'.p + 2 = crlfAt txt (m.p + 2) := by
      rw [crlfAt_succ_of_ne (by rw [h₁]; decide), ← hnext]
    refine ⟨m.p + 2, .docComment, by omega, h₂, ?_, ?_, ?_⟩
    · rw [scanRestOfLine_succ h₂ (by decide), scanRestOfLine_succ h₁ (by decide),
        scanRestOfLine_succ hc (by decide)]
    · simp only [scanHash, Gen.get_bind, Gen.modify_bind, if_pos hdoc]
    · simp only [scanHash, Gen.get_bind, Gen.modify_bind, if_pos (hiff.mpr hdoc), hat]
  · refine ⟨m.p, .comment, le_rfl, hc, scanRestOfLine_succ hc (by decide), ?_, ?_⟩
    · simp only [scanHash, Gen.get_bind, Gen.modify_bind, if_neg hdoc]
      rfl
    · simp only [scanHash, Gen.get_bind, Gen.modify_bind, if_neg (mt hiff.mp hdoc), ← hm.p_eq]
      rfl

/-- **Comments.** -/
theorem scanHash_sim (hcr : ch '\r' ∉ txt) (hm : Twin txt k m m') (hready : Ready txt m)
    (hc : txt[m.p]? = some (ch '#'))
    (hno : NotContinued txt m.totalIndentWidth (scanRestOfLine txt m.p)) :
    (scanHash txt).Sim (scanHash (crlf txt)) (fun _ m₁ _ m₁' => Alike txt (k + 1) m₁ m₁') m m' := by
  obtain ⟨p₀, type, hle, hmark, hend, hrun, hrun'⟩ := scanHash_start hm hc
  have hlt := (List.getElem?_eq_some_iff.mp hmark).1
  rw [Gen.sim_congr hrun hrun']
  rw [← hend] at hno
  have hne : txt[p₀]? ≠ some (ch '\n') := by
    rw [hmark]
    decide
  have hsim := commentLines_sim hcr (hm.setP (p := p₀) rfl) hlt hne hno txt.length
    (crlf txt).length []
  have hspec : (getCommentToken txt).wp (m.setP p₀) (fun _ _ m₁ => m₁.t = m.t ∧ p₀ < m₁.p)
      Overflows fun _ => False :=
    (commentLines_spec _ _ (by omega) hlt).imp (fun _ _ _ h => ⟨h.1, h.2.1⟩) (fun _ _ _ h => h)
      fun _ h => h
  refine (Gen.Sim.and_left hsim hspec).bind fun r m₁ r' m₁' h => ?_
  obtain ⟨⟨rfl, hm₁⟩, ht, hfar⟩ := h
  refine Gen.sim_modify ?_
  rcases hm₁ with hm₁ | ⟨hm₁, hover⟩
  · exact (hm₁.setToken hm₁.p_eq _ _).alike
  · have htwin := (hm₁.setToken hm₁.p_eq type (.text r')).alike
    refine ⟨htwin.t_eq, htwin.indentation_eq, htwin.error_eq, fun hstop => ?_, htwin.lineNumber_lt⟩
    have hbegin : m₁.t.substr.begin ≤ m₁.p := by
      rw [ht, hready.substr_eq]
      exact (hle.trans_lt hfar).le
    have hstop' : (m₁.t.substr.endAt m₁.p).stop ≤ txt.length := hstop
    rw [Span.stop_endAt hbegin] at hstop'
    omega

end Tokens

/-! ### Strings -/

section Strings

variable {v v' : View} {k width : ℕ} {m m' : Lexer} {quote : UInt8}

/-- A line break in a string, at `q`, that the two lexers treat alike: the character that is
skipped behind the dots of the next line is no line break, or, without such dots, the error that
is reported has the same line and offset. -/
def PlainBreak (txt : Text) (k width q : ℕ) : Prop :=
  (∀ d, ContinuesAt txt width q d → txt[d + 3]? ≠ some (ch '\n')) ∧
    ((∀ d, ¬ ContinuesAt txt width q d) → k % 2 ^ 32 = 0 ∧ Opens txt (q + 1))

theorem Twin.pushError (hm : Twin v.text k m m') (hoffset : SameOffset m m')
    (hk : k % 2 ^ 32 = 0) (issue : Issue) :
    (pushError issue).Sim (pushError issue) (fun _ m₁ _ m₁' => Twin v.text k m₁ m₁') m m' := by
  refine Gen.sim_modify ⟨hm.t_eq, hm.p_eq, hm.indentation_eq, ?_, hm.lineNumber_eq,
    hm.lineNumber_lt⟩
  have hline : m'.lineNumber = m.lineNumber := by
    have h₁ := hm.lineNumber_eq
    have h₂ := hm.lineNumber_lt
    omega
  rw [SameOffset] at hoffset
  simp only [hline, hoffset]

/-- **Strings**, round by round. -/
theorem stringRounds_sim (h : Rebroken v v') {fuel fuel' : ℕ} (hfuel : fuel ≤ fuel')
    (acc : Text) (hquote : isLineBreak quote = false) (hm : Twin v.text k m m')
    (hp : m.p ≤ v.text.length) (hwidth : m.totalIndentWidth = width)
    (hplain : ∀ q, StringAt v quote width m.p q → v.text[q]? = some (ch '\n') →
      PlainBreak v.text k width q) :
    (stringRounds v quote fuel acc).Sim (stringRounds v' quote fuel' acc)
      (fun r m₁ r' m₁' => r' = r ∧ Twin v.text k m₁ m₁') m m' := by
  induction fuel generalizing fuel' m m' acc with
  | zero => exact Gen.sim_hang
  | succ fuel ih =>
    obtain ⟨fuel', rfl⟩ := Nat.exists_eq_succ_of_ne_zero (show fuel' ≠ 0 by omega)
    -- a round that ends at `q`
    have round : ∀ (q q' : ℕ) (text : Text), q' = crlfAt v.text q → q ≤ v.text.length →
        StringStep v quote width m.p q →
        (stringRounds v quote fuel text).Sim (stringRounds v' quote fuel' text)
          (fun r m₁ r' m₁' => r' = r ∧ Twin v.text k m₁ m₁') (m.setP q) (m'.setP q') := by
      intro q q' text hq hle hstep
      exact ih (by omega) text (hm.setP hq) hle hwidth fun r hr => hplain r (.head hstep hr)
    have hget : v'.text[m'.p]? = v.text[m.p]?.map crlfByte := by
      rw [h.text_eq, hm.p_eq, getElem?_crlfAt]
    simp only [stringRounds, Gen.sim_get_left, Gen.sim_get_right, hget]
    cases hc : v.text[m.p]? with
    | none => exact Gen.sim_pure ⟨rfl, hm⟩
    | some c =>
      have hlt := (List.getElem?_eq_some_iff.mp hc).1
      have hnext : c ≠ ch '\n' → m'.p + 1 = crlfAt v.text (m.p + 1) := by
        intro hne
        rw [hm.p_eq, crlfAt_succ_of_ne]
        rw [hc]
        exact fun h => hne (Option.some.inj h)
      have hsame : ∀ d, isLineBreak d = false → (c = d ↔ crlfByte c = d) := by
        intro d hd
        refine (crlfByte_eq_iff ?_ ?_).symm
        · rintro rfl
          exact absurd hd (by decide)
        · rintro rfl
          exact absurd hd (by decide)
      have hbreak : isLineBreak c = true ↔ isLineBreak (crlfByte c) = true := by
        unfold crlfByte
        split_ifs with hlf
        · rw [hlf]
          decide
        · exact Iff.rfl
      simp only [Option.map_some]
      refine Gen.sim_ite (hsame quote hquote) (fun heq => ?_) fun hne => ?_
      · -- the closing quote
        refine Gen.sim_pure ⟨rfl, hm.setP (hnext ?_)⟩
        rintro rfl
        rw [← heq] at hquote
        exact absurd hquote (by decide)
      refine Gen.sim_ite (hsame _ isLineBreak_backslash) (fun hback => ?_) fun hback => ?_
      · -- an escape sequence has no line break, and is taken or refused in both texts
        subst hback
        obtain ⟨hcp, hend⟩ := scanUnicodeEscapeSequence_crlfAt h (q := m.p + 1) hlt
        have hstep : StringStep v quote width m.p (escapeEnd v m.p) := .escape hc hne
        have hnext := hnext (by decide)
        rw [← hnext] at hcp hend
        have hmono := crlfAt_strictMono v.text
        have hiff : (scanUnicodeEscapeSequence v (m.p + 1)).1 ≠ unicodeReplacementChar ∧
            (scanUnicodeEscapeSequence v (m.p + 1)).2 > m.p ∧
            (scanUnicodeEscapeSequence v (m.p + 1)).2 ≤ v.text.length ↔
            (scanUnicodeEscapeSequence v' (m'.p + 1)).1 ≠ unicodeReplacementChar ∧
            (scanUnicodeEscapeSequence v' (m'.p + 1)).2 > m'.p ∧
            (scanUnicodeEscapeSequence v' (m'.p + 1)).2 ≤ v'.text.length := by
          rw [hcp]
          refine and_congr_right fun hfound => ?_
          rw [hend hfound, hm.p_eq, h.text_eq, crlfAt_le_length_iff, gt_iff_lt, gt_iff_lt,
            hmono.lt_iff_lt]
        refine Gen.sim_ite hiff (fun htaken => ?_) fun hrefused => ?_
        · rw [escapeEnd, if_pos htaken] at hstep
          simp only [Gen.sim_modify_left, Gen.sim_modify_right, hcp]
          exact round _ _ _ (hend htaken.1) htaken.2.2 hstep
        · rw [escapeEnd, if_neg hrefused] at hstep
          simp only [Gen.sim_modify_left, Gen.sim_modify_right]
          exact round _ _ _ hnext hlt hstep
      refine Gen.sim_ite hbreak (fun hlf => ?_) fun hlf => ?_
      · have hany : v.text[m.p]?.any isLineBreak = true := by rw [hc, Option.any_some, hlf]
        have hnewline := getElem?_eq_of_any_isLineBreak h.no_cr hany
        obtain ⟨hskip, herror⟩ := hplain m.p .refl hnewline
        rw [h.text_eq, hm.p_eq, consumeLineBreak_crlfAt h.no_cr hany]
        refine ((nextLineContinues_sim h.no_cr hm _).and_left
          (nextLineContinues_continuesAt hwidth)).bind fun r m₁ r' m₁' hlook => ?_
        obtain ⟨⟨rfl, hm₁, hoffset⟩, hdots⟩ := hlook
        rcases hdots with ⟨rfl, hwidth₁, d, hcont, hp₁, hd⟩ | ⟨rfl, hno⟩
        · -- the dots are there, and no line break behind them
          have hstep : StringStep v quote width m.p (d + 4) := .continued hc hne hlf hcont
          have hat : m₁'.p + 1 = crlfAt v.text (m₁.p + 1) := by
            rw [hm₁.p_eq, crlfAt_succ_of_ne]
            rw [hp₁]
            exact hskip d hcont
          refine ih (by omega) _ (hm₁.setP hat) ?_ hwidth₁ fun r hr => hplain r (.head hstep ?_)
          · change m₁.p + 1 ≤ _
            omega
          · have hr' : StringAt v quote width (m₁.p + 1) r := hr
            rwa [hp₁] at hr'
        · -- the string ends here, with an error
          obtain ⟨hk, hopens⟩ := herror hno
          rw [consumeLineBreak_newline hnewline] at hoffset
          refine (hm₁.pushError (hoffset rfl hopens) hk _).bind fun _ m₂ _ m₂' hm₂ => ?_
          exact Gen.sim_pure ⟨rfl, hm₂⟩
      · have hne' : c ≠ ch '\n' := by
          rintro rfl
          exact hlf (by decide)
        have hsame' : crlfByte c = c := if_neg hne'
        simp only [Gen.sim_modify_left, Gen.sim_modify_right, hsame']
        exact round _ _ _ (hnext hne') hlt (.plain hc hne hback (Bool.eq_false_iff.mpr hlf))

/-- **Strings.** -/
theorem scanQuote_sim (h : Rebroken v v') (hm : Twin v.text k m m') (hp : m.p < v.text.length)
    (hquote : IsQuote (v.byte m.p))
    (hplain : ∀ q, StringAt v (v.byte m.p) m.totalIndentWidth (m.p + 1) q →
      v.text[q]? = some (ch '\n') → PlainBreak v.text k m.totalIndentWidth q) :
    (scanQuote v).Sim (scanQuote v') (fun _ m₁ _ m₁' => Twin v.text k m₁ m₁') m m' := by
  have hbreak : isLineBreak (v.byte m.p) = false := (Bool.or_eq_false_iff.mp hquote.startsToken.2).2
  have hne : v.byte m.p ≠ ch '\n' := by
    intro hlf
    rw [hlf] at hbreak
    exact absurd hbreak (by decide)
  have hbyte : v'.byte m'.p = v.byte m.p := by
    rw [hm.p_eq, h.byte_eq hp.le]
    exact if_neg hne
  have hnext : m'.p + 1 = crlfAt v.text (m.p + 1) := by
    rw [hm.p_eq, crlfAt_succ_of_ne]
    rw [View.byte_of_lt hp]
    exact fun h => hne (Option.some.inj h)
  have hlen : v.text.length + 1 ≤ v'.text.length + 1 := by
    rw [h.text_eq, length_crlf]
    omega
  simp only [scanQuote, getStringLiteral, Gen.sim_get_left, Gen.sim_get_right,
    Gen.sim_modify_left, Gen.sim_modify_right, hbyte]
  refine (stringRounds_sim h hlen [] hbreak (hm.setP hnext) hp rfl hplain).bind
    fun r m₁ r' m₁' hm₁ => ?_
  obtain ⟨rfl, hm₁⟩ := hm₁
  exact Gen.sim_modify (hm₁.setToken hm₁.p_eq _ _)

end Strings

/-! ### The switch -/

section Switch

variable {v v' : View} {k width : ℕ} {m m' : Lexer} {c : UInt8}

/-- **Numbers** and errors. -/
theorem assign_sim (hm : Twin v.text k m m') {s s' : Scanned} (hs : s' = s.crlf v.text) :
    (assign s).Sim (assign s') (fun _ m₁ _ m₁' => Twin v.text k m₁ m₁') m m' := by
  subst hs
  exact Gen.sim_modify (hm.setToken rfl _ _)

/-- **Operators.** -/
theorem scanOperator_sim (h : Rebroken v v') (hm : Twin v.text k m m') (hp : m.p < v.text.length)
    {op : Operator} (hop : operatorAt c = some op) (hne : v.text[m.p]? ≠ some (ch '\n')) :
    (scanOperator v op).Sim (scanOperator v' op) (fun _ m₁ _ m₁' => Twin v.text k m₁ m₁') m m' := by
  have hdigit : op.numeric = true ∧ v.text[m.p + 1]?.any isdigit = true ↔
      op.numeric = true ∧ v'.text[m'.p + 1]?.any isdigit = true := by
    rw [hm.p_eq, ← crlfAt_succ_of_ne hne, h.text_eq, any_crlfAt (by decide)]
  simp only [scanOperator, Gen.sim_get_left, Gen.sim_get_right]
  refine Gen.sim_ite hdigit (fun _ => assign_sim hm ?_) fun _ => ?_
  · rw [hm.p_eq, getNumberToken_crlfAt h hp]
  · obtain ⟨hspelled, hat⟩ := spelledAt_crlfAt hop hne
    rw [h.text_eq, hm.p_eq, hspelled]
    unfold consume
    refine Gen.sim_modify ⟨?_, ?_, hm.indentation_eq, hm.error_eq, hm.lineNumber_eq,
      hm.lineNumber_lt⟩
    · simp only [hm.p_eq, hm.t_eq, ← hat]
      simp only [Token.crlf, Span.crlf_endAt]
    · change m'.p + _ = crlfAt v.text (m.p + _)
      rw [hm.p_eq, hat]

end Switch

end Intent.Old
