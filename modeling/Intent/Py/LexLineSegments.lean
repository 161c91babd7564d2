import Intent.Py.LexSegments

/-!
# The stretch of a line

The contracts of the generators between a section and the whole text, in the terms of
`LexSegments`: a paragraph and a term are segments (`paragraph_segment`, `term_segment`), and a
call of `_line` makes one with its indentation in front (`LineLeft`).

Three more things are kept for the run over all lines. Every line feed that a section takes in
is followed by a token of the line (`Noted`). A line is left on a line feed, at the end of the
text, or on the semicolon after the name of a term; and no such semicolon is passed over
(`NoSemicolon`). A line that has any text yields a token where it begins.
-/

namespace Intent.Py

variable {text : List Char} {i j k d fuel : ℕ} {ts us : List Token} {t : Token} {s s' : LexState}

/-- What is read outside of all sections is read well. -/
theorem not_misread_of_mode (h : (modeAt text (k + 1)).InSection = false) : ¬ Misread text k := by
  rintro (⟨⟨-, -, d, hmode⟩, -⟩ | ⟨⟨-, -, d, hmode⟩, -⟩)
  · rw [hmode] at h
    cases h
  · rw [hmode] at h
    cases h

/-! ### Paragraphs -/

/-- The text of a paragraph up to a section or the end of its line. -/
theorem IsBreak.paragraph_text {b e : ℕ} {c : Option Char}
    (h : IsBreak text ['[', '\n'] i text.length b e j c)
    (hread : modeAt text (i + 1) = (Mode.text 0 .fresh).step (charAt text i))
    (hs : SameLine s s') :
    Segment text s i
      (if decide (b < e) then [s'.token .text b (if c ≠ some '[' then e else j)] else []) j := by
  have hany : ∀ c ∈ ['[', '\n'], isBlank c = false := by
    simp [isBlank, skippableWhitespace]
  have hstop : e ≤ (if c ≠ some '[' then e else j) ∧ (if c ≠ some '[' then e else j) ≤ j := by
    have := h.end_le
    split_ifs <;> omega
  refine h.segment hs hstop.1 hstop.2 ?_ fun k h₁ h₂ => ?_
  · refine .of_no_feed fun k h₁ h₂ hfeed => ?_
    exact h.notMem hany h₁ h₂ (by simp [hfeed])
  · obtain ⟨r, hr⟩ := h.modes hany hread (fun c r => paragraph_family) h₁ h₂
    exact not_misread_of_mode (by rw [hr]; rfl)

/-- How a paragraph is left. -/
structure ParagraphLeft (text : List Char) (s : LexState) (ts : List Token) (s' : LexState) :
    Prop where
  segment : Segment text s s.i ts s'.i
  line : SameLine s s'
  noted : Noted text s.i ts s'.i
  overrun : Overrun text ts s'.i
  ne_nil : charAt text s.i = ']' → ts ≠ []

/-- How a paragraph is left by an exception. -/
structure ParagraphRaised (text : List Char) (s : LexState) (ts : List Token) (s' : LexState) :
    Prop where
  placed : Placed text s s.i ts s'.i
  line : SameLine s s'
  noted : Noted text s.i ts s'.i
  blank : BlankRun text s'.i text.length
  ne_nil : charAt text s.i = ']' → ts ≠ []

/-- The text of a paragraph has no line feed. -/
theorem IsBreak.noted {b e : ℕ} {c : Option Char}
    (h : IsBreak text ['[', '\n'] i text.length b e j c) : Noted text i ts j := by
  intro k h₁ h₂ hfeed
  refine absurd ?_ (h.notMem (by simp [isBlank, skippableWhitespace]) h₁ h₂)
  simp [hfeed]

/-- A paragraph that starts on a closing bracket starts with a text. -/
theorem IsBreak.text_ne_nil {b e : ℕ} {c : Option Char}
    (h : IsBreak text ['[', '\n'] i text.length b e j c) (hi : charAt text i = ']') : b < e := by
  obtain rfl : i = b := by
    by_contra hne
    have hblank := h.lead_blank i le_rfl (by have := h.le_begin; omega)
    rw [hi] at hblank
    cases hblank
  refine h.lt_end ?_
  by_contra hge
  obtain rfl : i = j := by have := h.le; omega
  have hmem := h.stop_any h.begin_lt
  rw [hi] at hmem
  simp at hmem

/-- A paragraph goes on after a text and a section. -/
theorem ParagraphLeft.prepend {s₁ : LexState} (h : ParagraphLeft text s₁ us s')
    (hseg : Segment text s s.i ts s₁.i) (hs : SameLine s s₁) (hts : ts ≠ [])
    (hnoted : Noted text s.i ts s₁.i ∨ charAt text s₁.i = ']') :
    ParagraphLeft text s (ts ++ us) s' where
  segment := hseg.append (h.segment.sameLine hs)
  line := hs.trans h.line
  noted := hnoted.elim (fun hn => hn.append h.noted)
    fun hc => .append_of_ne_nil (h.ne_nil hc) h.segment.toPlaced h.noted
  overrun := h.overrun.append
  ne_nil _ := by simp [hts]

theorem ParagraphRaised.prepend {s₁ : LexState} (h : ParagraphRaised text s₁ us s')
    (hseg : Placed text s s.i ts s₁.i) (hs : SameLine s s₁) (hts : ts ≠ [])
    (hnoted : Noted text s.i ts s₁.i ∨ charAt text s₁.i = ']') :
    ParagraphRaised text s (ts ++ us) s' where
  placed := hseg.append (h.placed.sameLine hs)
  line := hs.trans h.line
  noted := hnoted.elim (fun hn => hn.append h.noted)
    fun hc => .append_of_ne_nil (h.ne_nil hc) h.placed h.noted
  blank := h.blank
  ne_nil _ := by simp [hts]

/-- **Paragraphs** are segments. -/
theorem paragraph_segment (text : List Char) (fuel : ℕ) :
    ∀ s, s.i < text.length → modeAt text (s.i + 1) = textStep 0 .fresh (charAt text s.i) →
      (paragraph text fuel).wp s (fun _ ts s' => ParagraphLeft text s ts s')
        (fun _ ts s' => ParagraphRaised text s ts s') (Unfinished text s s.i) := by
  induction fuel with
  | zero =>
    intro s _ _
    simpa [paragraph] using Unfinished.nil
  | succ fuel ih =>
    intro s hi hread
    obtain ⟨-, hsome⟩ := break_mode (f := Mode.text 0) hi hread
      (fun c r => paragraph_family) (by simp [isBlank, skippableWhitespace])
    simp only [paragraph, Gen.wp_bind, Gen.wp_get]
    cases hb : breakOnAny text ['[', '\n'] s.i text.length with
    | none =>
      have hblank := (breakOnAny_eq_none_iff hi.le).mp hb
      refine ⟨.nil le_rfl fun k h₁ h₂ => absurd h₁ (by omega), .refl s,
        fun k h₁ h₂ => absurd h₁ (by omega), hblank, fun hc => ?_⟩
      have hfirst := hblank s.i le_rfl hi
      rw [hc] at hfirst
      cases hfirst
    | some q =>
      obtain ⟨b, e, j, c⟩ := q
      have hbr := isBreak_of_breakOnAny hi.le hb
      obtain ⟨-, hin⟩ := hsome b e j c hb
      have htext := hbr.paragraph_text hread (SameLine.refl s)
      have hfirst : charAt text s.i = ']' →
          (if decide (b < e) then [s.token .text b (if c ≠ some '[' then e else j)] else []) ≠ [] :=
        fun hc => by simp [hbr.text_ne_nil hc]
      simp only [Gen.wp_bind, Gen.wp_modify, Gen.wp_get, Gen.wp_ite, Gen.wp_pure, wp_emitIf,
        List.nil_append, List.append_nil]
      generalize (if decide (b < e) then
        [s.token .text b (if c ≠ some '[' then e else j)] else []) = us at htext hfirst ⊢
      refine ⟨fun _ => ⟨htext, .moveTo s j, hbr.noted, .of_le hbr.le_stop, hfirst⟩,
        fun hstop => ?_⟩
      -- a section interrupts it
      have hj : j < text.length := by omega
      have hch : charAt text j = '[' := by
        have hmem := hbr.stop_any hj
        simp only [List.mem_cons, List.not_mem_nil, or_false] at hmem
        exact hmem.resolve_right fun h => hstop (.inr (by rw [hbr.char_of_lt hj, h]))
      obtain ⟨r, hr⟩ := hin hj
      rw [hch] at hr
      refine (((hypertext_mode fuel).1 (s.moveTo j) 0 hj hch hr).and
        ((hypertext_segment text fuel).1 (s.moveTo j) ⟨hj, hch, 0, hr⟩)).imp ?_ ?_ ?_
      · rintro _ ts s' ⟨⟨-, hgo, -⟩, hseg, hline, hne, hover, hnoted⟩
        have hline' := (SameLine.moveTo s j).trans hline
        have hboth := htext.append (hseg.sameLine (.moveTo s j))
        have hne' : us ++ ts ≠ [] := by simp [hne]
        have hnoted' : Noted text s.i (us ++ ts) s'.i ∨ charAt text s'.i = ']' :=
          hnoted.imp (fun hn => hbr.noted.append hn) And.right
        refine ⟨fun hge => ?_, fun hlt => ?_⟩
        · have hn := hnoted.resolve_right fun h => absurd h.1 (by omega)
          exact ⟨hboth, hline', hbr.noted.append hn, hover.append, fun _ => hne'⟩
        · obtain ⟨hlt', hread'⟩ | ⟨hge, -⟩ := hgo
          · refine (ih s' hlt' hread').imp ?_ ?_ ?_
            · intro _ us' s'' hleft
              simpa only [List.append_assoc] using hleft.prepend hboth hline' hne' hnoted'
            · intro _ us' s'' hraised
              simpa only [List.append_assoc] using
                hraised.prepend hboth.toPlaced hline' hne' hnoted'
            · intro us' hus'
              simpa only [List.append_assoc] using
                hboth.toPlaced.append_unfinished (hus'.sameLine hline')
          · exact absurd hge hlt
      · rintro _ ts s' ⟨-, hplaced, hline, hblank, hnoted⟩
        exact ⟨htext.toPlaced.append (hplaced.sameLine (.moveTo s j)),
          (SameLine.moveTo s j).trans hline, hbr.noted.append hnoted, hblank,
          fun hc => by simp [hfirst hc]⟩
      · rintro ts ⟨-, hts⟩
        exact htext.toPlaced.append_unfinished (hts.sameLine (.moveTo s j))

/-! ### Terms -/

/-- The name of a term ends on a semicolon at `k`. -/
def Semicolon (text : List Char) (k : ℕ) : Prop := charAt text k = ';' ∧ modeAt text k = .name

/-- A stretch of the name or of the definition of a term. -/
structure TermRun (text : List Char) (i j : ℕ) : Prop where
  le : i ≤ j
  le_length : j ≤ text.length
  mode : ∀ k, i ≤ k → k < j →
    modeAt text (k + 1) = .name ∨ modeAt text (k + 1) = .defn
  no_feed : ∀ k, i ≤ k → k < j → charAt text k ≠ '\n'

theorem TermRun.readsWell (h : TermRun text i j) : ReadsWell text i j := by
  intro k h₁ h₂
  refine not_misread_of_mode ?_
  rcases h.mode k h₁ h₂ with hmode | hmode
  · rw [hmode]
    rfl
  · rw [hmode]
    rfl

/-- One token over a stretch of a term. -/
theorem TermRun.single (h : TermRun text i j) (ht : s.Stamps t) (htt : t.ttype.isBracket = false)
    (hbegin : t.begin = skipWhitespace text i text.length) (hbe : t.begin ≤ t.stop)
    (hej : t.stop ≤ j) : Segment text s i [t] j :=
  .single htt (fun _ => h.le_length) hbegin
    (.single ht (hbegin ▸ le_skipWhitespace text i text.length) hbe hej (.of_no_feed h.no_feed))
    h.readsWell

theorem TermRun.trans (h₁ : TermRun text i j) (h₂ : TermRun text j k) : TermRun text i k where
  le := h₁.le.trans h₂.le
  le_length := h₂.le_length
  mode m hi hk := (Nat.lt_or_ge m j).elim (h₁.mode m hi) fun h => h₂.mode m h hk
  no_feed m hi hk := (Nat.lt_or_ge m j).elim (h₁.no_feed m hi) fun h => h₂.no_feed m h hk

/-- The reading stays in the name, or in the definition. -/
theorem TermRun.of_stays {m : Mode} (hm : m = .name ∨ m = .defn) (hij : i ≤ j)
    (hj : j ≤ text.length) (hfirst : modeAt text i = m)
    (hstep : ∀ k, i ≤ k → k < j → m.step (charAt text k) = m)
    (hfeed : ∀ k, i ≤ k → k < j → charAt text k ≠ '\n') :
    TermRun text i j ∧ modeAt text j = m := by
  have hmode : ∀ k, i ≤ k → k ≤ j → modeAt text k = m := fun k h₁ h₂ =>
    modeAt_stays h₁ (h₂.trans hj) hfirst fun k' h₁' h₂' => hstep k' h₁' (by omega)
  refine ⟨⟨hij, hj, fun k h₁ h₂ => ?_, hfeed⟩, hmode j hij le_rfl⟩
  rw [hmode (k + 1) (by omega) h₂]
  exact hm

/-- A semicolon after a name turns the rest of the line into a paragraph. -/
theorem Semicolon.mode (h : Semicolon text k) (hk : k < text.length) :
    modeAt text (k + 1) = .text 0 .text := by
  rw [modeAt_succ hk, h.1, h.2]
  rfl

theorem TermRun.not_semicolon (h : TermRun text i j) (hi : i ≤ k) (hj : k < j) :
    ¬ Semicolon text k := by
  intro hsemi
  have hmode := hsemi.mode (hj.trans_le h.le_length)
  rcases h.mode k hi hj with h' | h'
  · rw [h'] at hmode
    cases hmode
  · rw [h'] at hmode
    cases hmode

/-- How a term is left: on a line feed, at the end of the text, or on a semicolon. -/
structure TermLeft (text : List Char) (s : LexState) (i : ℕ) (ts : List Token) (s' : LexState) :
    Prop where
  segment : Segment text s i ts s'.i
  line : SameLine s s'
  run : TermRun text i s'.i
  types : ∀ t ∈ ts, t.ttype.isBracket = false
  stop : s'.i < text.length → charAt text s'.i = '\n' ∨ Semicolon text s'.i

/-- What comes before the end of a term. -/
theorem TermLeft.prepend {s₁ : LexState} (h : TermLeft text s₁ j us s')
    (hseg : Segment text s i ts j) (hs : SameLine s s₁) (hrun : TermRun text i j)
    (htypes : ∀ t ∈ ts, t.ttype.isBracket = false) : TermLeft text s i (ts ++ us) s' where
  segment := hseg.append (h.segment.sameLine hs)
  line := hs.trans h.line
  run := hrun.trans h.run
  types := List.forall_mem_append.mpr ⟨htypes, h.types⟩
  stop := h.stop

/-- The definition of a term, entered on its first character. -/
theorem defn_segment (hi : s.i < text.length) (hnb : isBlank (charAt text s.i) = false)
    (hmode : modeAt text s.i = .defn) :
    (defn text).wp s (fun _ ts s' => TermLeft text s s.i ts s') (fun _ _ _ => False)
      fun _ => False := by
  obtain ⟨e, j, c, hb⟩ := @breakOnAny_of_not_blank _ ['\n'] _ _ hi hnb
  have hbr := isBreak_of_breakOnAny hi.le hb
  obtain ⟨hrun, -⟩ := TermRun.of_stays (.inr rfl) hbr.le hbr.le_stop hmode
    (fun k h₁ h₂ => defn_step (hbr.not_any k h₁ h₂))
    fun k h₁ h₂ => by simpa using hbr.not_any k h₁ h₂
  simp only [defn, Gen.wp_bind, Gen.wp_get, hb, Gen.wp_modify, Gen.wp_emit, List.nil_append]
  refine ⟨?_, .moveTo s j, hrun, List.forall_mem_singleton.mpr rfl,
    fun hj => .inl (by simpa using hbr.stop_any hj)⟩
  exact hrun.single (LexState.stamps_token (.refl s) rfl _ _) rfl hbr.skip_eq.symm hbr.begin_le
    hbr.end_le

/-- **Terms** are segments. -/
theorem term_segment (hi : s.i < text.length) (hnb : isBlank (charAt text s.i) = false)
    (hmode : modeAt text s.i = .name) :
    (term text).wp s (fun _ ts s' => TermLeft text s s.i ts s') (fun _ _ _ => False)
      fun _ => False := by
  obtain ⟨e, j, c, hb⟩ := @breakOnAny_of_not_blank _ [':', ';', '\n'] _ _ hi hnb
  have hbr := isBreak_of_breakOnAny hi.le hb
  obtain ⟨hrun, hname⟩ := TermRun.of_stays (.inl rfl) hbr.le hbr.le_stop hmode
    (fun k h₁ h₂ => name_step (hbr.not_any k h₁ h₂))
    fun k h₁ h₂ hfeed => hbr.not_any k h₁ h₂ (by simp [hfeed])
  have hword : Segment text s s.i [s.token .name s.i e] j :=
    hrun.single (LexState.stamps_token (.refl s) rfl _ _) rfl hbr.skip_eq.symm hbr.begin_le
      hbr.end_le
  simp only [term, name, Gen.wp_bind, Gen.wp_get, hb, Gen.wp_modify, Gen.wp_emit, Gen.wp_ite,
    Gen.wp_pure, LexState.moveTo_i, List.nil_append, List.append_nil]
  refine ⟨?_, fun hno => ⟨hword, .moveTo s j, hrun, List.forall_mem_singleton.mpr rfl,
    fun hj => ?_⟩⟩
  · -- after the colon, blanks and then a definition or the end of the line
    rintro ⟨hj, hcolon⟩
    have hdefn : modeAt text (j + 1) = .defn := by rw [modeAt_succ hj, hname, hcolon]; rfl
    have hpivotRun : TermRun text j (j + 1) := by
      refine ⟨Nat.le_succ j, hj, fun k h₁ h₂ => ?_, fun k h₁ h₂ => ?_⟩
      all_goals obtain rfl : k = j := by omega
      · exact .inr hdefn
      · rw [hcolon]
        decide
    have hpivot : Segment text s j [(s.moveTo j).token .pivotTerm j (j + 1)] (j + 1) :=
      hpivotRun.single (LexState.stamps_token (.moveTo s j) rfl _ _) rfl
        (skipWhitespace_of_not_blank (i := j) (by rw [hcolon]; rfl)).symm (Nat.le_succ j) le_rfl
    have hk := skipWhitespace_le text (Nat.succ_le_of_lt hj)
    have hjk := le_skipWhitespace text (j + 1) text.length
    have hblank := blankRun_skipWhitespace text (j + 1) text.length
    have hnbk := @not_blank_skipWhitespace text (j + 1) text.length
    simp only [Nat.succ_eq_add_one] at hk
    generalize skipWhitespace text (j + 1) text.length = k at hk hjk hblank hnbk ⊢
    obtain ⟨hrun', hdefn'⟩ := TermRun.of_stays (.inr rfl) hjk hk hdefn
      (fun m h₁ h₂ => blank_step (.inr rfl) (hblank m h₁ h₂)) hblank.no_feed
    have hseg := (hword.append hpivot).append (.blank hjk hk hblank)
    have hrun'' := (hrun.trans hpivotRun).trans hrun'
    have hline : SameLine s ((s.moveTo j).moveTo k) := ⟨rfl, rfl⟩
    have htypes : ∀ t ∈ [s.token .name s.i e] ++ [(s.moveTo j).token .pivotTerm j (j + 1)] ++ [],
        t.ttype.isBracket = false := by
      simp [LexState.token, TokType.isBracket]
    refine ⟨fun hin => ?_, fun hno => ?_⟩
    · refine (defn_segment hin.1 (hnbk hin.1) hdefn').imp ?_ (fun _ _ _ => False.elim)
        fun _ => False.elim
      intro _ ts s' hleft
      simpa using hleft.prepend hseg hline hrun'' htypes
    · refine ⟨by simpa using hseg, hline, hrun'', by simpa using htypes, fun hlt => .inl ?_⟩
      by_contra hne
      exact hno ⟨hlt, hne⟩
  · have hmem := hbr.stop_any hj
    simp only [List.mem_cons, List.not_mem_nil, or_false] at hmem
    rcases hmem with hch | hch | hch
    · exact absurd ⟨hj, hch⟩ hno
    · exact .inr ⟨hch, hname⟩
    · exact .inl hch

/-! ### The body of a line -/

/-- The reading stands in a paragraph. -/
def Mode.InText : Mode → Bool
  | .text _ _ => true
  | .divider _ => true
  | .target _ _ => true
  | _ => false

theorem textStep_inText {r : Run} {c : Char} :
    (textStep d r c).InText = true ∨ (c = '\n' ∧ textStep d r c = .lineStart) := by
  cases d with
  | zero =>
    simp only [textStep]
    split_ifs <;> simp_all [Mode.InText]
  | succ d =>
    simp only [textStep]
    split_ifs <;> simp [Mode.InText]

/-- A paragraph is only left for a new line. -/
theorem Mode.InText.step {m : Mode} {c : Char} (hm : m.InText = true) :
    (m.step c).InText = true ∨ (c = '\n' ∧ m.step c = .lineStart) := by
  rcases m with _ | _ | _ | _ | ⟨d, r⟩ | d | ⟨d, r⟩ | _
  all_goals cases hm
  · exact textStep_inText
  · exact .inl rfl
  · by_cases hc : c = ']'
    · simp only [Mode.step, if_pos hc]
      exact textStep_inText
    · simp [Mode.step, hc, Mode.InText]

/-- Where line feeds belong to sections, the reading stays in the paragraph. -/
theorem Feeds.inText (h : Feeds text i j) (hi : (modeAt text i).InText = true) (hik : i ≤ k)
    (hkj : k ≤ j) (hk : k ≤ text.length) : (modeAt text k).InText = true := by
  induction k, hik using Nat.le_induction with
  | base => exact hi
  | succ k hik ih =>
    rcases Mode.InText.step (c := charAt text k) (ih (by omega) (by omega)) with hstep | hstep
    · rwa [modeAt_succ hk]
    · have hfeed := h k hik hkj hstep.1
      rw [modeAt_succ hk, hstep.2] at hfeed
      cases hfeed

theorem Semicolon.lt (h : Semicolon text k) : k < text.length := by
  by_contra hge
  have hc := h.1
  rw [charAt, List.getD_eq_getElem?_getD, List.getElem?_eq_none (by omega)] at hc
  cases hc

/-- No semicolon ends a name inside of a paragraph. -/
theorem Feeds.not_semicolon (h : Feeds text (i + 1) j)
    (hi : (modeAt text (i + 1)).InText = true) (hik : i < k) (hkj : k < j) :
    ¬ Semicolon text k := by
  intro hsemi
  have hmode := h.inText hi hik hkj.le hsemi.lt.le
  rw [hsemi.2] at hmode
  cases hmode

/-- What is known of the text of a line, however it is left. -/
structure BodyYields (text : List Char) (s : LexState) (ts : List Token) (s' : LexState) :
    Prop where
  line : SameLine s s'
  noted : Noted text s.i ts s'.i
  semicolon : ∀ k, s.i < k → k < s'.i → ¬ Semicolon text k
  starts : ∃ t ∈ ts, t.begin = s.i

/-- How the text of a line is left. -/
structure BodyLeft (text : List Char) (s : LexState) (ts : List Token) (s' : LexState) : Prop
    extends BodyYields text s ts s' where
  segment : Segment text s s.i ts s'.i
  overrun : Overrun text ts s'.i
  stop : s'.i < text.length → charAt text s'.i = '\n' ∨
    (Semicolon text s'.i ∧ ∀ t ∈ ts, t.ttype.isBracket = false)

/-- How it is left by an exception. -/
structure BodyRaised (text : List Char) (s : LexState) (ts : List Token) (s' : LexState) : Prop
    extends BodyYields text s ts s' where
  placed : Placed text s s.i ts s'.i
  blank : BlankRun text s'.i text.length

theorem TermLeft.body (h : TermLeft text s s.i ts s') (hstarts : ∃ t ∈ ts, t.begin = s.i) :
    BodyLeft text s ts s' where
  line := h.line
  noted k h₁ h₂ hfeed := absurd hfeed (h.run.no_feed k h₁ h₂)
  semicolon _ h₁ h₂ := h.run.not_semicolon h₁.le h₂
  starts := hstarts
  segment := h.segment
  overrun := .of_le h.run.le_length
  stop hlt := (h.stop hlt).imp_right fun hsemi => ⟨hsemi, h.types⟩

/-- What a paragraph leaves behind, after the token that begins it. -/
theorem Placed.paragraph_yields (h : Placed text s s.i ts s'.i) (hline : SameLine s s')
    (hnoted : Noted text s.i ts s'.i) (hmode : (modeAt text (s.i + 1)).InText = true)
    (ht : t.begin = s.i) : BodyYields text s (t :: ts) s' where
  line := hline
  noted k h₁ h₂ hfeed := by
    obtain ⟨u, hu, hlt⟩ := hnoted k h₁ h₂ hfeed
    exact ⟨u, List.mem_cons_of_mem t hu, hlt⟩
  semicolon _ h₁ h₂ :=
    Feeds.not_semicolon (fun m hm => h.feeds m (by omega)) hmode h₁ h₂
  starts := ⟨t, List.mem_cons_self, ht⟩

/-- The first character of a paragraph. -/
theorem inText_of_lineStart {c : Char} (hnb : isBlank c = false) (hnl : c ≠ '\n')
    (hdash : c ≠ '-') :
    Mode.step .lineStart c = textStep 0 .fresh c ∧ (textStep 0 .fresh c).InText = true := by
  have hb : ¬ (c = ' ' ∨ c = '\t' ∨ c = '\r') := by
    rw [← isBlank_iff, hnb]
    decide
  simp only [not_or] at hb
  exact ⟨by simp [Mode.step, hb, hnl, hdash], textStep_inText.resolve_right fun h => hnl h.1⟩

/-- **The text of a line** is a segment, with its first token where it begins. -/
theorem lineBody_segment (hi : s.i < text.length) (hnb : isBlank (charAt text s.i) = false)
    (hnl : charAt text s.i ≠ '\n')
    (hread : modeAt text (s.i + 1) = Mode.step .lineStart (charAt text s.i)) :
    (lineBody text fuel).wp s (fun _ ts s' => BodyLeft text s ts s')
      (fun _ ts s' => BodyRaised text s ts s') (Unfinished text s s.i) := by
  have hskip : s.i = skipWhitespace text s.i text.length := (skipWhitespace_of_not_blank hnb).symm
  simp only [lineBody, Gen.wp_bind, Gen.wp_get, Gen.wp_ite, Gen.wp_emit, Gen.wp_modify,
    Gen.wp_pure, List.nil_append, List.append_nil]
  refine ⟨fun hdash => ?_, fun hdash => ?_⟩
  · have hname : modeAt text (s.i + 1) = .name := by rw [hread, hdash]; rfl
    have hdashRun : TermRun text s.i (s.i + 1) := by
      refine ⟨Nat.le_succ _, hi, fun k h₁ h₂ => ?_, fun k h₁ h₂ => ?_⟩
      all_goals obtain rfl : k = s.i := by omega
      · exact .inl hname
      · exact hnl
    have hbegin : Segment text s s.i [s.token .beginTerm s.i (s.i + 1)] (s.i + 1) :=
      hdashRun.single (LexState.stamps_token (.refl s) rfl _ _) rfl hskip (Nat.le_succ _) le_rfl
    have hk := skipWhitespace_le text (Nat.succ_le_of_lt hi)
    have hik := le_skipWhitespace text (s.i + 1) text.length
    have hblank := blankRun_skipWhitespace text (s.i + 1) text.length
    have hnbk := @not_blank_skipWhitespace text (s.i + 1) text.length
    simp only [Nat.succ_eq_add_one] at hk
    generalize skipWhitespace text (s.i + 1) text.length = k at hk hik hblank hnbk ⊢
    obtain ⟨hblankRun, hname'⟩ := TermRun.of_stays (.inl rfl) hik hk hname
      (fun m h₁ h₂ => blank_step (.inl rfl) (hblank m h₁ h₂)) hblank.no_feed
    have hrun := hdashRun.trans hblankRun
    have hseg : Segment text s s.i [s.token .beginTerm s.i (s.i + 1)] k := by
      simpa using hbegin.append (.blank hik hk hblank)
    refine ⟨fun hge => ?_, fun hlt => ?_⟩
    · exact TermLeft.body ⟨hseg, .moveTo s k, hrun, List.forall_mem_singleton.mpr rfl,
        fun hlt => absurd hlt (by simpa using hge)⟩ ⟨_, List.mem_cons_self, rfl⟩
    · have hlt' : k < text.length := by omega
      refine (term_segment (s := s.moveTo k) hlt' (hnbk hlt') hname').imp ?_
        (fun _ _ _ => False.elim) fun _ => False.elim
      intro _ ts s' hleft
      exact (hleft.prepend hseg (.moveTo s k) hrun (List.forall_mem_singleton.mpr rfl)).body
        ⟨_, List.mem_cons_self, rfl⟩
  · obtain ⟨hstep, hmode⟩ := inText_of_lineStart hnb hnl hdash
    rw [hstep] at hread
    rw [← hread] at hmode
    have hbegin : Segment text s s.i [s.token .beginPara s.i s.i] s.i :=
      .single rfl (fun h => h) hskip (.single (LexState.stamps_token (.refl s) rfl _ _) le_rfl
        le_rfl le_rfl fun k h₁ h₂ => absurd h₁ (by omega)) fun k h₁ h₂ => absurd h₁ (by omega)
    refine ((paragraph_mode fuel s hi hread).and (paragraph_segment text fuel s hi hread)).imp
      ?_ ?_ ?_
    · rintro _ ts s' ⟨⟨-, -, hstop, -⟩, hleft⟩
      exact ⟨hleft.segment.toPlaced.paragraph_yields hleft.line hleft.noted hmode rfl,
        hbegin.append hleft.segment, hleft.overrun.append, fun hlt => .inl (hstop hlt)⟩
    · rintro _ ts s' ⟨-, hraised⟩
      exact ⟨hraised.placed.paragraph_yields hraised.line hraised.noted hmode rfl,
        hbegin.toPlaced.append hraised.placed, hraised.blank⟩
    · rintro ts ⟨-, hts⟩
      exact hbegin.toPlaced.append_unfinished hts

/-! ### Lines -/

/-- The blanks that a line begins with, from `i` to `k`, with tokens for its indentation. -/
structure Lead (text : List Char) (s : LexState) (i : ℕ) (us : List Token) (k : ℕ) : Prop where
  placed : Placed text s i us k
  blank : BlankRun text i k
  types : ∀ t ∈ us, t.ttype.isBracket = false

theorem Lead.append_blank (h : Lead text s i us j) (hjk : j ≤ k) (hblank : BlankRun text j k) :
    Lead text s i us k where
  placed := by simpa using h.placed.append (.nil hjk (.of_no_feed hblank.no_feed))
  blank := h.blank.trans hblank
  types := h.types

/-- One more leading tab. -/
theorem Lead.snoc (h : Lead text s i us j) (hs : SameLine s s') (hc : charAt text j = '\t') :
    Lead text s i (us ++ [s'.token .indent j (j + 1)]) (j + 1) := by
  have hblank : BlankRun text j (j + 1) := by
    intro k h₁ h₂
    obtain rfl : k = j := by omega
    rw [hc]
    rfl
  refine ⟨h.placed.append (.single (LexState.stamps_token hs rfl _ _) le_rfl (Nat.le_succ j) le_rfl
    (.of_no_feed hblank.no_feed)), h.blank.trans hblank, fun t ht => ?_⟩
  rcases List.mem_append.mp ht with ht | ht
  · exact h.types t ht
  · rw [List.mem_singleton.mp ht]
    rfl

/-- The tokens of the indentation: some of the leading indents, or dedents. -/
theorem Lead.indentation (h : Lead text s i us k) (hs : SameLine s s') (m n : ℕ) :
    Lead text s i (List.replicate m (s'.token .dedent k k) ++ us.take n) k where
  placed := by
    have hdedents : Placed text s i (List.replicate m (s'.token .dedent k k)) k := by
      refine ⟨h.placed.le, fun t ht => ?_, fun t ht => ?_, h.placed.feeds⟩
      all_goals rw [List.eq_of_mem_replicate ht]
      · exact ⟨h.placed.le, le_rfl, le_rfl⟩
      · exact LexState.stamps_token hs rfl _ _
    refine hdedents.both ⟨h.placed.le, fun t ht => ?_, fun t ht => ?_, h.placed.feeds⟩
    · exact h.placed.within t (List.mem_of_mem_take ht)
    · exact h.placed.stamped t (List.mem_of_mem_take ht)
  blank := h.blank
  types t ht := by
    rcases List.mem_append.mp ht with ht | ht
    · rw [List.eq_of_mem_replicate ht]
      rfl
    · exact h.types t (List.mem_of_mem_take ht)

/-- What is known of a line that begins at `i`, however it is left. -/
structure LineYields (text : List Char) (s : LexState) (i : ℕ) (ts : List Token)
    (s' : LexState) : Prop where
  line : SameLine s s'
  noted : Noted text i ts s'.i
  semicolon : ∀ k, i < k → k < s'.i → ¬ Semicolon text k
  starts : i < text.length → isBlank (charAt text i) = false → charAt text i ≠ '\n' →
    ∃ t ∈ ts, t.begin = i

/-- How a line that begins at `i` is left. -/
structure LineLeft (text : List Char) (s : LexState) (i : ℕ) (ts : List Token) (s' : LexState) :
    Prop extends LineYields text s i ts s' where
  segment : ∃ us vs k, ts = us ++ vs ∧ Lead text s i us k ∧ Segment text s k vs s'.i
  overrun : Overrun text ts s'.i
  stop : s'.i < text.length → charAt text s'.i = '\n' ∨
    (Semicolon text s'.i ∧ ∀ t ∈ ts, t.ttype.isBracket = false)

/-- How it is left by an exception. -/
structure LineRaised (text : List Char) (s : LexState) (i : ℕ) (ts : List Token)
    (s' : LexState) : Prop extends LineYields text s i ts s' where
  placed : Placed text s i ts s'.i
  blank : BlankRun text s'.i text.length

/-- A line that has only blanks up to where it is left. -/
theorem LineLeft.blank (h : Lead text s i us s'.i) (hs : SameLine s s')
    (hstop : s'.i < text.length → charAt text s'.i = '\n') (hle : s'.i ≤ text.length) :
    LineLeft text s i [] s' where
  line := hs
  noted k h₁ h₂ hfeed := absurd hfeed (h.blank.no_feed k h₁ h₂)
  semicolon k h₁ h₂ hsemi := by
    have hblank := h.blank k h₁.le h₂
    rw [hsemi.1] at hblank
    cases hblank
  starts hi hnb hnl := by
    have hle := h.placed.le
    rcases Nat.eq_or_lt_of_le hle with rfl | hlt
    · exact absurd (hstop hi) hnl
    · rw [h.blank i le_rfl hlt] at hnb
      cases hnb
  segment := ⟨[], [], s'.i, rfl, ⟨.nil h.placed.le h.placed.feeds, h.blank, by simp⟩,
    .empty s s'.i⟩
  overrun := .of_le hle
  stop hlt := .inl (hstop hlt)

/-- A blank does not begin a name. -/
theorem Mode.eq_name_of_blank {m : Mode} {c : Char} (hc : isBlank c = true)
    (h : m.step c = .name) : m = .name := by
  rcases isBlank_iff.mp hc with rfl | rfl | rfl <;>
    rcases m with _ | _ | _ | _ | ⟨_ | d, r⟩ | d | ⟨d, r⟩ | _ <;>
    simp_all [Mode.step, textStep, isBlank, skippableWhitespace]

/-- No name is being read after the blanks that a line begins with. -/
theorem BlankRun.ne_name (h : BlankRun text i k)
    (hread : modeAt text (i + 1) = Mode.step .lineStart (charAt text i)) (hik : i < k)
    (hk : k ≤ text.length) : modeAt text k ≠ .name := by
  induction k, Nat.succ_le_of_lt hik using Nat.le_induction with
  | base =>
    intro hname
    rw [Nat.succ_eq_add_one, hread] at hname
    cases Mode.eq_name_of_blank (h i le_rfl hik) hname
  | succ k hik' ih =>
    intro hname
    rw [modeAt_succ hk] at hname
    exact ih (fun m h₁ h₂ => h m h₁ (by omega)) hik' (by omega)
      (Mode.eq_name_of_blank (h k (by omega) (Nat.lt_succ_self k)) hname)

/-- The tokens of a line are those of its indentation and those of its text. -/
theorem BodyYields.line_yields {s₁ : LexState} (h : BodyYields text s₁ ts s')
    (hlead : Lead text s i us s₁.i) (hs : SameLine s s₁)
    (hread : modeAt text (i + 1) = Mode.step .lineStart (charAt text i)) :
    LineYields text s i (us ++ ts) s' where
  line := hs.trans h.line
  noted := Noted.append (fun k h₁ h₂ hfeed => absurd hfeed (hlead.blank.no_feed k h₁ h₂)) h.noted
  semicolon k h₁ h₂ hsemi := by
    rcases lt_trichotomy k s₁.i with hlt | rfl | hgt
    · have hblank := hlead.blank k h₁.le hlt
      rw [hsemi.1] at hblank
      cases hblank
    · exact hlead.blank.ne_name hread h₁ hsemi.lt.le hsemi.2
    · exact h.semicolon k hgt h₂ hsemi
  starts hi hnb hnl := by
    obtain ⟨t, ht, hbegin⟩ := h.starts
    refine ⟨t, List.mem_append_right us ht, ?_⟩
    rcases Nat.eq_or_lt_of_le hlead.placed.le with rfl | hlt
    · exact hbegin
    · rw [hlead.blank i le_rfl hlt] at hnb
      cases hnb

theorem BodyLeft.line_left {s₁ : LexState} (h : BodyLeft text s₁ ts s')
    (hlead : Lead text s i us s₁.i) (hs : SameLine s s₁)
    (hread : modeAt text (i + 1) = Mode.step .lineStart (charAt text i)) :
    LineLeft text s i (us ++ ts) s' where
  toLineYields := h.line_yields hlead hs hread
  segment := ⟨us, ts, s₁.i, rfl, hlead, h.segment.sameLine hs⟩
  overrun := h.overrun.append
  stop hlt := (h.stop hlt).imp_right fun hsemi =>
    ⟨hsemi.1, List.forall_mem_append.mpr ⟨hlead.types, hsemi.2⟩⟩

theorem BodyRaised.line_raised {s₁ : LexState} (h : BodyRaised text s₁ ts s')
    (hlead : Lead text s i us s₁.i) (hs : SameLine s s₁)
    (hread : modeAt text (i + 1) = Mode.step .lineStart (charAt text i)) :
    LineRaised text s i (us ++ ts) s' where
  toLineYields := h.line_yields hlead hs hread
  placed := hlead.placed.append (h.placed.sameLine hs)
  blank := h.blank

/-- The comparison that never ends, on a space after the leading tabs. Nothing is yielded for
the line, and nothing is read behind the space. -/
def Halts (text : List Char) (i : ℕ) (ts : List Token) : Prop :=
  ts = [] ∧ ∃ p, i ≤ p ∧ p < text.length ∧ BlankRun text i (p + 1) ∧ modeAt text (p + 1) = .stuck

/-- **Lines.** The loop over the leading indents, with the line that follows them. -/
theorem lineLoop_segment {s₀ : LexState}
    (hread : modeAt text (i + 1) = Mode.step .lineStart (charAt text i)) (fuel : ℕ) :
    ∀ (s : LexState) (indents : List Token), SameLine s₀ s → Lead text s₀ i indents s.i →
      s.i ≤ text.length → GoesOn text .lineStart s.i →
      (lineLoop text indents fuel).wp s (fun _ ts s' => LineLeft text s₀ i ts s')
        (fun _ ts s' => LineRaised text s₀ i ts s')
        fun ts => Unfinished text s₀ i ts ∧
          (fuel < 2 * (text.length - s.i) + 3 ∨ Halts text i ts) := by
  induction fuel with
  | zero =>
    intro s indents _ _ _ _
    simpa [lineLoop] using Unfinished.nil
  | succ fuel ih =>
    intro s indents hs hlead hle hgo
    simp only [lineLoop, Gen.wp_bind, Gen.wp_get, Gen.wp_ite, Gen.wp_modify, Gen.wp_pure,
      List.nil_append]
    refine ⟨fun hi => ⟨fun htab => ?_, fun htab => ?_⟩,
      fun hge => .blank hlead hs (fun hlt => absurd hlt hge) hle⟩
    · -- one more tab
      obtain ⟨-, hread'⟩ | ⟨hge, -⟩ := hgo
      · have hmode : modeAt text (s.i + 1) = .lineStart := by rw [hread', htab]; rfl
        refine (ih (s.moveTo (s.i + 1)) _ (hs.trans (.moveTo s _)) (hlead.snoc hs htab) hi
          (GoesOn.of_mode hmode rfl hi)).imp (fun _ _ _ h => h) (fun _ _ _ h => h) ?_
        rintro ts ⟨hts, hfuel⟩
        refine ⟨hts, hfuel.imp_left fun h => ?_⟩
        rw [LexState.moveTo_i] at h
        omega
      · omega
    · obtain ⟨-, hread'⟩ | ⟨hge, -⟩ := hgo
      swap
      · omega
      rw [fragmentIsNext_eq hi]
      by_cases hspace : charAt text s.i = ' '
      · rw [if_pos (.inl hspace)]
        refine ⟨.nil, .inr ⟨rfl, s.i, hlead.placed.le, hi, hlead.blank.trans ?_, ?_⟩⟩
        · intro k h₁ h₂
          obtain rfl : k = s.i := by omega
          rw [hspace]
          rfl
        · rw [hread', hspace]
          rfl
      by_cases hfuel : fuel = 0
      · rw [if_pos (.inr hfuel)]
        exact ⟨.nil, .inl (by omega)⟩
      rw [if_neg (not_or.mpr ⟨hspace, hfuel⟩)]
      -- behind the tabs: other blanks, and then the end of the line or its text
      have hgo' := goesOn_skipWhitespace hi hread' htab hspace
      have hk := skipWhitespace_le text hi.le
      have hik := le_skipWhitespace text s.i text.length
      have hnbk := @not_blank_skipWhitespace text s.i text.length
      have hlead' := hlead.append_blank hik (blankRun_skipWhitespace text s.i text.length)
      simp only [Gen.wp_bind, Gen.wp_modify, Gen.wp_ite, Gen.wp_pure, List.nil_append]
      generalize skipWhitespace text s.i text.length = k at hgo' hk hik hnbk hlead' ⊢
      have hs' : SameLine s₀ (s.moveTo k) := hs.trans (.moveTo s k)
      refine ⟨fun hge => .blank hlead' hs' (fun hlt => absurd hlt (by simpa using hge)) hk,
        fun hlt => ⟨fun hnl => .blank hlead' hs' (fun _ => hnl) hk, fun hnl => ?_⟩⟩
      have hlt' : k < text.length := by omega
      obtain ⟨-, hread''⟩ | ⟨hge, -⟩ := hgo'
      swap
      · omega
      simp only [indentation, Gen.wp_bind, Gen.wp_get, Gen.wp_emitAll, Gen.wp_modify,
        List.nil_append, List.append_nil]
      refine (((lineBody_mode hlt' (hnbk hlt') hnl hread'').and
        (lineBody_segment hlt' (hnbk hlt') hnl hread'')).imp ?_ ?_ ?_)
      · rintro _ ts s' ⟨-, hleft⟩
        exact hleft.line_left (hlead'.indentation hs' _ _) ⟨hs.1, hs.2⟩ hread
      · rintro _ ts s' ⟨-, hraised⟩
        exact hraised.line_raised (hlead'.indentation hs' _ _) ⟨hs.1, hs.2⟩ hread
      · rintro ts ⟨⟨hfuel, -⟩, hts⟩
        refine ⟨(hlead'.indentation hs' _ _).placed.append_unfinished (hts.sameLine ?_), .inl ?_⟩
        · exact ⟨hs.1, hs.2⟩
        · have hfuel' : fuel < 2 * (text.length - k) + 2 := hfuel
          omega

/-- How a call of `_line` returns, from `s` to `s'`: with an `END_LINE` token, or without one at
the end of the text and on the semicolon after a name. -/
structure LineDone (text : List Char) (s : LexState) (ts : List Token) (s' : LexState) :
    Prop where
  num : s'.lineNum = s.lineNum + 1
  left : ∃ us s₁, LineLeft text { s with lineStart := s.i } s.i us s₁ ∧
    ((s₁.i < text.length ∧ charAt text s₁.i = '\n' ∧ s'.i = s₁.i + 1 ∧
        ts = us ++ [s₁.token .endLine s₁.i (s₁.i + 1)]) ∨
      ((s₁.i < text.length → Semicolon text s₁.i ∧ ∀ t ∈ us, t.ttype.isBracket = false) ∧
        s'.i = s₁.i ∧ ts = us))

/-- **A call of `_line`.** -/
theorem line_segment (hi : s.i < text.length) (hgo : GoesOn text .lineStart s.i) :
    (line text fuel).wp s (fun _ ts s' => LineDone text s ts s')
      (fun _ ts _ => ∃ s₁, LineRaised text { s with lineStart := s.i } s.i ts s₁)
      fun ts => Unfinished text { s with lineStart := s.i } s.i ts ∧
        (fuel < 2 * (text.length - s.i) + 3 ∨ Halts text s.i ts) := by
  have hread : modeAt text (s.i + 1) = Mode.step .lineStart (charAt text s.i) :=
    hgo.elim And.right fun h => absurd h.1 (by omega)
  have hlead : Lead text { s with lineStart := s.i } s.i [] s.i :=
    ⟨.nil le_rfl fun k h₁ h₂ => absurd h₁ (by omega), .refl text s.i, by simp⟩
  simp only [line, Gen.wp_protect, Gen.wp_mapError, Gen.wp_bind, Gen.wp_modify, Gen.wp_get,
    Gen.wp_ite, Gen.wp_emit, Gen.wp_pure, List.nil_append, List.append_nil]
  refine (lineLoop_segment hread fuel { s with lineStart := s.i } [] (.refl _) hlead hi.le
    hgo).imp ?_ ?_ fun _ h => h
  · intro _ ts s₁ hleft
    have hnum : s₁.lineNum + 1 = s.lineNum + 1 := by rw [hleft.line.1]
    refine ⟨fun hin => ⟨hnum, ts, s₁, hleft, .inl ⟨hin.1, hin.2, rfl, rfl⟩⟩,
      fun hno => ⟨hnum, ts, s₁, hleft, .inr ⟨fun hlt => ?_, rfl, rfl⟩⟩⟩
    exact (hleft.stop hlt).resolve_left fun hnl => hno ⟨hlt, hnl⟩
  · exact fun _ ts s₁ hraised => ⟨s₁, hraised⟩

end Intent.Py
