import Intent.Py.LexLineSegments

/-!
# Line numbers and columns

The lexer counts its calls of `_line` and notes where each of them starts, and every token is
stamped with the two. They are the line and the column of the token as long as every call reads
one line (`InStep`). Two things break this: a section may take in line feeds, which nothing
counts, and a term whose name ends on a semicolon is left in the middle of its line, where the
next call counts one line more. `lex_positions_iff` says that nothing else does, and that each of
them shows in some token.

One lemma is about a run that is right (`lexLoop_located`) and one about what a run gives away
(`lexLoop_exposes`).
-/

namespace Intent.Py

variable {text : List Char} {i j k fuel : ℕ} {ts us : List Token} {t : Token} {s s' : LexState}

/-! ### Positions in a text -/

/-- The line of a position: one more than the line feeds before it. -/
def lineNumAt (text : List Char) (i : ℕ) : ℕ := 1 + (text.take i).count '\n'

/-- The position after the last line feed before `i`, or the start of the text. -/
def lineBegin (text : List Char) : ℕ → ℕ
  | 0 => 0
  | i + 1 => if charAt text i = '\n' then i + 1 else lineBegin text i

/-- The token reports where it begins. -/
structure Token.Located (text : List Char) (t : Token) : Prop where
  line : t.lineNum = lineNumAt text t.begin
  col : t.col = 1 + ((t.begin : ℤ) - lineBegin text t.begin)

theorem lineNumAt_succ (text : List Char) (i : ℕ) :
    lineNumAt text (i + 1) = lineNumAt text i + if charAt text i = '\n' then 1 else 0 := by
  unfold lineNumAt
  rw [List.take_add_one, List.count_append, charAt, List.getD_eq_getElem?_getD, ← Nat.add_assoc]
  rcases text[i]? with _ | c
  · rfl
  · simp [List.count_singleton]

theorem lineNumAt_mono (h : i ≤ j) : lineNumAt text i ≤ lineNumAt text j := by
  induction j, h using Nat.le_induction with
  | base => exact le_rfl
  | succ j _ ih =>
    rw [lineNumAt_succ]
    omega

/-- A stretch without line feeds stays on its line. -/
theorem line_eq_of_no_feed (hij : i ≤ j) (h : ∀ k, i ≤ k → k < j → charAt text k ≠ '\n') :
    lineNumAt text j = lineNumAt text i ∧ lineBegin text j = lineBegin text i := by
  induction j, hij using Nat.le_induction with
  | base => exact ⟨rfl, rfl⟩
  | succ j hij ih =>
    have hj : charAt text j ≠ '\n' := h j hij (Nat.lt_succ_self j)
    obtain ⟨hnum, hbegin⟩ := ih fun k h₁ h₂ => h k h₁ (by omega)
    rw [lineNumAt_succ, lineBegin, if_neg hj, if_neg hj]
    exact ⟨hnum, hbegin⟩

/-- A line feed in a stretch starts another line. -/
theorem lineNumAt_lt (hik : i ≤ k) (hkj : k < j) (h : charAt text k = '\n') :
    lineNumAt text i < lineNumAt text j := by
  have h₁ : lineNumAt text i ≤ lineNumAt text k := lineNumAt_mono hik
  have h₂ : lineNumAt text (k + 1) ≤ lineNumAt text j := lineNumAt_mono hkj
  rw [lineNumAt_succ, if_pos h] at h₂
  omega

/-! ### Runs that are right -/

/-- The counters of the lexer at the start of a line. -/
structure InStep (text : List Char) (s : LexState) : Prop where
  num : s.lineNum = lineNumAt text s.i
  start : lineBegin text s.i = s.i

/-- What throws the counters off: a line feed inside of a section, or a semicolon after the name
of a term. -/
def Misplaces (text : List Char) (k : ℕ) : Prop :=
  (charAt text k = '\n' ∧ (modeAt text (k + 1)).InSection = true) ∨ Semicolon text k

/-- Where nothing is thrown off, a line has no line feed before its end. -/
theorem Feeds.no_feed (h : Feeds text i j) (hno : ∀ k, ¬ Misplaces text k) :
    ∀ k, i ≤ k → k < j → charAt text k ≠ '\n' :=
  fun k h₁ h₂ hfeed => hno k (.inl ⟨hfeed, h k h₁ h₂ hfeed⟩)

/-- Tokens of a line that the counters are right for. -/
theorem Unfinished.located (h : Unfinished text { s with lineStart := s.i } s.i ts)
    (hstep : InStep text s) (hno : ∀ k, ¬ Misplaces text k) : ∀ t ∈ ts, t.Located text := by
  intro t ht
  obtain ⟨hstamps, hle, hfeeds⟩ := h t ht
  obtain ⟨hnum, hbegin⟩ := line_eq_of_no_feed hle (hfeeds.no_feed hno)
  refine ⟨?_, ?_⟩
  · rw [hstamps.line, hnum]
    exact hstep.num
  · rw [hstamps.col, hbegin, hstep.start]

theorem LineLeft.placed (h : LineLeft text s i ts s') : Placed text s i ts s'.i := by
  obtain ⟨us, vs, k, rfl, hlead, hseg⟩ := h.segment
  exact hlead.placed.append hseg.toPlaced

/-- The tokens of a call of `_line`, the one for the end of the line included. -/
theorem LineDone.unfinished (h : LineDone text s ts s') :
    Unfinished text { s with lineStart := s.i } s.i ts := by
  obtain ⟨us, s₁, hleft, ⟨-, -, -, rfl⟩ | ⟨-, -, rfl⟩⟩ := h.left
  · refine List.forall_mem_append.mpr ⟨hleft.placed.unfinished, List.forall_mem_singleton.mpr ?_⟩
    exact ⟨LexState.stamps_token hleft.line rfl _ _, hleft.placed.le, hleft.placed.feeds⟩
  · exact hleft.placed.unfinished

/-- The counters stay in step. -/
theorem LineDone.inStep (h : LineDone text s ts s') (hstep : InStep text s)
    (hno : ∀ k, ¬ Misplaces text k) (hi : s'.i < text.length) : InStep text s' := by
  obtain ⟨us, s₁, hleft, ⟨-, hc, hi', -⟩ | ⟨hstop, hi', -⟩⟩ := h.left
  · obtain ⟨hnum, -⟩ := line_eq_of_no_feed hleft.placed.le (hleft.placed.feeds.no_feed hno)
    refine ⟨?_, ?_⟩
    · rw [h.num, hi', lineNumAt_succ, if_pos hc, hnum, hstep.num]
    · rw [hi', lineBegin, if_pos hc]
  · rw [hi'] at hi
    exact absurd (.inr (hstop hi).1) (hno s₁.i)

/-- **A run that is right.** -/
theorem lexLoop_located (hno : ∀ k, ¬ Misplaces text k) (fuel : ℕ) :
    ∀ s : LexState, GoesOn text .lineStart s.i → (s.i < text.length → InStep text s) →
      (lexLoop text fuel).wp s (fun _ ts _ => ∀ t ∈ ts, t.Located text)
        (fun _ ts _ => ∀ t ∈ ts, t.Located text) fun ts => ∀ t ∈ ts, t.Located text := by
  induction fuel with
  | zero =>
    intro s _ _
    simp [lexLoop]
  | succ fuel ih =>
    intro s hgo hstep
    simp only [lexLoop, Gen.wp_bind, Gen.wp_get, Gen.wp_ite, Gen.wp_pure, List.nil_append]
    refine ⟨fun hi => ?_, fun _ => by simp⟩
    refine ((line_mode hi hgo).and (line_segment hi hgo)).imp ?_ ?_ ?_
    · rintro _ ts s' ⟨⟨-, hgo', -⟩, hdone⟩
      have hts := hdone.unfinished.located (hstep hi) hno
      refine (ih s' hgo' fun hi' => hdone.inStep (hstep hi) hno hi').imp ?_ ?_ ?_
      · exact fun _ us _ hus => List.forall_mem_append.mpr ⟨hts, hus⟩
      · exact fun _ us _ hus => List.forall_mem_append.mpr ⟨hts, hus⟩
      · exact fun us hus => List.forall_mem_append.mpr ⟨hts, hus⟩
    · rintro _ ts _ ⟨-, s₁, hraised⟩
      exact hraised.placed.unfinished.located (hstep hi) hno
    · rintro ts ⟨-, hts, -⟩
      exact hts.located (hstep hi) hno

/-! ### What a run gives away -/

/-- What the tokens of the lines from `s` on give away: where the first line begins, and, if the
counters are in step and all tokens are located, that nothing is thrown off. A semicolon at the
start is left to the line before. -/
structure Exposes (text : List Char) (s : LexState) (ts : List Token) : Prop where
  types : ∀ t ∈ ts, t.ttype.isDoc = false
  starts : s.i < text.length → isBlank (charAt text s.i) = false → charAt text s.i ≠ '\n' →
    ∃ t ∈ ts, t.begin = s.i ∧ t.lineNum = s.lineNum
  detects : InStep text s → (∀ t ∈ ts, t.Located text) →
    ∀ k, s.i ≤ k → Misplaces text k → k = s.i ∧ Semicolon text k

theorem Misplaces.lt (h : Misplaces text k) : k < text.length := by
  rcases h with ⟨hc, -⟩ | hsemi
  · by_contra hge
    rw [charAt, List.getD_eq_getElem?_getD, List.getElem?_eq_none (by omega)] at hc
    cases hc
  · exact hsemi.lt

theorem not_misplaces_of_blank (h : isBlank (charAt text k) = true) : ¬ Misplaces text k := by
  rintro (⟨hc, -⟩ | ⟨hc, -⟩)
  · rw [hc] at h
    cases h
  · rw [hc] at h
    cases h

/-- A line feed that is noted by a token of the line shows in it. -/
theorem Noted.no_feed (h : Noted text s.i ts j)
    (hts : Unfinished text { s with lineStart := s.i } s.i ts) (hstep : InStep text s)
    (hloc : ∀ t ∈ ts, t.Located text) : ∀ k, s.i ≤ k → k < j → charAt text k ≠ '\n' := by
  intro k h₁ h₂ hfeed
  obtain ⟨t, ht, hlt⟩ := h k h₁ h₂ hfeed
  have hline : s.lineNum = lineNumAt text t.begin := by
    rw [← (hloc t ht).line]
    exact (hts t ht).1.line.symm
  have := lineNumAt_lt h₁ hlt hfeed
  have := hstep.num
  omega

/-- Inside of a line. -/
theorem LineYields.detects {s₁ : LexState}
    (h : LineYields text { s with lineStart := s.i } s.i ts s₁)
    (hts : Unfinished text { s with lineStart := s.i } s.i ts) (hstep : InStep text s)
    (hloc : ∀ t ∈ ts, t.Located text) (hi : s.i ≤ k) (hk : k < s₁.i) (hmis : Misplaces text k) :
    k = s.i ∧ Semicolon text k := by
  rcases hmis with ⟨hfeed, -⟩ | hsemi
  · exact absurd hfeed (h.noted.no_feed hts hstep hloc k hi hk)
  · rcases Nat.eq_or_lt_of_le hi with rfl | hlt
    · exact ⟨rfl, hsemi⟩
    · exact absurd hsemi (h.semicolon k hlt hk)

theorem LineYields.starts_stamped {s₁ : LexState}
    (h : LineYields text { s with lineStart := s.i } s.i ts s₁)
    (hts : Unfinished text { s with lineStart := s.i } s.i ts) (hi : s.i < text.length)
    (hnb : isBlank (charAt text s.i) = false) (hnl : charAt text s.i ≠ '\n') :
    ∃ t ∈ ts, t.begin = s.i ∧ t.lineNum = s.lineNum := by
  obtain ⟨t, ht, hbegin⟩ := h.starts hi hnb hnl
  exact ⟨t, ht, hbegin, (hts t ht).1.line⟩

theorem LineRaised.exposes {s₁ : LexState}
    (h : LineRaised text { s with lineStart := s.i } s.i ts s₁) : Exposes text s ts where
  types t ht := (h.placed.stamped t ht).type
  starts := h.starts_stamped h.placed.unfinished
  detects hstep hloc k hi hmis := by
    rcases Nat.lt_or_ge k s₁.i with hlt | hge
    · exact h.detects h.placed.unfinished hstep hloc hi hlt hmis
    · exact absurd hmis (not_misplaces_of_blank (h.blank k hge hmis.lt))

/-- Nothing is thrown off where the reading is stuck. -/
theorem Halts.exposes (h : Halts text s.i ts) : Exposes text s ts := by
  obtain ⟨rfl, p, hle, hp, hblank, hstuck⟩ := h
  refine ⟨by simp, fun _ hnb => ?_, fun _ _ k hi hmis => ?_⟩
  · rw [hblank s.i le_rfl (by omega)] at hnb
    cases hnb
  · rcases Nat.lt_or_ge k (p + 1) with hlt | hge
    · exact absurd hmis (not_misplaces_of_blank (hblank k hi hlt))
    · have hlt := hmis.lt
      have hk : ∀ m, p + 1 ≤ m → m ≤ text.length → modeAt text m = .stuck := fun m h₁ h₂ =>
        modeAt_stays h₁ h₂ hstuck fun _ _ _ => rfl
      rcases hmis with ⟨-, hin⟩ | hsemi
      · rw [hk (k + 1) (by omega) hlt] at hin
        cases hin
      · have hname := hsemi.2
        rw [hk k hge hlt.le] at hname
        cases hname

/-- **One line more.** -/
theorem LineDone.exposes (h : LineDone text s ts s') (hmarked : Marked text ts)
    (hus : Exposes text s' us) : Exposes text s (ts ++ us) := by
  have hts := h.unfinished
  obtain ⟨us', s₁, hleft, hend⟩ := h.left
  have hsub : ∀ t ∈ us', t ∈ ts := by
    intro t ht
    rcases hend with ⟨-, -, -, rfl⟩ | ⟨-, -, rfl⟩
    · exact List.mem_append_left _ ht
    · exact ht
  have hts' : Unfinished text { s with lineStart := s.i } s.i us' := fun t ht => hts t (hsub t ht)
  refine ⟨List.forall_mem_append.mpr ⟨fun t ht => (hts t ht).1.type, hus.types⟩,
    fun hi hnb hnl => ?_, fun hstep hloc k hi hmis => ?_⟩
  · obtain ⟨t, ht, hrest⟩ := hleft.starts_stamped hts' hi hnb hnl
    exact ⟨t, List.mem_append_left us (hsub t ht), hrest⟩
  have hloc' : ∀ t ∈ us', t.Located text := fun t ht =>
    hloc t (List.mem_append_left us (hsub t ht))
  have hlocus : ∀ t ∈ us, t.Located text := fun t ht => hloc t (List.mem_append_right ts ht)
  rcases Nat.lt_or_ge k s₁.i with hlt | hge
  · exact hleft.detects hts' hstep hloc' hi hlt hmis
  exfalso
  obtain ⟨hnum, -⟩ := line_eq_of_no_feed hleft.placed.le
    (hleft.noted.no_feed hts' hstep hloc')
  rcases hend with ⟨hlt, hc, hi', rfl⟩ | ⟨hstop, hi', -⟩
  · -- the line feed at its end starts a line
    have hmode : modeAt text (s₁.i + 1) = .lineStart :=
      (hmarked _ (List.mem_append_right us' List.mem_cons_self)).2 rfl
    rcases Nat.eq_or_lt_of_le hge with rfl | hlt'
    · rcases hmis with ⟨-, hin⟩ | hsemi
      · rw [hmode] at hin
        cases hin
      · rw [hsemi.1] at hc
        cases hc
    · have hstep' : InStep text s' := by
        refine ⟨?_, ?_⟩
        · rw [h.num, hi', lineNumAt_succ, if_pos hc, hnum, hstep.num]
        · rw [hi', lineBegin, if_pos hc]
      obtain ⟨rfl, hsemi⟩ := hus.detects hstep' hlocus k (by omega) hmis
      have hname := hsemi.2
      rw [hi', hmode] at hname
      cases hname
  · -- the next call counts a line of its own on this one
    have hlt : s₁.i < text.length := hge.trans_lt hmis.lt
    have hsemi := (hstop hlt).1
    obtain ⟨t, ht, hbegin, hline⟩ := hus.starts (by omega)
      (by rw [hi', hsemi.1]; rfl) (by rw [hi', hsemi.1]; decide)
    have hwrong := (hlocus t ht).line
    rw [hline, h.num, hbegin, hi', hnum, hstep.num] at hwrong
    omega

/-- **What a run gives away**, with enough fuel. -/
theorem lexLoop_exposes (text : List Char) (fuel : ℕ) :
    ∀ s : LexState, GoesOn text .lineStart s.i →
      (lexLoop text fuel).wp s (fun _ ts _ => Exposes text s ts)
        (fun _ ts _ => Exposes text s ts)
        fun ts => fuel < 2 * (text.length - s.i) + 4 ∨ Exposes text s ts := by
  induction fuel with
  | zero =>
    intro s _
    simp [lexLoop]
  | succ fuel ih =>
    intro s hgo
    simp only [lexLoop, Gen.wp_bind, Gen.wp_get, Gen.wp_ite, Gen.wp_pure, List.nil_append]
    refine ⟨fun hi => ?_, fun hi => ⟨by simp, fun hlt => absurd hlt hi,
      fun _ _ k hk hmis => ?_⟩⟩
    swap
    · exact absurd hmis.lt (by omega)
    refine ((line_mode hi hgo).and (line_segment hi hgo)).imp ?_ ?_ ?_
    · rintro _ ts s' ⟨⟨hlt, hgo', hmarked⟩, hdone⟩
      refine (ih s' hgo').imp ?_ ?_ ?_
      · exact fun _ us _ hus => hdone.exposes hmarked hus
      · exact fun _ us _ hus => hdone.exposes hmarked hus
      · exact fun us hus => hus.imp (fun hfuel => by omega) fun hus => hdone.exposes hmarked hus
    · rintro _ ts _ ⟨-, s₁, hraised⟩
      exact hraised.exposes
    · rintro ts ⟨-, -, hfuel⟩
      exact hfuel.imp (fun hfuel => by omega) Halts.exposes

/-! ### The whole text -/

theorem inStep_init (text : List Char) : InStep text LexState.init := ⟨rfl, rfl⟩

/-- The tokens of a run, other than those around all lines. -/
theorem lex_located (hno : ∀ k, ¬ Misplaces text k) (fuel : ℕ) :
    ∀ t ∈ (lex text fuel).yields, t.ttype ≠ .beginDoc → t.ttype ≠ .endDoc → t.Located text := by
  have hsat : (lex text fuel).Sat
      (fun _ ts _ => ∀ t ∈ ts, t.ttype ≠ .beginDoc → t.ttype ≠ .endDoc → t.Located text)
      (fun _ ts _ => ∀ t ∈ ts, t.ttype ≠ .beginDoc → t.ttype ≠ .endDoc → t.Located text)
      fun ts => ∀ t ∈ ts, t.ttype ≠ .beginDoc → t.ttype ≠ .endDoc → t.Located text := by
    change (_ : LexM Unit).wp LexState.init _ _ _
    simp only [Gen.wp_bind, Gen.wp_get, Gen.wp_emit, List.nil_append]
    have hbegin : ∀ t ∈ [LexState.init.token .beginDoc 0 0],
        t.ttype ≠ .beginDoc → t.ttype ≠ .endDoc → t.Located text :=
      List.forall_mem_singleton.mpr fun h => absurd rfl h
    refine (lexLoop_located hno fuel LexState.init (GoesOn.of_mode rfl rfl (Nat.zero_le _))
      fun _ => inStep_init text).imp ?_ ?_ ?_
    · intro _ ts s' hts
      refine List.forall_mem_append.mpr ⟨hbegin, List.forall_mem_append.mpr
        ⟨fun t ht _ _ => hts t ht, List.forall_mem_singleton.mpr fun _ h => absurd rfl h⟩⟩
    · exact fun _ ts _ hts => List.forall_mem_append.mpr ⟨hbegin, fun t ht _ _ => hts t ht⟩
    · exact fun ts hts => List.forall_mem_append.mpr ⟨hbegin, fun t ht _ _ => hts t ht⟩
  generalize lex text fuel = r at hsat ⊢
  obtain ⟨ts, s, _ | _ | _⟩ := r <;> exact hsat

/-- A run of enough fuel yields the tokens of an exposing run, and at most two others. -/
theorem exists_exposes (text : List Char) : ∃ ts, Exposes text LexState.init ts ∧
    ∀ t ∈ ts, t ∈ (lex text (2 * text.length + 4)).yields := by
  have hsat : (lex text (2 * text.length + 4)).Sat
      (fun _ us _ => ∃ ts, Exposes text LexState.init ts ∧ ∀ t ∈ ts, t ∈ us)
      (fun _ us _ => ∃ ts, Exposes text LexState.init ts ∧ ∀ t ∈ ts, t ∈ us)
      fun us => ∃ ts, Exposes text LexState.init ts ∧ ∀ t ∈ ts, t ∈ us := by
    change (_ : LexM Unit).wp LexState.init _ _ _
    simp only [Gen.wp_bind, Gen.wp_get, Gen.wp_emit, List.nil_append]
    refine (lexLoop_exposes text (2 * text.length + 4) LexState.init
      (GoesOn.of_mode rfl rfl (Nat.zero_le _))).imp ?_ ?_ ?_
    · exact fun _ ts _ hts => ⟨ts, hts, fun t ht => by simp [ht]⟩
    · exact fun _ ts _ hts => ⟨ts, hts, fun t ht => by simp [ht]⟩
    · intro ts hts
      have hts' := hts.resolve_left (Nat.lt_irrefl _)
      exact ⟨ts, hts', fun t ht => by simp [ht]⟩
  generalize lex text (2 * text.length + 4) = r at hsat ⊢
  obtain ⟨us, s, _ | _ | _⟩ := r <;> exact hsat

/-- Tokens that are all located come from a text that throws nothing off. -/
theorem not_misplaces_of_located
    (h : ∀ t ∈ (lex text (2 * text.length + 4)).yields, t.ttype ≠ .beginDoc →
      t.ttype ≠ .endDoc → t.Located text) (k : ℕ) : ¬ Misplaces text k := by
  intro hmis
  obtain ⟨ts, hts, hsub⟩ := exists_exposes text
  have hloc : ∀ t ∈ ts, t.Located text := by
    intro t ht
    have htype := hts.types t ht
    refine h t (hsub t ht) (fun hdoc => ?_) fun hdoc => ?_
    · rw [hdoc] at htype
      cases htype
    · rw [hdoc] at htype
      cases htype
  obtain ⟨rfl, -, hname⟩ := hts.detects (inStep_init text) hloc k (Nat.zero_le k) hmis
  cases hname

/-- **Positions.** Every token of a line reports its line and its column, in every run of the
lexer on a text, exactly if no section of the text takes in a line feed and no name of a term ends
on a semicolon. -/
theorem lex_positions_iff (text : List Char) :
    (∀ fuel, ∀ t ∈ (lex text fuel).yields, t.ttype ≠ .beginDoc → t.ttype ≠ .endDoc →
      t.Located text) ↔ ∀ k, ¬ Misplaces text k :=
  ⟨fun h => not_misplaces_of_located (h _), fun hno fuel => lex_located hno fuel⟩

/-- A section over two lines: its closing token is on the second one, and does not say so. -/
theorem lex_misplaces_section :
    ¬ ∀ (text : List Char) (fuel : ℕ), ∀ t ∈ (lex text fuel).yields, t.ttype ≠ .beginDoc →
      t.ttype ≠ .endDoc → t.Located text := by
  intro h
  have hmis : Misplaces ['[', 'a', '\n', 'b', ']'] 2 := .inl ⟨rfl, by decide⟩
  exact not_misplaces_of_located (h _ _) 2 hmis

end Intent.Py
