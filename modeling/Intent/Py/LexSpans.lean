import Intent.Library.Tiling
import Intent.Py.LexMode

/-!
# Text without hypertext is lexed without loss

On a text without brackets the spans of the tokens tile the text: they follow one another,
and what lies between them is blank. `Covers text i ts j` adds to the tiling that line feeds
and `END_LINE` tokens correspond; it composes along the generators, each of which covers the
stretch from the position where it is entered to the one where it is left, by whichever exit.

Such a text is lexable as soon as no line has a space right after its leading tabs
(`lexable_of_lines`), so that nothing here is conditional on the lexer's completion.
-/

namespace Intent.Py

variable {text : List Char} {i j k : ℕ} {ts us : List Token} {s : LexState}

/-- A token and the line feeds of the text: an `END_LINE` spans one, and no other token any. -/
def TokenOk (text : List Char) (t : Token) : Prop :=
  (t.ttype = .endLine → t.stop = t.begin + 1 ∧ charAt text t.begin = '\n') ∧
    (t.ttype ≠ .endLine → ∀ k, t.begin ≤ k → k < t.stop → charAt text k ≠ '\n')

/-- The tokens `ts` account for the text from `i` to `j`. -/
def Covers (text : List Char) (i : ℕ) (ts : List Token) (j : ℕ) : Prop :=
  Tiles Token.begin Token.stop (fun k => isBlank (charAt text k) = true) i ts j ∧
    ∀ t ∈ ts, TokenOk text t

theorem Covers.append (h₁ : Covers text i ts j) (h₂ : Covers text j us k) :
    Covers text i (ts ++ us) k :=
  ⟨h₁.1.append h₂.1, fun t ht => (List.mem_append.mp ht).elim (h₁.2 t) (h₂.2 t)⟩

/-- A blank stretch without tokens. -/
theorem Covers.blank (hij : i ≤ j) (h : BlankRun text i j) : Covers text i [] j :=
  ⟨Tiles.nil hij h, fun _ ht => by cases ht⟩

/-- One token that is not an `END_LINE`, with blanks on both sides. -/
theorem Covers.token {tt : TokType} {b e : ℕ} (htt : tt ≠ .endLine) (h₁ : i ≤ b) (h₂ : b ≤ e)
    (h₃ : e ≤ j) (hl : BlankRun text i b) (hr : BlankRun text e j)
    (hnl : ∀ k, b ≤ k → k < e → charAt text k ≠ '\n') : Covers text i [s.token tt b e] j :=
  ⟨Tiles.single h₁ h₂ h₃ hl hr, by
    intro t ht
    obtain rfl := List.mem_singleton.mp ht
    exact ⟨fun h => absurd h htt, fun _ => hnl⟩⟩

/-- The token of a break scan, with the blanks on both sides of it. -/
theorem IsBreak.covers {any : List Char} {n b e : ℕ} {c : Option Char} {tt : TokType}
    (htt : tt ≠ .endLine) (hany : '\n' ∈ any) (h : IsBreak text any i n b e j c) :
    Covers text i [s.token tt b e] j :=
  Covers.token htt h.le_begin h.begin_le h.end_le h.lead_blank h.tail_blank fun k h₁ h₂ hnl =>
    h.not_any k h₁ (h₂.trans_le h.end_le) (hnl ▸ hany)

/-! ### The generators -/

theorem term_covers (hi : s.i ≤ text.length) : (term text).wp s
    (fun _ ts s' => Covers text s.i ts s'.i ∧ s'.i ≤ text.length) (fun _ _ _ => True)
    fun _ => True := by
  simp only [term, name, Gen.wp_bind, Gen.wp_get]
  cases hb : breakOnAny text [':', ';', '\n'] s.i text.length with
  | none => trivial
  | some q =>
    obtain ⟨b, e, j, c⟩ := q
    have hbr := isBreak_of_breakOnAny hi hb
    have hname : Covers text s.i [s.token .name b e] j := hbr.covers (by decide) (by decide)
    simp only [Gen.wp_bind, Gen.wp_modify, Gen.wp_emit, Gen.wp_ite, Gen.wp_pure,
      LexState.moveTo_i, List.nil_append, List.append_nil]
    refine ⟨fun hpiv => ?_, fun _ => ⟨hname, hbr.le_stop⟩⟩
    obtain ⟨hj, hcolon⟩ := hpiv
    have hk := skipWhitespace_le text (Nat.succ_le_of_lt hj)
    have hpivot : Covers text j [(s.moveTo j).token .pivotTerm j (j + 1)]
        (skipWhitespace text (j + 1) text.length) :=
      Covers.token (by decide) le_rfl (by omega) (le_skipWhitespace _ _ _) (BlankRun.refl _ _)
        (blankRun_skipWhitespace _ _ _) fun k h₁ h₂ => by
          obtain rfl : k = j := by omega
          rw [hcolon]
          decide
    refine ⟨fun hin => ?_, fun _ => ⟨hname.append hpivot, hk⟩⟩
    obtain ⟨hlt, -⟩ := hin
    simp only [defn, Gen.wp_bind, Gen.wp_get, LexState.moveTo_i]
    cases hb' : breakOnAny text ['\n'] (skipWhitespace text (j + 1) text.length) text.length with
    | none => trivial
    | some q =>
      obtain ⟨b', e', j', c'⟩ := q
      have hbr' := isBreak_of_breakOnAny hlt.le hb'
      exact ⟨hname.append (hpivot.append (hbr'.covers (by decide) (by decide))), hbr'.le_stop⟩

/-- Without brackets a paragraph is one run of text. -/
theorem paragraph_covers (hno : '[' ∉ text) {fuel : ℕ} (hi : s.i ≤ text.length) :
    (paragraph text fuel).wp s (fun _ ts s' => Covers text s.i ts s'.i ∧ s'.i ≤ text.length)
      (fun _ _ _ => True) fun _ => True := by
  cases fuel with
  | zero => trivial
  | succ fuel =>
    simp only [paragraph, Gen.wp_bind, Gen.wp_get]
    cases hb : breakOnAny text ['[', '\n'] s.i text.length with
    | none => trivial
    | some q =>
      obtain ⟨b, e, j, c⟩ := q
      have hbr := isBreak_of_breakOnAny hi hb
      have hc : c ≠ some '[' := by
        intro h
        obtain ⟨hlt, hch, -⟩ := hbr.char_mem h
        rw [charAt, List.getD_eq_getElem?_getD, List.getElem?_eq_getElem hlt] at hch
        exact hno (hch ▸ List.getElem_mem hlt)
      simp only [Gen.wp_bind, Gen.wp_modify, Gen.wp_get, Gen.wp_ite, Gen.wp_pure, wp_emitIf,
        LexState.moveTo_i, if_pos hc, List.nil_append, List.append_nil]
      refine ⟨fun _ => ⟨?_, hbr.le_stop⟩, fun hstop => ?_⟩
      · by_cases hlt : b < e
        · simpa [hlt] using @IsBreak.covers _ _ _ s _ _ _ _ _ .text (by decide) (by decide) hbr
        · simp only [hlt, decide_false, Bool.false_eq_true, if_false]
          obtain rfl : b = e := by have := hbr.begin_le; omega
          exact Covers.blank hbr.le (hbr.lead_blank.trans hbr.tail_blank)
      · -- the only other stop character is a bracket
        exfalso
        have hj : j < text.length := by omega
        have hmem := hbr.stop_any hj
        simp only [List.mem_cons, List.not_mem_nil, or_false] at hmem
        rcases hmem with h | h
        · exact hc (by rw [hbr.char_of_lt hj, h])
        · exact hstop (.inr (by rw [hbr.char_of_lt hj, h]))

theorem lineBody_covers (hno : '[' ∉ text) {fuel : ℕ} (hi : s.i < text.length) :
    (lineBody text fuel).wp s (fun _ ts s' => Covers text s.i ts s'.i ∧ s'.i ≤ text.length)
      (fun _ _ _ => True) fun _ => True := by
  simp only [lineBody, Gen.wp_bind, Gen.wp_get, Gen.wp_ite, Gen.wp_emit, Gen.wp_modify,
    Gen.wp_pure, LexState.moveTo_i, List.nil_append, List.append_nil]
  refine ⟨fun hdash => ?_, fun _ => ?_⟩
  · have hk := skipWhitespace_le text (Nat.succ_le_of_lt hi)
    have hbegin : Covers text s.i [s.token .beginTerm s.i (s.i + 1)]
        (skipWhitespace text (s.i + 1) text.length) :=
      Covers.token (by decide) le_rfl (by omega) (le_skipWhitespace _ _ _) (BlankRun.refl _ _)
        (blankRun_skipWhitespace _ _ _) fun k h₁ h₂ => by
          obtain rfl : k = s.i := by omega
          rw [hdash]
          decide
    refine ⟨fun _ => ⟨hbegin, hk⟩, fun _ => ?_⟩
    refine (term_covers (s := s.moveTo _) hk).imp ?_ (fun _ _ _ _ => trivial) fun _ _ => trivial
    rintro _ ts s' ⟨hts, hs'⟩
    exact ⟨hbegin.append hts, hs'⟩
  · refine (paragraph_covers hno hi.le).imp ?_ (fun _ _ _ _ => trivial) fun _ _ => trivial
    rintro _ ts s' ⟨hts, hs'⟩
    have hbegin : Covers text s.i [s.token .beginPara s.i s.i] s.i :=
      Covers.token (by decide) le_rfl le_rfl le_rfl (BlankRun.refl _ _) (BlankRun.refl _ _)
        fun k h₁ h₂ => absurd h₁ (by omega)
    exact ⟨hbegin.append hts, hs'⟩

/-- The indentation tokens of a line cover its leading blanks, whichever of them are emitted. -/
theorem indentation_covers {indents : List Token} (hrun : BlankRun text i s.i)
    (h : Covers text i indents s.i) :
    (indentation indents).wp s (fun _ ts s' => Covers text i ts s.i ∧ s'.i = s.i)
      (fun _ _ _ => True) fun _ => True := by
  simp only [indentation, Gen.wp_bind, Gen.wp_get, Gen.wp_emitAll, Gen.wp_modify,
    List.nil_append, List.append_nil]
  refine ⟨?_, trivial⟩
  rcases Nat.le_total s.indent indents.length with hle | hle
  · rw [Nat.sub_eq_zero_of_le hle, List.replicate_zero, List.nil_append]
    exact ⟨h.1.take hrun _, fun t ht => h.2 t (List.mem_of_mem_take ht)⟩
  · rw [Nat.sub_eq_zero_of_le hle, List.take_zero, List.append_nil]
    generalize s.indent - indents.length = n
    -- dedents are empty tokens, and any number of them fits at one position
    have hdedents : Covers text s.i (List.replicate n (s.token .dedent s.i s.i)) s.i := by
      induction n with
      | zero => exact Covers.blank le_rfl (BlankRun.refl _ _)
      | succ n ih =>
        exact Covers.append (Covers.token (by decide) le_rfl le_rfl le_rfl
          (BlankRun.refl _ _) (BlankRun.refl _ _) fun k h₁ h₂ => absurd h₁ (by omega)) ih
    exact (Covers.blank h.1.le hrun).append hdedents

theorem lineLoop_covers (hno : '[' ∉ text) (fuel : ℕ) : ∀ (s : LexState) (indents : List Token),
    s.i ≤ text.length → BlankRun text i s.i → Covers text i indents s.i →
    (lineLoop text indents fuel).wp s
      (fun _ ts s' => Covers text i ts s'.i ∧ s'.i ≤ text.length) (fun _ _ _ => True)
      fun _ => True := by
  induction fuel with
  | zero => exact fun s indents _ _ _ => trivial
  | succ fuel ih =>
    intro s indents hs hrun hcov
    simp only [lineLoop, Gen.wp_bind, Gen.wp_get, Gen.wp_ite, Gen.wp_modify, Gen.wp_pure,
      List.nil_append]
    refine ⟨fun hi => ⟨fun htab => ?_, fun _ => ?_⟩, fun _ => ⟨Covers.blank hcov.1.le hrun, hs⟩⟩
    · have hblank : BlankRun text s.i (s.i + 1) := fun k h₁ h₂ => by
        obtain rfl : k = s.i := by omega
        rw [htab]
        rfl
      refine ih _ _ hi (hrun.trans hblank) (hcov.append ?_)
      refine Covers.token (by decide) le_rfl (by omega) le_rfl (BlankRun.refl _ _)
        (BlankRun.refl _ _) fun k h₁ h₂ => ?_
      obtain rfl : k = s.i := by omega
      rw [htab]
      decide
    · rw [fragmentIsNext_eq hi]
      by_cases hstuck : charAt text s.i = ' ' ∨ fuel = 0
      · rw [if_pos hstuck]
        trivial
      rw [if_neg hstuck]
      have hk := skipWhitespace_le text hi.le
      have hblank := hrun.trans (blankRun_skipWhitespace text s.i text.length)
      have hcov' := hcov.append (Covers.blank (le_skipWhitespace text s.i text.length)
        (blankRun_skipWhitespace _ _ _))
      rw [List.append_nil] at hcov'
      simp only [Gen.wp_bind, Gen.wp_modify, Gen.wp_ite, Gen.wp_pure, LexState.moveTo_i,
        List.nil_append]
      have hempty : Covers text i [] (skipWhitespace text s.i text.length) :=
        Covers.blank hcov'.1.le hblank
      refine ⟨fun _ => ⟨hempty, hk⟩, fun hlt => ⟨fun _ => ⟨hempty, hk⟩, fun _ => ?_⟩⟩
      refine (indentation_covers (s := s.moveTo (skipWhitespace text s.i text.length)) hblank
        hcov').imp ?_ (fun _ _ _ _ => trivial) fun _ _ => trivial
      rintro _ is s₁ ⟨his, hs₁⟩
      refine (lineBody_covers hno (s := s₁) (by rw [hs₁, LexState.moveTo_i]; omega)).imp ?_
        (fun _ _ _ _ => trivial) fun _ _ => trivial
      rintro _ bs s' ⟨hbs, hs'⟩
      rw [hs₁] at hbs
      exact ⟨his.append hbs, hs'⟩

theorem line_covers (hno : '[' ∉ text) {fuel : ℕ} (hi : s.i ≤ text.length) :
    (line text fuel).wp s (fun _ ts s' => Covers text s.i ts s'.i ∧ s'.i ≤ text.length)
      (fun _ _ _ => True) fun _ => True := by
  simp only [line, Gen.wp_protect, Gen.wp_mapError, Gen.wp_bind, Gen.wp_modify, Gen.wp_get,
    Gen.wp_ite, Gen.wp_emit, Gen.wp_pure, List.nil_append, List.append_nil]
  refine (lineLoop_covers hno fuel { s with lineStart := s.i } [] hi (BlankRun.refl _ _)
    (Covers.blank le_rfl (BlankRun.refl _ _))).imp ?_ (fun _ _ _ _ => trivial) fun _ _ => trivial
  rintro _ ts s' ⟨hts, hs'⟩
  refine ⟨fun hin => ?_, fun _ => ⟨hts, hs'⟩⟩
  obtain ⟨hlt, hnl⟩ := hin
  refine ⟨hts.append ?_, hlt⟩
  refine ⟨Tiles.single le_rfl (Nat.le_succ _) le_rfl (fun k h₁ h₂ => absurd h₂ (by
    simp only [LexState.token]; omega)) (fun k h₁ h₂ => absurd h₂ (by
    simp only [LexState.token] at h₁; simp only [LexState.moveTo_i]; omega)), ?_⟩
  intro t ht
  obtain rfl := List.mem_singleton.mp ht
  exact ⟨fun _ => ⟨rfl, hnl⟩, fun h => absurd rfl h⟩

theorem lexLoop_covers (hno : '[' ∉ text) (fuel : ℕ) : ∀ s : LexState, s.i ≤ text.length →
    (lexLoop text fuel).wp s (fun _ ts _ => Covers text s.i ts text.length) (fun _ _ _ => True)
      fun _ => True := by
  induction fuel with
  | zero => exact fun s _ => trivial
  | succ fuel ih =>
    intro s hs
    simp only [lexLoop, Gen.wp_bind, Gen.wp_get, Gen.wp_ite, Gen.wp_pure, List.nil_append]
    refine ⟨fun hi => ?_, fun hi => ?_⟩
    · refine (line_covers hno hs).imp ?_ (fun _ _ _ _ => trivial) fun _ _ => trivial
      rintro _ ts s' ⟨hts, hs'⟩
      refine (ih s' hs').imp ?_ (fun _ _ _ _ => trivial) fun _ _ => trivial
      intro _ us _ hus
      exact hts.append hus
    · rw [show text.length = s.i by omega]
      exact Covers.blank le_rfl (BlankRun.refl _ _)

/-! ### The lexer completes -/

/-- No space follows the leading tabs of the line. -/
def TabIndented (l : List Char) : Prop := (l.dropWhile (· == '\t')).head? ≠ some ' '

instance (l : List Char) : Decidable (TabIndented l) :=
  inferInstanceAs (Decidable (_ ≠ _))

/-- The modes in which a text without brackets is read. -/
private inductive Plain : Mode → Prop where
  | lead : Plain .lead
  | name : Plain .name
  | defn : Plain .defn
  | text : Plain (.text 0 .text)

private theorem Plain.ends {m : Mode} (h : Plain m) : m.Ends = true := by
  cases h <;> rfl

/-- Inside a line the reading stays inside the line until its line feed. -/
private theorem Plain.step {m : Mode} (h : Plain m) {c : Char} (hc : c ≠ '[') (hnl : c ≠ '\n') :
    Plain (m.step c) := by
  cases h with
  | lead =>
    simp only [Mode.step, if_neg hnl]
    split_ifs with hb hd
    · exact .lead
    · exact .name
    · simp only [textStep, if_neg hc, if_neg hnl, Run.next, hb]
      exact .text
  | name =>
    simp only [Mode.step, if_neg hnl]
    split_ifs
    · exact .defn
    · exact .text
    · exact .name
  | defn =>
    simp only [Mode.step, if_neg hnl]
    exact .defn
  | text =>
    simp only [Mode.step, textStep, if_neg hc, if_neg hnl, Run.next_text]
    exact .text

private theorem plain_of_lineStart {c : Char} (hc : c ≠ '[') (hnl : c ≠ '\n') (ht : c ≠ '\t')
    (hs : c ≠ ' ') : Plain (Mode.step .lineStart c) := by
  simp only [Mode.step, if_neg ht, if_neg hs, if_neg hnl]
  split_ifs with hcr hd
  · exact .lead
  · exact .name
  · have hb : isBlank c = false := by
      rw [Bool.eq_false_iff, Ne, isBlank_iff]
      simp [hs, ht, hcr]
    simp only [textStep, if_neg hc, if_neg hnl, Run.next_of_not_blank hb]
    exact .text

/-- The reading of a text without brackets ends well from the start of a line when all lines
are tab-indented, and from inside a line when all the following ones are. -/
private theorem foldl_ends (text : List Char) (hno : '[' ∉ text) :
    ((∀ l ∈ text.splitOn '\n', TabIndented l) →
      (text.foldl Mode.step .lineStart).Ends = true) ∧
    ∀ m, Plain m → (∀ l ∈ (text.splitOn '\n').tail, TabIndented l) →
      (text.foldl Mode.step m).Ends = true := by
  induction text with
  | nil => exact ⟨fun _ => rfl, fun m hm _ => hm.ends⟩
  | cons c cs ih =>
    obtain ⟨ihStart, ihIn⟩ := ih fun h => hno (List.mem_cons_of_mem _ h)
    have hc : c ≠ '[' := fun h => hno (h ▸ List.mem_cons_self)
    obtain ⟨l, ls, hcs⟩ := List.exists_cons_of_ne_nil (List.splitOnP_ne_nil (· == '\n') cs)
    have hcs' : cs.splitOn '\n' = l :: ls := hcs
    have hsplit : (c :: cs).splitOn '\n' =
        if c = '\n' then [] :: l :: ls else (c :: l) :: ls := by
      rw [List.splitOn, List.splitOnP_cons_eq_if_modifyHead, hcs]
      simp [List.modifyHead]
    rw [hcs'] at ihStart ihIn
    rw [hsplit]
    by_cases hnl : c = '\n'
    · subst hnl
      rw [if_pos rfl]
      refine ⟨fun h => ihStart fun l' hl' => h l' (List.mem_cons_of_mem _ hl'), ?_⟩
      intro m hm h
      have hstep : m.step '\n' = .lineStart := by cases hm <;> rfl
      rw [List.foldl_cons, hstep]
      exact ihStart h
    · rw [if_neg hnl]
      refine ⟨fun h => ?_, fun m hm h => ihIn _ (hm.step hc hnl) h⟩
      have hhead := h (c :: l) List.mem_cons_self
      rw [List.foldl_cons]
      by_cases ht : c = '\t'
      · subst ht
        refine ihStart fun l' hl' => ?_
        rcases List.mem_cons.mp hl' with rfl | hl'
        · simpa [TabIndented] using hhead
        · exact h l' (List.mem_cons_of_mem _ hl')
      · have hs : c ≠ ' ' := by
          rintro rfl
          exact hhead (by simp)
        have hplain := plain_of_lineStart hc hnl ht hs
        exact ihIn _ hplain fun l' hl' => h l' (List.mem_cons_of_mem _ hl')

/-- A text without brackets whose lines are tab-indented is lexable. -/
theorem lexable_of_lines (hno : '[' ∉ text) (hlines : ∀ l ∈ text.splitOn '\n', TabIndented l) :
    Lexable text := by
  rw [Lexable, modeAt, List.take_length]
  exact (foldl_ends text hno).1 hlines

/-! ### Lossless lexing -/

/-- The tokens of a completed run cover the text. -/
theorem Lexes.covers (h : Lexes text ts) (hno : '[' ∉ text) : Covers text 0 ts text.length := by
  refine h.of_sat (P := fun ts => Covers text 0 ts text.length) fun fuel => ?_
  change (_ : LexM Unit).wp LexState.init _ _ _
  simp only [Gen.wp_bind, Gen.wp_get, Gen.wp_emit, List.nil_append]
  refine (lexLoop_covers hno fuel _ (Nat.zero_le _)).imp ?_ (fun _ _ _ _ => trivial)
    fun _ _ => trivial
  intro _ us s' hus
  have hdoc : ∀ (s : LexState) (tt : TokType) (i : ℕ), tt ≠ .endLine →
      Covers text i [s.token tt i i] i := fun s tt i htt =>
    Covers.token htt le_rfl le_rfl le_rfl (BlankRun.refl _ _) (BlankRun.refl _ _)
      fun k h₁ h₂ => absurd h₁ (by omega)
  exact (hdoc _ _ _ (by decide)).append (hus.append (hdoc _ _ _ (by decide)))

/-- A character of the text, by its position. -/
private theorem charAt_eq (hk : k < text.length) : charAt text k = text[k] := by
  rw [charAt, List.getD_eq_getElem?_getD, List.getElem?_eq_getElem hk, Option.getD_some]

/-- Every line feed is the span of exactly one `END_LINE` token. -/
theorem Covers.countP_endLine (h : Covers text 0 ts text.length) (hk : k < text.length)
    (hnl : charAt text k = '\n') :
    ts.countP (fun t => t.ttype = .endLine ∧ t.begin = k ∧ t.stop = k + 1) = 1 := by
  refine le_antisymm (h.1.countP_le_one k _ fun t ht => ?_) ?_
  · simp only [decide_eq_true_eq] at ht
    omega
  · rw [Nat.succ_le_iff, List.countP_pos_iff]
    rcases h.1.covered (Nat.zero_le k) hk with hb | ⟨t, ht, h₁, h₂⟩
    · rw [hnl] at hb
      exact absurd hb (by decide)
    · have hend : t.ttype = .endLine := by
        by_contra hne
        exact (h.2 t ht).2 hne k h₁ h₂ hnl
      have hspan := ((h.2 t ht).1 hend).1
      exact ⟨t, ht, by simp only [decide_eq_true_eq]; exact ⟨hend, by omega, by omega⟩⟩

/-- **Lossless lexing of hypertext-free text.** On a text without `[` in which no line has a
space right after its leading tabs, `lex` completes; the spans of its tokens lie in the text
and follow one another, line feeds correspond one to one to `END_LINE` tokens, and every
character outside all spans is a space, a tab or a carriage return. -/
theorem lex_lossless (text : List Char) (hno : '[' ∉ text)
    (hlines : ∀ l ∈ text.splitOn '\n', TabIndented l) :
    (∃ ts, Lexes text ts) ∧ ∀ ts, Lexes text ts →
      (∀ t ∈ ts, t.begin ≤ t.stop ∧ t.stop ≤ text.length) ∧
      ts.Pairwise (fun t u => t.stop ≤ u.begin) ∧
      (∀ k, text[k]? = some '\n' →
        ts.countP (fun t => t.ttype = .endLine ∧ t.begin = k ∧ t.stop = k + 1) = 1) ∧
      (∀ t ∈ ts, t.ttype = .endLine → t.stop = t.begin + 1 ∧ text[t.begin]? = some '\n') ∧
      ∀ k c, text[k]? = some c → (∀ t ∈ ts, ¬ (t.begin ≤ k ∧ k < t.stop)) →
        c = ' ' ∨ c = '\t' ∨ c = '\r' := by
  obtain ⟨ts, hts, -⟩ := (lexable_of_lines hno hlines).lexes
  refine ⟨⟨ts, hts⟩, fun ts hts => ?_⟩
  have hcov := hts.covers hno
  refine ⟨fun t ht => (hcov.1.bounds ht).2, hcov.1.pairwise, fun k hk => ?_, fun t ht hend => ?_,
    fun k c hk hout => ?_⟩
  · obtain ⟨hlt, hch⟩ := List.getElem?_eq_some_iff.mp hk
    exact hcov.countP_endLine hlt ((charAt_eq hlt).trans hch)
  · obtain ⟨hspan, hch⟩ := (hcov.2 t ht).1 hend
    have hlt : t.begin < text.length := by
      have := (hcov.1.bounds ht).2.2
      omega
    exact ⟨hspan, by rw [List.getElem?_eq_getElem hlt, ← charAt_eq hlt, hch]⟩
  · obtain ⟨hlt, rfl⟩ := List.getElem?_eq_some_iff.mp hk
    rcases hcov.1.covered (Nat.zero_le k) hlt with hb | ⟨t, ht, h⟩
    · rw [charAt_eq hlt] at hb
      exact isBlank_iff.mp hb
    · exact absurd h (hout t ht)

/-- A term abandoned at a semicolon, followed by a tab-indented line. -/
theorem lex_lossless_abandoned : '[' ∉ ['-', 'a', ';', '\n', '\t', 'b'] ∧
    (∃ ts, Lexes ['-', 'a', ';', '\n', '\t', 'b'] ts) :=
  ⟨by decide, (lex_lossless ['-', 'a', ';', '\n', '\t', 'b'] (by decide) (by decide)).1⟩

end Intent.Py
