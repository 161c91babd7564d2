import Intent.Py.LexSpans
import Mathlib.Data.List.Forall2

/-!
# Indentation

`_line` compares the leading indents of a line with the level of the lines before, yields the
difference as `INDENT` or `DEDENT` tokens, and is to keep the new level in `ls.indent`. The loop
that yields the `INDENT` tokens counts its own bound down, so that the level it keeps is the
old one: from level zero it never rises. On a text that is indented with tabs, each line yields
an `INDENT` for each of its tabs and no line yields a `DEDENT`. The level is right for all lines
exactly if no line but the last one is indented (`indentation_tracks_iff`).
-/

namespace Intent.Py

variable {text l : List Char} {p q e i j k n fuel : ℕ} {ts us : List Token} {t : Token}
variable {s s' : LexState}

/-! ### Lines of a text -/

/-- The number of tabs that a line begins with. -/
def leadingTabs (l : List Char) : ℕ := (l.takeWhile (· == '\t')).length

/-- The line of the position `p` ends at `e`, on a line feed or with the text. -/
structure LineUpTo (text : List Char) (p e : ℕ) : Prop where
  le : p ≤ e
  le_length : e ≤ text.length
  no_feed : ∀ k, p ≤ k → k < e → charAt text k ≠ '\n'
  feed : e < text.length → charAt text e = '\n'

theorem LineUpTo.prepend (h : LineUpTo text q e) (hpq : p ≤ q)
    (hfeed : ∀ k, p ≤ k → k < q → charAt text k ≠ '\n') : LineUpTo text p e where
  le := hpq.trans h.le
  le_length := h.le_length
  no_feed k h₁ h₂ := (Nat.lt_or_ge k q).elim (hfeed k h₁) fun h' => h.no_feed k h' h₂
  feed := h.feed

/-- The characters of a line. -/
def lineText (text : List Char) (p e : ℕ) : List Char := (text.take e).drop p

theorem lineText_cons (hp : p < e) (he : e ≤ text.length) :
    lineText text p e = charAt text p :: lineText text (p + 1) e := by
  have hlen : p < (text.take e).length := by rw [List.length_take]; omega
  rw [lineText, List.drop_eq_getElem_cons hlen, List.getElem_take, charAt,
    List.getD_eq_getElem?_getD, List.getElem?_eq_getElem (by omega), Option.getD_some]
  rfl

theorem lineText_of_le (h : e ≤ p) : lineText text p e = [] :=
  List.drop_eq_nil_of_le (by rw [List.length_take]; omega)

theorem getElem?_lineText (he : e ≤ text.length) (k : ℕ) :
    (lineText text p e)[k]? = if p + k < e then some (charAt text (p + k)) else none := by
  rw [lineText, List.getElem?_drop]
  split_ifs with hk
  · rw [List.getElem?_take_of_lt hk, charAt, List.getD_eq_getElem?_getD,
      List.getElem?_eq_getElem (by omega), Option.getD_some]
  · exact List.getElem?_take_eq_none (by omega)

theorem mem_lineText {c : Char} (he : e ≤ text.length) :
    c ∈ lineText text p e ↔ ∃ k, p ≤ k ∧ k < e ∧ charAt text k = c := by
  rw [List.mem_iff_getElem?]
  constructor
  · rintro ⟨k, hk⟩
    rw [getElem?_lineText he, Option.ite_none_right_eq_some] at hk
    exact ⟨p + k, Nat.le_add_right p k, hk.1, Option.some.inj hk.2⟩
  · rintro ⟨k, hp, hk, rfl⟩
    obtain ⟨m, rfl⟩ := Nat.exists_eq_add_of_le hp
    exact ⟨m, by rw [getElem?_lineText he, if_pos hk]⟩

theorem lineText_append (hpq : p ≤ q) (hqe : q ≤ e) (he : e ≤ text.length) :
    lineText text p e = lineText text p q ++ lineText text q e := by
  have hsplit : text.take e = text.take q ++ (text.take e).drop q := by
    conv_lhs => rw [← List.take_append_drop q (text.take e), List.take_take, Nat.min_eq_left hqe]
  have hp : p ≤ (text.take q).length := by rw [List.length_take]; omega
  rw [lineText, hsplit, List.drop_append_of_le_length hp]
  rfl

/-- A line and what follows it. -/
theorem LineUpTo.drop_eq (h : LineUpTo text p e) :
    text.drop p = lineText text p e ++ text.drop e := by
  have hp : p ≤ (text.take e).length := by
    rw [List.length_take, Nat.min_eq_left h.le_length]
    exact h.le
  rw [lineText, ← List.drop_append_of_le_length hp, List.take_append_drop]

/-- The lines from a position on. -/
theorem LineUpTo.splitOn (h : LineUpTo text p e) : (text.drop p).splitOn '\n' =
    lineText text p e :: if e < text.length then (text.drop (e + 1)).splitOn '\n' else [] := by
  have hnone : ∀ c ∈ lineText text p e, (c == '\n') = false := by
    intro c hc
    obtain ⟨k, h₁, h₂, rfl⟩ := (mem_lineText h.le_length).mp hc
    simpa using h.no_feed k h₁ h₂
  rw [h.drop_eq, List.splitOn]
  split_ifs with he
  · have hcons : text.drop e = '\n' :: text.drop (e + 1) := by
      rw [List.drop_eq_getElem_cons he]
      have hfeed := h.feed he
      rw [charAt, List.getD_eq_getElem?_getD, List.getElem?_eq_getElem he, Option.getD_some]
        at hfeed
      rw [hfeed]
    rw [hcons, List.splitOnP_append_cons _ _ (by simp), List.splitOnP_eq_singleton hnone]
    rfl
  · rw [List.drop_eq_nil_of_le (by omega), List.append_nil, List.splitOnP_eq_singleton hnone]

/-- A line of which the tabs up to `q` are the first ones. -/
theorem lineText_tabs (hpq : p ≤ q) (hqe : q ≤ e) (he : e ≤ text.length)
    (htabs : ∀ k, p ≤ k → k < q → charAt text k = '\t') (hq : q < e → charAt text q ≠ '\t') :
    leadingTabs (lineText text p e) = q - p ∧
      ((lineText text p e).dropWhile (· == '\t')).head? =
        if q < e then some (charAt text q) else none := by
  have hlead : ∀ c ∈ lineText text p q, (c == '\t') = true := by
    intro c hc
    obtain ⟨k, h₁, h₂, rfl⟩ := (mem_lineText (by omega)).mp hc
    exact beq_iff_eq.mpr (htabs k h₁ h₂)
  have hlength : (lineText text p q).length = q - p := by
    rw [lineText, List.length_drop, List.length_take, Nat.min_eq_left (hqe.trans he)]
  rw [leadingTabs, lineText_append hpq hqe he, List.takeWhile_append_of_pos hlead,
    List.dropWhile_append_of_pos hlead, List.length_append, hlength]
  split_ifs with hlt
  · rw [lineText_cons hlt he, List.takeWhile_cons_of_neg (by simpa using hq hlt),
      List.dropWhile_cons_of_neg (by simpa using hq hlt)]
    exact ⟨rfl, rfl⟩
  · rw [lineText_of_le (by omega)]
    exact ⟨rfl, rfl⟩

/-! ### Tokens of a line -/

/-- The tokens that a line without brackets can have after its first one. -/
def TokType.isPlain : TokType → Bool
  | .text | .name | .pivotTerm => true
  | _ => false

/-- The text of a line, after its indentation. -/
def PlainBody (ts : List Token) : Prop :=
  ∃ b vs, ts = b :: vs ∧ (b.ttype = .beginPara ∨ b.ttype = .beginTerm) ∧
    ∀ t ∈ vs, t.ttype.isPlain = true

/-- A scan up to the end of the line. -/
theorem IsBreak.lineUpTo {any : List Char} {b e' : ℕ} {c : Option Char}
    (h : IsBreak text any i text.length b e' j c) (hany : '\n' ∈ any)
    (hstop : j < text.length → charAt text j = '\n') : LineUpTo text i j where
  le := h.le
  le_length := h.le_stop
  no_feed k h₁ h₂ hfeed := by
    rcases Nat.lt_or_ge k b with hlt | hge
    · have hblank := h.lead_blank k h₁ hlt
      rw [hfeed] at hblank
      cases hblank
    · exact h.not_any k hge h₂ (hfeed ▸ hany)
  feed := hstop

theorem charAt_ne {c : Char} (hc : c ∉ text) (hi : i < text.length) : charAt text i ≠ c := by
  rintro rfl
  rw [charAt, List.getD_eq_getElem?_getD, List.getElem?_eq_getElem hi, Option.getD_some] at hc
  exact hc (List.getElem_mem hi)

/-- A paragraph without brackets is one text. -/
theorem paragraph_plain (hbracket : '[' ∉ text) (hi : s.i < text.length)
    (hnb : isBlank (charAt text s.i) = false) :
    (paragraph text (fuel + 1)).wp s
      (fun _ ts s' => LineUpTo text s.i s'.i ∧ s'.indent = s.indent ∧
        ∀ t ∈ ts, t.ttype.isPlain = true)
      (fun _ _ _ => False) fun _ => False := by
  obtain ⟨e, j, c, hb⟩ := @breakOnAny_of_not_blank _ ['[', '\n'] _ _ hi hnb
  have hbr := isBreak_of_breakOnAny hi.le hb
  have hstop : j < text.length → charAt text j = '\n' := by
    intro hj
    have hmem := hbr.stop_any hj
    simp only [List.mem_cons, List.not_mem_nil, or_false] at hmem
    exact hmem.resolve_left (charAt_ne hbracket hj)
  simp only [paragraph, Gen.wp_bind, Gen.wp_get, hb, Gen.wp_modify, Gen.wp_ite, Gen.wp_pure,
    wp_emitIf, List.nil_append, List.append_nil]
  refine ⟨fun _ => ⟨hbr.lineUpTo (by simp) hstop, rfl, ?_⟩, fun hno => ?_⟩
  · split_ifs <;> simp [LexState.token, TokType.isPlain]
  · refine absurd ?_ hno
    rcases Nat.lt_or_ge j text.length with hj | hj
    · exact .inr (by rw [hbr.char_of_lt hj, hstop hj])
    · exact .inl hj

/-- A term whose name has no semicolon ends with its line. -/
theorem term_plain (hsemi : ';' ∉ text) (hi : s.i < text.length)
    (hnb : isBlank (charAt text s.i) = false) :
    (term text).wp s
      (fun _ ts s' => LineUpTo text s.i s'.i ∧ s'.indent = s.indent ∧
        ∀ t ∈ ts, t.ttype.isPlain = true)
      (fun _ _ _ => False) fun _ => False := by
  obtain ⟨e, j, c, hb⟩ := @breakOnAny_of_not_blank _ [':', ';', '\n'] _ _ hi hnb
  have hbr := isBreak_of_breakOnAny hi.le hb
  have hfeed : ∀ k, s.i ≤ k → k < j → charAt text k ≠ '\n' := fun k h₁ h₂ hfeed =>
    hbr.not_any k h₁ h₂ (by simp [hfeed])
  simp only [term, name, Gen.wp_bind, Gen.wp_get, hb, Gen.wp_modify, Gen.wp_emit, Gen.wp_ite,
    Gen.wp_pure, LexState.moveTo_i, List.nil_append, List.append_nil]
  refine ⟨?_, fun hno => ⟨⟨hbr.le, hbr.le_stop, hfeed, fun hj => ?_⟩, rfl, by
    simp [LexState.token, TokType.isPlain]⟩⟩
  · rintro ⟨hj, hcolon⟩
    have hk := skipWhitespace_le text (Nat.succ_le_of_lt hj)
    have hjk := le_skipWhitespace text (j + 1) text.length
    have hblank := blankRun_skipWhitespace text (j + 1) text.length
    have hnbk := @not_blank_skipWhitespace text (j + 1) text.length
    simp only [Nat.succ_eq_add_one] at hk
    generalize skipWhitespace text (j + 1) text.length = k at hk hjk hblank hnbk ⊢
    have hle := hbr.le
    -- nothing up to the first character of the definition ends the line
    have hfeed' : ∀ m, s.i ≤ m → m < k → charAt text m ≠ '\n' := by
      intro m h₁ h₂ hm
      rcases lt_trichotomy m j with hlt | rfl | hgt
      · exact hfeed m h₁ hlt hm
      · rw [hcolon] at hm
        cases hm
      · have hm' := hblank m hgt h₂
        rw [hm] at hm'
        cases hm'
    refine ⟨fun hin => ?_, fun hno => ?_⟩
    · obtain ⟨e', j', c', hb'⟩ := @breakOnAny_of_not_blank _ ['\n'] _ _ hin.1 (hnbk hin.1)
      have hbr' := isBreak_of_breakOnAny hin.1.le hb'
      simp only [defn, Gen.wp_bind, Gen.wp_get, hb', Gen.wp_modify, Gen.wp_emit,
        LexState.moveTo_i, List.nil_append]
      refine ⟨(hbr'.lineUpTo (by simp) fun hj' => ?_).prepend (by omega) hfeed', rfl, by
        simp [LexState.token, TokType.isPlain]⟩
      simpa using hbr'.stop_any hj'
    · refine ⟨⟨by omega, hk, hfeed', fun hlt => ?_⟩, rfl, by
        simp [LexState.token, TokType.isPlain]⟩
      by_contra hne
      exact hno ⟨hlt, hne⟩
  · have hmem := hbr.stop_any hj
    simp only [List.mem_cons, List.not_mem_nil, or_false] at hmem
    rcases hmem with hch | hch | hch
    · exact absurd ⟨hj, hch⟩ hno
    · exact absurd hch (charAt_ne hsemi hj)
    · exact hch

theorem lineBody_plain (hbracket : '[' ∉ text) (hsemi : ';' ∉ text) (hi : s.i < text.length)
    (hnb : isBlank (charAt text s.i) = false) (hnl : charAt text s.i ≠ '\n') :
    (lineBody text (fuel + 1)).wp s
      (fun _ ts s' => LineUpTo text s.i s'.i ∧ s'.indent = s.indent ∧ PlainBody ts)
      (fun _ _ _ => False) fun _ => False := by
  simp only [lineBody, Gen.wp_bind, Gen.wp_get, Gen.wp_ite, Gen.wp_emit, Gen.wp_modify,
    Gen.wp_pure, List.nil_append, List.append_nil]
  refine ⟨fun hdash => ?_, fun _ => ?_⟩
  · have hk := skipWhitespace_le text (Nat.succ_le_of_lt hi)
    have hik := le_skipWhitespace text (s.i + 1) text.length
    have hblank := blankRun_skipWhitespace text (s.i + 1) text.length
    have hnbk := @not_blank_skipWhitespace text (s.i + 1) text.length
    simp only [Nat.succ_eq_add_one] at hk
    generalize skipWhitespace text (s.i + 1) text.length = k at hk hik hblank hnbk ⊢
    have hfeed : ∀ m, s.i ≤ m → m < k → charAt text m ≠ '\n' := by
      intro m h₁ h₂ hm
      rcases Nat.eq_or_lt_of_le h₁ with rfl | hlt
      · exact hnl hm
      · have hm' := hblank m hlt h₂
        rw [hm] at hm'
        cases hm'
    refine ⟨fun hge => ⟨⟨by simp only [LexState.moveTo_i]; omega, hk, hfeed, fun hlt => ?_⟩, rfl,
      _, [], rfl, .inr rfl, by simp⟩, fun hlt => ?_⟩
    · exact absurd hlt (by simpa using hge)
    · have hlt' : k < text.length := by omega
      refine (term_plain (s := s.moveTo k) hsemi hlt' (hnbk hlt')).imp ?_
        (fun _ _ _ => False.elim) fun _ => False.elim
      rintro _ ts s' ⟨hend, hindent, hts⟩
      exact ⟨hend.prepend (by simp only [LexState.moveTo_i]; omega) hfeed, hindent,
        _, ts, rfl, .inr rfl, hts⟩
  · refine (paragraph_plain hbracket hi hnb).imp ?_ (fun _ _ _ => False.elim) fun _ => False.elim
    rintro _ ts s' ⟨hend, hindent, hts⟩
    exact ⟨hend, hindent, _, ts, rfl, .inl rfl, hts⟩

/-- The tokens of a line, without the one for its end. -/
def GroupOf (l : List Char) (ts : List Token) : Prop :=
  (l.all isBlank = true ∧ ts = []) ∨
    (l.all isBlank = false ∧ ∃ us vs, ts = us ++ vs ∧ us.length = leadingTabs l ∧
      (∀ t ∈ us, t.ttype = .indent) ∧ PlainBody vs)

theorem exists_lineUpTo (hp : p ≤ text.length) : ∃ e, LineUpTo text p e := by
  refine ⟨scanWhile (fun k => charAt text k ≠ '\n') p text.length, le_scanWhile _ _ _,
    scanWhile_le hp, fun k h₁ h₂ => ?_, fun hlt => ?_⟩
  · simpa using of_lt_scanWhile h₁ h₂
  · simpa using scanWhile_stop hlt

theorem all_lineText (he : e ≤ text.length) :
    (lineText text p e).all isBlank = true ↔ BlankRun text p e := by
  rw [List.all_eq_true]
  constructor
  · exact fun h k h₁ h₂ => h _ ((mem_lineText he).mpr ⟨k, h₁, h₂, rfl⟩)
  · intro h c hc
    obtain ⟨k, h₁, h₂, rfl⟩ := (mem_lineText he).mp hc
    exact h k h₁ h₂

/-- A line of blanks only. -/
theorem BlankRun.line (h : BlankRun text p e) (hpe : p ≤ e) (he : e ≤ text.length)
    (hstop : e < text.length → charAt text e = '\n') :
    LineUpTo text p e ∧ GroupOf (lineText text p e) [] :=
  ⟨⟨hpe, he, h.no_feed, hstop⟩, .inl ⟨(all_lineText he).mpr h, rfl⟩⟩

/-- The leading tabs of a line, of which `indents` are the tokens. -/
structure TabLead (text : List Char) (p i : ℕ) (indents : List Token) : Prop where
  le : p ≤ i
  tabs : ∀ k, p ≤ k → k < i → charAt text k = '\t'
  length : indents.length = i - p
  types : ∀ t ∈ indents, t.ttype = .indent

theorem TabLead.blank (h : TabLead text p i us) : BlankRun text p i := by
  intro k h₁ h₂
  rw [h.tabs k h₁ h₂]
  rfl

theorem TabLead.snoc (h : TabLead text p i us) (hc : charAt text i = '\t') (s : LexState) :
    TabLead text p (i + 1) (us ++ [s.token .indent i (i + 1)]) where
  le := h.le.trans (Nat.le_succ i)
  tabs k h₁ h₂ := by
    rcases Nat.lt_succ_iff_lt_or_eq.mp h₂ with hlt | rfl
    · exact h.tabs k h₁ hlt
    · exact hc
  length := by
    have := h.length
    have := h.le
    simp
    omega
  types := List.forall_mem_append.mpr ⟨h.types, List.forall_mem_singleton.mpr rfl⟩

/-- **Lines**, at level zero: the tokens are those of the line, and the level stays. -/
theorem lineLoop_plain (hbracket : '[' ∉ text) (hsemi : ';' ∉ text)
    (hspace : ∀ e, LineUpTo text p e → TabIndented (lineText text p e))
    (fuel : ℕ) : ∀ (s : LexState) (indents : List Token), s.indent = 0 → s.i ≤ text.length →
      TabLead text p s.i indents →
      (lineLoop text indents fuel).wp s
        (fun _ ts s' => LineUpTo text p s'.i ∧ s'.indent = 0 ∧ GroupOf (lineText text p s'.i) ts)
        (fun _ _ _ => False) fun _ => True := by
  induction fuel with
  | zero => exact fun s indents _ _ _ => trivial
  | succ fuel ih =>
    intro s indents hindent hle hlead
    simp only [lineLoop, Gen.wp_bind, Gen.wp_get, Gen.wp_ite, Gen.wp_modify, Gen.wp_pure,
      List.nil_append]
    refine ⟨fun hi => ⟨fun htab => ?_, fun htab => ?_⟩, fun hge => ?_⟩
    · -- one more tab
      exact ih (s.moveTo (s.i + 1)) _ hindent hi (hlead.snoc htab s)
    · -- the tabs are over, and what follows them is no space
      have hne : charAt text s.i ≠ ' ' := by
        intro hc
        obtain ⟨e, he⟩ := exists_lineUpTo (hlead.le.trans hle)
        have hie : s.i < e := by
          by_contra hge
          have hfeed := he.feed (by omega)
          rcases Nat.eq_or_lt_of_le (Nat.le_of_not_lt hge) with rfl | hlt
          · rw [hc] at hfeed
            cases hfeed
          · rw [hlead.tabs e he.le hlt] at hfeed
            cases hfeed
        refine hspace e he ?_
        rw [(lineText_tabs hlead.le hie.le he.le_length hlead.tabs fun _ => htab).2, if_pos hie, hc]
      rw [fragmentIsNext_eq hi]
      obtain rfl | ⟨m, rfl⟩ : fuel = 0 ∨ ∃ m, fuel = m + 1 :=
        (Nat.eq_zero_or_eq_succ_pred fuel).imp_right fun h => ⟨_, h⟩
      · rw [if_pos (.inr rfl)]
        trivial
      rw [if_neg (not_or.mpr ⟨hne, Nat.succ_ne_zero m⟩)]
      have hk := skipWhitespace_le text hi.le
      have hik := le_skipWhitespace text s.i text.length
      have hnbk := @not_blank_skipWhitespace text s.i text.length
      have hblank := hlead.blank.trans (blankRun_skipWhitespace text s.i text.length)
      simp only [Gen.wp_bind, Gen.wp_modify, Gen.wp_ite, Gen.wp_pure, List.nil_append]
      generalize skipWhitespace text s.i text.length = k at hk hik hnbk hblank ⊢
      have hpk := hlead.le.trans hik
      refine ⟨fun hge => ?_, fun hlt => ⟨fun hnl => ?_, fun hnl => ?_⟩⟩
      · obtain ⟨hend, hgroup⟩ := hblank.line hpk hk fun h => absurd h (by simpa using hge)
        exact ⟨hend, hindent, hgroup⟩
      · obtain ⟨hend, hgroup⟩ := hblank.line hpk hk fun _ => hnl
        exact ⟨hend, hindent, hgroup⟩
      have hlt' : k < text.length := by omega
      simp only [indentation, Gen.wp_bind, Gen.wp_get, Gen.wp_emitAll, Gen.wp_modify,
        List.nil_append, List.append_nil]
      refine (lineBody_plain hbracket hsemi hlt' (hnbk hlt') hnl).imp ?_ (fun _ _ _ => False.elim)
        fun _ => False.elim
      rintro _ ts s' ⟨hend, hlevel, hbody⟩
      have hend' : LineUpTo text p s'.i := hend.prepend hpk hblank.no_feed
      have hke : k < s'.i := by
        rcases Nat.eq_or_lt_of_le hend.le with heq | hlt
        · have hke : k = s'.i := heq
          exact absurd (hke ▸ hend.feed (hke ▸ hlt')) hnl
        · exact hlt
      have htabs := (lineText_tabs hlead.le (hik.trans hke.le) hend'.le_length hlead.tabs
        fun _ => htab).1
      -- the loop over the `INDENT` tokens leaves the level where it was
      have hlevel' : s'.indent = min s.indent indents.length := hlevel
      refine ⟨hend', by rw [hlevel', hindent, Nat.zero_min], .inr ⟨?_, ?_⟩⟩
      · rw [Bool.eq_false_iff, ne_eq, all_lineText hend'.le_length]
        intro hall
        have hk' := hnbk hlt'
        rw [hall k hpk hke] at hk'
        cases hk'
      · refine ⟨indents, ts, ?_, by rw [hlead.length, htabs], hlead.types, hbody⟩
        have hlevel₀ : (s.moveTo k).indent = 0 := hindent
        simp [hlevel₀]
    · obtain ⟨hend, hgroup⟩ := hlead.blank.line hlead.le hle fun h => absurd h hge
      exact ⟨hend, hindent, hgroup⟩

/-- Splitting at the tokens that end a line. -/
def lineGroups (ts : List Token) : List (List Token) := ts.splitOnP fun t => t.ttype = .endLine

theorem PlainBody.no_endLine (h : PlainBody ts) :
    ∀ t ∈ ts, decide (t.ttype = .endLine) = false := by
  obtain ⟨b, vs, rfl, hb, hvs⟩ := h
  refine List.forall_mem_cons.mpr ⟨?_, fun t ht => ?_⟩
  · rcases hb with hb | hb <;> simp [hb]
  · have := hvs t ht
    rw [decide_eq_false_iff_not]
    intro hend
    rw [hend] at this
    cases this

theorem GroupOf.no_endLine (h : GroupOf l ts) : ∀ t ∈ ts, decide (t.ttype = .endLine) = false := by
  obtain ⟨-, rfl⟩ | ⟨-, us, vs, rfl, -, hus, hvs⟩ := h
  · simp
  · refine List.forall_mem_append.mpr ⟨fun t ht => ?_, hvs.no_endLine⟩
    simp [hus t ht]

/-- A call of `_line` at level zero. -/
theorem line_plain (hbracket : '[' ∉ text) (hsemi : ';' ∉ text) (hindent : s.indent = 0)
    (hle : s.i ≤ text.length)
    (hspace : ∀ e, LineUpTo text s.i e → TabIndented (lineText text s.i e)) :
    (line text fuel).wp s
      (fun _ ts s' => s'.indent = 0 ∧ ∃ e us, LineUpTo text s.i e ∧
        GroupOf (lineText text s.i e) us ∧
        ((e < text.length ∧ s'.i = e + 1 ∧ ∃ t, ts = us ++ [t] ∧ t.ttype = .endLine) ∨
          (e = text.length ∧ s'.i = e ∧ ts = us)))
      (fun _ _ _ => False) fun _ => True := by
  have hlead : TabLead text s.i s.i [] :=
    ⟨le_rfl, fun k h₁ h₂ => absurd h₁ (by omega), by simp, by simp⟩
  simp only [line, Gen.wp_bind, Gen.wp_get, Gen.wp_ite, Gen.wp_pure, Gen.wp_protect,
    Gen.wp_mapError, Gen.wp_modify, Gen.wp_emit, List.nil_append, List.append_nil]
  refine (lineLoop_plain hbracket hsemi hspace fuel { s with lineStart := s.i } [] hindent hle
    hlead).imp ?_ (fun _ _ _ => False.elim) fun _ h => h
  rintro _ ts s₁ ⟨hend, hlevel, hgroup⟩
  refine ⟨fun hin => ⟨hlevel, s₁.i, ts, hend, hgroup, .inl ⟨hin.1, rfl, _, rfl, rfl⟩⟩,
    fun hno => ⟨hlevel, s₁.i, ts, hend, hgroup, .inr ⟨?_, rfl, rfl⟩⟩⟩
  by_contra hne
  have hlt : s₁.i < text.length := lt_of_le_of_ne hend.le_length hne
  exact hno ⟨hlt, hend.feed hlt⟩

/-- **All lines**: the groups of tokens are those of the lines of the text. -/
theorem lexLoop_plain (hbracket : '[' ∉ text) (hsemi : ';' ∉ text) (fuel : ℕ) :
    ∀ s : LexState, s.indent = 0 → s.i ≤ text.length →
      (∀ l ∈ (text.drop s.i).splitOn '\n', TabIndented l) →
      (lexLoop text fuel).wp s
        (fun _ ts _ => List.Forall₂ GroupOf ((text.drop s.i).splitOn '\n') (lineGroups ts))
        (fun _ _ _ => False) fun _ => True := by
  induction fuel with
  | zero => exact fun s _ _ _ => trivial
  | succ fuel ih =>
    intro s hindent hle hspace
    simp only [lexLoop, Gen.wp_bind, Gen.wp_get, Gen.wp_ite, Gen.wp_pure, List.nil_append]
    refine ⟨fun hi => ?_, fun hge => ?_⟩
    swap
    · rw [List.drop_eq_nil_of_le (by omega)]
      exact .cons (.inl ⟨rfl, rfl⟩) .nil
    refine (line_plain hbracket hsemi hindent hle fun e he => hspace _ (by
      simp [he.splitOn])).imp ?_ (fun _ _ _ => False.elim) fun _ _ => trivial
    rintro _ ts s' ⟨hindent', e, us, hend, hgroup, ⟨he, hi', t, rfl, ht⟩ | ⟨he, hi', rfl⟩⟩
    · have hsplit := hend.splitOn
      rw [if_pos he, ← hi'] at hsplit
      rw [hsplit] at hspace ⊢
      have hle' := hend.le
      refine (ih s' hindent' (by omega) fun l hl => hspace l (List.mem_cons_of_mem _ hl)).imp ?_
        (fun _ _ _ => False.elim) fun _ _ => trivial
      intro _ vs _ hvs
      rw [lineGroups, List.append_assoc, List.singleton_append,
        List.splitOnP_append_cons _ _ (by simpa using ht),
        List.splitOnP_eq_singleton hgroup.no_endLine]
      exact .cons hgroup hvs
    · have hsplit := hend.splitOn
      rw [if_neg (by omega)] at hsplit
      rw [hsplit]
      cases fuel with
      | zero => trivial
      | succ fuel =>
        simp only [lexLoop, Gen.wp_bind, Gen.wp_get, Gen.wp_ite, Gen.wp_pure, List.nil_append,
          List.append_nil]
        refine ⟨fun hlt => absurd hlt (by omega), fun _ => ?_⟩
        rw [lineGroups, List.splitOnP_eq_singleton hgroup.no_endLine]
        exact .cons hgroup .nil

/-! ### Levels -/

/-- How many levels some tokens go up, less those that they go down. -/
def netIndent (ts : List Token) : ℤ :=
  ts.countP (·.ttype = .indent) - ts.countP (·.ttype = .dedent)

/-- The tokens of a line that come before its text. -/
def beforeText (ts : List Token) : List Token :=
  ts.takeWhile fun t => t.ttype ≠ .beginPara ∧ t.ttype ≠ .beginTerm

/-- The tokens of the document up to and including the indentation of its line `n`. -/
def upToIndentation (gs : List (List Token)) (n : ℕ) : List Token :=
  (gs.take n).flatten ++ beforeText (gs.getD n [])

/-- Indentation tokens track the nesting of lines: the tokens between those that begin and end
the document come in one group for each line; up to and including the indentation of a line that
is not blank, they go up by the number of tabs it starts with; and a blank line has none. -/
structure TracksIndent (text : List Char) (ts : List Token) : Prop where
  lines : (lineGroups ts.tail.dropLast).length = (text.splitOn '\n').length
  level : ∀ (n : ℕ) (l : List Char), (text.splitOn '\n')[n]? = some l → l.all isBlank = false →
    netIndent (upToIndentation (lineGroups ts.tail.dropLast) n) = leadingTabs l
  blank : ∀ l g, (l, g) ∈ (text.splitOn '\n').zip (lineGroups ts.tail.dropLast) →
    l.all isBlank = true → ∀ t ∈ g, t.ttype ≠ .indent ∧ t.ttype ≠ .dedent

/-- No line is indented, except for the last one that is not blank. -/
def OnlyLastIndented (ls : List (List Char)) : Prop :=
  ∀ (m n : ℕ) (l l' : List Char), m < n → ls[m]? = some l → ls[n]? = some l' →
    l.all isBlank = false → l'.all isBlank = false → leadingTabs l = 0

theorem netIndent_append (ts us : List Token) :
    netIndent (ts ++ us) = netIndent ts + netIndent us := by
  simp only [netIndent, List.countP_append]
  omega

/-- The tabs of a line, if it counts. -/
def lineTabs (l : List Char) : ℕ := if l.all isBlank then 0 else leadingTabs l

/-- The tabs of all lines that count. -/
def totalTabs : List (List Char) → ℕ
  | [] => 0
  | l :: ls => lineTabs l + totalTabs ls

theorem totalTabs_eq_zero_iff {ls : List (List Char)} :
    totalTabs ls = 0 ↔ ∀ l ∈ ls, lineTabs l = 0 := by
  induction ls with
  | nil => simp [totalTabs]
  | cons l ls ih => rw [totalTabs, Nat.add_eq_zero_iff, ih, List.forall_mem_cons]

theorem netIndent_indents (h : ∀ t ∈ us, t.ttype = .indent) : netIndent us = us.length := by
  have h₁ : us.countP (·.ttype = .indent) = us.length :=
    List.countP_eq_length.mpr fun t ht => decide_eq_true (h t ht)
  have h₂ : us.countP (·.ttype = .dedent) = 0 :=
    List.countP_eq_zero.mpr fun t ht => by simp [h t ht]
  rw [netIndent, h₁, h₂]
  omega

theorem PlainBody.netIndent_eq (h : PlainBody ts) : netIndent ts = 0 := by
  obtain ⟨b, vs, rfl, hb, hvs⟩ := h
  have hne : ∀ t ∈ b :: vs, t.ttype ≠ .indent ∧ t.ttype ≠ .dedent := by
    refine List.forall_mem_cons.mpr ⟨?_, fun t ht => ?_⟩
    · rcases hb with hb | hb <;> simp [hb]
    · have htype := hvs t ht
      constructor
      · intro h
        rw [h] at htype
        cases htype
      · intro h
        rw [h] at htype
        cases htype
  have h₁ : (b :: vs).countP (·.ttype = .indent) = 0 :=
    List.countP_eq_zero.mpr fun t ht => by simp [(hne t ht).1]
  have h₂ : (b :: vs).countP (·.ttype = .dedent) = 0 :=
    List.countP_eq_zero.mpr fun t ht => by simp [(hne t ht).2]
  rw [netIndent, h₁, h₂]
  rfl

/-- The text of a line does not change the level, and its indentation comes before it. -/
theorem GroupOf.netIndent_eq (h : GroupOf l ts) :
    netIndent ts = lineTabs l ∧ netIndent (beforeText ts) = lineTabs l := by
  obtain ⟨hblank, rfl⟩ | ⟨hblank, us, vs, rfl, hlength, hus, hvs⟩ := h
  · rw [lineTabs, if_pos hblank]
    exact ⟨rfl, rfl⟩
  · have hbefore : beforeText (us ++ vs) = us := by
      obtain ⟨b, vs, rfl, hb, -⟩ := hvs
      rw [beforeText, List.takeWhile_append_of_pos fun t ht => by simp [hus t ht],
        List.takeWhile_cons_of_neg, List.append_nil]
      rcases hb with hb | hb <;> simp [hb]
    rw [hbefore, netIndent_append, hvs.netIndent_eq, netIndent_indents hus, hlength, lineTabs,
      if_neg (by simp [hblank])]
    exact ⟨by omega, rfl⟩

/-- **The level of a line** is the number of all tabs that lines up to it start with. -/
theorem netIndent_upToIndentation {ls : List (List Char)} {gs : List (List Token)}
    (h : List.Forall₂ GroupOf ls gs) (hl : ls[n]? = some l) :
    netIndent (upToIndentation gs n) = totalTabs (ls.take n) + lineTabs l := by
  induction h generalizing n with
  | nil => cases hl
  | @cons l₀ g₀ ls gs hgroup _ ih =>
    cases n with
    | zero =>
      obtain rfl := Option.some.inj hl
      simpa [upToIndentation, totalTabs] using hgroup.netIndent_eq.2
    | succ n =>
      have hrest := ih hl
      rw [upToIndentation, netIndent_append] at hrest
      simp only [upToIndentation, List.take_succ_cons, List.flatten_cons, totalTabs,
        netIndent_append, List.getD_cons_succ, hgroup.netIndent_eq.1]
      omega

theorem onlyLastIndented_iff {ls : List (List Char)} : OnlyLastIndented ls ↔
    ∀ n (l : List Char), ls[n]? = some l → l.all isBlank = false →
      totalTabs (ls.take n) = 0 := by
  constructor
  · intro h n l' hl' hblank'
    rw [totalTabs_eq_zero_iff]
    intro l hl
    obtain ⟨m, hm⟩ := List.mem_iff_getElem?.mp hl
    rw [List.getElem?_take, Option.ite_none_right_eq_some] at hm
    unfold lineTabs
    split_ifs with hblank
    · rfl
    · exact h m n l l' hm.1 hm.2 hl' (by simpa using hblank) hblank'
  · intro h m n l l' hmn hl hl' hblank hblank'
    have htotal := totalTabs_eq_zero_iff.mp (h n l' hl' hblank')
    have hzero := htotal l (List.mem_iff_getElem?.mpr
      ⟨m, by rw [List.getElem?_take_of_lt hmn, hl]⟩)
    rwa [lineTabs, if_neg (by simp [hblank])] at hzero

/-- What is known of the tokens decides whether the level is right. -/
theorem tracksIndent_iff
    (h : List.Forall₂ GroupOf (text.splitOn '\n') (lineGroups ts.tail.dropLast)) :
    TracksIndent text ts ↔ OnlyLastIndented (text.splitOn '\n') := by
  rw [onlyLastIndented_iff]
  have hlevel : ∀ n (l : List Char), (text.splitOn '\n')[n]? = some l → l.all isBlank = false →
      (netIndent (upToIndentation (lineGroups ts.tail.dropLast) n) = leadingTabs l ↔
        totalTabs ((text.splitOn '\n').take n) = 0) := by
    intro n l hl hblank
    rw [netIndent_upToIndentation h hl, lineTabs, if_neg (by simp [hblank])]
    omega
  constructor
  · exact fun htracks n l hl hblank => (hlevel n l hl hblank).mp (htracks.level n l hl hblank)
  · intro hsum
    refine ⟨h.length_eq.symm, fun n l hl hblank => (hlevel n l hl hblank).mpr (hsum n l hl hblank),
      fun l g hmem hblank => ?_⟩
    obtain ⟨-, rfl⟩ | ⟨hnot, -⟩ := (List.forall₂_iff_zip.mp h).2 hmem
    · simp
    · rw [hblank] at hnot
      cases hnot

/-- The tokens of a completed run, line by line. -/
theorem Lexes.groups (hts : Lexes text ts) (htabs : ∀ l ∈ text.splitOn '\n', TabIndented l)
    (hbracket : '[' ∉ text) (hsemi : ';' ∉ text) :
    List.Forall₂ GroupOf (text.splitOn '\n') (lineGroups ts.tail.dropLast) := by
  refine hts.of_sat (P := fun ts => List.Forall₂ GroupOf (text.splitOn '\n')
    (lineGroups ts.tail.dropLast)) fun fuel => ?_
  change (_ : LexM Unit).wp LexState.init _ _ _
  simp only [Gen.wp_bind, Gen.wp_get, Gen.wp_emit, List.nil_append]
  refine (lexLoop_plain hbracket hsemi fuel LexState.init rfl (Nat.zero_le _) htabs).imp ?_
    (fun _ _ _ => False.elim) fun _ _ => trivial
  intro _ ts s' hts
  simpa [LexState.init] using hts

/-- **Indentation.** On a text that is indented with tabs only and has no brackets and no
semicolons, lexing completes, and its indentation tokens track the nesting of the lines exactly
if no line but the last one that is not blank is indented. -/
theorem indentation_tracks_iff (text : List Char)
    (htabs : ∀ l ∈ text.splitOn '\n', TabIndented l) (hbracket : '[' ∉ text)
    (hsemi : ';' ∉ text) :
    (∃ ts, Lexes text ts) ∧
      ∀ ts, Lexes text ts → (TracksIndent text ts ↔ OnlyLastIndented (text.splitOn '\n')) := by
  obtain ⟨ts, hts, -⟩ := (lexable_of_lines hbracket htabs).lexes
  refine ⟨⟨ts, hts⟩, fun ts hts => ?_⟩
  exact tracksIndent_iff (hts.groups htabs hbracket hsemi)

/-- One indented line at the end. -/
theorem indentation_tracks_last :
    (∀ l ∈ ['a', '\n', '\t', 'b'].splitOn '\n', TabIndented l) ∧
      ∃ ts, Lexes ['a', '\n', '\t', 'b'] ts ∧ TracksIndent ['a', '\n', '\t', 'b'] ts := by
  have htabs : ∀ l ∈ ['a', '\n', '\t', 'b'].splitOn '\n', TabIndented l := by decide
  obtain ⟨⟨ts, hts⟩, hiff⟩ := indentation_tracks_iff _ htabs (by decide) (by decide)
  refine ⟨htabs, ts, hts, (hiff ts hts).mpr ?_⟩
  have hlines : ['a', '\n', '\t', 'b'].splitOn '\n' = [['a'], ['\t', 'b']] := by decide
  rw [hlines]
  intro m n l l' hmn hl hl' _ _
  have hn : n < 2 := (List.getElem?_eq_some_iff.mp hl').1
  obtain rfl : m = 0 := by omega
  obtain rfl := Option.some.inj hl
  rfl

/-- A second indented line, at the level of the first, goes up once more. -/
theorem indentation_tracks_not_second :
    ¬ ∀ (text : List Char) (ts : List Token), (∀ l ∈ text.splitOn '\n', TabIndented l) →
      '[' ∉ text → ';' ∉ text → Lexes text ts → TracksIndent text ts := by
  intro h
  have htabs : ∀ l ∈ ['\t', 'a', '\n', '\t', 'b'].splitOn '\n', TabIndented l := by decide
  obtain ⟨ts, hts, -⟩ := (lexable_of_lines (by decide) htabs).lexes
  have htracks := h _ ts htabs (by decide) (by decide) hts
  have honly := (tracksIndent_iff (hts.groups htabs (by decide) (by decide))).mp htracks
  have hzero := honly 0 1 ['\t', 'a'] ['\t', 'b'] (by decide) (by decide) (by decide)
    (by decide) (by decide)
  exact absurd hzero (by decide)

end Intent.Py
