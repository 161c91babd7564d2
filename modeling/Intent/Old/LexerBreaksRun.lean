import Intent.Old.LexerBreaks

/-!
# The same tokens on both kinds of line breaks

What is scanned at a place is `Indifferent` to the line breaks of the text if it is neither a
comment that is continued nor a string that the line breaks affect. There `scanToken` keeps the two
lexers alike, and so does a call of `advance` that dispatches on such places only
(`advanceWithin_sim`, by induction on the fuel). Runs then follow each other in both directions
(`Run.follows`, `Run.followed`), and yield the same types and values.
-/

namespace Intent.Old

/-! ### The switch -/

section Switch

variable {v v' : View} {k width : ℕ} {m m' : Lexer} {c : UInt8}

/-- What is scanned at `p` is indifferent to the line breaks of the text, after `k` comments and at
a total indent of `width`. -/
structure Indifferent (v : View) (k width p : ℕ) : Prop where
  comment : v.byte p = ch '#' → NotContinued v.text width (scanRestOfLine v.text p)
  string : IsQuote (v.byte p) → ∀ q, StringAt v (v.byte p) width (p + 1) q →
    v.text[q]? = some (ch '\n') → PlainBreak v.text k width q

/-- How many comments a token is. -/
def TokenType.comments (type : TokenType) : ℕ :=
  if type = .comment ∨ type = .docComment then 1 else 0

private theorem operators_no_comments : ∀ r ∈ operators, r.2.plain.comments = 0 ∧
    ∀ l ∈ r.2.longer, l.2.comments = 0 := by
  decide

theorem spelledAt_comments {op : Operator} (hop : operatorAt c = some op) (txt : Text) (p : ℕ) :
    (op.spelledAt txt p).2.comments = 0 := by
  obtain ⟨r, hr, rfl⟩ := Option.map_eq_some_iff.mp hop
  obtain ⟨hplain, hlonger⟩ := operators_no_comments r (List.mem_of_find?_eq_some hr)
  unfold Operator.spelledAt
  split
  case h_1 l hl => exact hlonger l (List.mem_of_find?_eq_some hl)
  case h_2 => exact hplain

theorem comments_of_number {type : TokenType} (h : type.number = true) : type.comments = 0 := by
  refine if_neg ?_
  rintro (rfl | rfl)
  · cases h
  · cases h

theorem ne_hash_of_operatorAt {op : Operator} (hop : operatorAt c = some op) : c ≠ ch '#' := by
  rintro rfl
  have hnone : operatorAt (ch '#') = none := by decide
  rw [hnone] at hop
  cases hop

/-- Only a hash starts a comment. -/
theorem scanToken_comments (v : View) (m : Lexer) (c : UInt8) :
    (scanToken v c).wp m (fun _ _ m' => m'.t.type.comments = if c = ch '#' then 1 else 0)
      (fun _ _ _ => True) fun _ => True := by
  unfold scanToken
  cases hop : operatorAt c with
  | some op =>
    have hhash := ne_hash_of_operatorAt hop
    simp only [scanOperator, assign, consume, Gen.wp_bind, Gen.wp_get, Gen.wp_ite, Gen.wp_modify,
      if_neg hhash]
    exact ⟨fun _ => comments_of_number (getNumberToken_number v m.p),
      fun _ => spelledAt_comments hop _ _⟩
  | none =>
    simp only [Gen.wp_ite]
    refine ⟨fun hhash => ?_, fun hhash => ?_⟩
    · simp only [scanHash, Gen.wp_bind, Gen.wp_get, Gen.wp_modify, if_pos hhash]
      refine Gen.wp_run.imp (fun _ _ m₁ _ => ?_) (fun _ _ _ h => h) fun _ h => h
      change (if _ then TokenType.docComment else .comment).comments = 1
      split_ifs
      · rfl
      · rfl
    rw [if_neg hhash]
    refine ⟨fun _ => ?_, fun _ => ⟨fun _ => ?_, fun _ => ?_⟩⟩
    · simp only [scanQuote, Gen.wp_bind, Gen.wp_get, Gen.wp_modify]
      exact Gen.wp_run.imp (fun _ _ m₁ _ => rfl) (fun _ _ _ h => h) fun _ h => h
    · have hphrase : (if isupper (v.byte m.p) then TokenType.verb else .noun).comments = 0 := by
        split_ifs
        · rfl
        · rfl
      simp only [getPhraseToken, Gen.wp_bind, Gen.wp_get, Gen.wp_modify, Gen.wp_ite]
      exact ⟨fun _ => Gen.wp_run.imp (fun _ _ m₁ _ => hphrase) (fun _ _ _ h => h) fun _ h => h,
        fun _ => hphrase⟩
    · simp only [assign, Gen.wp_bind, Gen.wp_get, Gen.wp_modify, Gen.wp_ite]
      exact ⟨fun _ => comments_of_number (getNumberToken_number v m.p), fun _ => rfl⟩

/-- **The switch.** -/
theorem scanToken_sim (h : Rebroken v v') (hm : Twin v.text k m m') (hready : Ready v.text m)
    (hstart : StartsToken (v.byte m.p)) (hind : Indifferent v k m.totalIndentWidth m.p) :
    (scanToken v (v.byte m.p)).Sim (scanToken v' (v.byte m.p))
      (fun _ m₁ _ m₁' => Alike v.text (k + m₁.t.type.comments) m₁ m₁') m m' := by
  have hp := hready.p_lt
  have hc := View.byte_of_lt hp
  have hne : v.byte m.p ≠ ch '\n' := by
    intro hlf
    rw [hlf] at hstart
    exact absurd hstart.2 (by decide)
  have hne' : v.text[m.p]? ≠ some (ch '\n') := by
    rw [hc]
    exact fun h => hne (Option.some.inj h)
  have hsim : (scanToken v (v.byte m.p)).Sim (scanToken v' (v.byte m.p))
      (fun _ m₁ _ m₁' => Alike v.text (k + if v.byte m.p = ch '#' then 1 else 0) m₁ m₁') m m' := by
    unfold scanToken
    cases hop : operatorAt (v.byte m.p) with
    | some op =>
      have hnone : (if v.byte m.p = ch '#' then 1 else 0) = 0 := if_neg (ne_hash_of_operatorAt hop)
      rw [hnone]
      exact (scanOperator_sim h hm hp hop hne').imp fun _ _ _ _ h => h.alike
    | none =>
      refine Gen.sim_ite Iff.rfl (fun hhash => ?_) fun hhash => ?_
      · rw [hhash] at hc
        rw [if_pos hhash, h.text_eq]
        exact scanHash_sim h.no_cr hm hready hc (hind.comment hhash)
      rw [if_neg hhash]
      refine Gen.sim_ite Iff.rfl (fun hquote => ?_) fun _ => Gen.sim_ite Iff.rfl (fun halpha => ?_)
        fun _ => ?_
      · exact (scanQuote_sim h hm hp hquote (hind.string hquote)).imp fun _ _ _ _ h => h.alike
      · exact (getPhraseToken_sim h hm hp.le hne).imp fun _ _ _ _ h => h.alike
      · simp only [Gen.sim_get_left, Gen.sim_get_right]
        refine Gen.sim_ite Iff.rfl (fun _ => ?_) fun _ => ?_
        · refine (assign_sim hm ?_).imp fun _ _ _ _ h => h.alike
          rw [hm.p_eq, getNumberToken_crlfAt h hp]
        · refine (assign_sim hm ?_).imp fun _ _ _ _ h => h.alike
          rw [hm.p_eq, Scanned.crlf, crlfAt_succ_of_ne hne']
  refine (hsim.and_left (scanToken_comments v m _)).imp fun _ m₁ _ m₁' hm₁ => ?_
  rw [hm₁.2]
  exact hm₁.1

end Switch

/-! ### Calls of `advance` -/

section Calls

variable {v v' : View} {txt : Text} {k width : ℕ} {m m' : Lexer}

theorem Alike.stop_eq (h : Alike txt k m m') :
    m'.t.substr.stop = crlfAt txt m.t.substr.stop := by
  rw [h.t_eq]
  exact Span.crlf_stop _

theorem Alike.reset (h : Alike txt k m m') : Alike txt k m.reset m'.reset := by
  refine ⟨?_, h.indentation_eq, h.error_eq, fun hle => h.lineNumber_eq ?_, h.lineNumber_lt⟩
  · change Token.mk .none (m'.t.substr.beginAt m'.t.substr.stop) .empty =
      Token.mk .none ((m.t.substr.beginAt m.t.substr.stop).crlf txt) .empty
    rw [Span.beginAt_stop, Span.beginAt_stop, h.stop_eq]
    simp only [Span.crlf, Span.stop, Nat.add_zero, Nat.sub_self]
  · rwa [reset_substr] at hle

/-- Inside of the text, `advance` starts at corresponding places. -/
theorem Alike.twin_reset (h : Alike txt k m m') (hle : m.t.substr.stop ≤ txt.length) :
    Twin txt k m.reset m'.reset := by
  refine ⟨h.reset.t_eq, ?_, h.indentation_eq, h.error_eq, h.lineNumber_eq hle, h.lineNumber_lt⟩
  rw [reset_p, reset_p, h.stop_eq]

theorem Alike.setType (h : Alike txt k m m') (type : TokenType) :
    Alike txt k (m.setType type) (m'.setType type) := by
  refine ⟨?_, h.indentation_eq, h.error_eq, h.lineNumber_eq, h.lineNumber_lt⟩
  simp only [Lexer.setType, h.t_eq]
  rfl

/-- The line break behind a token. -/
theorem crossLineBreak_sim (h : Rebroken v v') (hm : Twin v.text k m m')
    (hc : v.text[m.p]? = some (ch '\n')) :
    (crossLineBreak v.text (ch '\n')).Sim (crossLineBreak v'.text (ch '\r'))
      (fun _ m₁ _ m₁' => Twin v.text k m₁ m₁') m m' := by
  have hlf : v'.text[m'.p + 1]? = some (ch '\n') := by
    rw [h.text_eq, hm.p_eq, getElem?_crlfAt_add_one hc]
  have hat : m'.p + 2 = crlfAt v.text (m.p + 1) := by rw [hm.p_eq, crlfAt_succ_of_eq hc]
  have hlen : v.text.length + 1 ≤ (crlf v.text).length + 1 := by
    rw [length_crlf]
    omega
  have hno : ¬ (ch '\n' = ch '\r' ∧ v.text[m.p + 1]? = some (ch '\n')) := by
    rintro ⟨h, -⟩
    exact absurd h (by decide)
  simp only [crossLineBreak, Gen.sim_get_left, Gen.sim_get_right, Gen.sim_modify_left,
    Gen.sim_modify_right, if_neg hno, hlf, and_self, if_true]
  rw [hat, h.text_eq]
  refine Gen.sim_ite crlfAt_lt_length_iff.symm (fun hlt => ?_) fun hlt => ?_
  · refine (scanLines_sim h.no_cr hlen (hm.setP rfl)).bind fun r m₁ r' m₁' hm₁ => ?_
    obtain ⟨rfl, hm₁, -⟩ := hm₁
    refine Gen.sim_modify ⟨?_, hm₁.p_eq, hm₁.indentation_eq, hm₁.error_eq, hm₁.lineNumber_eq,
      hm₁.lineNumber_lt⟩
    simp only [hm₁.t_eq]
    simp only [Token.crlf, Span.crlf_endAt]
  · refine Gen.sim_modify ⟨?_, rfl, ?_, hm.error_eq, hm.lineNumber_eq, hm.lineNumber_lt⟩
    · simp only [Lexer.setP, hm.t_eq, ← crlfAt_length]
      simp only [Token.crlf, Span.crlf_endAt]
    · simp only [Lexer.setP, hm.indentation_eq]

/-- A dedent. -/
theorem emitDedent_sim (hm : Alike txt k m m') :
    emitDedent.Sim emitDedent (fun _ m₁ _ m₁' => Alike txt k m₁ m₁' ∧ m₁.t.type = .dedent)
      m m' := by
  have hind := hm.indentation_eq
  have htoken : ∀ s : Indentation, Alike txt k { m.setType .dedent with toIndentation := s }
      { m'.setType .dedent with toIndentation := s } := by
    intro s
    have hset := hm.setType .dedent
    exact ⟨hset.t_eq, rfl, hset.error_eq, hset.lineNumber_eq, hset.lineNumber_lt⟩
  have hpop : popIndent.Sim popIndent (fun r m₁ r' m₁' => r' = r ∧
      ∃ s, m₁ = { m with toIndentation := s } ∧ m₁' = { m' with toIndentation := s }) m m' := by
    simp only [popIndent, Gen.sim_get_left, Gen.sim_get_right, hind]
    refine Gen.sim_ite Iff.rfl (fun _ => Gen.sim_ite Iff.rfl (fun _ => ?_) fun _ => ?_) fun _ => ?_
    · simp only [Gen.sim_modify_left, Gen.sim_modify_right, hind]
      exact Gen.sim_pure ⟨rfl, _, rfl, rfl⟩
    · exact Gen.sim_raise _
    · refine Gen.sim_pure ⟨rfl, m.toIndentation, rfl, ?_⟩
      rw [← hind]
  refine hpop.bind fun r m₁ r' m₁' h => ?_
  obtain ⟨rfl, s, rfl, rfl⟩ := h
  exact Gen.sim_modify ⟨htoken _, rfl⟩

/-- The byte found, from what is known of the calls that follow. -/
theorem dispatchOn_sim (h : Rebroken v v') {fuel fuel' : ℕ} (hm : Alike v.text k m m')
    (hle : m.t.substr.stop ≤ v.text.length)
    (hind : ∀ p, .dispatch p ∈ (dispatchOn v fuel (v.byte m.t.substr.stop) m.reset).yields →
      Indifferent v k m.totalIndentWidth p)
    (hhere : Indifferent v k m.totalIndentWidth m.t.substr.stop)
    (ih : ∀ m₁ m₁' : Lexer, Alike v.text k m₁ m₁' →
      (m₁.totalIndentWidth = m.totalIndentWidth ∨ m₁.indentDedentDelta = 1) →
      (∀ p, .dispatch p ∈ (advanceWithin v fuel m₁).yields →
        Indifferent v k m.totalIndentWidth p) →
      (advanceWithin v fuel).Sim (advanceWithin v' fuel') (fun r m₂ r' m₂' => r' = r ∧
        (r = true → Alike v.text (k + m₂.t.type.comments) m₂ m₂')) m₁ m₁') :
    (dispatchOn v fuel (v.byte m.t.substr.stop)).Sim
      (dispatchOn v' fuel' (v'.byte (crlfAt v.text m.t.substr.stop)))
      (fun r m₁ r' m₁' => r' = r ∧ (r = true → Alike v.text (k + m₁.t.type.comments) m₁ m₁'))
      m.reset m'.reset := by
  have hreset := hm.twin_reset hle
  have hbyte := h.byte_eq hle
  have hp := reset_p m
  have hzero : v.byte m.t.substr.stop = 0 ↔ v'.byte (crlfAt v.text m.t.substr.stop) = 0 :=
    (h.byte_iff hle (by decide) (by decide)).symm
  have hspread : ∀ f : UInt8 → Bool, f (ch '\r') = f (ch '\n') →
      (f (v.byte m.t.substr.stop) = true ↔
        f (v'.byte (crlfAt v.text m.t.substr.stop)) = true) := by
    intro f hf
    rw [hbyte, crlfByte]
    split_ifs with hlf
    · rw [hlf, hf]
    · exact Iff.rfl
  unfold dispatchOn at hind ⊢
  refine Gen.sim_ite hzero (fun _ => Gen.sim_pure ⟨rfl, fun h => by cases h⟩) fun hnul => ?_
  have hlt : m.t.substr.stop < v.text.length := by
    refine lt_of_le_of_ne hle fun heq => hnul ?_
    rw [heq, View.byte_length h.terminated]
  rw [if_neg hnul] at hind
  have hc := View.byte_of_lt hlt
  refine Gen.sim_ite (hspread isLineBreak (by decide)) (fun hbreak => ?_) fun hbreak => ?_
  · -- a line break: both cross it, and advance again
    rw [if_pos hbreak] at hind
    have hlf := getElem?_eq_of_any_isLineBreak h.no_cr (p := m.t.substr.stop) (by rwa [hc])
    have hbyte₁ : v.byte m.t.substr.stop = ch '\n' := Option.some.inj (hc.symm.trans hlf)
    rw [hbyte₁] at hbyte hind ⊢
    rw [hbyte]
    refine (((crossLineBreak_sim h hreset (by rwa [hp])).and_left
      (crossLineBreak_total _)).and_left (R := fun a t => ∃ ts,
        crossLineBreak v.text (ch '\n') m.reset = ⟨ts, t, .returned a⟩)
      (Gen.wp_run.imp (fun _ ts _ h => ⟨ts, h⟩) (fun _ _ _ h => h) fun _ h => h)).bind
      fun _ m₁ _ m₁' hm₁ => ?_
    obtain ⟨⟨hm₁, htotal⟩, ts, hrun⟩ := hm₁
    refine ih m₁ m₁' hm₁.alike htotal fun p hmem => hind p ?_
    rw [Gen.bind_of_returned hrun]
    exact List.mem_append_right _ hmem
  rw [if_neg hbreak] at hind
  have hne : v.byte m.t.substr.stop ≠ ch '\n' := by
    intro hlf
    rw [hlf] at hbreak
    exact hbreak (by decide)
  have hne' : v.text[m.t.substr.stop]? ≠ some (ch '\n') := by
    rw [hc]
    exact fun h => hne (Option.some.inj h)
  refine Gen.sim_ite (hspread isSpaceOrTab (by decide)) (fun hspace => ?_) fun hspace => ?_
  · -- blanks: both skip them, and advance again
    rw [if_pos hspace, Gen.modify_bind] at hind
    simp only [Gen.sim_modify_left, Gen.sim_modify_right]
    refine ih _ _ (Twin.alike ⟨?_, hreset.p_eq, hreset.indentation_eq, hreset.error_eq,
      hreset.lineNumber_eq, hreset.lineNumber_lt⟩) (.inl rfl) hind
    have hscan : scanSpacesAndTabs v'.text (m'.reset.p + 1) =
        crlfAt v.text (scanSpacesAndTabs v.text (m.reset.p + 1)) := by
      rw [hreset.p_eq, hp, ← crlfAt_succ_of_ne hne', h.text_eq, scanSpacesAndTabs_crlfAt]
    rw [hscan]
    simp only [hreset.t_eq]
    simp only [Token.crlf, Span.crlf_endAt]
  · have hsame : v'.byte (crlfAt v.text m.t.substr.stop) = v.byte m.t.substr.stop :=
      hbyte.trans (if_neg hne)
    have hstart : StartsToken (v.byte m.t.substr.stop) := by
      refine ⟨hnul, ?_⟩
      rw [isWhitespace, Bool.eq_false_iff.mpr hspace, Bool.eq_false_iff.mpr hbreak]
      rfl
    have hready : Ready v.text m.reset :=
      ⟨by rw [reset_substr, hp], by rw [hp]; exact hlt⟩
    rw [hsame, ← hp]
    refine (scanToken_sim h hreset hready (by rwa [hp]) (by rwa [hp])).bind
      fun _ m₁ _ m₁' hm₁ => ?_
    exact Gen.sim_pure ⟨rfl, fun _ => hm₁⟩

/-- **One call.** -/
theorem advanceWithin_sim (h : Rebroken v v') {fuel fuel' : ℕ} (hfuel : fuel ≤ fuel')
    (hm : Alike v.text k m m')
    (hwidth : m.totalIndentWidth = width ∨ m.indentDedentDelta = 1)
    (hind : ∀ p, .dispatch p ∈ (advanceWithin v fuel m).yields → Indifferent v k width p) :
    (advanceWithin v fuel).Sim (advanceWithin v' fuel') (fun r m₁ r' m₁' => r' = r ∧
      (r = true → Alike v.text (k + m₁.t.type.comments) m₁ m₁')) m m' := by
  induction fuel generalizing fuel' m m' with
  | zero => exact Gen.sim_hang
  | succ fuel ih =>
    obtain ⟨fuel', rfl⟩ := Nat.exists_eq_succ_of_ne_zero (show fuel' ≠ 0 by omega)
    have hstop := hm.stop_eq
    have hle : m.t.substr.stop ≤ v.text.length ↔ m'.t.substr.stop ≤ v'.text.length := by
      rw [hstop, h.text_eq, crlfAt_le_length_iff]
    by_cases hidle : m.pendingError = none ∧ m.indentDedentDelta = 0 ∧
        m.t.substr.stop ≤ v.text.length
    · obtain ⟨herr, hδ, hin⟩ := hidle
      have herr' : m'.pendingError = none := hm.error_eq.trans herr
      have hδ' : m'.indentDedentDelta = 0 := by rw [hm.indentation_eq, hδ]
      obtain rfl : m.totalIndentWidth = width := by
        rcases hwidth with hwidth | hpending
        · exact hwidth
        · rw [hδ] at hpending
          cases hpending
      have hcall : advanceWithin v (fuel + 1) m =
          (dispatchOn v fuel (v.byte m.t.substr.stop) m.reset).after
            [.dispatch m.t.substr.stop] :=
        advanceWithin_dispatch herr hδ hin
      rw [hcall] at hind
      rw [Gen.sim_after hcall (advanceWithin_dispatch herr' hδ' (hle.mp hin)), hstop]
      refine dispatchOn_sim h hm hin (fun p hp => hind p (List.mem_cons_of_mem _ hp))
        (hind _ List.mem_cons_self) fun m₁ m₁' hm₁ hwidth₁ hind₁ => ?_
      exact ih (by omega) hm₁ hwidth₁ hind₁
    · -- something is pending, or the last token ends behind the text
      have hreset := hm.reset
      have hδ : m'.reset.indentDedentDelta = m.reset.indentDedentDelta := by
        rw [hreset.indentation_eq]
      simp only [advanceWithin, Gen.sim_get_left, Gen.sim_get_right, Gen.sim_modify_left,
        Gen.sim_modify_right]
      rw [hreset.error_eq]
      cases herr : m.reset.pendingError with
      | some note =>
        refine Gen.sim_pure ⟨rfl, fun _ => ⟨?_, hreset.indentation_eq, rfl, hreset.lineNumber_eq,
          hreset.lineNumber_lt⟩⟩
        simp only [hreset.t_eq]
        rfl
      | none =>
        simp only [hδ]
        refine Gen.sim_ite Iff.rfl (fun _ => ?_) fun hpos => Gen.sim_ite Iff.rfl (fun _ => ?_)
          fun hneg => ?_
        · -- an indent is pending
          have hset := hreset.setType .indent
          refine Gen.sim_pure ⟨rfl, fun _ => ⟨hset.t_eq, ?_, hset.error_eq, hset.lineNumber_eq,
            hset.lineNumber_lt⟩⟩
          simp only [hset.indentation_eq]
          rfl
        · -- dedents are pending
          refine (emitDedent_sim hreset).bind fun _ m₁ _ m₁' hm₁ => ?_
          refine Gen.sim_pure ⟨rfl, fun _ => ?_⟩
          rw [hm₁.2]
          exact hm₁.1
        · -- the end of both texts
          have hover : v.text.length < m.t.substr.stop := by
            rw [← not_le]
            exact fun hin => hidle ⟨herr, le_antisymm (not_lt.mp hpos) (not_lt.mp hneg), hin⟩
          have hover' : v'.text.length < m'.t.substr.stop := by
            rw [← not_le, ← hle, not_le]
            exact hover
          rw [reset_substr, reset_substr, if_pos hover, if_pos hover']
          exact Gen.sim_pure ⟨rfl, fun h => by cases h⟩

end Calls

/-! ### Runs -/

section Runs

variable {v v' : View} {ts ts' : List Token} {m m' : Lexer}

/-- The type and the value of a token. -/
def Token.content (t : Token) : TokenType × Value := (t.type, t.value)

/-- The number of comments among tokens. -/
def comments (ts : List Token) : ℕ := ts.foldr (fun t n => t.type.comments + n) 0

/-- Whatever a run dispatches on is indifferent to the line breaks of the text. -/
def EachIndifferent (v : View) : Prop :=
  ∀ ts m p, Run v ts m → .dispatch p ∈ (advance v m).yields →
    Indifferent v (comments ts) m.totalIndentWidth p

theorem comments_append (ts : List Token) (t : Token) :
    comments (ts ++ [t]) = comments ts + t.type.comments := by
  induction ts with
  | nil => exact Nat.add_comm _ _
  | cons u ts ih =>
    change _ + comments (ts ++ [t]) = _
    rw [ih]
    exact (Nat.add_assoc _ _ _).symm

theorem initial_twin (txt : Text) : Twin txt 0 Lexer.initial Lexer.initial := by
  have hzero : crlfAt txt 0 = 0 := rfl
  refine ⟨?_, hzero.symm, rfl, rfl, rfl, by decide⟩
  change Token.mk .none ⟨0, 0⟩ .empty = Token.mk .none ⟨crlfAt txt 0, crlfAt txt 0 - _⟩ .empty
  rw [hzero, Nat.zero_sub]

theorem construct_sim (h : Rebroken v v') :
    (construct v.text).Sim (construct v'.text) (fun _ m _ m' => Alike v.text 0 m m')
      Lexer.initial Lexer.initial := by
  have hlen : v.text.length + 1 ≤ (crlf v.text).length + 1 := by
    rw [length_crlf]
    omega
  rw [h.text_eq]
  refine (scanLines_sim h.no_cr hlen (initial_twin v.text)).bind fun r m r' m' hm => ?_
  obtain ⟨rfl, hm, -⟩ := hm
  refine Gen.sim_modify ⟨?_, hm.indentation_eq, hm.error_eq, fun _ => hm.lineNumber_eq,
    hm.lineNumber_lt⟩
  simp only [hm.t_eq]
  simp only [Token.crlf, Span.crlf_endAt]

theorem advance_sim (h : Rebroken v v') (hind : EachIndifferent v) (hrun : Run v ts m)
    (hm : Alike v.text (comments ts) m m') :
    (advance v).Sim (advance v') (fun r m₁ r' m₁' => r' = r ∧
      (r = true → Alike v.text (comments (ts ++ [m₁.t])) m₁ m₁')) m m' := by
  simp only [comments_append]
  refine advanceWithin_sim h ?_ hm (.inl rfl) fun p hp => hind ts m p hrun hp
  rw [h.text_eq, length_crlf]
  omega

/-- **Runs**: the second lexer follows the first. -/
theorem Run.follows (h : Rebroken v v') (hind : EachIndifferent v) (hrun : Run v ts m) :
    ∃ ts' m', Run v' ts' m' ∧ ts'.map Token.content = ts.map Token.content ∧
      Alike v.text (comments ts) m m' := by
  induction hrun with
  | start hm =>
    obtain ⟨_, es', m', hm', halike⟩ := (construct_sim h).returned hm
    exact ⟨[], m', .start hm', rfl, halike⟩
  | @next ts es m m₁ hrun hadv ih =>
    obtain ⟨ts', m', hrun', hcontent, halike⟩ := ih
    obtain ⟨_, es', m₁', hadv', rfl, halike₁⟩ := (advance_sim h hind hrun halike).returned hadv
    refine ⟨ts' ++ [m₁'.t], m₁', .next hrun' hadv', ?_, halike₁ rfl⟩
    rw [List.map_append, List.map_append, hcontent, (halike₁ rfl).t_eq]
    rfl

/-- **Runs**: the first lexer follows the second. -/
theorem Run.followed (h : Rebroken v v') (hind : EachIndifferent v) (hrun' : Run v' ts' m') :
    ∃ ts m, Run v ts m ∧ ts'.map Token.content = ts.map Token.content ∧
      Alike v.text (comments ts) m m' := by
  induction hrun' with
  | start hm' =>
    obtain ⟨_, es, m, hm, halike⟩ := (construct_sim h).returned_right (construct_spec _) hm'
    exact ⟨[], m, .start hm, rfl, halike⟩
  | @next ts' es' m' m₁' hrun' hadv' ih =>
    obtain ⟨ts, m, hrun, hcontent, halike⟩ := ih
    obtain ⟨_, es, m₁, hadv, rfl, halike₁⟩ := (advance_sim h hind hrun halike).returned_right
      (advance_step h.terminated (hrun.valid h.terminated)) hadv'
    refine ⟨ts ++ [m₁.t], m₁, .next hrun hadv, ?_, halike₁ rfl⟩
    rw [List.map_append, List.map_append, hcontent, (halike₁ rfl).t_eq]
    rfl

/-- The lexer yields tokens of these types and values, and maybe more. -/
def Yielded (v : View) (l : List (TokenType × Value)) : Prop :=
  ∃ ts m, Run v ts m ∧ ts.map Token.content = l

theorem yielded_iff_runOf {l : List (TokenType × Value)} :
    Yielded v l ↔ (runOf v l.length).map (fun r => r.1.map Token.content) = some l := by
  constructor
  · rintro ⟨ts, m, hrun, rfl⟩
    rw [List.length_map, hrun.runOf_eq]
    rfl
  · intro h
    obtain ⟨r, hr, hcontent⟩ := Option.map_eq_some_iff.mp h
    exact ⟨r.1, r.2, runOf_sound hr, hcontent⟩

/-- **Line breaks.** Where every comment and every string of a run is indifferent to the line
breaks, the lexer yields the same types and values on a text and on the text with CR LF for LF. -/
theorem lineBreaks_indifferent (h : Rebroken v v') (hind : EachIndifferent v)
    (l : List (TokenType × Value)) : Yielded v l ↔ Yielded v' l := by
  constructor
  · rintro ⟨ts, m, hrun, rfl⟩
    obtain ⟨ts', m', hrun', hcontent, -⟩ := hrun.follows h hind
    exact ⟨ts', m', hrun', hcontent⟩
  · rintro ⟨ts', m', hrun', rfl⟩
    obtain ⟨ts, m, hrun, hcontent, -⟩ := hrun'.followed h hind
    exact ⟨ts, m, hrun, hcontent.symm⟩

/-- A text with neither quotes nor dots. -/
theorem eachIndifferent_of_plain (hquote : ∀ p, ¬ IsQuote (v.byte p))
    (hdots : ∀ p, ¬ Dotted v.text p) : EachIndifferent v := by
  intro ts m p _ _
  refine ⟨fun _ n d hcont => ?_, fun hq => absurd hq (hquote p)⟩
  obtain ⟨-, -, -, hd⟩ := hcont
  exact absurd hd (hdots d)

/-- A comment, and a phrase in the next line. -/
def plainComment : Text := bytes ['#', ' ', 'a', '\n', 'b']

/-- The comment `a` and the phrase `b`, with LF or with CR LF between them. -/
theorem lineBreaks_plainComment : Yielded ⟨crlf plainComment, fun _ => 0⟩
    [(.comment, .text (bytes ['a'])), (.noun, .text (bytes ['b']))] := by
  have h : Rebroken ⟨plainComment, fun _ => 0⟩ ⟨crlf plainComment, fun _ => 0⟩ :=
    ⟨by decide, rfl, rfl, rfl⟩
  have hquote : ∀ p, ¬ IsQuote (View.byte ⟨plainComment, fun _ => 0⟩ p) := by
    intro p
    rcases Nat.lt_or_ge p plainComment.length with hlt | hge
    · have hall : ∀ p < plainComment.length,
          ¬ IsQuote (View.byte ⟨plainComment, fun _ => 0⟩ p) := by decide
      exact hall p hlt
    · have hnul : View.byte ⟨plainComment, fun _ => 0⟩ p = 0 := by
        rw [View.byte, List.getElem?_eq_none hge]
        rfl
      rw [hnul]
      decide
  have hdots : ∀ p, ¬ Dotted plainComment p := by
    intro p hp
    have hall : ∀ p < plainComment.length, ¬ Dotted plainComment p := by decide
    have hlt : p + 3 < plainComment.length := hp.1
    exact hall p (by omega) hp
  rw [← lineBreaks_indifferent h (eachIndifferent_of_plain hquote hdots), yielded_iff_runOf]
  decide +kernel

/-- A comment, and a line with dots. -/
def dottedComment : Text := bytes ['#', ' ', 'a', '\n', '.', '.', '.', ' ', 'b']

/-- The comment is `a b` with LF, and `a` with CR LF. -/
theorem lineBreaks_dottedComment :
    Rebroken ⟨dottedComment, fun _ => 0⟩ ⟨crlf dottedComment, fun _ => 0⟩ ∧
      Yielded ⟨dottedComment, fun _ => 0⟩ [(.comment, .text (bytes ['a', ' ', 'b']))] ∧
      ¬ Yielded ⟨crlf dottedComment, fun _ => 0⟩ [(.comment, .text (bytes ['a', ' ', 'b']))] := by
  refine ⟨⟨by decide, rfl, rfl, rfl⟩, ?_, ?_⟩
  · rw [yielded_iff_runOf]
    decide +kernel
  · rw [yielded_iff_runOf]
    decide +kernel

end Runs

end Intent.Old
