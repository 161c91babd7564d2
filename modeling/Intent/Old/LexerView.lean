import Intent.Old.LexerSpans

/-!
# What the C++ lexer reads beyond its view

Two views of the same text in different buffers lead to the same tokens, as long as the lexer
does not act on a byte behind the text. It reads such a byte in three places. The look-ahead of
an escape sequence is harmless, because a sequence that ends behind the text is not taken for
one (`scanUnicodeEscapeSequence_congr`). A comment on the last line takes the byte into its span.
And `advance` dispatches on the byte at `end()` when the last token ends there: only NUL, a space
and a tab make it stop.

`View.Contained` excludes the last two, and `lexer_view_only` says that this is enough: every run
over such a buffer is a run over the text with a NUL behind it.
-/

namespace Intent.Old

/-- The lexer acts on no byte behind the text: `advance` dispatches there on nothing but NUL, a
space or a tab, and no line of a comment runs to the end. -/
def View.Contained (v : View) : Prop :=
  (Occurs v (.dispatch v.text.length) → v.beyond 0 = 0 ∨ isSpaceOrTab (v.beyond 0) = true) ∧
    ¬ Occurs v (.commentLine v.text.length)

/-- The same text with a NUL behind it. -/
def View.terminate (v : View) : View := ⟨v.text, fun _ => 0⟩

section Congr

variable {txt : Text} {f g : ℕ → UInt8} {p q : ℕ} {m : Lexer}

/-- Inside of the text, two buffers agree. -/
theorem byte_congr (h : p < txt.length) : View.byte ⟨txt, f⟩ p = View.byte ⟨txt, g⟩ p := by
  have hf := View.byte_of_lt (v := ⟨txt, f⟩) h
  have hg := View.byte_of_lt (v := ⟨txt, g⟩) h
  exact Option.some.inj (hf.symm.trans hg)

/-! ### Escape sequences -/

theorem scanEscapeDigits_congr {scanFunc : Text → UInt64 × ℕ} {seq count : ℕ}
    (hcp : (scanEscapeDigits ⟨txt, f⟩ scanFunc seq count).1 ≠ unicodeReplacementChar)
    (hle : (scanEscapeDigits ⟨txt, f⟩ scanFunc seq count).2 ≤ txt.length) :
    scanEscapeDigits ⟨txt, g⟩ scanFunc seq count =
      scanEscapeDigits ⟨txt, f⟩ scanFunc seq count := by
  have hwindow : seq + count ≤ txt.length := by
    unfold scanEscapeDigits at hcp hle
    dsimp only at hcp hle
    split_ifs at hcp hle with hc
    · exact hle
    · exact absurd rfl hcp
  have hbytes : ((List.range count).map fun i => View.byte ⟨txt, g⟩ (seq + i)) =
      (List.range count).map fun i => View.byte ⟨txt, f⟩ (seq + i) := by
    refine List.map_congr_left fun i hi => byte_congr ?_
    have := List.mem_range.mp hi
    omega
  unfold scanEscapeDigits
  rw [hbytes]

theorem lt_of_scanEscapeDigits {v : View} {scanFunc : Text → UInt64 × ℕ} {seq count : ℕ}
    (hcp : (scanEscapeDigits v scanFunc seq count).1 ≠ unicodeReplacementChar) :
    (scanEscapeDigits v scanFunc seq count).2 = seq + count := by
  unfold scanEscapeDigits at hcp ⊢
  dsimp only at hcp ⊢
  split_ifs at hcp ⊢ with hc
  · rfl
  · exact absurd rfl hcp

/-- An escape sequence that is taken ends behind its first character. -/
theorem lt_scanUnicodeEscapeSequence {v : View} {seq : ℕ}
    (hcp : (scanUnicodeEscapeSequence v seq).1 ≠ unicodeReplacementChar) :
    seq < (scanUnicodeEscapeSequence v seq).2 := by
  unfold scanUnicodeEscapeSequence at hcp ⊢
  dsimp only at hcp ⊢
  split_ifs at hcp ⊢
  · rw [lt_of_scanEscapeDigits hcp]
    omega
  · rw [lt_of_scanEscapeDigits hcp]
    omega
  · rw [lt_of_scanEscapeDigits hcp]
    omega
  · exact Nat.lt_succ_self seq
  · rw [lt_of_scanEscapeDigits hcp]
    omega
  · split
    · exact Nat.lt_succ_self seq
    · exact Nat.lt_succ_self seq

/-- **Escape sequences** that end inside of the text do not depend on what follows it. -/
theorem scanUnicodeEscapeSequence_congr {seq : ℕ}
    (hcp : (scanUnicodeEscapeSequence ⟨txt, f⟩ seq).1 ≠ unicodeReplacementChar)
    (hle : (scanUnicodeEscapeSequence ⟨txt, f⟩ seq).2 ≤ txt.length) :
    scanUnicodeEscapeSequence ⟨txt, g⟩ seq = scanUnicodeEscapeSequence ⟨txt, f⟩ seq := by
  have hlt := lt_scanUnicodeEscapeSequence hcp
  have hc : View.byte ⟨txt, g⟩ seq = View.byte ⟨txt, f⟩ seq := byte_congr (by omega)
  unfold scanUnicodeEscapeSequence at hcp hle ⊢
  rw [hc]
  dsimp only at hcp hle ⊢
  split_ifs at hcp hle ⊢
  · exact scanEscapeDigits_congr hcp hle
  · exact scanEscapeDigits_congr hcp hle
  · exact scanEscapeDigits_congr hcp hle
  · rfl
  · exact scanEscapeDigits_congr hcp hle
  · rfl

/-- The test of `get_string_literal` on an escape sequence. -/
def Taken (v : View) (p : ℕ) : Prop :=
  (scanUnicodeEscapeSequence v (p + 1)).1 ≠ unicodeReplacementChar ∧
    (scanUnicodeEscapeSequence v (p + 1)).2 > p ∧
    (scanUnicodeEscapeSequence v (p + 1)).2 ≤ v.text.length

theorem Taken.congr (h : Taken ⟨txt, f⟩ p) :
    Taken ⟨txt, g⟩ p ∧
      scanUnicodeEscapeSequence ⟨txt, g⟩ (p + 1) = scanUnicodeEscapeSequence ⟨txt, f⟩ (p + 1) := by
  have heq := scanUnicodeEscapeSequence_congr (g := g) h.1 h.2.2
  refine ⟨?_, heq⟩
  unfold Taken
  rw [heq]
  exact h

theorem stringRounds_congr (quote : UInt8) (fuel : ℕ) (text : Text) :
    stringRounds ⟨txt, f⟩ quote fuel text = stringRounds ⟨txt, g⟩ quote fuel text := by
  induction fuel generalizing text with
  | zero => rfl
  | succ fuel ih =>
    simp only [stringRounds, ih]
    refine congrArg (Gen.get >>= ·) (funext fun m => ?_)
    cases txt[m.p]? with
    | none => rfl
    | some c =>
      dsimp only
      refine if_congr Iff.rfl rfl (if_congr Iff.rfl ?_ rfl)
      by_cases hf : Taken ⟨txt, f⟩ m.p
      · obtain ⟨hg, heq⟩ := hf.congr (g := g)
        rw [heq]
      · have hg : ¬ Taken ⟨txt, g⟩ m.p := fun hg => hf hg.congr.1
        exact (if_neg hf).trans (if_neg hg).symm

/-! ### Tokens -/

theorem getNumberToken_congr (hp : p < txt.length)
    (hsign : View.byte ⟨txt, f⟩ p = ch '+' ∨ View.byte ⟨txt, f⟩ p = ch '-' → p + 1 < txt.length) :
    getNumberToken ⟨txt, f⟩ p = getNumberToken ⟨txt, g⟩ p := by
  have hc : View.byte ⟨txt, f⟩ p = View.byte ⟨txt, g⟩ p := byte_congr hp
  unfold getNumberToken
  rw [← hc]
  dsimp only
  generalize hq : (if View.byte ⟨txt, f⟩ p = ch '+' ∨ View.byte ⟨txt, f⟩ p = ch '-' then p + 1
    else p) = q
  have hqlt : q < txt.length := by
    rw [← hq]
    split_ifs with h
    · exact hsign h
    · exact hp
  rw [byte_congr (f := f) (g := g) hqlt]

/-- **The switch** depends on the text alone. -/
theorem scanToken_congr (hp : m.p < txt.length) :
    scanToken ⟨txt, f⟩ (View.byte ⟨txt, f⟩ m.p) m =
      scanToken ⟨txt, g⟩ (View.byte ⟨txt, g⟩ m.p) m := by
  have hc : View.byte ⟨txt, f⟩ m.p = View.byte ⟨txt, g⟩ m.p := byte_congr hp
  rw [← hc]
  generalize hcf : View.byte ⟨txt, f⟩ m.p = c
  unfold scanToken
  cases hop : operatorAt c with
  | some op =>
    simp only [scanOperator, Gen.get_bind]
    split_ifs with hn
    · rw [getNumberToken_congr (g := g) hp fun _ => lt_length_of_any hn.2]
    · rfl
  | none =>
    dsimp only
    split_ifs with h₁ h₂ h₃ h₄
    · rfl
    · simp only [scanQuote, getStringLiteral, Gen.get_bind, Gen.modify_bind, ← hc]
      rw [stringRounds_congr (g := g)]
    · simp only [getPhraseToken, Gen.get_bind, ← hc]
    · simp only [Gen.get_bind]
      rw [getNumberToken_congr (g := g) hp]
      intro hsign
      rw [hcf] at hsign
      rcases hsign with rfl | rfl
      · exact absurd h₄ (by decide)
      · exact absurd h₄ (by decide)
    · rfl

end Congr

/-! ### Calls in lockstep -/

variable {v : View} {m m' : Lexer} {ts : List Token} {es : List Event}

/-- The outcome of two calls that agree: the same trace, or both find the end. -/
def Lockstep (r r' : Trace Lexer Event Fault Bool) : Prop :=
  r = r' ∨ r.ending = .returned false ∧ r'.ending = .returned false

/-- Two calls that agree, preceded by the same events. -/
theorem Lockstep.after {r r' : Trace Lexer Event Fault Bool} (h : Lockstep r r')
    (es : List Event) : Lockstep (r.after es) (r'.after es) :=
  h.imp (congrArg (Trace.after es)) fun h => h

/-- A call that starts with a step on the text, the same over both buffers. -/
theorem lockstep_bind {r : Lex Unit} {f g : Unit → Lex Bool} {n : Lexer}
    (h : ∀ es m₁, r n = ⟨es, m₁, .returned ()⟩ → Lockstep (f () m₁) (g () m₁)) :
    Lockstep ((r >>= f) n) ((r >>= g) n) := by
  rcases hr : r n with ⟨es, m₁, a | e | _⟩
  · rw [Gen.bind_of_returned hr, Gen.bind_of_returned hr]
    exact (h es m₁ hr).after es
  · exact .inl (Gen.bind_eq_of_not_returned (by simp [hr]))
  · exact .inl (Gen.bind_eq_of_not_returned (by simp [hr]))

/-- The byte behind the text, if it is NUL, a space or a tab, is the end for `advance`. -/
theorem dispatchOn_lockstep_behind {fuel : ℕ} (hfuel : 0 < fuel) (herr : m.pendingError = none)
    (hδ : m.indentDedentDelta = 0) (heq : m.t.substr.stop = v.text.length)
    (hb : v.beyond 0 = 0 ∨ isSpaceOrTab (v.beyond 0) = true) :
    Lockstep (dispatchOn v fuel (v.byte m.t.substr.stop) m.reset)
      (dispatchOn v.terminate fuel (v.terminate.byte m.t.substr.stop) m.reset) := by
  have hzero : v.terminate.byte m.t.substr.stop = 0 := by
    rw [heq]
    exact View.byte_length (v := v.terminate) rfl
  have hbyte : v.byte m.t.substr.stop = v.beyond 0 := by
    rw [heq, View.byte, List.getElem?_eq_none le_rfl, Nat.sub_self]
    rfl
  rw [hzero, hbyte, dispatchOn, dispatchOn, if_pos rfl]
  rcases hb with hb | hb
  · rw [hb, if_pos rfl]
    exact .inl rfl
  · have hnz : ¬ v.beyond 0 = 0 := by
      rintro h
      rw [h] at hb
      exact absurd hb (by decide)
    have hnb : ¬ isLineBreak (v.beyond 0) = true := by
      intro h
      simp only [isSpaceOrTab, isLineBreak, Bool.or_eq_true, beq_iff_eq] at h hb
      rcases hb with hb | hb <;> rw [hb] at h <;> exact absurd h (by decide)
    rw [if_neg hnz, if_neg hnb, if_pos hb, Gen.modify_bind]
    -- the blank is skipped, and the next call is behind the text
    refine .inr ⟨advanceWithin_stopped hfuel herr hδ (.inl ?_), rfl⟩
    change v.text.length < (m.reset.t.substr.endAt _).stop
    rw [reset_substr, reset_p, scanSpacesAndTabs, scanWhile_of_le (by omega),
      Span.stop_endAt (Nat.le_succ m.t.substr.stop)]
    omega

/-- A byte of the text leads to the same step, and on to calls in lockstep. -/
theorem dispatchOn_lockstep {fuel : ℕ} (hlt : m.t.substr.stop < v.text.length)
    (ih : ∀ m₁ : Lexer, m.t.substr.stop < m₁.t.substr.stop →
      (∀ e ∈ (advanceWithin v fuel m₁).yields,
        e ∈ (dispatchOn v fuel (v.byte m.t.substr.stop) m.reset).yields) →
      Lockstep (advanceWithin v fuel m₁) (advanceWithin v.terminate fuel m₁)) :
    Lockstep (dispatchOn v fuel (v.byte m.t.substr.stop) m.reset)
      (dispatchOn v.terminate fuel (v.terminate.byte m.t.substr.stop) m.reset) := by
  have htext : v.terminate.text = v.text := rfl
  have hc : v.byte m.t.substr.stop = v.terminate.byte m.t.substr.stop := byte_congr hlt
  have hready : Ready v.text m.reset :=
    ⟨by rw [reset_substr, reset_p], by rw [reset_p]; exact hlt⟩
  rw [← hc]
  simp only [dispatchOn, htext] at ih ⊢
  by_cases hzero : v.byte m.t.substr.stop = 0
  · rw [if_pos hzero, if_pos hzero]
    exact .inl rfl
  simp only [if_neg hzero] at ih ⊢
  by_cases hbreak : isLineBreak (v.byte m.t.substr.stop) = true
  · simp only [if_pos hbreak] at ih ⊢
    refine lockstep_bind fun es m₁ hr => ih m₁ ?_ fun e he => ?_
    · have hspec := crossLineBreak_spec hready (by rwa [reset_p])
      rw [reset_p] at hspec
      exact (hspec.returned hr).1
    · rw [Gen.bind_of_returned hr]
      exact List.mem_append_right es he
  simp only [if_neg hbreak] at ih ⊢
  by_cases hspace : isSpaceOrTab (v.byte m.t.substr.stop) = true
  · simp only [if_pos hspace, Gen.modify_bind] at ih ⊢
    refine ih _ ?_ fun e he => he
    have hle := le_scanSpacesAndTabs v.text (m.t.substr.stop + 1)
    change _ < (m.reset.t.substr.endAt _).stop
    rw [reset_substr, reset_p, Span.stop_endAt (by dsimp only; omega)]
    omega
  · simp only [if_neg hspace]
    refine .inl (Gen.bind_congr ?_)
    have key := scanToken_congr (f := v.beyond) (g := fun _ => 0) hready.p_lt
    rw [reset_p] at key
    rw [hc] at key ⊢
    exact key

theorem advanceWithin_lockstep (fuel : ℕ) (hfuel : v.text.length + 1 - m.t.substr.stop < fuel)
    (hev : .dispatch v.text.length ∈ (advanceWithin v fuel m).yields →
      v.beyond 0 = 0 ∨ isSpaceOrTab (v.beyond 0) = true) :
    Lockstep (advanceWithin v fuel m) (advanceWithin v.terminate fuel m) := by
  induction fuel generalizing m with
  | zero => omega
  | succ fuel ih =>
    by_cases hrest : m.pendingError = none ∧ m.indentDedentDelta = 0 ∧
        m.t.substr.stop ≤ v.text.length
    · obtain ⟨herr, hδ, hle⟩ := hrest
      rw [advanceWithin_dispatch herr hδ hle] at hev ⊢
      rw [advanceWithin_dispatch herr hδ (show _ ≤ v.terminate.text.length from hle)]
      refine Lockstep.after ?_ _
      rcases Nat.eq_or_lt_of_le hle with heq | hlt
      · rw [heq] at hev
        exact dispatchOn_lockstep_behind (by omega) herr hδ heq
          (hev (List.mem_append_left _ (List.mem_singleton.mpr rfl)))
      · exact dispatchOn_lockstep hlt fun m₁ h₁ hsub => ih (by omega) fun he =>
          hev (List.mem_append_right _ (hsub _ he))
    · -- what is pending does not depend on the buffer
      have htext : v.terminate.text = v.text := rfl
      simp only [advanceWithin, Gen.modify_bind, Gen.get_bind, htext]
      cases herr : m.reset.pendingError with
      | some note => exact .inl rfl
      | none =>
        dsimp only
        by_cases hpos : m.reset.indentDedentDelta > 0
        · simp only [if_pos hpos]
          exact .inl rfl
        by_cases hneg : m.reset.indentDedentDelta < 0
        · simp only [if_neg hpos, if_pos hneg]
          exact .inl rfl
        have hend : m.reset.t.substr.begin > v.text.length := by
          rw [reset_substr]
          by_contra hle
          exact hrest ⟨herr, le_antisymm (not_lt.mp hpos) (not_lt.mp hneg), not_lt.mp hle⟩
        simp only [if_neg hpos, if_neg hneg, if_pos hend]
        exact .inl rfl

/-! ### Runs in lockstep -/

/-- A call of `advance` in a run over a contained view. -/
theorem Run.lockstep (hc : v.Contained) (h : Run v ts m) :
    Lockstep (advance v m) (advance v.terminate m) :=
  advanceWithin_lockstep _ (by omega) fun he => hc.1 (.call h he)

/-- A token that is found over a contained view is found over its text with a NUL behind it, and
conversely. -/
theorem Run.advance_terminate_iff (hc : v.Contained) (h : Run v ts m) :
    advance v m = ⟨es, m', .returned true⟩ ↔ advance v.terminate m = ⟨es, m', .returned true⟩ := by
  rcases h.lockstep hc with heq | ⟨hend, hend'⟩
  · rw [heq]
  · refine ⟨fun hm => ?_, fun hm => ?_⟩
    · rw [hm] at hend
      cases hend
    · rw [hm] at hend'
      cases hend'

/-- The runs over a contained view are those over its text with a NUL behind it. -/
theorem run_terminate_iff (hc : v.Contained) : Run v ts m ↔ Run v.terminate ts m := by
  constructor
  · intro h
    induction h with
    | start hm => exact .start hm
    | next hrun hm ih => exact .next ih ((hrun.advance_terminate_iff hc).mp hm)
  · intro h
    induction h with
    | start hm => exact .start hm
    | next _ hm ih => exact .next ih ((ih.advance_terminate_iff hc).mpr hm)

/-- They stop at the same state. -/
theorem ending_terminate_iff (hc : v.Contained) (h : Run v ts m) :
    (advance v m).ending = .returned false ↔ (advance v.terminate m).ending = .returned false := by
  rcases h.lockstep hc with heq | ⟨h₁, h₂⟩
  · rw [heq]
  · exact iff_of_true h₁ h₂

/-- A token that ends behind the text is a comment whose last line runs to the end. -/
theorem Step.stop_le {b : Bool} (h : Step v m es b m') (hb : b = true)
    (hm : m.t.substr.stop ≤ v.text.length) (hev : .commentLine v.text.length ∉ es) :
    m'.t.substr.stop ≤ v.text.length := by
  have stay : ∀ m : Lexer, m.t.substr.stop ≤ v.text.length →
      m.reset.t.substr.stop ≤ v.text.length := by
    intro m h
    rw [reset_substr]
    exact h
  induction h with
  | error => exact stay _ hm
  | indent => exact stay _ hm
  | dedent => exact stay _ hm
  | stop => cases hb
  | skip _ _ _ hle _ _ _ ih =>
    exact ih hb hle fun he => hev (List.mem_cons_of_mem _ (List.mem_append_right _ he))
  | token _ _ _ _ hf =>
    have hle := hf.stop_le
    refine Nat.le_of_lt_succ (lt_of_le_of_ne hle fun heq => hev ?_)
    exact List.mem_cons_of_mem _ (hf.overrun heq)

/-- In a run over a contained view every token ends inside of the text. -/
theorem Run.stop_le (hc : v.Contained) (h : Run v ts m) :
    m.t.substr.stop ≤ v.text.length ∧ ∀ t ∈ ts, t.substr.stop ≤ v.text.length := by
  induction h with
  | start hm =>
    obtain ⟨-, hle, -⟩ := (construct_spec _).returned hm
    exact ⟨hle, by simp⟩
  | next hrun hm ih =>
    have hv : v.terminate.Terminated := rfl
    have hadv := (hrun.advance_terminate_iff hc).mp hm
    have hle := (((run_terminate_iff hc).mp hrun).step hv hadv).stop_le rfl ih.1
      fun he => hc.2 (.call hrun (by rwa [hm]))
    refine ⟨hle, fun t ht => ?_⟩
    rcases List.mem_append.mp ht with ht | ht
    · exact ih.2 t ht
    · rwa [List.mem_singleton.mp ht]

/-- **Only the view matters.** Over two buffers that agree on the text, and in neither of which
the lexer acts on a byte behind it: the runs are the same, with the same tokens; they stop at the
same states; and every token lies inside of the text. -/
theorem lexer_view_only {txt : Text} {f g : ℕ → UInt8} (hf : View.Contained ⟨txt, f⟩)
    (hg : View.Contained ⟨txt, g⟩) :
    (∀ ts m, Run ⟨txt, f⟩ ts m ↔ Run ⟨txt, g⟩ ts m) ∧
      (∀ ts m, Run ⟨txt, f⟩ ts m → ((advance ⟨txt, f⟩ m).ending = .returned false ↔
        (advance ⟨txt, g⟩ m).ending = .returned false)) ∧
      ∀ ts m, Run ⟨txt, f⟩ ts m → ∀ t ∈ ts, t.substr.stop ≤ txt.length := by
  have hruns : ∀ ts m, Run ⟨txt, f⟩ ts m ↔ Run ⟨txt, g⟩ ts m := fun ts m =>
    (run_terminate_iff hf).trans (run_terminate_iff hg).symm
  refine ⟨hruns, fun ts m h => ?_, fun ts m h => (h.stop_le hf).2⟩
  exact (ending_terminate_iff hf h).trans (ending_terminate_iff hg ((hruns ts m).mp h)).symm

/-- The text `(`, with a space and with a NUL behind it. -/
theorem lexer_view_only_paren :
    View.Contained ⟨bytes ['('], fun _ => ch ' '⟩ ∧ View.Contained ⟨bytes ['('], fun _ => 0⟩ ∧
      ∀ ts m, Run ⟨bytes ['('], fun _ => ch ' '⟩ ts m ↔ Run ⟨bytes ['('], fun _ => 0⟩ ts m := by
  have hcontained : ∀ c : UInt8, c = 0 ∨ isSpaceOrTab c = true →
      ((eventsOf ⟨bytes ['('], fun _ => c⟩ 3).any fun es => .commentLine 1 ∉ es) = true →
      View.Contained ⟨bytes ['('], fun _ => c⟩ := by
    intro c hc hes
    obtain ⟨es, hes, hno⟩ := (Option.any_eq_true _ _).mp hes
    exact ⟨fun _ => hc, fun he => of_decide_eq_true hno (he.mem_eventsOf hes)⟩
  have hf := hcontained (ch ' ') (.inr (by decide)) (by decide +kernel)
  have hg := hcontained 0 (.inl rfl) (by decide +kernel)
  exact ⟨hf, hg, (lexer_view_only hf hg).1⟩

/-- The text `a`, with a plus sign behind it that becomes a token, and with a NUL. -/
theorem lexer_reads_beyond_view : ∃ ts m, Run ⟨bytes ['a'], fun _ => ch '+'⟩ ts m ∧
    (∀ m', ¬ Run ⟨bytes ['a'], fun _ => 0⟩ ts m') ∧ ∃ t ∈ ts, 1 < t.substr.stop := by
  have hrun : ((runOf ⟨bytes ['a'], fun _ => ch '+'⟩ 2).any fun r =>
      r.1.length = 2 ∧ ∃ t ∈ r.1, 1 < t.substr.stop) = true := by
    decide +kernel
  obtain ⟨⟨ts, m⟩, hr, hc⟩ := (Option.any_eq_true _ _).mp hrun
  obtain ⟨hlen, hstop⟩ := of_decide_eq_true hc
  refine ⟨ts, m, runOf_sound hr, fun m' h => ?_, hstop⟩
  have hnone : (runOf ⟨bytes ['a'], fun _ => 0⟩ 2).isNone = true := by decide +kernel
  have heq := h.runOf_eq
  rw [show ts.length = 2 from hlen] at heq
  rw [heq] at hnone
  cases hnone

end Intent.Old
