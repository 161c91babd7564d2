import Intent.Old.LexerLines
import Intent.Old.LexerSpans
import Mathlib.Logic.Relation

/-!
# How a string ends

The loop of `get_string_literal` moves a cursor over characters, escape sequences and continued
line breaks. `StringStep` is one round of it, on the text alone, and `StringAt` says where the
cursor comes to. It comes to one end only (`StringAt.final_unique`): a closing quote, a line break
that is not continued, or the end of the text. `stringRounds_exit` says that the loop ends there,
and that it is the line break that leaves an error pending.
-/

namespace Intent.Old

open Relation

/-! ### The cursor -/

/-- Where `get_string_literal` goes on behind a backslash: behind its escape sequence, if there is
a valid one. -/
def escapeEnd (v : View) (p : ℕ) : ℕ :=
  if (scanUnicodeEscapeSequence v (p + 1)).1 ≠ unicodeReplacementChar ∧
      (scanUnicodeEscapeSequence v (p + 1)).2 > p ∧
      (scanUnicodeEscapeSequence v (p + 1)).2 ≤ v.text.length then
    (scanUnicodeEscapeSequence v (p + 1)).2
  else p + 1

/-- The next line continues what is before the line break at `p`, with its dots at `d`. -/
def ContinuesAt (txt : Text) (width p d : ℕ) : Prop :=
  ∃ n, n % 2 ^ 32 = 0 ∧ Continuation txt width (consumeLineBreak txt p) n d

/-- One round of `get_string_literal`, at a total indent of `width`. -/
inductive StringStep (v : View) (quote : UInt8) (width : ℕ) : ℕ → ℕ → Prop where
  | plain {p : ℕ} {c : UInt8} : v.text[p]? = some c → c ≠ quote → c ≠ ch '\\' →
      isLineBreak c = false → StringStep v quote width p (p + 1)
  | escape {p : ℕ} : v.text[p]? = some (ch '\\') → ch '\\' ≠ quote →
      StringStep v quote width p (escapeEnd v p)
  | continued {p d : ℕ} {c : UInt8} : v.text[p]? = some c → c ≠ quote → isLineBreak c = true →
      ContinuesAt v.text width p d → StringStep v quote width p (d + 4)

/-- The scan of a string whose content starts at `start` comes to `p`. -/
def StringAt (v : View) (quote : UInt8) (width start p : ℕ) : Prop :=
  ReflTransGen (StringStep v quote width) start p

/-- The string is closed at `p`. -/
def ClosedAt (v : View) (quote : UInt8) (p : ℕ) : Prop := v.text[p]? = some quote

/-- The string is broken off at `p`, by a line break that is not continued. -/
def BrokenAt (v : View) (quote : UInt8) (width p : ℕ) : Prop :=
  ∃ c, v.text[p]? = some c ∧ c ≠ quote ∧ isLineBreak c = true ∧ ∀ d, ¬ ContinuesAt v.text width p d

section Cursor

variable {v : View} {quote : UInt8} {width start p q : ℕ}

theorem ContinuesAt.unique {txt : Text} {d d' : ℕ} (h : ContinuesAt txt width p d)
    (h' : ContinuesAt txt width p d') : d = d' := by
  obtain ⟨n, -, lineBegin, hline, -⟩ := h
  obtain ⟨n', -, lineBegin', hline', -⟩ := h'
  exact (hline.unique hline').2.2

theorem isLineBreak_backslash : isLineBreak (ch '\\') = false := by decide

/-- At a line break, a round goes on behind the dots. -/
theorem StringStep.continues {c : UInt8} (h : StringStep v quote width p q)
    (hc : v.text[p]? = some c) (hbreak : isLineBreak c = true) :
    ∃ d, q = d + 4 ∧ ContinuesAt v.text width p d := by
  cases h with
  | plain hc' _ _ hbreak' =>
    rw [Option.some.inj (hc.symm.trans hc'), hbreak'] at hbreak
    cases hbreak
  | escape hc' =>
    rw [Option.some.inj (hc.symm.trans hc'), isLineBreak_backslash] at hbreak
    cases hbreak
  | continued _ _ _ hcont => exact ⟨_, rfl, hcont⟩

theorem stringStep_rightUnique : Relator.RightUnique (StringStep v quote width) := by
  intro p q q' h h'
  cases h with
  | plain hc hquote hback hbreak =>
    cases h' with
    | plain => rfl
    | escape hc' => exact absurd (Option.some.inj (hc.symm.trans hc')) hback
    | continued hc' _ hbreak' =>
      rw [Option.some.inj (hc.symm.trans hc'), hbreak'] at hbreak
      cases hbreak
  | escape hc hquote =>
    cases h' with
    | plain hc' _ hback => exact absurd (Option.some.inj (hc'.symm.trans hc)) hback
    | escape => rfl
    | continued hc' _ hbreak =>
      rw [Option.some.inj (hc'.symm.trans hc), isLineBreak_backslash] at hbreak
      cases hbreak
  | continued hc hquote hbreak hcont =>
    obtain ⟨d, rfl, hcont'⟩ := h'.continues hc hbreak
    rw [hcont.unique hcont']

/-- No round starts at `p`. -/
def StringFinal (v : View) (quote : UInt8) (width p : ℕ) : Prop :=
  ∀ q, ¬ StringStep v quote width p q

/-- **The cursor comes to one end only.** -/
theorem StringAt.final_unique (h : StringAt v quote width start p)
    (h' : StringAt v quote width start q) (hp : StringFinal v quote width p)
    (hq : StringFinal v quote width q) : p = q := by
  rcases ReflTransGen.total_of_right_unique stringStep_rightUnique h h' with hpq | hqp
  · rcases hpq.cases_head with heq | ⟨r, hr, -⟩
    · exact heq
    · exact absurd hr (hp r)
  · rcases hqp.cases_head with heq | ⟨r, hr, -⟩
    · exact heq.symm
    · exact absurd hr (hq r)

theorem ClosedAt.final (h : ClosedAt v quote p) : StringFinal v quote width p := by
  intro q hstep
  cases hstep with
  | plain hc hquote => exact hquote (Option.some.inj (hc.symm.trans h))
  | escape hc hquote => exact hquote (Option.some.inj (hc.symm.trans h))
  | continued hc hquote => exact hquote (Option.some.inj (hc.symm.trans h))

theorem BrokenAt.final (h : BrokenAt v quote width p) : StringFinal v quote width p := by
  obtain ⟨c, hc, -, hbreak, hno⟩ := h
  intro q hstep
  obtain ⟨d, -, hcont⟩ := hstep.continues hc hbreak
  exact hno d hcont

theorem final_of_none (h : v.text[p]? = none) : StringFinal v quote width p := by
  intro q hstep
  cases hstep with
  | plain hc => exact absurd (h.symm.trans hc) (fun h => by cases h)
  | escape hc => exact absurd (h.symm.trans hc) (fun h => by cases h)
  | continued hc => exact absurd (h.symm.trans hc) (fun h => by cases h)

end Cursor

/-! ### The loop -/

section Loop

variable {v : View} {quote : UInt8} {width start : ℕ} {m : Lexer}

/-- What a look at the next line leaves behind. -/
theorem nextLineContinues_dots {txt : Text} {b : ℕ} (hwidth : m.totalIndentWidth = width) :
    (nextLineContinues txt b).wp m
      (fun r _ m₁ => (r = true ∧ m₁.totalIndentWidth = width ∧ ∃ n d, n % 2 ^ 32 = 0 ∧
          Continuation txt width b n d ∧ m₁.p = d + 3 ∧ d + 3 < txt.length) ∨
        r = false ∧ ∀ n d, n % 2 ^ 32 = 0 → ¬ Continuation txt width b n d)
      (fun _ _ _ => True) fun _ => False := by
  subst hwidth
  by_cases hcont : ∃ n d, n % 2 ^ 32 = 0 ∧ Continuation txt m.totalIndentWidth b n d
  · obtain ⟨n, d, hn, hcont⟩ := hcont
    obtain ⟨lineBegin, hline, hle, hdots⟩ := id hcont
    rw [Gen.wp, nextLineContinues_taken hline hn hle hdots]
    exact .inl ⟨rfl, lookedAt_totalIndentWidth .., n, d, hn, hcont, rfl, hdots.1⟩
  · have hno : ∀ n d, n % 2 ^ 32 = 0 → ¬ Continuation txt m.totalIndentWidth b n d :=
      fun n d hn h => hcont ⟨n, d, hn, h⟩
    exact (nextLineContinues_refused hno).imp (fun r es m₁ h => .inr ⟨h.1, hno⟩)
      (fun _ _ _ _ => trivial) fun _ h => h

/-- The same, behind a line break. -/
theorem nextLineContinues_continuesAt {txt : Text} {q : ℕ} (hwidth : m.totalIndentWidth = width) :
    (nextLineContinues txt (consumeLineBreak txt q)).wp m
      (fun r _ m₁ => (r = true ∧ m₁.totalIndentWidth = width ∧
          ∃ d, ContinuesAt txt width q d ∧ m₁.p = d + 3 ∧ d + 3 < txt.length) ∨
        r = false ∧ ∀ d, ¬ ContinuesAt txt width q d)
      (fun _ _ _ => True) fun _ => False := by
  refine (nextLineContinues_dots hwidth).imp (fun r _ m₁ h => ?_) (fun _ _ _ h => h) fun _ h => h
  rcases h with ⟨hr, hwidth₁, n, d, hn, hcont, hrest⟩ | ⟨hr, hno⟩
  · exact .inl ⟨hr, hwidth₁, d, ⟨n, hn, hcont⟩, hrest⟩
  · refine .inr ⟨hr, fun d hd => ?_⟩
    obtain ⟨n, hn, hcont⟩ := hd
    exact hno n d hn hcont

/-- How the scan of a string ends: the error that is pending before, the one that is pending then,
and the address that is reached. -/
inductive StringExit (v : View) (quote : UInt8) (width start : ℕ) :
    Option Note → Option Note → ℕ → Prop where
  | closed {p : ℕ} {e : Option Note} : StringAt v quote width start p → ClosedAt v quote p →
      StringExit v quote width start e e (p + 1)
  | broken {p q : ℕ} {e : Option Note} {note : Note} : StringAt v quote width start p →
      BrokenAt v quote width p → note.issue = .unterminatedStringLiteral →
      StringExit v quote width start e (some note) q
  | ended {p : ℕ} {e : Option Note} : StringAt v quote width start p → v.text[p]? = none →
      StringExit v quote width start e e p

/-- **How the loop ends.** -/
theorem stringRounds_exit {fuel : ℕ} (acc : Text) (hfuel : v.text.length - m.p < fuel)
    (hp : m.p ≤ v.text.length) (hwidth : m.totalIndentWidth = width)
    (hat : StringAt v quote width start m.p) :
    (stringRounds v quote fuel acc).wp m
      (fun _ _ m' => StringExit v quote width start m.pendingError m'.pendingError m'.p)
      (fun _ _ _ => True) fun _ => False := by
  induction fuel generalizing m acc with
  | zero => omega
  | succ fuel ih =>
    -- a round that ends at `q`
    have round : ∀ (q : ℕ) (text : Text), m.p < q → q ≤ v.text.length →
        StringStep v quote width m.p q →
        (stringRounds v quote fuel text).wp (m.setP q)
          (fun _ _ m' => StringExit v quote width start m.pendingError m'.pendingError m'.p)
          (fun _ _ _ => True) fun _ => False := by
      intro q text hq hle hstep
      exact ih text (show v.text.length - q < fuel by omega) hle hwidth (hat.tail hstep)
    simp only [stringRounds, Gen.wp_bind, Gen.wp_get]
    cases hc : v.text[m.p]? with
    | none => exact .ended hat hc
    | some c =>
      have hlt := (List.getElem?_eq_some_iff.mp hc).1
      simp only [Gen.wp_bind, Gen.wp_ite, Gen.wp_modify, Gen.wp_pure]
      refine ⟨fun hquote => ?_, fun hquote => ⟨fun hback => ?_, fun hback => ⟨fun hbreak => ?_,
        fun hbreak => ?_⟩⟩⟩
      · rw [hquote] at hc
        exact .closed hat hc
      · -- a backslash, and the escape sequence if there is a valid one
        rw [hback] at hc hquote
        have hstep : StringStep v quote width m.p (escapeEnd v m.p) := .escape hc hquote
        refine ⟨fun htaken => ?_, fun hrefused => ?_⟩
        · rw [escapeEnd, if_pos htaken] at hstep
          exact round _ _ htaken.2.1 htaken.2.2 hstep
        · rw [escapeEnd, if_neg hrefused] at hstep
          exact round _ _ (Nat.lt_succ_self _) hlt hstep
      · by_cases hcont : ∃ d, ContinuesAt v.text m.totalIndentWidth m.p d
        · -- the line break is continued, and the scan goes on behind the dots
          obtain ⟨d, n, hn, hcont⟩ := hcont
          obtain ⟨lineBegin, hline, hle, hdots⟩ := id hcont
          have hfar := lt_consumeLineBreak v.text m.p
          have hd := hline.le
          have hd' : d + 3 < v.text.length := hdots.1
          rw [Gen.wp, nextLineContinues_taken hline hn hle hdots]
          refine ⟨fun _ => ?_, fun h => absurd rfl h⟩
          have hstep : StringStep v quote width m.p (d + 4) :=
            .continued hc hquote hbreak ⟨n, hn, hwidth ▸ hcont⟩
          exact ih _ (show v.text.length - (d + 4) < fuel by omega) hd'
            ((lookedAt_totalIndentWidth ..).trans hwidth) (hat.tail hstep)
        · -- it is not, and an error is pending
          refine (nextLineContinues_refused fun n d hn h => hcont ⟨d, n, hn, h⟩).imp
            (fun r es m₁ h => ⟨fun hr => ?_, fun _ => ?_⟩) (fun _ _ _ _ => trivial) fun _ h => h
          · rw [h.1] at hr
            cases hr
          · rw [hwidth] at hcont
            exact .broken hat ⟨c, hc, hquote, hbreak, fun d hd => hcont ⟨d, hd⟩⟩ rfl
      · exact round _ _ (Nat.lt_succ_self _) hlt
          (.plain hc hquote hback (Bool.eq_false_iff.mpr hbreak))

end Loop

/-! ### Reports -/

/-- A character that starts a string. -/
def IsQuote (c : UInt8) : Prop := c = ch '"' ∨ c = ch '\'' ∨ c = ch '`'

instance (c : UInt8) : Decidable (IsQuote c) := inferInstanceAs (Decidable (_ ∨ _))

section Reports

variable {v : View} {ts : List Token} {es : List Event} {m m₁ : Lexer} {p : ℕ}

theorem IsQuote.startsToken {c : UInt8} (h : IsQuote c) : StartsToken c := by
  rcases h with rfl | rfl | rfl
  · exact ⟨by decide, by decide⟩
  · exact ⟨by decide, by decide⟩
  · exact ⟨by decide, by decide⟩

theorem scanToken_quote {c : UInt8} (h : IsQuote c) : scanToken v c = scanQuote v := by
  rcases h with rfl | rfl | rfl
  · rfl
  · rfl
  · rfl

/-- **Strings.** What is known of the state behind a string. -/
theorem scanQuote_exit (hp : m.p < v.text.length) (hsubstr : m.t.substr = ⟨m.p, 0⟩) :
    (scanQuote v).wp m
      (fun _ _ m' => m'.t.type = .quotedString ∧ ∃ q ≤ v.text.length, m'.t.substr.stop = q ∧
        StringExit v (v.byte m.p) m.totalIndentWidth (m.p + 1) m.pendingError m'.pendingError q)
      (fun _ _ _ => True) fun _ => False := by
  simp only [scanQuote, getStringLiteral, Gen.wp_bind, Gen.wp_get, Gen.wp_modify]
  refine ((stringRounds_exit (m := m.setP (m.p + 1)) [] (by omega) hp rfl .refl).and
    (stringRounds_spec (m := m.setP (m.p + 1)) _ _ (by omega) hp)).imp (fun _ _ m' h => ?_)
    (fun _ _ _ _ => trivial) fun _ h => h.1
  obtain ⟨hexit, ht, hle, hend, -⟩ := h
  have hbegin : m'.t.substr.begin ≤ m'.p := by
    rw [ht]
    change m.t.substr.begin ≤ _
    rw [hsubstr]
    exact (Nat.le_succ _).trans hle
  exact ⟨rfl, m'.p, hend, Span.stop_endAt hbegin, hexit⟩

/-- The string at `p` is closed by its quote, and not escaped. -/
def StringCloses (v : View) (width p : ℕ) : Prop :=
  ∃ q, StringAt v (v.byte p) width (p + 1) q ∧ ClosedAt v (v.byte p) q

/-- The string at `p` goes on up to the end of the text. -/
def StringRunsOut (v : View) (width p : ℕ) : Prop :=
  ∃ q, StringAt v (v.byte p) width (p + 1) q ∧ v.text[q]? = none

/-- The next token is an error. -/
def ErrorFollows (v : View) (m : Lexer) : Prop :=
  ∃ es m', advance v m = ⟨es, m', .returned true⟩ ∧ m'.t.type = .error

theorem errorFollows_of_pending {note : Note} (h : m.pendingError = some note) :
    ErrorFollows v m := by
  have h' : m.reset.pendingError = some note := h
  refine ⟨[], { m.reset with
    t := { m.reset.t with type := .error, value := .text note.toText }, pendingError := none }, ?_,
    rfl⟩
  simp only [advance, advanceWithin, Gen.modify_bind, Gen.get_bind, h']
  rfl

/-- At the end of the text no error follows. -/
theorem not_errorFollows (hv : v.Terminated) (hs : m.Valid) (herr : m.pendingError = none)
    (hstop : m.t.substr.stop = v.text.length) : ¬ ErrorFollows v m := by
  rintro ⟨es, m', hadv, htype⟩
  have hstep := (advance_step hv hs).returned hadv
  cases hstep with
  | error h =>
    rw [herr] at h
    cases h
  | indent => cases htype
  | dedent => cases htype
  | skip _ _ hlt hle =>
    omega
  | token _ _ _ hnul =>
    rw [hstop, View.byte_length hv] at hnul
    exact hnul rfl

/-- The call that yields a string, from its quote on. -/
theorem advance_exit (hv : v.Terminated) (hadv : advance v m = ⟨es, m₁, .returned true⟩)
    (hp : .dispatch p ∈ es) (hquote : IsQuote (v.byte p)) :
    m₁.t.type = .quotedString ∧ ∃ q ≤ v.text.length, m₁.t.substr.stop = q ∧
      StringExit v (v.byte p) m.totalIndentWidth (p + 1) none m₁.pendingError q := by
  have hp' : .dispatch p ∈ (advance v m).yields := by rwa [hadv]
  obtain ⟨es₀, m₀, hrun, hat, hle⟩ := advanceWithin_of_dispatch hp' hquote.startsToken
  have hlt : p < v.text.length := by
    refine lt_of_le_of_ne hle fun heq => hquote.startsToken.1 ?_
    rw [heq, View.byte_length hv]
  obtain rfl := hat.p_eq
  rw [← hat.total_eq, ← hat.error_eq]
  have hexit := scanQuote_exit (m := m₀) hlt (by rw [hat.t_eq])
  rw [scanToken_quote hquote] at hrun
  have hwp : (scanQuote v >>= fun _ => pure true).wp m₀
      (fun _ _ m' => m'.t.type = .quotedString ∧ ∃ q ≤ v.text.length, m'.t.substr.stop = q ∧
        StringExit v (v.byte m₀.p) m₀.totalIndentWidth (m₀.p + 1) m₀.pendingError m'.pendingError
          q)
      (fun _ _ _ => True) fun _ => False := by
    simp only [Gen.wp_bind, Gen.wp_pure]
    exact hexit
  have hafter := hadv.symm.trans hrun
  generalize hr : (scanQuote v >>= fun _ => pure true) m₀ = r at hafter
  obtain ⟨es₁, m', o⟩ := r
  cases hafter
  exact hwp.returned hr

theorem StringRunsOut.not_closes {width : ℕ} (h : StringRunsOut v width p) :
    ¬ StringCloses v width p := by
  obtain ⟨q, hq, hnone⟩ := h
  rintro ⟨r, hr, hclosed⟩
  rw [hq.final_unique hr (final_of_none hnone) hclosed.final] at hnone
  exact absurd (hnone.symm.trans hclosed) (fun h => by cases h)

/-- **The end of the text.** A string that goes on up to the end of the text is not reported. -/
theorem not_errorFollows_of_runsOut (hv : v.Terminated) (hrun : Run v ts m)
    (hadv : advance v m = ⟨es, m₁, .returned true⟩) (hp : .dispatch p ∈ es)
    (hquote : IsQuote (v.byte p)) (hout : StringRunsOut v m.totalIndentWidth p) :
    ¬ ErrorFollows v m₁ := by
  obtain ⟨-, q, hq, hstop, hexit⟩ := advance_exit hv hadv hp hquote
  generalize hnow : m₁.pendingError = now at hexit
  cases hexit with
  | closed hat hclosed => exact absurd ⟨_, hat, hclosed⟩ hout.not_closes
  | broken hat hbroken =>
    obtain ⟨r, hr, hnone⟩ := hout
    rw [hr.final_unique hat (final_of_none hnone) hbroken.final] at hnone
    obtain ⟨c, hc, -⟩ := hbroken
    rw [hc] at hnone
    cases hnone
  | ended hat hnone =>
    have hend : m₁.t.substr.stop = v.text.length := by
      have := List.getElem?_eq_none_iff.mp hnone
      omega
    exact not_errorFollows hv ((hrun.step hv hadv).valid (hrun.valid hv)) hnow hend

/-- **Unterminated strings.** In every run, wherever `advance` yields a string: an error follows
if its quote is missing, and none is left by a string that is closed, if and only if the string
does not go on up to the end of the text. -/
theorem unterminated_reported_iff (hv : v.Terminated) (hrun : Run v ts m)
    (hadv : advance v m = ⟨es, m₁, .returned true⟩) (hp : .dispatch p ∈ es)
    (hquote : IsQuote (v.byte p)) :
    (m₁.t.type = .quotedString ∧
      (¬ StringCloses v m.totalIndentWidth p → ErrorFollows v m₁) ∧
      (StringCloses v m.totalIndentWidth p → m₁.pendingError = none)) ↔
      ¬ StringRunsOut v m.totalIndentWidth p := by
  refine ⟨fun h hout => ?_, fun hout => ?_⟩
  · exact not_errorFollows_of_runsOut hv hrun hadv hp hquote hout (h.2.1 hout.not_closes)
  · obtain ⟨htype, q, -, -, hexit⟩ := advance_exit hv hadv hp hquote
    generalize hnow : m₁.pendingError = now at hexit
    cases hexit with
    | closed hat hclosed => exact ⟨htype, fun h => absurd ⟨_, hat, hclosed⟩ h, fun _ => rfl⟩
    | broken hat hbroken =>
      refine ⟨htype, fun _ => errorFollows_of_pending hnow, ?_⟩
      rintro ⟨r, hr, hclosed⟩
      rw [hr.final_unique hat hclosed.final hbroken.final] at hclosed
      obtain ⟨c, hc, hne, -⟩ := hbroken
      exact absurd (Option.some.inj (hc.symm.trans hclosed)) hne
    | ended hat hnone => exact absurd ⟨_, hat, hnone⟩ hout

/-- A call of a run that dispatches at a known address. -/
theorem exists_call {k : ℕ}
    (h : (runOf v k).any (fun r => (advance v r.2).ending = .returned true ∧
      .dispatch p ∈ (advance v r.2).yields) = true) :
    ∃ ts m es m₁, Run v ts m ∧ advance v m = ⟨es, m₁, .returned true⟩ ∧ .dispatch p ∈ es := by
  obtain ⟨r, hr, hcall⟩ := (Option.any_eq_true _ _).mp h
  obtain ⟨hend, hp⟩ := of_decide_eq_true hcall
  refine ⟨r.1, r.2, (advance v r.2).yields, (advance v r.2).state, runOf_sound hr, ?_, hp⟩
  rw [← hend]

/-- The text `"a"`. -/
def closedString : View := ⟨bytes ['"', 'a', '"'], fun _ => 0⟩

theorem closedString_closes (width : ℕ) : StringCloses closedString width 0 :=
  ⟨2, .single (.plain (c := ch 'a') rfl (by decide) (by decide) (by decide)), rfl⟩

/-- The string of `"a"` is closed, and nothing is reported. -/
theorem unterminated_reported_closed : closedString.Terminated ∧ ∃ ts m es m₁,
    Run closedString ts m ∧ advance closedString m = ⟨es, m₁, .returned true⟩ ∧
      .dispatch 0 ∈ es ∧ IsQuote (closedString.byte 0) ∧ m₁.t.type = .quotedString ∧
      m₁.pendingError = none := by
  obtain ⟨ts, m, es, m₁, hrun, hadv, hp⟩ :=
    @exists_call closedString 0 0 (by decide +kernel)
  have hcloses := closedString_closes m.totalIndentWidth
  have hv : closedString.Terminated := rfl
  have hquote : IsQuote (closedString.byte 0) := .inl rfl
  obtain ⟨htype, -, hnone⟩ := (unterminated_reported_iff hv hrun hadv hp hquote).mpr
    fun hout => hout.not_closes hcloses
  exact ⟨hv, ts, m, es, m₁, hrun, hadv, hp, hquote, htype, hnone hcloses⟩

/-- The text `"a`. -/
def openString : View := ⟨bytes ['"', 'a'], fun _ => 0⟩

theorem openString_runsOut (width : ℕ) : StringRunsOut openString width 0 :=
  ⟨2, .single (.plain (c := ch 'a') rfl (by decide) (by decide) (by decide)), rfl⟩

/-- The string of `"a` is not closed, and no error follows. -/
theorem unterminated_unreported : openString.Terminated ∧ ∃ ts m es m₁,
    Run openString ts m ∧ advance openString m = ⟨es, m₁, .returned true⟩ ∧
      .dispatch 0 ∈ es ∧ IsQuote (openString.byte 0) ∧
      ¬ StringCloses openString m.totalIndentWidth 0 ∧ ¬ ErrorFollows openString m₁ := by
  obtain ⟨ts, m, es, m₁, hrun, hadv, hp⟩ := @exists_call openString 0 0 (by decide +kernel)
  have hout := openString_runsOut m.totalIndentWidth
  have hv : openString.Terminated := rfl
  have hquote : IsQuote (openString.byte 0) := .inl rfl
  exact ⟨hv, ts, m, es, m₁, hrun, hadv, hp, hquote, hout.not_closes,
    not_errorFollows_of_runsOut hv hrun hadv hp hquote hout⟩

end Reports

end Intent.Old
