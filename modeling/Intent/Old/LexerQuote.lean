import Intent.Old.EscapeSequence
import Intent.Old.LexerSpans

/-!
# String literals

`get_string_literal` reads back what `add_utf8_or_escape_sequence` writes, with one exception:
it takes an escape sequence that stands for `UNICODE_REPLACEMENT_CHAR` for an invalid one, and
copies its characters. `literalText` is the value of the token in all cases, and
`quoted_literal_iff` says that it is the UTF-8 encoding of what was escaped exactly when no
codepoint is U+FFFD.
-/

namespace Intent.Old

/-! ### One round of `get_string_literal` -/

section Rounds

variable {v : View} {quote c : UInt8} {fuel p cp : ℕ} {acc rest : Text} {m : Lexer}
  {R : Text → List Event → Lexer → Prop} {E : Fault → List Event → Lexer → Prop}
  {H : List Event → Prop}

private theorem getElem?_of_drop (h : v.text.drop p = c :: rest) : v.text[p]? = some c := by
  rw [← List.head?_drop, h, List.head?_cons]

/-- A character that stands for itself. -/
theorem stringRounds_raw (h : v.text.drop m.p = c :: rest) (hquote : c ≠ quote)
    (hback : c ≠ ch '\\') (hbreak : isLineBreak c = false)
    (hnext : (stringRounds v quote fuel (acc ++ [c])).wp (m.setP (m.p + 1)) R E H) :
    (stringRounds v quote (fuel + 1) acc).wp m R E H := by
  simp only [stringRounds, Gen.wp_bind, Gen.wp_get, getElem?_of_drop h, if_neg hquote,
    if_neg hback, hbreak, Bool.false_eq_true, if_false, Gen.wp_modify, List.nil_append]
  exact hnext

/-- A backslash whose escape sequence is taken. -/
theorem stringRounds_taken {q : ℕ} (h : v.text.drop m.p = ch '\\' :: rest)
    (hquote : ch '\\' ≠ quote) (hscan : scanUnicodeEscapeSequence v (m.p + 1) = (cp, q))
    (hcp : cp ≠ unicodeReplacementChar) (hq : m.p < q) (hle : q ≤ v.text.length)
    (hnext : (stringRounds v quote fuel (acc ++ catCodepointToUtf8 cp)).wp (m.setP q) R E H) :
    (stringRounds v quote (fuel + 1) acc).wp m R E H := by
  simp only [stringRounds, Gen.wp_bind, Gen.wp_get, getElem?_of_drop h, if_neg hquote, if_true,
    hscan, if_pos (show cp ≠ unicodeReplacementChar ∧ q > m.p ∧ q ≤ v.text.length from
      ⟨hcp, hq, hle⟩), Gen.wp_modify, List.nil_append]
  exact hnext

/-- A backslash whose escape sequence stands for the replacement character is copied. -/
theorem stringRounds_refused {q : ℕ} (h : v.text.drop m.p = ch '\\' :: rest)
    (hquote : ch '\\' ≠ quote)
    (hscan : scanUnicodeEscapeSequence v (m.p + 1) = (unicodeReplacementChar, q))
    (hnext : (stringRounds v quote fuel (acc ++ [ch '\\'])).wp (m.setP (m.p + 1)) R E H) :
    (stringRounds v quote (fuel + 1) acc).wp m R E H := by
  simp only [stringRounds, Gen.wp_bind, Gen.wp_get, getElem?_of_drop h, if_neg hquote, if_true,
    hscan, ne_eq, not_true_eq_false, false_and, if_false, Gen.wp_modify, List.nil_append]
  exact hnext

/-- The closing quote. -/
theorem stringRounds_quote (h : v.text.drop m.p = quote :: rest)
    (hdone : R acc [] (m.setP (m.p + 1))) :
    (stringRounds v quote (fuel + 1) acc).wp m R E H := by
  simp only [stringRounds, Gen.wp_bind, Gen.wp_get, getElem?_of_drop h, if_true, Gen.wp_modify,
    Gen.wp_pure, List.nil_append]
  exact hdone

/-- A stretch of characters that stand for themselves. -/
theorem stringRounds_plain {w : Text}
    (hw : ∀ c ∈ w, c ≠ quote ∧ c ≠ ch '\\' ∧ isLineBreak c = false)
    (h : v.text.drop m.p = w ++ rest)
    (hnext : (stringRounds v quote fuel (acc ++ w)).wp (m.setP (m.p + w.length)) R E H) :
    (stringRounds v quote (fuel + w.length) acc).wp m R E H := by
  induction w generalizing acc m with
  | nil => simpa [Lexer.setP] using hnext
  | cons c w ih =>
    obtain ⟨⟨h₁, h₂, h₃⟩, hw⟩ := List.forall_mem_cons.mp hw
    refine stringRounds_raw h h₁ h₂ h₃ (ih hw (drop_succ_of_drop h) ?_)
    rw [List.append_assoc, List.singleton_append]
    have hadd : (m.setP (m.p + 1)).setP ((m.setP (m.p + 1)).p + w.length) =
        m.setP (m.p + (c :: w).length) := by
      simp only [Lexer.setP, List.length_cons]
      congr 1
      omega
    rw [hadd]
    exact hnext

/-! ### The characters of a literal -/

/-- What a literal denotes for an escaped codepoint. -/
def literalBytes (cp : ℕ) : Text :=
  if cp = unicodeReplacementChar then escaped cp else utf8Bytes cp

/-- What a literal denotes for escaped codepoints. -/
def literalText (cps : List ℕ) : Text := cps.flatMap literalBytes

/-- A codepoint is escaped with a backslash, or it is one byte that stands for itself. -/
theorem escaped_cases (hcp : IsCodepoint cp) : (escaped cp).head? = some (ch '\\') ∨
    ∃ c, escaped cp = [c] ∧ utf8Bytes cp = [c] ∧ c ≠ ch '"' ∧ c ≠ ch '\\' ∧
      isLineBreak c = false := by
  rcases Nat.lt_or_ge cp 0x80 with hlt | hge
  · have key : ∀ n : Fin 128, 1 ≤ n.val → (escaped n).head? = some (ch '\\') ∨
        escaped n = [UInt8.ofNat n] ∧ utf8Bytes n = [UInt8.ofNat n] ∧ UInt8.ofNat n ≠ ch '"' ∧
          UInt8.ofNat n ≠ ch '\\' ∧ isLineBreak (UInt8.ofNat n) = false := by decide
    exact (key ⟨cp, hlt⟩ hcp.1).imp id fun h => ⟨_, h⟩
  · left
    rw [escaped, if_neg (by omega)]
    split_ifs
    · rfl
    · rfl

theorem catCodepointToUtf8_eq (hcp : IsCodepoint cp) : catCodepointToUtf8 cp = utf8Bytes cp := by
  obtain ⟨a, w, hw, ha, -, hskip⟩ := (packed_utf8Bytes hcp).shape
  have hall : ∀ c ∈ utf8Bytes cp, decide (c ≠ 0) = true := by
    rw [hw]
    refine List.forall_mem_cons.mpr ⟨decide_eq_true ha, fun c hc => decide_eq_true fun h0 => ?_⟩
    have := hskip c hc
    rw [h0] at this
    exact absurd this (by decide)
  have htake : (utf8Bytes cp).takeWhile (· ≠ 0) = utf8Bytes cp :=
    List.takeWhile_eq_self_iff.mpr hall
  exact htake

private theorem add_length_le_of_drop {w : Text} (hw : 0 < w.length)
    (h : v.text.drop p = w ++ rest) : p + w.length ≤ v.text.length := by
  have hlen := congrArg List.length h
  rw [List.length_drop, List.length_append] at hlen
  omega

/-- **One codepoint.** -/
theorem stringRounds_codepoint (hcp : IsCodepoint cp) (h : v.text.drop m.p = escaped cp ++ rest)
    (hnext : ∀ n, fuel ≤ n → (stringRounds v (ch '"') n (acc ++ literalBytes cp)).wp
      (m.setP (m.p + (escaped cp).length)) R E H) :
    (stringRounds v (ch '"') (fuel + (escaped cp).length) acc).wp m R E H := by
  rcases escaped_cases hcp with hback | ⟨c, hc, hbytes, hplain⟩
  · -- the escape sequence is read in one round, if it is taken
    obtain ⟨w, hw⟩ := List.head?_eq_some_iff.mp hback
    have hscan := scan_escaped hcp h hback
    by_cases hrep : cp = unicodeReplacementChar
    · -- the backslash is copied, and the rest of the sequence stands for itself
      subst hrep
      have hspelled : escaped unicodeReplacementChar = ch '\\' :: bytes ['u', 'F', 'F', 'F', 'D'] :=
        rfl
      rw [literalBytes, if_pos rfl] at hnext
      rw [hspelled] at h hnext ⊢
      have hall : (bytes ['u', 'F', 'F', 'F', 'D']).all (fun c =>
          decide (c ≠ ch '"' ∧ c ≠ ch '\\' ∧ isLineBreak c = false)) = true := by decide
      refine stringRounds_refused h (by decide) hscan ?_
      refine @stringRounds_plain v (ch '"') fuel (acc ++ [ch '\\']) rest (m.setP (m.p + 1)) R E H
        (bytes ['u', 'F', 'F', 'F', 'D'])
        (fun c hc => of_decide_eq_true (List.all_eq_true.mp hall c hc)) (drop_succ_of_drop h) ?_
      rw [List.append_assoc]
      exact hnext fuel le_rfl
    · have hlen := add_length_le_of_drop (by rw [hw]; exact Nat.succ_pos _) h
      rw [literalBytes, if_neg hrep, ← catCodepointToUtf8_eq hcp] at hnext
      rw [hw] at h hnext hlen hscan ⊢
      exact stringRounds_taken h (by decide) hscan hrep (Nat.lt_add_of_pos_right (Nat.succ_pos _))
        hlen (hnext _ (Nat.le_add_right fuel w.length))
  · have hne : cp ≠ unicodeReplacementChar := by
      rintro rfl
      have hlen := congrArg List.length hbytes
      rw [List.length_singleton] at hlen
      exact absurd hlen (by decide)
    rw [literalBytes, if_neg hne, hbytes] at hnext
    rw [hc] at h hnext ⊢
    exact stringRounds_raw h hplain.1 hplain.2.1 hplain.2.2 (hnext _ le_rfl)

/-- **All codepoints**, up to the closing quote. -/
theorem stringRounds_literal {cps : List ℕ} (hcps : ∀ cp ∈ cps, IsCodepoint cp) :
    ∀ {m : Lexer} {fuel : ℕ} {acc : Text},
      v.text.drop m.p = cps.flatMap escaped ++ ch '"' :: rest →
      (cps.flatMap escaped).length < fuel →
      R (acc ++ literalText cps) [] (m.setP (m.p + (cps.flatMap escaped).length + 1)) →
      (stringRounds v (ch '"') fuel acc).wp m R E H := by
  induction cps with
  | nil =>
    intro m fuel acc h hfuel hdone
    obtain ⟨n, rfl⟩ := Nat.exists_eq_add_of_lt (Nat.zero_lt_of_lt hfuel)
    refine stringRounds_quote h ?_
    simpa [literalText] using hdone
  | cons cp cps ih =>
    intro m fuel acc h hfuel hdone
    obtain ⟨hcp, hcps⟩ := List.forall_mem_cons.mp hcps
    rw [List.flatMap_cons, List.append_assoc] at h
    rw [List.flatMap_cons, List.length_append] at hfuel
    obtain ⟨n, rfl⟩ := Nat.exists_eq_add_of_le (show (escaped cp).length ≤ fuel by omega)
    -- a round can leave more fuel than it is known to need
    rw [Nat.add_comm]
    refine stringRounds_codepoint hcp h fun k hk => ?_
    refine ih hcps ?_ (by omega) ?_
    · change v.text.drop (m.p + (escaped cp).length) = _
      rw [← List.drop_drop, h, List.drop_left]
    · have hp : (m.setP (m.p + (escaped cp).length)).setP
          ((m.setP (m.p + (escaped cp).length)).p + (cps.flatMap escaped).length + 1) =
          m.setP (m.p + ((cp :: cps).flatMap escaped).length + 1) := by
        simp only [Lexer.setP, List.flatMap_cons, List.length_append]
        congr 1
        omega
      rw [hp, List.append_assoc]
      exact hdone

end Rounds

/-! ### The token -/

section Token

variable {v : View} {c : UInt8} {rest : Text} {m : Lexer}

/-- A text that starts with neither blanks nor a line break: the constructor finds no indent. -/
theorem construct_no_indent (h : v.text = c :: rest) (hspace : isSpaceOrTab c = false)
    (hbreak : isLineBreak c = false) :
    (construct v.text).wp Lexer.initial
      (fun _ _ m => m.t.substr = ⟨0, 0⟩ ∧ m.pendingError = none ∧ m.indentDedentDelta = 0)
      (fun _ _ _ => False) fun _ => False := by
  have hget : v.text[0]? = some c := by rw [h, List.getElem?_cons_zero]
  have hlen : 0 < v.text.length := by rw [h]; exact Nat.succ_pos _
  have hscan : scanSpacesAndTabs v.text 0 = 0 := by
    refine scanWhile_of_false ?_
    rw [hget]
    exact hspace
  have hwidth : getIndentWidth v.text 0 0 = 0 := by
    rw [getIndentWidth, slice, Nat.sub_self, List.take_zero]
    rfl
  simp only [construct, scanBeginningOfLine, scanLines, Lexer.initial, Gen.wp_bind, Gen.wp_get,
    Gen.wp_modify, Gen.wp_ite, Gen.wp_pure, hscan, hlen, hget, Option.any_some, hbreak,
    lookAtIndent, Lexer.setP, hwidth, Gen.wp_emit]
  have hspan : (⟨0, 0⟩ : Span).endAt 0 = ⟨0, 0⟩ := rfl
  simp [hspan, hlen.ne]

/-- **The literal** is one token, from the opening quote to the closing one. -/
theorem advance_literal {cps : List ℕ} (hcps : ∀ cp ∈ cps, IsCodepoint cp)
    (h : v.text = ch '"' :: (cps.flatMap escaped ++ [ch '"'])) (hsubstr : m.t.substr = ⟨0, 0⟩)
    (herr : m.pendingError = none) (hδ : m.indentDedentDelta = 0) :
    (advance v).wp m
      (fun b _ m' => b = true ∧
        m'.t = ⟨.quotedString, ⟨0, v.text.length⟩, .text (literalText cps)⟩ ∧
        m'.pendingError = none ∧ m'.indentDedentDelta = 0)
      (fun _ _ _ => False) fun _ => False := by
  have hbyte : v.byte 0 = ch '"' := by rw [View.byte, h]; rfl
  have hreset : m.reset = { m with t := ⟨.none, ⟨0, 0⟩, .empty⟩, p := 0 } := by
    rw [Lexer.reset, hsubstr]
    rfl
  have hscan : scanToken v (ch '"') = scanQuote v := rfl
  have hlen : v.text.length = (cps.flatMap escaped).length + 2 := by
    rw [h, List.length_cons, List.length_append, List.length_singleton]
  obtain ⟨fuel, hfuel⟩ : ∃ fuel, v.text.length + 3 = fuel + 1 := ⟨_, rfl⟩
  rw [advance, hfuel]
  simp only [advanceWithin, Gen.wp_bind, Gen.wp_modify, Gen.wp_get, hreset, herr, hδ, hbyte,
    gt_iff_lt, lt_irrefl, Nat.not_lt_zero, if_false, Gen.wp_emit,
    if_neg (show ¬ ch '"' = 0 by decide), if_neg (show ¬ isLineBreak (ch '"') = true by decide),
    if_neg (show ¬ isSpaceOrTab (ch '"') = true by decide), hscan, scanQuote, getStringLiteral,
    Gen.wp_pure]
  refine @stringRounds_literal v [] _ _ _ cps hcps _ _ [] ?_ (by omega) ?_
  · change v.text.drop 1 = _
    rw [h, List.drop_succ_cons, List.drop_zero]
  · refine ⟨trivial, ?_, rfl, hδ⟩
    change (⟨_, Span.endAt ⟨0, 0⟩ (1 + (cps.flatMap escaped).length + 1), _⟩ : Token) = _
    rw [hlen, Nat.add_comm 1]
    rfl

theorem advance_at_end (hv : v.Terminated) (hstop : m.t.substr.stop = v.text.length)
    (herr : m.pendingError = none) (hδ : m.indentDedentDelta = 0) :
    (advance v m).ending = .returned false := by
  refine advanceWithin_stopped (Nat.succ_pos _) herr hδ (.inr ?_)
  rw [hstop, View.byte_length hv]

/-- The runs over a literal: no token, or the literal. -/
theorem literal_runs {cps : List ℕ} (hcps : ∀ cp ∈ cps, IsCodepoint cp) (hv : v.Terminated)
    (h : v.text = ch '"' :: (cps.flatMap escaped ++ [ch '"'])) :
    (∃ m, Run v [⟨.quotedString, ⟨0, v.text.length⟩, .text (literalText cps)⟩] m) ∧
      ∀ ts m, Run v ts m →
        ts = [] ∨ ts = [⟨.quotedString, ⟨0, v.text.length⟩, .text (literalText cps)⟩] := by
  obtain ⟨_, es₀, m₀, hstart, hsub, herr, hδ⟩ :=
    (construct_no_indent h (by decide) (by decide)).exists_returned
  obtain ⟨_, es₁, m₁, hadv, rfl, htok, herr', hδ'⟩ :=
    (advance_literal hcps h hsub herr hδ).exists_returned
  have hend : (advance v m₁).ending = .returned false := by
    refine advance_at_end hv ?_ herr' hδ'
    rw [htok, Span.stop, Nat.zero_add]
  constructor
  · refine ⟨m₁, ?_⟩
    have hrun := Run.next (Run.start hstart) hadv
    rwa [htok] at hrun
  · -- a run is a prefix of this one
    have key : ∀ ts m, Run v ts m → ts = [] ∧ m = m₀ ∨ ts = [m₁.t] ∧ m = m₁ := by
      intro ts m hrun
      induction hrun with
      | start hm =>
        rw [hstart] at hm
        exact .inl ⟨rfl, (Trace.mk.inj hm).2.1.symm⟩
      | next _ hm ih =>
        rcases ih with ⟨rfl, rfl⟩ | ⟨-, rfl⟩
        · rw [hadv] at hm
          obtain rfl := (Trace.mk.inj hm).2.1
          exact .inr ⟨rfl, rfl⟩
        · rw [hm] at hend
          exact absurd hend (by simp)
    intro ts m hrun
    rw [← htok]
    exact (key ts m hrun).imp And.left And.left

end Token

/-! ### Escaping and lexing -/

/-- The bytes that were written between two states of a buffer. -/
def Buffer.written (b b' : Buffer) : Text := (b'.memory.take (b'.buf.getD 0)).drop (b.buf.getD 0)

theorem Buffer.Writes.written_eq {b b' : Buffer} {w : Text} (h : b.Writes w b')
    (hp : b.buf.getD 0 ≤ b.memory.length) : b.written b' = w := by
  obtain ⟨p, hb, hb', hmem, -⟩ := h
  rw [hb, Option.getD_some] at hp
  rw [written, hb, hb', Option.getD_some, Option.getD_some, hmem]
  exact List.drop_left' (List.length_take_of_le hp)

theorem length_escaped_le (cp : ℕ) : (escaped cp).length ≤ 10 := by
  unfold escaped
  split_ifs
  · split <;> simp [length_hexChars]
  all_goals simp [length_hexChars]

theorem length_flatMap_escaped_le (cps : List ℕ) :
    (cps.flatMap escaped).length ≤ 10 * cps.length := by
  induction cps with
  | nil => simp
  | cons cp cps ih =>
    have := length_escaped_le cp
    rw [List.flatMap_cons, List.length_append, List.length_cons]
    omega

/-- What a buffer with room gets for a list of codepoints. -/
theorem addAll_escaped {cps : List ℕ} (hcps : ∀ cp ∈ cps, IsCodepoint cp) {b : Buffer} {p : ℕ}
    (hp : b.buf = some p) (hlen : 11 ≤ b.bufLength)
    (hroom : p + 10 * cps.length + 1 ≤ b.memory.length) :
    b.written (b.addAll Buffer.addUtf8OrEscapeSequence cps) = cps.flatMap escaped := by
  have hle := length_flatMap_escaped_le cps
  refine Buffer.Writes.written_eq (@Buffer.addAll_writes _ escaped 11 1 cps ?_ b p hp hlen
    (by omega)) (by rw [hp, Option.getD_some]; omega)
  intro b p cp hcp hp hlen hroom
  have hle := length_escaped_le cp
  obtain ⟨-, hw, hlen'⟩ :=
    Buffer.addUtf8OrEscapeSequence_succeeds (hcps cp hcp).1 hp (by omega) hroom
  exact ⟨hw, by omega⟩

theorem literalText_eq {cps : List ℕ} (h : unicodeReplacementChar ∉ cps) :
    literalText cps = encodeUtf8 cps := by
  refine List.flatMap_congr fun cp hcp => if_neg ?_
  rintro rfl
  exact h hcp

/-- The escape sequence is longer than the encoding. -/
theorem length_encodeUtf8_lt {cps : List ℕ} (h : unicodeReplacementChar ∈ cps) :
    (encodeUtf8 cps).length < (literalText cps).length := by
  have hle : ∀ cp, (utf8Bytes cp).length ≤ (literalBytes cp).length := by
    intro cp
    rw [literalBytes]
    split_ifs with hcp
    · rw [hcp]
      decide
    · exact le_rfl
  have hall : ∀ cps : List ℕ, (encodeUtf8 cps).length ≤ (literalText cps).length := by
    intro cps
    induction cps with
    | nil => exact le_rfl
    | cons cp cps ih =>
      rw [encodeUtf8_cons, literalText, List.flatMap_cons, List.length_append, List.length_append]
      exact Nat.add_le_add (hle cp) ih
  obtain ⟨before, after, rfl⟩ := List.append_of_mem h
  have hrep : (utf8Bytes unicodeReplacementChar).length <
      (literalBytes unicodeReplacementChar).length := by decide
  have h₁ := hall before
  have h₂ := hall after
  rw [encodeUtf8_append, encodeUtf8_cons]
  simp only [literalText, List.flatMap_append, List.flatMap_cons, List.length_append] at h₁ h₂ ⊢
  omega

/-- **Literals denote what was escaped.** For every list of codepoints and every buffer with
room for their escape sequences: lexing the sequences between quotes yields one string token
over the whole text with the UTF-8 encoding of the list as its value, and no error after it, if
and only if U+FFFD is not in the list. -/
theorem quoted_literal_iff (cps : List ℕ) (hcps : ∀ cp ∈ cps, 1 ≤ cp ∧ cp ≤ 0x10FFFF) (b : Buffer)
    (p : ℕ) (hp : b.buf = some p) (hlen : 11 ≤ b.bufLength)
    (hroom : p + 10 * cps.length + 1 ≤ b.memory.length) (v : View) (hv : v.Terminated)
    (htext : v.text =
      ch '"' :: (b.written (b.addAll Buffer.addUtf8OrEscapeSequence cps) ++ [ch '"'])) :
    ((∃ m, Run v [⟨.quotedString, ⟨0, v.text.length⟩, .text (encodeUtf8 cps)⟩] m) ∧
      ∀ ts m, Run v ts m → ∀ t ∈ ts.tail, t.type ≠ .error) ↔ 0xFFFD ∉ cps := by
  rw [addAll_escaped hcps hp hlen hroom] at htext
  obtain ⟨hrun, hruns⟩ := literal_runs hcps hv htext
  constructor
  · rintro ⟨⟨m, hm⟩, -⟩ hmem
    rcases hruns _ _ hm with heq | heq
    · exact absurd heq (by simp)
    · have hvalue : encodeUtf8 cps = literalText cps := by simpa using heq
      exact absurd (congrArg List.length hvalue) (length_encodeUtf8_lt hmem).ne
  · intro hno
    rw [literalText_eq hno] at hrun
    refine ⟨hrun, fun ts m hm t ht => ?_⟩
    rcases hruns ts m hm with rfl | rfl
    · exact absurd ht List.not_mem_nil
    · exact absurd ht List.not_mem_nil

/-- The literal of a letter and a line feed. -/
theorem quoted_literal_letter :
    (∃ m, Run ⟨bytes ['"', 'a', '\\', 'n', '"'], fun _ => 0⟩
        [⟨.quotedString, ⟨0, 5⟩, .text [0x61, 0x0A]⟩] m) ∧
      ∀ ts m, Run ⟨bytes ['"', 'a', '\\', 'n', '"'], fun _ => 0⟩ ts m →
        ∀ t ∈ ts.tail, t.type ≠ .error :=
  (quoted_literal_iff [0x61, 0x0A] (by simp) ⟨List.replicate 24 0, some 0, 24⟩ 0 rfl (by simp)
    (by simp) ⟨bytes ['"', 'a', '\\', 'n', '"'], fun _ => 0⟩ rfl rfl).mpr (by simp)

/-- The literal of U+FFFD denotes the six characters of its escape sequence. -/
theorem quoted_literal_replacement :
    (Buffer.written ⟨List.replicate 24 0, some 0, 24⟩
      (Buffer.addAll Buffer.addUtf8OrEscapeSequence ⟨List.replicate 24 0, some 0, 24⟩ [0xFFFD])) =
        bytes ['\\', 'u', 'F', 'F', 'F', 'D'] ∧
      ¬ ∃ m, Run ⟨bytes ['"', '\\', 'u', 'F', 'F', 'F', 'D', '"'], fun _ => 0⟩
        [⟨.quotedString, ⟨0, 8⟩, .text (encodeUtf8 [0xFFFD])⟩] m := by
  refine ⟨by decide +kernel, fun hex => ?_⟩
  obtain ⟨m, hm⟩ := hex
  have hvalue : (runOf ⟨bytes ['"', '\\', 'u', 'F', 'F', 'F', 'D', '"'], fun _ => 0⟩ 1).map
      Prod.fst = some [⟨.quotedString, ⟨0, 8⟩, .text (bytes ['\\', 'u', 'F', 'F', 'F', 'D'])⟩] := by
    decide +kernel
  have hrun := hm.runOf_eq
  rw [List.length_singleton] at hrun
  rw [hrun, Option.map_some] at hvalue
  replace hvalue := Option.some.inj hvalue
  dsimp only at hvalue
  exact absurd hvalue (by decide +kernel)

end Intent.Old
