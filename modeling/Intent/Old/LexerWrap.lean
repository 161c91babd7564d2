import Intent.Old.LexerFirst
import Intent.Old.LexerQuote

/-!
# Wrapped tokens

A comment, a string or a phrase can be continued on the next line, behind three dots at the same
indentation; the token is meant to hold the pieces joined by single spaces.

* Quoted strings are unwrapped (`stringRounds_wrapped`).
* Comments are unwrapped, but more than what is meant to continue one may be added to it:
  `Gains` describes the lines behind a comment that pass for continuations and add text.
* A phrase is never unwrapped: `get_phrase_token` leaves its loop behind the first line break, with
  a space appended, and what is on the next line becomes a token of its own.
-/

namespace Intent.Old

/-! ### Wrapped pieces -/

/-- Lines that continue another one, each with its indent and its piece. -/
def continued (lines : List (Text × Text)) : Text :=
  lines.flatMap fun l => ch '\n' :: l.1 ++ bytes ['.', '.', '.', ' '] ++ l.2

/-- A blank indent of the given width. -/
def IsIndent (width : ℕ) (indent : Text) : Prop :=
  (∀ c ∈ indent, isSpaceOrTab c = true) ∧ indentWidth indent = width

/-- The pieces of the lines, joined by single spaces. -/
def joined (first : Text) (lines : List (Text × Text)) : Text :=
  [ch ' '].intercalate (first :: lines.map Prod.snd)

theorem joined_nil (first : Text) : joined first [] = first :=
  List.append_nil _

theorem joined_cons (first : Text) (l : Text × Text) (lines : List (Text × Text)) :
    joined first (l :: lines) = first ++ ch ' ' :: joined l.2 lines := by
  rw [joined, List.map_cons, List.intercalate_cons_cons, List.append_assoc]
  rfl

theorem joined_ne_nil {first : Text} (h : first ≠ []) (lines : List (Text × Text)) :
    joined first lines ≠ [] := by
  cases lines with
  | nil => rwa [joined_nil]
  | cons l lines =>
    rw [joined_cons]
    exact List.append_ne_nil_of_left_ne_nil h _

theorem joined_append (a b : Text) (lines : List (Text × Text)) :
    joined (a ++ ch ' ' :: b) lines = a ++ ch ' ' :: joined b lines := by
  cases lines with
  | nil => rw [joined_nil, joined_nil]
  | cons l lines => rw [joined_cons, joined_cons, List.append_assoc, List.cons_append]

theorem continued_cons (l : Text × Text) (lines : List (Text × Text)) (after : Text) :
    continued (l :: lines) ++ after = ch '\n' :: (l.1 ++
      (bytes ['.', '.', '.', ' '] ++ (l.2 ++ (continued lines ++ after)))) := by
  simp only [continued, List.flatMap_cons, List.append_assoc, List.cons_append]

theorem length_continued_cons (l : Text × Text) (lines : List (Text × Text)) :
    (continued (l :: lines)).length =
      1 + l.1.length + 4 + l.2.length + (continued lines).length := by
  have hlen := congrArg List.length (continued_cons l lines [])
  simp only [List.append_nil, List.length_cons, List.length_append] at hlen
  rw [hlen, show (bytes ['.', '.', '.', ' ']).length = 4 from rfl]
  omega

/-- A piece of a comment or of a string. -/
structure IsPiece (s : Text) : Prop where
  ne_nil : s ≠ []
  within_line : ∀ c ∈ s, c ≠ 0 ∧ isLineBreak c = false
  head_not_blank : s.head?.any isSpaceOrTab = false
  last_not_blank : s.getLast?.any isSpaceOrTab = false

/-- A word is a piece. -/
theorem IsPiece.of_isalnum {s : Text} (hne : s ≠ []) (h : ∀ c ∈ s, isalnum c = true) :
    IsPiece s where
  ne_nil := hne
  within_line c hc := by
    refine ⟨ne_of_class (h c hc) (by decide), ?_⟩
    simp [isLineBreak, ne_of_class (d := ch '\r') (h c hc) (by decide),
      ne_of_class (d := ch '\n') (h c hc) (by decide)]
  head_not_blank := by
    rw [List.head?_eq_some_head hne]
    simp [isSpaceOrTab, ne_of_class (d := ch ' ') (h _ (List.head_mem hne)) (by decide),
      ne_of_class (d := ch '\t') (h _ (List.head_mem hne)) (by decide)]
  last_not_blank := by
    rw [List.getLast?_eq_some_getLast hne]
    simp [isSpaceOrTab, ne_of_class (d := ch ' ') (h _ (List.getLast_mem hne)) (by decide),
      ne_of_class (d := ch '\t') (h _ (List.getLast_mem hne)) (by decide)]

/-- Nothing follows, or another line does. -/
def EndsLine (after : Text) : Prop := after.head?.all isLineBreak = true

theorem EndsLine.continued {after : Text} (h : EndsLine after) (lines : List (Text × Text)) :
    EndsLine (continued lines ++ after) := by
  cases lines with
  | nil => exact h
  | cons l lines =>
    rw [continued_cons, EndsLine]
    rfl

section Continued

variable {txt indent piece rest : Text} {m : Lexer} {b width : ℕ}

/-- Where the dots of a continuation line are. -/
theorem lineAt_continued (hindent : IsIndent width indent)
    (h : txt.drop b = indent ++ (bytes ['.', '.', '.', ' '] ++ rest)) :
    LineAt txt b 0 b (b + indent.length) ∧ getIndentWidth txt b (b + indent.length) = width ∧
      Dotted txt (b + indent.length) := by
  obtain ⟨hblank, hwidth⟩ := hindent
  obtain ⟨hline, hw⟩ := lineAt_of_drop h hblank (by decide) (by decide)
  exact ⟨hline, hw.trans hwidth, dotted_of_drop (drop_add_of_drop h)⟩

/-- **A continuation line** is taken, and leaves the indents alone. -/
theorem nextLineContinues_continued (hindent : IsIndent m.totalIndentWidth indent)
    (h : txt.drop b = indent ++ (bytes ['.', '.', '.', ' '] ++ rest)) :
    nextLineContinues txt b m =
      ⟨[.lineIndent m.totalIndentWidth m.totalIndentWidth m.lastStackInsertIdx],
        m.atLine 0 b (b + indent.length + 3), .returned true⟩ := by
  obtain ⟨hline, hw, hdots⟩ := lineAt_continued hindent h
  have hsame : m.notDeeper m.totalIndentWidth = m.toIndentation := if_neg (lt_irrefl _)
  rw [nextLineContinues_taken hline rfl hw.le hdots, hw, Lexer.lookedAt, hsame]
  rfl

end Continued

/-! ### Comments -/

section Comments

variable {txt acc text piece after : Text} {m : Lexer} {b n lineBegin p e fuel width : ℕ}

theorem IsPiece.rtrim_eq (h : IsPiece piece) : rtrim piece = piece := by
  rw [rtrim, List.rdropWhile_eq_self_iff]
  intro hne hlast
  have hmem := List.getLast_mem hne
  obtain ⟨hnul, hbreak⟩ := h.within_line _ hmem
  have hblank := h.last_not_blank
  rw [List.getLast?_eq_some_getLast hne, Option.any_some] at hblank
  rw [isWhitespace, hblank, hbreak, Bool.or_self, Bool.false_or, beq_iff_eq] at hlast
  exact hnul hlast

/-- The line of a comment ends behind its piece. -/
theorem scanRestOfLine_piece {blanks : Text} (h : txt.drop p = blanks ++ (piece ++ after))
    (hblanks : ∀ c ∈ blanks, isSpaceOrTab c = true) (hpiece : IsPiece piece)
    (hafter : EndsLine after) (hp : p ≤ txt.length) :
    scanRestOfLine txt p = p + blanks.length + piece.length := by
  rw [← List.append_assoc] at h
  have hscan := scanWhile_of_drop (f := fun c => !isLineBreak c) h (fun c hc => ?_) ?_ hp
  · rw [List.length_append, ← Nat.add_assoc] at hscan
    exact hscan
  · rcases List.mem_append.mp hc with hc | hc
    · have hblank := hblanks c hc
      rw [isSpaceOrTab, Bool.or_eq_true, beq_iff_eq, beq_iff_eq] at hblank
      rcases hblank with rfl | rfl
      · decide
      · decide
    · simp [(hpiece.within_line c hc).2]
  · cases after with
    | nil => rfl
    | cons c after => simpa [EndsLine] using hafter

/-- **A line of a comment** adds its piece. -/
theorem appendCommentLine_piece {blanks : Text} (h : txt.drop p = blanks ++ (piece ++ after))
    (hblanks : ∀ c ∈ blanks, isSpaceOrTab c = true) (hpiece : IsPiece piece)
    (hp : p ≤ txt.length) :
    appendCommentLine txt p (p + blanks.length + piece.length) acc =
      if acc ≠ [] then acc ++ ch ' ' :: piece else piece := by
  have hspaces : scanSpacesAndTabs txt p = p + blanks.length := by
    refine scanWhile_of_drop h hblanks ?_ hp
    rw [List.head?_append_of_ne_nil _ hpiece.ne_nil]
    exact hpiece.head_not_blank
  have hpos := List.length_pos_iff.mpr hpiece.ne_nil
  rw [appendCommentLine, hspaces, if_pos (Nat.lt_add_of_pos_right hpos),
    slice_of_drop (drop_add_of_drop h), hpiece.rtrim_eq]
  split_ifs with hacc
  · rw [List.append_assoc, List.singleton_append]
  · rw [not_not.mp hacc, List.nil_append]

theorem appendCommentLine_eq_self (h : ¬ scanSpacesAndTabs txt p < b) :
    appendCommentLine txt p b acc = acc := if_neg h

theorem appendCommentLine_longer (hne : acc ≠ []) (h : scanSpacesAndTabs txt p < b) :
    acc <+: appendCommentLine txt p b acc ∧ appendCommentLine txt p b acc ≠ acc := by
  rw [appendCommentLine, if_pos h, if_pos hne, List.append_assoc]
  refine ⟨List.prefix_append _ _, fun heq => ?_⟩
  rw [List.append_right_eq_self] at heq
  cases heq

variable {P : Text → Lexer → Prop}

/-- A line of a comment that is continued. -/
theorem commentLines_taken (he : scanRestOfLine txt (m.p + 1) = e)
    (htext : appendCommentLine txt (m.p + 1) e acc = text)
    (hline : LineAt txt (e + 1) n lineBegin p) (hn : n % 2 ^ 32 = 0)
    (hwidth : getIndentWidth txt lineBegin p ≤ m.totalIndentWidth) (hdots : Dotted txt p)
    (hnext : (commentLines txt fuel text).wp
      (m.lookedAt n lineBegin (p + 3) (getIndentWidth txt lineBegin p)) (fun r _ m' => P r m')
      (fun _ _ _ => False) fun _ => False) :
    (commentLines txt (fuel + 1) acc).wp m (fun r _ m' => P r m') (fun _ _ _ => False)
      fun _ => False := by
  subst he htext
  simp only [commentLines, Gen.wp_bind, Gen.wp_get, Gen.wp_emit, Gen.wp_modify]
  have htaken := nextLineContinues_taken (m := m.setP (m.p + 1)) hline hn hwidth hdots
  change Gen.wp (nextLineContinues txt (scanRestOfLine txt (m.p + 1) + 1)) (m.setP (m.p + 1)) _ _ _
  rw [Gen.wp, htaken]
  exact hnext

/-- A line of a comment that is not continued. -/
theorem commentLines_refused (he : scanRestOfLine txt (m.p + 1) = e)
    (htext : appendCommentLine txt (m.p + 1) e acc = text) (hroom : m.HasRoom)
    (h : ∀ n p, n % 2 ^ 32 = 0 → ¬ Continuation txt m.totalIndentWidth (e + 1) n p)
    (hdone : ∀ m' : Lexer, m'.t = m.t → e < m'.p → P text m') :
    (commentLines txt (fuel + 1) acc).wp m (fun r _ m' => P r m') (fun _ _ _ => False)
      fun _ => False := by
  subst he htext
  simp only [commentLines, Gen.wp_bind, Gen.wp_get, Gen.wp_emit, Gen.wp_ite, Gen.wp_modify,
    Gen.wp_pure]
  change Gen.wp (nextLineContinues txt (scanRestOfLine txt (m.p + 1) + 1)) (m.setP (m.p + 1)) _ _ _
  refine ((nextLineContinues_refused h).and (nextLineContinues_spec _)).imp
    (fun r es m' hm' => ⟨fun hr => ?_, fun _ => ?_⟩) (fun _ _ _ hE => hE.1 hroom) fun _ hH => hH.1
  · rw [hm'.1.1] at hr
    cases hr
  · exact hdone m' hm'.1.2 hm'.2.le_p

/-- From `b` on there are lines that pass for continuations of a comment, and one of them adds
text to it. -/
inductive Gains (txt : Text) (width : ℕ) : ℕ → Prop where
  | here {b n p : ℕ} : Continuation txt width b n p → n % 2 ^ 32 = 0 →
      scanSpacesAndTabs txt (p + 4) < scanRestOfLine txt (p + 4) → Gains txt width b
  | later {b n p : ℕ} : Continuation txt width b n p → n % 2 ^ 32 = 0 →
      Gains txt width (scanRestOfLine txt (p + 4) + 1) → Gains txt width b

theorem gains_iff (h : Continuation txt width b n p) (hn : n % 2 ^ 32 = 0) :
    Gains txt width b ↔ scanSpacesAndTabs txt (p + 4) < scanRestOfLine txt (p + 4) ∨
      Gains txt width (scanRestOfLine txt (p + 4) + 1) := by
  have hsame : ∀ {n' p'}, Continuation txt width b n' p' → p' = p := by
    intro n' p' h'
    obtain ⟨lineBegin, hline, -⟩ := h
    obtain ⟨lineBegin', hline', -⟩ := h'
    exact (hline'.unique hline).2.2
  constructor
  · intro hgains
    cases hgains with
    | here h' _ htext =>
      rw [hsame h'] at htext
      exact .inl htext
    | later h' _ hgains =>
      rw [hsame h'] at hgains
      exact .inr hgains
  · rintro (htext | hgains)
    · exact .here h hn htext
    · exact .later h hn hgains

/-- A line without dots adds nothing. -/
theorem not_gains_of_lineAt {lineBegin : ℕ} (hline : LineAt txt b n lineBegin p)
    (hdots : ¬ Dotted txt p) : ¬ Gains txt width b := by
  have hnot : ∀ n' p', ¬ Continuation txt width b n' p' := by
    rintro n' p' ⟨lineBegin', hline', -, hdots'⟩
    rw [(hline'.unique hline).2.2] at hdots'
    exact hdots hdots'
  intro hgains
  cases hgains with
  | here h _ _ => exact hnot _ _ h
  | later h _ _ => exact hnot _ _ h

/-- **Behind the pieces.** The rest of the loop leaves the text of a comment as it is, if no line
adds text to it. -/
theorem commentLines_rest (he : scanRestOfLine txt (m.p + 1) = e)
    (htext : appendCommentLine txt (m.p + 1) e acc = text) (hne : text ≠ [])
    (hfuel : txt.length - m.p < fuel) (hp : m.p < txt.length) (hroom : m.HasRoom)
    (hwidth : m.totalIndentWidth = width) :
    (commentLines txt fuel acc).wp m
      (fun r _ m' => text <+: r ∧ (r = text ↔ ¬ Gains txt width (e + 1)) ∧ m'.t = m.t ∧ e < m'.p)
      (fun _ _ _ => False) fun _ => False := by
  induction fuel generalizing m acc e text with
  | zero => omega
  | succ fuel ih =>
    by_cases hnext : ∃ n p, n % 2 ^ 32 = 0 ∧ Continuation txt width (e + 1) n p
    · obtain ⟨n, p, hn, hcont⟩ := hnext
      obtain ⟨lineBegin, hline, hle, hdots⟩ := id hcont
      rw [← hwidth] at hle
      have hlt : m.p + 1 ≤ e := by
        rw [← he]
        exact le_scanWhile _ _ _
      have hfar : e + 1 ≤ p := hline.le
      have hthere : p + 3 < txt.length := hdots.1
      have hend : p + 4 ≤ scanRestOfLine txt (p + 4) := le_scanWhile _ _ _
      refine commentLines_taken he htext hline hn hle hdots ?_
      -- the line adds text, or what is said of the lines behind it decides
      by_cases hblank : scanSpacesAndTabs txt (p + 4) < scanRestOfLine txt (p + 4)
      · obtain ⟨hlonger, hother⟩ := appendCommentLine_longer hne hblank
        refine (ih rfl rfl (fun hnil => ?_) (show txt.length - (p + 3) < fuel by omega) hthere
          (hroom.notDeeper _) ((lookedAt_totalIndentWidth ..).trans hwidth)).imp
          (fun r _ m' hr => ?_) (fun _ _ _ h => h) fun _ h => h
        · refine hne (List.prefix_nil.mp ?_)
          rwa [← hnil]
        · obtain ⟨hpre, -, ht, hp'⟩ := hr
          refine ⟨hlonger.trans hpre, iff_of_false ?_ ?_, ht, ?_⟩
          · rintro rfl
            exact hother (hpre.eq_of_length_le hlonger.length_le)
          · exact not_not.mpr (.here hcont hn hblank)
          · exact (show e < scanRestOfLine txt (p + 4) by omega).trans hp'
      · refine (ih rfl (appendCommentLine_eq_self hblank) hne
          (show txt.length - (p + 3) < fuel by omega) hthere (hroom.notDeeper _)
          ((lookedAt_totalIndentWidth ..).trans hwidth)).imp
          (fun r _ m' hr => ?_) (fun _ _ _ h => h) fun _ h => h
        obtain ⟨hpre, hiff, ht, hp'⟩ := hr
        rw [gains_iff hcont hn, or_iff_right hblank]
        exact ⟨hpre, hiff, ht, (show e < scanRestOfLine txt (p + 4) by omega).trans hp'⟩
    · refine commentLines_refused he htext hroom (fun n p hn h => ?_) fun m' ht hm' => ?_
      · rw [hwidth] at h
        exact hnext ⟨n, p, hn, h⟩
      · refine ⟨List.prefix_rfl, iff_of_true rfl fun hgains => ?_, ht, hm'⟩
        cases hgains with
        | here hcont hn _ => exact hnext ⟨_, _, hn, hcont⟩
        | later hcont hn _ => exact hnext ⟨_, _, hn, hcont⟩

/-- **The pieces** of a comment, and what is behind them. -/
theorem commentLines_continued {lines : List (Text × Text)}
    (hindent : ∀ l ∈ lines, IsIndent width l.1) (hpiece : ∀ l ∈ lines, IsPiece l.2)
    (hafter : EndsLine after) (h : txt.drop e = continued lines ++ after)
    (he : scanRestOfLine txt (m.p + 1) = e)
    (htext : appendCommentLine txt (m.p + 1) e acc = text) (hne : text ≠ [])
    (hfuel : txt.length - m.p < fuel) (hp : m.p < txt.length) (hroom : m.HasRoom)
    (hwidth : m.totalIndentWidth = width) :
    (commentLines txt fuel acc).wp m
      (fun r _ m' => joined text lines <+: r ∧
        (r = joined text lines ↔ ¬ Gains txt width (e + (continued lines).length + 1)) ∧
        m'.t = m.t ∧ e + (continued lines).length < m'.p)
      (fun _ _ _ => False) fun _ => False := by
  induction lines generalizing m fuel acc e text with
  | nil =>
    rw [joined_nil]
    exact commentLines_rest he htext hne hfuel hp hroom hwidth
  | cons l lines ih =>
    obtain ⟨hindent₁, hindent⟩ := List.forall_mem_cons.mp hindent
    obtain ⟨hpiece₁, hpiece⟩ := List.forall_mem_cons.mp hpiece
    obtain ⟨fuel, rfl⟩ := Nat.exists_eq_succ_of_ne_zero (Nat.ne_of_gt (Nat.zero_lt_of_lt hfuel))
    rw [continued_cons] at h
    have hnext : txt.drop (e + 1) = l.1 ++ (bytes ['.', '.', '.', ' '] ++
        (l.2 ++ (continued lines ++ after))) := by
      rw [← List.drop_drop, h, List.drop_succ_cons, List.drop_zero]
    obtain ⟨hline, hw, hdots⟩ := lineAt_continued hindent₁ hnext
    have hlt : m.p + 1 ≤ e := by
      rw [← he]
      exact le_scanWhile _ _ _
    have hthere : e + 1 + l.1.length + 3 < txt.length := hdots.1
    have hline' : txt.drop (e + 1 + l.1.length + 4) =
        [] ++ (l.2 ++ (continued lines ++ after)) := by
      rw [← List.drop_drop, drop_add_of_drop hnext]
      rfl
    have hstop := scanRestOfLine_piece hline' (by simp) hpiece₁ (hafter.continued lines) hthere
    have happ : appendCommentLine txt (e + 1 + l.1.length + 4)
        (e + 1 + l.1.length + 4 + l.2.length) text = text ++ ch ' ' :: l.2 :=
      (appendCommentLine_piece hline' (by simp) hpiece₁ hthere).trans (if_pos hne)
    have hlen : e + (continued (l :: lines)).length =
        e + 1 + l.1.length + 4 + l.2.length + (continued lines).length := by
      rw [length_continued_cons]
      omega
    refine commentLines_taken he htext hline rfl (hw.le.trans hwidth.ge) hdots ?_
    rw [joined_cons, ← joined_append, hlen]
    exact ih hindent hpiece (drop_add_of_drop hline') hstop happ (by simp)
      (show txt.length - (e + 1 + l.1.length + 3) < fuel by omega) hthere (hroom.notDeeper _)
      ((lookedAt_totalIndentWidth ..).trans hwidth)

end Comments

/-! ### Strings -/

section Strings

variable {v : View} {quote : UInt8} {acc rest first : Text} {m : Lexer} {fuel width : ℕ}
  {P : Text → Lexer → Prop}

/-- A line break of a string that is continued. -/
theorem stringRounds_continued {indent : Text}
    (h : v.text.drop m.p = ch '\n' :: (indent ++ (bytes ['.', '.', '.', ' '] ++ rest)))
    (hquote : ch '\n' ≠ quote) (hindent : IsIndent m.totalIndentWidth indent)
    (hnext : (stringRounds v quote fuel (acc ++ [ch ' '])).wp
      (m.atLine 0 (m.p + 1) (m.p + 1 + indent.length + 4)) (fun r _ m' => P r m')
      (fun _ _ _ => False) fun _ => False) :
    (stringRounds v quote (fuel + 1) acc).wp m (fun r _ m' => P r m') (fun _ _ _ => False)
      fun _ => False := by
  have hbreak : v.text[m.p]? = some (ch '\n') := by rw [← List.head?_drop, h, List.head?_cons]
  have htaken := nextLineContinues_continued hindent (drop_succ_of_drop h)
  simp only [stringRounds, Gen.wp_bind, Gen.wp_get, hbreak, if_neg hquote,
    if_neg (show ch '\n' ≠ ch '\\' by decide), if_pos (show isLineBreak (ch '\n') = true by decide),
    consumeLineBreak_newline hbreak]
  rw [Gen.wp, htaken]
  exact hnext

/-- **The pieces** of a string, up to its closing quote. -/
theorem stringRounds_wrapped {lines : List (Text × Text)} (hquote : ch '\n' ≠ quote)
    (hindent : ∀ l ∈ lines, IsIndent m.totalIndentWidth l.1)
    (hfirst : ∀ c ∈ first, c ≠ quote ∧ c ≠ ch '\\' ∧ isLineBreak c = false)
    (hpiece : ∀ l ∈ lines, ∀ c ∈ l.2, c ≠ quote ∧ c ≠ ch '\\' ∧ isLineBreak c = false)
    (h : v.text.drop m.p = first ++ (continued lines ++ quote :: rest))
    (hfuel : first.length + (continued lines).length < fuel)
    (hdone : ∀ m' : Lexer, m'.t = m.t →
      m'.p = m.p + first.length + (continued lines).length + 1 → P (acc ++ joined first lines) m') :
    (stringRounds v quote fuel acc).wp m (fun r _ m' => P r m') (fun _ _ _ => False)
      fun _ => False := by
  induction lines generalizing m first acc fuel with
  | nil =>
    obtain ⟨n, rfl⟩ := Nat.exists_eq_add_of_le (show first.length ≤ fuel by omega)
    obtain ⟨n, rfl⟩ := Nat.exists_eq_succ_of_ne_zero (show n ≠ 0 by omega)
    rw [Nat.add_comm]
    refine stringRounds_plain hfirst h (stringRounds_quote (drop_add_of_drop h) ?_)
    rw [joined_nil] at hdone
    exact hdone _ rfl rfl
  | cons l lines ih =>
    obtain ⟨hindent₁, hindent⟩ := List.forall_mem_cons.mp hindent
    obtain ⟨hpiece₁, hpiece⟩ := List.forall_mem_cons.mp hpiece
    rw [length_continued_cons] at hfuel hdone
    rw [continued_cons] at h
    obtain ⟨n, rfl⟩ := Nat.exists_eq_add_of_le (show first.length ≤ fuel by omega)
    obtain ⟨n, rfl⟩ := Nat.exists_eq_succ_of_ne_zero (show n ≠ 0 by omega)
    rw [Nat.add_comm]
    have hline := drop_add_of_drop h
    refine stringRounds_plain hfirst h (stringRounds_continued hline hquote hindent₁ ?_)
    refine ih hindent hpiece₁ hpiece ?_ (by omega) fun m' ht hm' => ?_
    · exact drop_add_of_drop (w := bytes ['.', '.', '.', ' ']) (drop_add_of_drop
        (drop_succ_of_drop hline))
    · rw [List.append_assoc, List.append_assoc, List.singleton_append, ← joined_cons]
      refine hdone m' ht (hm'.trans ?_)
      change m.p + first.length + 1 + l.1.length + 4 + l.2.length + (continued lines).length + 1 = _
      omega

end Strings

/-! ### Wrapped comments and strings -/

/-- The quotes around a string. -/
inductive Quote where
  | double | single | back

/-- The character of a quote. -/
def Quote.char : Quote → UInt8
  | .double => ch '"'
  | .single => ch '\''
  | .back => ch '`'

/-- What can be wrapped, besides a phrase. -/
inductive Form where
  | comment
  | docComment
  | quoted (quote : Quote)

namespace Form

/-- What is before the first piece. -/
def opening : Form → Text
  | comment => bytes ['#', ' ']
  | docComment => bytes ['#', '#', '#', ' ']
  | quoted q => [q.char]

/-- What is behind the last piece. -/
def closing : Form → Text
  | comment => []
  | docComment => []
  | quoted q => [q.char]

/-- The type of the token. -/
def type : Form → TokenType
  | comment => .comment
  | docComment => .docComment
  | quoted _ => .quotedString

/-- A character that may be in a piece. -/
def Admits : Form → UInt8 → Prop
  | comment, _ => True
  | docComment, _ => True
  | quoted q, c => c ≠ q.char ∧ c ≠ ch '\\'

/-- A comment of either kind. -/
def IsComment : Form → Prop
  | comment => True
  | docComment => True
  | quoted _ => False

end Form

/-- The text begins with a line that continues another one at the given width of indent. -/
def BeginsContinuation (width : ℕ) (s : Text) : Prop :=
  ∃ indent piece rest, IsIndent width indent ∧ IsPiece piece ∧ EndsLine rest ∧
    s = indent ++ bytes ['.', '.', '.', ' '] ++ piece ++ rest

/-- A wrapped comment or string at the beginning of a text, with the end of the text or another
line behind it. -/
structure Wrapped where
  form : Form
  indent : Text
  first : Text
  lines : List (Text × Text)
  after : Text
  indent_blank : ∀ c ∈ indent, isSpaceOrTab c = true
  isIndent : ∀ l ∈ lines, IsIndent (indentWidth indent) l.1
  isPiece : ∀ s ∈ first :: lines.map Prod.snd, IsPiece s ∧ ∀ c ∈ s, form.Admits c
  after_ends : after = [] ∨ ∃ s, after = ch '\n' :: s ∧ ¬ BeginsContinuation (indentWidth indent) s

namespace Wrapped

variable (w : Wrapped)

/-- The lines of the comment or string. -/
def body : Text := w.indent ++ w.form.opening ++ w.first ++ continued w.lines ++ w.form.closing

/-- The whole text. -/
def text : Text := w.body ++ w.after

/-- The pieces, joined by single spaces. -/
def unwrapped : Text := joined w.first w.lines

/-- The first token besides an indent is the comment or the string, all of it, and its value is
what was wrapped. -/
def Unwraps (beyond : ℕ → UInt8) : Prop :=
  ∃ t, FirstToken ⟨w.text, beyond⟩ t ∧ t.type = w.form.type ∧ t.value = .text w.unwrapped ∧
    t.substr.begin = w.indent.length ∧ w.body.length ≤ t.substr.stop

end Wrapped

section Tokens

variable {txt first after : Text} {lines : List (Text × Text)} {m : Lexer} {width : ℕ}

/-- The text of a wrapped comment, from the space behind its mark on. -/
theorem getCommentToken_wrapped
    (h : txt.drop (m.p + 1) = [ch ' '] ++ (first ++ (continued lines ++ after)))
    (hindent : ∀ l ∈ lines, IsIndent width l.1) (hfirst : IsPiece first)
    (hpiece : ∀ l ∈ lines, IsPiece l.2) (hafter : EndsLine after) (hroom : m.HasRoom)
    (hwidth : m.totalIndentWidth = width) :
    (getCommentToken txt).wp m
      (fun r _ m' => (r = joined first lines ↔
          ¬ Gains txt width (m.p + 2 + first.length + (continued lines).length + 1)) ∧
        m'.t = m.t ∧ m.p + 2 + first.length + (continued lines).length < m'.p)
      (fun _ _ _ => False) fun _ => False := by
  have hlen := congrArg List.length h
  rw [List.length_drop, List.length_append, List.length_singleton] at hlen
  have hp : m.p + 1 ≤ txt.length := by omega
  have hblank : ∀ c ∈ [ch ' '], isSpaceOrTab c = true := by
    intro c hc
    rw [List.mem_singleton.mp hc]
    rfl
  have hstop := scanRestOfLine_piece h hblank hfirst (hafter.continued lines) hp
  have happ : appendCommentLine txt (m.p + 1) (m.p + 1 + 1 + first.length) [] = first :=
    appendCommentLine_piece h hblank hfirst hp
  refine (commentLines_continued hindent hpiece hafter ?_ hstop happ hfirst.ne_nil (by omega) hp
    hroom hwidth).imp (fun r _ m' hr => hr.2) (fun _ _ _ h => h) fun _ h => h
  exact drop_add_of_drop (drop_add_of_drop h)

/-- **Comments**, of either kind. -/
theorem scanHash_wrapped {form : Form} (hform : form.IsComment)
    (h : txt.drop m.p = form.opening ++ (first ++ (continued lines ++ after)))
    (hindent : ∀ l ∈ lines, IsIndent width l.1) (hfirst : IsPiece first)
    (hpiece : ∀ l ∈ lines, IsPiece l.2) (hafter : EndsLine after) (hroom : m.HasRoom)
    (hwidth : m.totalIndentWidth = width) :
    (scanHash txt).wp m
      (fun _ _ m' => ∃ r, m'.t = ⟨form.type, m.t.substr.endAt m'.p, .text r⟩ ∧
        (r = joined first lines ↔ ¬ Gains txt width
          (m.p + form.opening.length + first.length + (continued lines).length + 1)) ∧
        m.p + form.opening.length + first.length + (continued lines).length < m'.p)
      (fun _ _ _ => False) fun _ => False := by
  have hslice : slice txt (m.p + 1) (m.p + 3) = ((txt.drop m.p).drop 1).take 2 := by
    rw [slice, List.drop_drop, show m.p + 3 - (m.p + 1) = 2 by omega]
  simp only [scanHash, Gen.wp_bind, Gen.wp_get, Gen.wp_modify]
  cases form with
  | comment =>
    have hdoc : slice txt (m.p + 1) (m.p + 3) ≠ bytes ['#', '#'] := by
      rw [hslice, h]
      intro heq
      exact absurd (List.cons.inj heq).1 (by decide)
    rw [if_neg hdoc]
    refine (getCommentToken_wrapped ?_ hindent hfirst hpiece hafter hroom hwidth).imp
      (fun r _ m' hr => ?_) (fun _ _ _ h => h) fun _ h => h
    · rw [← List.drop_drop, h]
      rfl
    · refine ⟨r, ?_, hr.1, hr.2.2⟩
      rw [Lexer.setToken, if_neg hdoc, hr.2.1]
      rfl
  | docComment =>
    have hdoc : slice txt (m.p + 1) (m.p + 3) = bytes ['#', '#'] := by
      rw [hslice, h]
      rfl
    rw [if_pos hdoc]
    refine (getCommentToken_wrapped (m := m.setP (m.p + 2)) ?_ hindent hfirst hpiece hafter hroom
      hwidth).imp (fun r _ m' hr => ?_) (fun _ _ _ h => h) fun _ h => h
    · change txt.drop (m.p + 3) = _
      rw [← List.drop_drop, h]
      rfl
    · refine ⟨r, ?_, hr.1, hr.2.2⟩
      rw [Lexer.setToken, if_pos hdoc, hr.2.1]
      rfl
  | quoted q => exact hform.elim

/-- **Strings.** -/
theorem scanQuote_wrapped {v : View} {q : Quote}
    (h : v.text.drop m.p = q.char :: (first ++ (continued lines ++ q.char :: after)))
    (hindent : ∀ l ∈ lines, IsIndent m.totalIndentWidth l.1)
    (hfirst : ∀ c ∈ first, c ≠ q.char ∧ c ≠ ch '\\' ∧ isLineBreak c = false)
    (hpiece : ∀ l ∈ lines, ∀ c ∈ l.2, c ≠ q.char ∧ c ≠ ch '\\' ∧ isLineBreak c = false) :
    (scanQuote v).wp m
      (fun _ _ m' =>
        m'.t = ⟨.quotedString, m.t.substr.endAt m'.p, .text (joined first lines)⟩ ∧
        m'.p = m.p + 1 + first.length + (continued lines).length + 1)
      (fun _ _ _ => False) fun _ => False := by
  have hget : v.text[m.p]? = some q.char := by rw [← List.head?_drop, h, List.head?_cons]
  have hquote : ch '\n' ≠ q.char := by cases q <;> decide
  have hlen := congrArg List.length h
  simp only [List.length_drop, List.length_cons, List.length_append] at hlen
  simp only [scanQuote, getStringLiteral, Gen.wp_bind, Gen.wp_get, Gen.wp_modify]
  rw [View.byte, hget, Option.getD_some]
  refine (stringRounds_wrapped (m := m.setP (m.p + 1)) (P := fun r m' => r = joined first lines ∧
    m'.t = m.t ∧ m'.p = m.p + 1 + first.length + (continued lines).length + 1) hquote hindent hfirst
    hpiece (drop_succ_of_drop h) (by omega) fun m' ht hm' => ⟨List.nil_append _, ht, hm'⟩).imp
    (fun r _ m' hr => ?_) (fun _ _ _ h => h) fun _ h => h
  obtain ⟨rfl, ht, hp⟩ := hr
  refine ⟨?_, hp⟩
  rw [Lexer.setToken, ht]

end Tokens

namespace Wrapped

variable (w : Wrapped) (beyond : ℕ → UInt8)

/-- What is known of the first token. -/
structure Read (t : Token) : Prop where
  type_eq : t.type = w.form.type
  value_eq : ∃ r, t.value = .text r ∧ (r = w.unwrapped ↔ (w.form.IsComment →
    ¬ Gains w.text (indentWidth w.indent) (w.body.length + 1)))
  begin_eq : t.substr.begin = w.indent.length
  le_stop : w.body.length ≤ t.substr.stop

theorem endsLine_after : EndsLine w.after := by
  rcases w.after_ends with h | ⟨s, h, -⟩
  · rw [h]
    rfl
  · rw [h]
    rfl

theorem text_eq : w.text = w.indent ++ (w.form.opening ++ (w.first ++
    (continued w.lines ++ (w.form.closing ++ w.after)))) := by
  simp only [text, body, List.append_assoc]

theorem isPiece_first : IsPiece w.first := (w.isPiece _ List.mem_cons_self).1

theorem isPiece_lines : ∀ l ∈ w.lines, IsPiece l.2 := fun _ hl =>
  (w.isPiece _ (List.mem_cons_of_mem _ (List.mem_map_of_mem hl))).1

theorem body_length : w.body.length = w.indent.length + w.form.opening.length + w.first.length +
    (continued w.lines).length + w.form.closing.length := by
  simp only [body, List.length_append]

/-- A comment is read as far as its pieces go, and beyond if it gains text there. -/
theorem read_comment (h : w.form.IsComment) : ∃ t, FirstToken ⟨w.text, beyond⟩ t ∧ w.Read t := by
  obtain ⟨opened, hopening⟩ : ∃ opened, w.form.opening = ch '#' :: opened := by
    rcases hform : w.form with _ | _ | q
    · exact ⟨_, rfl⟩
    · exact ⟨_, rfl⟩
    · rw [hform] at h
      exact h.elim
  have hclosing : w.form.closing = [] := by
    rcases hform : w.form with _ | _ | q
    · rfl
    · rfl
    · rw [hform] at h
      exact h.elim
  have htype : w.form.type ≠ .indent := by
    cases w.form <;> exact fun h => by cases h
  have htext := w.text_eq
  rw [hclosing, List.nil_append] at htext
  refine firstToken_of_scan (v := ⟨w.text, beyond⟩) (htext.trans (by rw [hopening]; rfl))
    w.indent_blank ⟨by decide, by decide⟩ fun m hm => ?_
  have hdrop : w.text.drop m.reset.p = w.form.opening ++ (w.first ++
      (continued w.lines ++ w.after)) := by
    rw [hm.reset_p, htext, List.drop_left]
  refine (scanHash_wrapped h hdrop w.isIndent w.isPiece_first w.isPiece_lines w.endsLine_after
    hm.room hm.total_eq).imp (fun _ _ m' hr => ?_) (fun _ _ _ h => h) fun _ h => h
  obtain ⟨r, ht, hiff, hp⟩ := hr
  have hlen := w.body_length
  rw [hclosing, List.length_nil, Nat.add_zero] at hlen
  rw [hm.reset_p, ← hlen] at hiff hp
  rw [reset_substr, hm.stop_eq] at ht
  rw [ht]
  refine ⟨htype, rfl, ⟨r, rfl, hiff.trans ⟨fun hno _ => hno, fun hno => hno h⟩⟩, rfl, ?_⟩
  have hfar : w.indent.length ≤ m'.p := by omega
  rw [Span.stop_endAt hfar]
  exact hp.le

/-- A string is read up to its closing quote. -/
theorem read_string {q : Quote} (h : w.form = .quoted q) :
    ∃ t, FirstToken ⟨w.text, beyond⟩ t ∧ w.Read t := by
  have htext := w.text_eq
  have hpiece := w.isPiece
  have hlen := w.body_length
  rw [h] at htext hpiece hlen
  have hplain : ∀ s ∈ w.first :: w.lines.map Prod.snd, ∀ c ∈ s,
      c ≠ q.char ∧ c ≠ ch '\\' ∧ isLineBreak c = false := by
    intro s hs c hc
    obtain ⟨hs, hadmits⟩ := hpiece s hs
    exact ⟨(hadmits c hc).1, (hadmits c hc).2, (hs.within_line c hc).2⟩
  have hstart : StartsToken q.char := by
    cases q <;> exact ⟨by decide, by decide⟩
  have hscan : scanToken ⟨w.text, beyond⟩ q.char = scanQuote ⟨w.text, beyond⟩ := by
    cases q <;> rfl
  refine firstToken_of_scan (v := ⟨w.text, beyond⟩) htext w.indent_blank hstart fun m hm => ?_
  have hdrop : w.text.drop m.reset.p =
      q.char :: (w.first ++ (continued w.lines ++ q.char :: w.after)) := by
    rw [hm.reset_p, htext, List.drop_left]
    rfl
  rw [hscan]
  refine (scanQuote_wrapped hdrop (fun l hl => ?_) (hplain _ List.mem_cons_self) fun l hl =>
    hplain _ (List.mem_cons_of_mem _ (List.mem_map_of_mem hl))).imp (fun _ _ m' hr => ?_)
    (fun _ _ _ h => h) fun _ h => h
  · rw [reset_toIndentation, hm.total_eq]
    exact w.isIndent l hl
  · obtain ⟨ht, hp⟩ := hr
    rw [hm.reset_p] at hp
    rw [reset_substr, hm.stop_eq] at ht
    have hp' : m'.p = w.body.length := hp.trans hlen.symm
    rw [ht, hp']
    refine ⟨(fun htype => by cases htype), by rw [h]; rfl,
      ⟨_, rfl, iff_of_true rfl fun hform => ?_⟩, rfl, ?_⟩
    · rw [h] at hform
      exact hform.elim
    · have hfar : w.indent.length ≤ w.body.length := by omega
      rw [Span.stop_endAt hfar]

theorem exists_read : ∃ t, FirstToken ⟨w.text, beyond⟩ t ∧ w.Read t := by
  rcases h : w.form with _ | _ | q
  · exact w.read_comment beyond (by rw [h]; trivial)
  · exact w.read_comment beyond (by rw [h]; trivial)
  · exact w.read_string beyond h

end Wrapped

/-- **Wrapped comments and strings.** For every comment or string on one or more lines: its pieces
are yielded as one token that joins them by single spaces, if and only if it is a string, or a
comment that gains no text from the lines behind it. -/
theorem wrapped_unwraps_iff (w : Wrapped) (beyond : ℕ → UInt8) :
    w.Unwraps beyond ↔
      (w.form.IsComment → ¬ Gains w.text (indentWidth w.indent) (w.body.length + 1)) := by
  obtain ⟨t, ht, hread⟩ := w.exists_read beyond
  obtain ⟨r, hvalue, hiff⟩ := hread.value_eq
  rw [← hiff]
  constructor
  · rintro ⟨t', ht', -, hvalue', -⟩
    rw [ht'.unique ht, hvalue] at hvalue'
    exact Value.text.inj hvalue'
  · rintro rfl
    exact ⟨t, ht, hread.type_eq, hvalue, hread.begin_eq, hread.le_stop⟩

/-- A line that starts without a blank continues nothing at another width than zero. -/
theorem not_beginsContinuation {width : ℕ} {c : UInt8} {s : Text} (h : 0 < width)
    (hc : isSpaceOrTab c = false) : ¬ BeginsContinuation width (c :: s) := by
  rintro ⟨indent, piece, rest, ⟨hblank, hwidth⟩, -, -, hs⟩
  cases indent with
  | nil =>
    rw [← hwidth] at h
    exact absurd h (by decide)
  | cons d indent =>
    obtain rfl : c = d := (List.cons.inj hs).1
    rw [hblank c List.mem_cons_self] at hc
    cases hc

/-- A comment on three lines of a block, and a line behind the block. -/
def commentInBlock : Wrapped where
  form := .comment
  indent := bytes ['\t']
  first := bytes ['o', 'n', 'e']
  lines := [(bytes ['\t'], bytes ['t', 'w', 'o']), (bytes [' ', ' ', ' ', ' '], bytes ['3'])]
  after := bytes ['\n', 'x', ':']
  indent_blank := List.all_eq_true.mp rfl
  isIndent := List.forall_mem_cons.mpr ⟨⟨List.all_eq_true.mp rfl, rfl⟩,
    List.forall_mem_singleton.mpr ⟨List.all_eq_true.mp rfl, rfl⟩⟩
  isPiece := by
    have hword {s : Text} (hne : s ≠ []) (h : s.all isalnum = true) :
        IsPiece s ∧ ∀ c ∈ s, Form.comment.Admits c :=
      ⟨.of_isalnum hne (List.all_eq_true.mp h), fun _ _ => trivial⟩
    refine List.forall_mem_cons.mpr ⟨hword (by decide) rfl, ?_⟩
    exact List.forall_mem_cons.mpr ⟨hword (by decide) rfl,
      List.forall_mem_singleton.mpr (hword (by decide) rfl)⟩
  after_ends := .inr ⟨_, rfl, not_beginsContinuation (by decide) rfl⟩

theorem wrapped_unwraps_commentInBlock :
    commentInBlock.unwrapped = bytes ['o', 'n', 'e', ' ', 't', 'w', 'o', ' ', '3'] ∧
      commentInBlock.Unwraps fun _ => 0 := by
  have hdrop : commentInBlock.text.drop (commentInBlock.body.length + 1) =
      [] ++ ch 'x' :: bytes [':'] := rfl
  refine ⟨rfl, (wrapped_unwraps_iff commentInBlock _).mpr fun _ => ?_⟩
  exact not_gains_of_lineAt (lineAt_of_drop hdrop (by simp) rfl rfl).1 (by decide)

/-- A comment in front of a line with dots that is less deep gains the text of that line. -/
theorem wrapped_comment_gains :
    ∃ w : Wrapped, w.form = .comment ∧ w.unwrapped = bytes ['a'] ∧
      w.text = bytes ['\t', '#', ' ', 'a', '\n', '.', '.', '.', ' ', 'b'] ∧
      ¬ w.Unwraps fun _ => 0 := by
  refine ⟨⟨.comment, bytes ['\t'], bytes ['a'], [], bytes ['\n', '.', '.', '.', ' ', 'b'], ?_, ?_,
    ?_, .inr ⟨_, rfl, not_beginsContinuation (by decide) rfl⟩⟩, rfl, rfl, rfl, ?_⟩
  · simp [bytes, isSpaceOrTab]
  · simp
  · intro s hs
    obtain rfl := List.mem_singleton.mp hs
    refine ⟨⟨(fun h => by cases h), fun c hc => ?_, rfl, rfl⟩, fun _ _ => trivial⟩
    obtain rfl := List.mem_singleton.mp hc
    exact ⟨by decide, rfl⟩
  · rintro ⟨t, ht, -, hvalue, -⟩
    have hrun : (runOf ⟨bytes ['\t', '#', ' ', 'a', '\n', '.', '.', '.', ' ', 'b'], fun _ => 0⟩
        2).map Prod.fst = some ([⟨.indent, ⟨1, 0⟩, .empty⟩] ++
          [⟨.comment, ⟨1, 10⟩, .text (bytes ['a', ' ', 'b'])⟩]) := by
      decide +kernel
    obtain ⟨m, hm⟩ := exists_run hrun
    rw [← FirstToken.unique ⟨_, m, hm, by simp, by decide⟩ ht] at hvalue
    exact absurd hvalue (by decide)

/-! ### Phrases -/

/-- A phrase on several lines, at one indentation, followed by `: x`. -/
structure WrappedPhrase where
  indent : Text
  letter : UInt8
  letters : Text
  line : Text × Text
  lines : List (Text × Text)
  indent_blank : ∀ c ∈ indent, isSpaceOrTab c = true
  isalpha_letter : isalpha letter = true
  isalnum_letters : ∀ c ∈ letters, isalnum c = true
  isIndent : ∀ l ∈ line :: lines, IsIndent (indentWidth indent) l.1
  isalnum_words : ∀ l ∈ line :: lines, l.2 ≠ [] ∧ ∀ c ∈ l.2, isalnum c = true

namespace WrappedPhrase

variable (w : WrappedPhrase)

/-- The first word. -/
def first : Text := w.letter :: w.letters

/-- The lines of the phrase. -/
def text : Text :=
  w.indent ++ w.first ++ continued (w.line :: w.lines) ++ bytes [':', ' ', 'x']

/-- The words, joined by single spaces. -/
def unwrapped : Text := joined w.first (w.line :: w.lines)

end WrappedPhrase

/-- The tokens besides indents begin with a noun or a verb of the given value, and a colon. -/
def YieldsPhrase (v : View) (value : Text) : Prop :=
  ∃ ts t colon m, Run v (ts ++ [t, colon]) m ∧ (∀ s ∈ ts, s.type = .indent) ∧
    (t.type = .noun ∨ t.type = .verb) ∧ t.value = .text value ∧ colon.type = .operatorColon

theorem YieldsPhrase.firstToken {v : View} {value : Text} (h : YieldsPhrase v value) :
    ∃ t, FirstToken v t ∧ t.value = .text value := by
  obtain ⟨ts, t, colon, m, hrun, hts, htype, hvalue, -⟩ := h
  have hlast : ∃ m, Run v (ts ++ [t]) m := by
    generalize hl : ts ++ [t, colon] = l at hrun
    cases hrun with
    | start _ =>
      exact absurd hl (by simp)
    | @next ts' es m₀ m hrun hadv =>
      have hsplit : ts ++ [t] ++ [colon] = ts' ++ [m.t] := by
        rw [List.append_assoc]
        exact hl
      rw [(List.append_inj' hsplit rfl).1]
      exact ⟨m₀, hrun⟩
  obtain ⟨m, hrun⟩ := hlast
  refine ⟨t, ⟨ts, m, hrun, hts, fun hindent => ?_⟩, hvalue⟩
  rw [hindent] at htype
  exact htype.elim (fun h => by cases h) fun h => by cases h

private theorem operators_not_letters : ∀ r ∈ operators, isalpha (ch r.1) = false := by
  decide

section Phrases

variable {v : View} {c : UInt8} {m : Lexer}

theorem startsToken_of_isalpha (hc : isalpha c = true) : StartsToken c :=
  .of_class hc (by decide)

theorem scanToken_letter (hc : isalpha c = true) : scanToken v c = getPhraseToken v := by
  unfold scanToken
  rw [operatorAt_eq_none operators_not_letters hc]
  dsimp only
  rw [if_neg (ne_of_class hc (by decide)), if_neg (not_quote_of_class hc (by decide)), if_pos hc]

/-- **The loop is left** behind a word whose line is continued, and the word gets a space. -/
theorem getPhraseToken_continued {word indent rest : Text}
    (h : v.text.drop m.p =
      word ++ (ch '\n' :: indent ++ (bytes ['.', '.', '.', ' '] ++ rest)))
    (hword : ∀ c ∈ word, isalnum c = true) (hindent : IsIndent m.totalIndentWidth indent)
    (hp : m.p ≤ v.text.length) :
    (getPhraseToken v).wp m
      (fun _ _ m' => (m'.t.type = .noun ∨ m'.t.type = .verb) ∧
        m'.t.value = .text (word ++ [ch ' ']))
      (fun _ _ _ => False) fun _ => False := by
  have hscan : scanWhile (fun i => v.text[i]?.any isPhraseByte) m.p v.text.length =
      m.p + word.length :=
    scanWhile_of_drop h (fun c hc => by simp [isPhraseByte, hword c hc])
      (show isPhraseByte (ch '\n') = false by decide) hp
  have hbreak : v.text[m.p + word.length]? = some (ch '\n') := getElem?_add_of_drop h
  have hnext := nextLineContinues_continued (m := m.setP (m.p + word.length)) hindent
    (drop_succ_of_drop (drop_add_of_drop h))
  simp only [getPhraseToken, Gen.wp_bind, Gen.wp_get, Gen.wp_modify, hscan, Gen.wp_ite, hbreak,
    consumeLineBreak_newline hbreak, slice_of_drop h]
  refine ⟨fun _ => ?_, fun hno => absurd rfl hno⟩
  rw [Gen.wp, hnext]
  refine ⟨?_, rfl⟩
  change (if _ then TokenType.verb else .noun) = _ ∨ (if _ then TokenType.verb else .noun) = _
  split_ifs
  · exact .inr rfl
  · exact .inl rfl

end Phrases

namespace WrappedPhrase

variable (w : WrappedPhrase) (beyond : ℕ → UInt8)

/-- The first token is the first word, with a space. -/
theorem firstToken : ∃ t, FirstToken ⟨w.text, beyond⟩ t ∧
    t.value = .text (w.first ++ [ch ' ']) := by
  obtain ⟨rest, hrest⟩ : ∃ rest, w.text = w.indent ++ (w.first ++
      (ch '\n' :: w.line.1 ++ (bytes ['.', '.', '.', ' '] ++ rest))) := by
    refine ⟨w.line.2 ++ (continued w.lines ++ bytes [':', ' ', 'x']), ?_⟩
    simp only [text, continued, List.flatMap_cons, List.append_assoc, List.cons_append]
  have hletters : ∀ c ∈ w.first, isalnum c = true := by
    refine List.forall_mem_cons.mpr ⟨?_, w.isalnum_letters⟩
    rw [isalnum, w.isalpha_letter, Bool.true_or]
  obtain ⟨t, ht, -, hvalue⟩ := firstToken_of_scan (v := ⟨w.text, beyond⟩)
    (P := fun t => (t.type = .noun ∨ t.type = .verb) ∧ t.value = .text (w.first ++ [ch ' ']))
    hrest w.indent_blank (startsToken_of_isalpha w.isalpha_letter) fun m hm => by
      rw [scanToken_letter w.isalpha_letter]
      have hdrop : w.text.drop m.reset.p = w.first ++
          (ch '\n' :: w.line.1 ++ (bytes ['.', '.', '.', ' '] ++ rest)) := by
        rw [hm.reset_p, hrest, List.drop_left]
      refine (getPhraseToken_continued hdrop hletters ?_ ?_).imp
        (fun _ _ m' h => ⟨?_, h⟩) (fun _ _ _ h => h) fun _ h => h
      · rw [reset_toIndentation, hm.total_eq]
        exact w.isIndent w.line (List.mem_cons_self)
      · change m.reset.p ≤ w.text.length
        rw [hm.reset_p, hrest, List.length_append]
        exact Nat.le_add_right _ _
      · rcases h.1 with htype | htype
        · rw [htype]
          decide
        · rw [htype]
          decide
  exact ⟨t, ht, hvalue⟩

/-- That is not all of the phrase. -/
theorem unwrapped_ne : w.first ++ [ch ' '] ≠ w.unwrapped := by
  rw [unwrapped, joined_cons]
  intro heq
  have htail := List.append_cancel_left heq
  exact joined_ne_nil (w.isalnum_words w.line List.mem_cons_self).1 _ (List.cons.inj htail).2.symm

end WrappedPhrase

/-- **Phrases are not unwrapped.** Whatever the words of a phrase on several lines are: it is not
yielded as one noun or verb that holds the words joined by single spaces, with the colon behind
it. -/
theorem wrapped_phrase_split (w : WrappedPhrase) (beyond : ℕ → UInt8) :
    ¬ YieldsPhrase ⟨w.text, beyond⟩ w.unwrapped := by
  intro h
  obtain ⟨t, ht, hvalue⟩ := w.firstToken beyond
  obtain ⟨t', ht', hvalue'⟩ := h.firstToken
  rw [ht.unique ht', hvalue'] at hvalue
  exact w.unwrapped_ne (Value.text.inj hvalue).symm

/-- A phrase on three lines of a block. -/
def phraseInBlock : WrappedPhrase where
  indent := bytes ['\t']
  letter := ch 'o'
  letters := bytes ['n', 'e']
  line := (bytes ['\t'], bytes ['t', 'w', 'o'])
  lines := [(bytes [' ', ' ', ' ', ' '], bytes ['3'])]
  indent_blank := List.all_eq_true.mp rfl
  isalpha_letter := rfl
  isalnum_letters := List.all_eq_true.mp rfl
  isIndent := List.forall_mem_cons.mpr ⟨⟨List.all_eq_true.mp rfl, rfl⟩,
    List.forall_mem_singleton.mpr ⟨List.all_eq_true.mp rfl, rfl⟩⟩
  isalnum_words := List.forall_mem_cons.mpr ⟨⟨by decide, List.all_eq_true.mp rfl⟩,
    List.forall_mem_singleton.mpr ⟨by decide, List.all_eq_true.mp rfl⟩⟩

theorem wrapped_phrase_split_phraseInBlock :
    ¬ YieldsPhrase ⟨phraseInBlock.text, fun _ => 0⟩
      (bytes ['o', 'n', 'e', ' ', 't', 'w', 'o', ' ', '3']) :=
  wrapped_phrase_split phraseInBlock _

/-- The phrase `a b`, wrapped, is yielded as two nouns. -/
theorem wrapped_phrase_split_two_words :
    ¬ YieldsPhrase ⟨bytes ['a', '\n', '.', '.', '.', ' ', 'b', ':', ' ', 'x'], fun _ => 0⟩
      (joined (bytes ['a']) [([], bytes ['b'])]) := by
  intro h
  obtain ⟨t, ht, hvalue⟩ := h.firstToken
  have hrun : (runOf ⟨bytes ['a', '\n', '.', '.', '.', ' ', 'b', ':', ' ', 'x'], fun _ => 0⟩ 1).map
      Prod.fst = some ([] ++ [⟨.noun, ⟨0, 5⟩, .text (bytes ['a', ' '])⟩]) := by
    decide +kernel
  obtain ⟨m, hm⟩ := exists_run hrun
  rw [← FirstToken.unique ⟨[], m, hm, by simp, by decide⟩ ht] at hvalue
  exact absurd hvalue (by decide)

end Intent.Old
