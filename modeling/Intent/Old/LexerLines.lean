import Intent.Old.LexerOperators

/-!
# The lines that a scanner looks at

Behind a line break, `scan_beginning_of_line` crosses blank lines up to a line that is not blank,
and `next_line_continues` decides from what it finds there. `LineAt` describes on the text alone
where that line is, and `Continuation` which lines are taken for a continuation: the lexer asks
for the next line, at the same indentation, with three dots. It counts lines in 32 bits, so that
`2 ^ 32` blank lines in between go unnoticed, and compares indentations by a total that only a
deeper line changes, so that a shallower line passes as well.

`nextLineContinues_taken` and `nextLineContinues_refused` are the two outcomes.
-/

namespace Intent.Old

/-! ### Lines -/

/-- Behind `b` there are `n` blank lines, and then a line that begins at `lineBegin` and has its
first character besides blanks at `endOfIndent`. -/
inductive LineAt (txt : Text) : ℕ → ℕ → ℕ → ℕ → Prop where
  | here {b : ℕ} {c : UInt8} : txt[scanSpacesAndTabs txt b]? = some c → isLineBreak c = false →
      LineAt txt b 0 b (scanSpacesAndTabs txt b)
  | blank {b n lineBegin endOfIndent : ℕ} :
      txt[scanSpacesAndTabs txt b]?.any isLineBreak = true →
      LineAt txt (consumeLineBreak txt (scanSpacesAndTabs txt b)) n lineBegin endOfIndent →
      LineAt txt b (n + 1) lineBegin endOfIndent

theorem LineAt.unique {txt : Text} {b n n' lineBegin lineBegin' p p' : ℕ}
    (h : LineAt txt b n lineBegin p) (h' : LineAt txt b n' lineBegin' p') :
    n = n' ∧ lineBegin = lineBegin' ∧ p = p' := by
  induction h generalizing n' with
  | here hc hbreak =>
    cases h' with
    | here => exact ⟨rfl, rfl, rfl⟩
    | blank hbreak' _ =>
      rw [hc, Option.any_some, hbreak] at hbreak'
      cases hbreak'
  | blank hbreak _ ih =>
    cases h' with
    | here hc hbreak' =>
      rw [hc, Option.any_some, hbreak'] at hbreak
      cases hbreak
    | blank _ h' =>
      obtain ⟨hn, hrest⟩ := ih h'
      exact ⟨congrArg (· + 1) hn, hrest⟩

theorem LineAt.le {txt : Text} {b n lineBegin p : ℕ} (h : LineAt txt b n lineBegin p) : b ≤ p := by
  induction h with
  | here => exact le_scanSpacesAndTabs _ _
  | @blank b _ _ _ _ _ ih =>
    have hle := le_scanSpacesAndTabs txt b
    have hmore := lt_consumeLineBreak txt (scanSpacesAndTabs txt b)
    omega

/-- There are three dots at `p`, and one more character. -/
def Dotted (txt : Text) (p : ℕ) : Prop :=
  p + 3 < txt.length ∧ slice txt p (p + 3) = bytes ['.', '.', '.']

instance (txt : Text) (p : ℕ) : Decidable (Dotted txt p) := inferInstanceAs (Decidable (_ ∧ _))

/-- The line behind `b`, after `n` blank lines, passes for a continuation at a total indent of
`width`, and its dots are at `p`. -/
def Continuation (txt : Text) (width b n p : ℕ) : Prop :=
  ∃ lineBegin, LineAt txt b n lineBegin p ∧ getIndentWidth txt lineBegin p ≤ width ∧ Dotted txt p

section Lines

variable {txt : Text} {m : Lexer} {b n lineBegin p : ℕ}

theorem scanSpacesAndTabs_lt_of_some {c : UInt8} (h : txt[scanSpacesAndTabs txt b]? = some c) :
    b < txt.length ∧ scanSpacesAndTabs txt b ≠ txt.length := by
  have hlt := (List.getElem?_eq_some_iff.mp h).1
  have hle := le_scanSpacesAndTabs txt b
  omega

/-- The members after a line is found. -/
def Lexer.atLine (m : Lexer) (n lineBegin p : ℕ) : Lexer :=
  { m with lineNumber := (m.lineNumber + n + 1) % 2 ^ 32, lineBegin := lineBegin, p := p }

/-- **A line is found.** -/
theorem scanLines_of_lineAt (h : LineAt txt b n lineBegin p) {fuel : ℕ}
    (hfuel : txt.length - b < fuel) :
    scanLines txt fuel (m.setP b) =
      (lookAtIndent txt p >>= fun _ => pure p) (m.atLine n lineBegin p) := by
  induction h generalizing m fuel with
  | here hc hbreak =>
    obtain ⟨hlt, hne⟩ := scanSpacesAndTabs_lt_of_some hc
    obtain ⟨fuel, rfl⟩ := Nat.exists_eq_succ_of_ne_zero (Nat.ne_of_gt (Nat.zero_lt_of_lt hfuel))
    simp only [scanLines, Gen.get_bind, Lexer.setP, hlt, if_true, Gen.modify_bind, if_neg hne, hc,
      Option.any_some, hbreak, Bool.false_eq_true, if_false]
    rfl
  | @blank b n lineBegin p hbreak _ ih =>
    have hlt := lt_length_of_any hbreak
    have hle := le_scanSpacesAndTabs txt b
    have hmore := lt_consumeLineBreak txt (scanSpacesAndTabs txt b)
    obtain ⟨fuel, rfl⟩ := Nat.exists_eq_succ_of_ne_zero (Nat.ne_of_gt (Nat.zero_lt_of_lt hfuel))
    have hrest := @ih (m.atLine 0 b b) fuel (by omega)
    have hat : (m.atLine 0 b b).atLine n lineBegin p = m.atLine (n + 1) lineBegin p := by
      simp only [Lexer.atLine, Lexer.mk.injEq, true_and, and_true]
      omega
    rw [hat] at hrest
    rw [← hrest]
    simp only [scanLines, Gen.get_bind, Lexer.setP, show b < txt.length by omega, if_true,
      Gen.modify_bind, if_neg hlt.ne, hbreak]
    rfl

/-- Nothing but the position and the number of the line has changed. -/
structure Lexer.Moved (m m' : Lexer) : Prop where
  t_eq : m'.t = m.t
  indentation_eq : m'.toIndentation = m.toIndentation
  error_eq : m'.pendingError = m.pendingError

/-- **No line is found.** The rest of the text is blank, and its end is reached. -/
theorem scanLines_of_not_lineAt (h : ∀ n lineBegin p, ¬ LineAt txt b n lineBegin p) {fuel : ℕ}
    (hfuel : txt.length - b < fuel) :
    (scanLines txt fuel).wp (m.setP b)
      (fun r es m' => txt.length ≤ r ∧ es = [] ∧ m.Moved m')
      (fun _ _ _ => False) fun _ => False := by
  induction fuel generalizing m b with
  | zero => omega
  | succ fuel ih =>
    simp only [scanLines, Gen.wp_bind, Gen.wp_get, Gen.wp_ite, Gen.wp_modify, Gen.wp_pure,
      List.nil_append, List.append_nil, Lexer.setP]
    refine ⟨fun hp => ⟨fun hend => ⟨le_rfl, trivial, rfl, rfl, rfl⟩, fun hend => ⟨fun hbreak => ?_,
      fun hbreak => ?_⟩⟩, fun hp => ⟨not_lt.mp hp, trivial, rfl, rfl, rfl⟩⟩
    · have hle := le_scanSpacesAndTabs txt b
      have hmore := lt_consumeLineBreak txt (scanSpacesAndTabs txt b)
      refine (ih (m := m.atLine 0 b b) (fun n lineBegin p hline => h _ _ _ (.blank hbreak hline))
        (by omega)).imp (fun r es m' hr => ?_) (fun _ _ _ h => h) fun _ h => h
      exact ⟨hr.1, hr.2.1, hr.2.2.1, hr.2.2.2, hr.2.2.3⟩
    · have hle := scanSpacesAndTabs_le txt hp.le
      have hlt : scanSpacesAndTabs txt b < txt.length := lt_of_le_of_ne hle hend
      refine absurd (.here (List.getElem?_eq_getElem hlt) ?_) (h 0 b _)
      rw [List.getElem?_eq_getElem hlt, Option.any_some] at hbreak
      simpa using hbreak

/-! ### Continuations -/

/-- What a line of the given width, at most the total, does to the indents. -/
def Indentation.notDeeper (s : Indentation) (width : ℕ) : Indentation :=
  if width < s.totalIndentWidth then s.request ((s.totalIndentWidth : ℤ) - width) else s

theorem lookAtIndent_of_le (h : getIndentWidth txt m.lineBegin p ≤ m.totalIndentWidth) :
    lookAtIndent txt p m =
      ⟨[.lineIndent (getIndentWidth txt m.lineBegin p) m.totalIndentWidth m.lastStackInsertIdx],
        { m with toIndentation := m.notDeeper (getIndentWidth txt m.lineBegin p) },
        .returned ()⟩ := by
  simp only [lookAtIndent, Gen.get_bind, Gen.emit_bind, if_neg (not_lt.mpr h)]
  unfold Indentation.notDeeper
  split_ifs
  · rfl
  · rfl

/-- There is room for one more indent. -/
def Indentation.HasRoom (s : Indentation) : Prop :=
  s.lastStackInsertIdx = noIndentYet ∨ s.lastStackInsertIdx + 1 < indentStackSize

theorem Indentation.HasRoom.notDeeper {s : Indentation} (h : s.HasRoom) (width : ℕ) :
    (s.notDeeper width).HasRoom := by
  unfold Indentation.notDeeper
  split_ifs
  · exact h
  · exact h

/-- A line that is deeper changes the total, or there is no room for it. -/
theorem lookAtIndent_of_lt (h : m.totalIndentWidth < getIndentWidth txt m.lineBegin p) :
    (lookAtIndent txt p).wp m
      (fun _ _ m' => m'.totalIndentWidth ≠ m.totalIndentWidth ∧ m'.t = m.t)
      (fun _ _ _ => ¬ m.HasRoom) fun _ => False := by
  simp only [lookAtIndent, pushIndent, Gen.wp_bind, Gen.wp_get, Gen.wp_emit, Gen.wp_ite,
    Gen.wp_modify, Gen.wp_raise]
  refine ⟨fun _ => ⟨fun _ => ⟨?_, trivial⟩, fun hfull hroom => hfull ?_⟩, fun hle => absurd h hle⟩
  · have htotal : ∀ c, (m.openStack c).totalIndentWidth = m.totalIndentWidth := by
      intro c
      unfold Indentation.openStack
      split_ifs <;> rfl
    simp only [Indentation.push]
    rw [htotal]
    omega
  · unfold Indentation.openStack
    split_ifs with hno
    · exact (show emptyIndentStack + 1 < indentStackSize by decide)
    · exact hroom.resolve_left hno

/-- The line number tells the next line from one behind blank lines. -/
theorem lineNumber_iff (l n : ℕ) : (l + 1) % 2 ^ 32 = (l + n + 1) % 2 ^ 32 ↔ n % 2 ^ 32 = 0 := by
  omega

/-- The members after a line of the given width, at most the total, is looked at. -/
def Lexer.lookedAt (m : Lexer) (n lineBegin p width : ℕ) : Lexer :=
  { m.atLine n lineBegin p with toIndentation := m.notDeeper width }

theorem lookedAt_totalIndentWidth (m : Lexer) (n lineBegin p width : ℕ) :
    (m.lookedAt n lineBegin p width).totalIndentWidth = m.totalIndentWidth := by
  change (m.notDeeper width).totalIndentWidth = _
  unfold Indentation.notDeeper
  split_ifs <;> rfl

theorem scanBeginningOfLine_of_le (h : LineAt txt b n lineBegin p)
    (hwidth : getIndentWidth txt lineBegin p ≤ m.totalIndentWidth) :
    scanBeginningOfLine txt (m.setP b) =
      ⟨[.lineIndent (getIndentWidth txt lineBegin p) m.totalIndentWidth m.lastStackInsertIdx],
        m.lookedAt n lineBegin p (getIndentWidth txt lineBegin p), .returned p⟩ := by
  rw [scanBeginningOfLine, scanLines_of_lineAt h (by omega),
    Gen.bind_of_returned (lookAtIndent_of_le hwidth)]
  rfl

/-- **A line is taken.** -/
theorem nextLineContinues_taken (h : LineAt txt b n lineBegin p) (hn : n % 2 ^ 32 = 0)
    (hwidth : getIndentWidth txt lineBegin p ≤ m.totalIndentWidth) (hdots : Dotted txt p) :
    nextLineContinues txt b m =
      ⟨[.lineIndent (getIndentWidth txt lineBegin p) m.totalIndentWidth m.lastStackInsertIdx],
        m.lookedAt n lineBegin (p + 3) (getIndentWidth txt lineBegin p), .returned true⟩ := by
  rw [nextLineContinues, Gen.get_bind, Gen.modify_bind,
    Gen.bind_of_returned (scanBeginningOfLine_of_le h hwidth), Gen.get_bind, if_neg, if_neg]
  · rfl
  · rw [not_or, not_le, not_not]
    exact hdots
  · rw [not_or, not_not, not_not, lookedAt_totalIndentWidth]
    exact ⟨(lineNumber_iff _ _).mpr hn, rfl⟩

/-- **No line is taken.** -/
theorem nextLineContinues_refused
    (h : ∀ n p, n % 2 ^ 32 = 0 → ¬ Continuation txt m.totalIndentWidth b n p) :
    (nextLineContinues txt b).wp m (fun r _ m' => r = false ∧ m'.t = m.t)
      (fun _ _ _ => ¬ m.HasRoom) fun _ => False := by
  have refuse : ∀ {E : Fault → List Event → Lexer → Prop} (next : ℕ) (m' : Lexer), m'.t = m.t →
      ((m.lineNumber + 1) % 2 ^ 32 = m'.lineNumber → m.totalIndentWidth = m'.totalIndentWidth →
        ¬ Dotted txt next) →
      ((if (m.lineNumber + 1) % 2 ^ 32 ≠ m'.lineNumber ∨
          m.totalIndentWidth ≠ m'.totalIndentWidth then pure false
        else if next + 3 ≥ txt.length ∨ slice txt next (next + 3) ≠ bytes ['.', '.', '.'] then
          pure false
        else do
          Gen.modify fun m => m.setP (next + 3)
          pure true : Lex Bool)).wp m' (fun r _ m' => r = false ∧ m'.t = m.t) E
        fun _ => False := by
    intro E next m' ht hdots
    simp only [Gen.wp_ite, Gen.wp_pure, Gen.wp_bind, Gen.wp_modify, true_and]
    refine ⟨fun _ => ht, fun hsame => ⟨fun _ => ht, fun hthere => ?_⟩⟩
    rw [not_or, not_not, not_not] at hsame
    rw [not_or, not_le, not_not] at hthere
    exact absurd hthere (hdots hsame.1 hsame.2)
  simp only [nextLineContinues, Gen.wp_bind, Gen.wp_get, Gen.wp_modify]
  by_cases hline : ∃ n lineBegin p, LineAt txt b n lineBegin p
  · -- a line is found: it is deeper, not the next one, or without dots
    obtain ⟨n, lineBegin, p, hline⟩ := hline
    rw [Gen.wp, scanBeginningOfLine, scanLines_of_lineAt hline (by omega)]
    change Gen.wp _ (m.atLine n lineBegin p) _ _ _
    simp only [Gen.wp_bind, Gen.wp_pure]
    rcases Nat.lt_or_ge m.totalIndentWidth (getIndentWidth txt lineBegin p) with hlt | hle
    · refine (lookAtIndent_of_lt hlt).imp (fun _ es m' hm' => ?_) (fun _ _ _ h => h) fun _ h => h
      exact refuse p m' hm'.2 fun _ htotal => absurd htotal.symm hm'.1
    · rw [Gen.wp, lookAtIndent_of_le hle]
      refine refuse p (m.lookedAt n lineBegin p (getIndentWidth txt lineBegin p)) rfl
        fun hnumber _ hdots => ?_
      exact h n p ((lineNumber_iff _ _).mp hnumber) ⟨lineBegin, hline, hle, hdots⟩
  · -- behind the end of the text there are no dots
    refine (scanLines_of_not_lineAt (fun n lineBegin p h => hline ⟨n, lineBegin, p, h⟩)
      (by omega)).imp (fun r es m' hr => ?_) (fun _ _ _ h => h.elim) fun _ h => h
    exact refuse r m' hr.2.2.t_eq fun _ _ hdots => absurd hdots.1 (by omega)

end Lines

/-! ### Parts of a text -/

section Parts

variable {txt w rest : Text} {b : ℕ}

theorem slice_of_drop (h : txt.drop b = w ++ rest) : slice txt b (b + w.length) = w := by
  rw [slice, h, Nat.add_sub_cancel_left, List.take_left]

theorem drop_add_of_drop (h : txt.drop b = w ++ rest) : txt.drop (b + w.length) = rest := by
  rw [← List.drop_drop, h, List.drop_left]

theorem getElem?_add_of_drop (h : txt.drop b = w ++ rest) : txt[b + w.length]? = rest.head? := by
  rw [← List.head?_drop, drop_add_of_drop h]

theorem getElem?_of_slice {i : ℕ} (h : slice txt b (b + w.length) = w) (hi : i < w.length) :
    txt[b + i]? = w[i]? := by
  conv_rhs => rw [← h]
  rw [slice, List.getElem?_take_of_lt (by omega), List.getElem?_drop]

/-- A scan over the bytes that pass a test. -/
theorem scanWhile_of_drop {f : UInt8 → Bool} (h : txt.drop b = w ++ rest)
    (hw : ∀ c ∈ w, f c = true) (hrest : rest.head?.any f = false) (hb : b ≤ txt.length) :
    scanWhile (fun i => txt[i]?.any f) b txt.length = b + w.length := by
  have hlen := congrArg List.length h
  rw [List.length_drop, List.length_append] at hlen
  refine scanWhile_eq (Nat.le_add_right _ _) (by omega) (fun i hi hlt => ?_) fun _ => ?_
  · have hget : txt[i]? = w[i - b]? := by
      rw [← List.getElem?_append_left (show i - b < w.length by omega), ← h, List.getElem?_drop,
        Nat.add_sub_cancel' hi]
    rw [hget, List.getElem?_eq_getElem (by omega), Option.any_some]
    exact hw _ (List.getElem_mem _)
  · rw [getElem?_add_of_drop h]
    exact hrest

theorem consumeLineBreak_newline (h : txt[b]? = some (ch '\n')) :
    consumeLineBreak txt b = b + 1 := by
  have hne : ¬ (txt[b]? = some (ch '\r') ∧ txt[b + 1]? = some (ch '\n')) := by
    rintro ⟨hcr, -⟩
    rw [h] at hcr
    exact absurd hcr (by decide)
  rw [consumeLineBreak, if_neg hne]

/-- The width of an indent. -/
def indentWidth (indent : Text) : ℕ :=
  indent.foldl (fun value c => (value + if c = ch '\t' then 4 else 1) % 2 ^ 32) 0

/-- **A line in a text**, behind its indent. -/
theorem lineAt_of_drop {indent : Text} {c : UInt8} (h : txt.drop b = indent ++ c :: rest)
    (hindent : ∀ d ∈ indent, isSpaceOrTab d = true) (hspace : isSpaceOrTab c = false)
    (hbreak : isLineBreak c = false) :
    LineAt txt b 0 b (b + indent.length) ∧
      getIndentWidth txt b (b + indent.length) = indentWidth indent := by
  have hlen := congrArg List.length h
  rw [List.length_drop, List.length_append, List.length_cons] at hlen
  have hscan : scanSpacesAndTabs txt b = b + indent.length :=
    scanWhile_of_drop h hindent hspace (by omega)
  constructor
  · rw [← hscan]
    refine .here ?_ hbreak
    rw [hscan, getElem?_add_of_drop h, List.head?_cons]
  · rw [getIndentWidth, slice_of_drop h]
    rfl

theorem dotted_of_drop {c : UInt8} (h : txt.drop b = ch '.' :: ch '.' :: ch '.' :: c :: rest) :
    Dotted txt b := by
  have hlen := congrArg List.length h
  rw [List.length_drop] at hlen
  simp only [List.length_cons] at hlen
  refine ⟨by omega, ?_⟩
  exact slice_of_drop (w := bytes ['.', '.', '.']) h

end Parts

end Intent.Old
