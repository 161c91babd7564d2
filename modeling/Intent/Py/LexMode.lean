import Intent.Py.LexBreak

/-!
# When the lexer completes

The outcome of lexing depends on a small part of the text: where lines start, which brackets
are open, and whether the text ends in blanks right after a bracket. `Mode` is a left-to-right
reading of the text that keeps exactly this, and `Lexable text` says that the reading ends
well. It fails in two ways only:

* `Mode.stuck`: a space directly follows the leading tabs of a line, and the comparison with
  a four-space indent never ends;
* a text that ends in a non-empty run of blanks directly after the `[` of a hypertext section,
  after the `]` of one without a divider or of one inside of another, or after the character that
  follows a divider: the scan of these blanks returns a triple that the caller cannot unpack. The
  `]` of an outermost section with a divider is read again as text.

A line starts at the beginning of the text and after every line feed that is not inside
brackets; a `;` in the name of a term turns the rest of the line into a paragraph.

The generators are related to the reading one by one (`hypertext_mode`, `paragraph_mode`,
`line_mode`, …): each is entered at a position from which the reading goes on as its context
says, returns at such a position, raises only if the text ends in such blanks (`BlankEnd`), and
with enough fuel hangs only if the reading is stuck. Their tokens agree with the reading too
(`Marked`): an error is reported only in a text that ends inside of a section, and a line starts
after every `END_LINE`.
-/

namespace Intent.Py

/-- What has been read since the last bracket: nothing, only blanks, or some text. -/
inductive Run where
  | fresh | blank | text
  deriving DecidableEq, Repr

/-- The run after one more character. -/
def Run.next (r : Run) (c : Char) : Run :=
  if isBlank c then (if r = .text then .text else .blank) else .text

/-- Where a left-to-right reading of a text stands. -/
inductive Mode where
  /-- Among the leading tabs of a line. -/
  | lineStart
  /-- Among leading blanks that are not indents. -/
  | lead
  /-- In the name of a term. -/
  | name
  /-- In the definition of a term. -/
  | defn
  /-- In a paragraph, with `depth` brackets open. -/
  | text (depth : ℕ) (run : Run)
  /-- Right after the `|` of a section that is inside `depth` others. -/
  | divider (depth : ℕ)
  /-- After the divider of a section that is inside `depth` others. -/
  | target (depth : ℕ) (run : Run)
  /-- In a comparison that never ends. -/
  | stuck
  deriving DecidableEq, Repr

/-- One character of a paragraph with `d` brackets open. -/
def textStep (d : ℕ) (r : Run) (c : Char) : Mode :=
  if c = '[' then .text (d + 1) .fresh
  else match d with
    | 0 => if c = '\n' then .lineStart else .text 0 (r.next c)
    | d + 1 =>
      if c = ']' then .text d .fresh
      else if c = '|' then .divider d
      else .text (d + 1) (r.next c)

/-- One character. The `]` that ends a section with a divider is read again by its context. -/
def Mode.step : Mode → Char → Mode
  | .lineStart, c =>
    if c = '\t' then .lineStart
    else if c = ' ' then .stuck
    else if c = '\r' then .lead
    else if c = '\n' then .lineStart
    else if c = '-' then .name
    else textStep 0 .fresh c
  | .lead, c =>
    if isBlank c then .lead
    else if c = '\n' then .lineStart
    else if c = '-' then .name
    else textStep 0 .fresh c
  | .name, c =>
    if c = ':' then .defn
    else if c = ';' then .text 0 .text
    else if c = '\n' then .lineStart
    else .name
  | .defn, c => if c = '\n' then .lineStart else .defn
  | .text d r, c => textStep d r c
  | .divider d, _ => .target d .fresh
  | .target d r, c => if c = ']' then textStep d .fresh c else .target d (r.next c)
  | .stuck, _ => .stuck

/-- The text may end here. -/
def Mode.Ends : Mode → Bool
  | .text _ .blank => false
  | .target _ .blank => false
  | .stuck => false
  | _ => true

/-- Only blanks have been read since the last bracket, or since the character after a divider. -/
def Mode.AtBlanks : Mode → Bool
  | .text _ .blank => true
  | .target _ .blank => true
  | _ => false

/-- The mode after the first `i` characters. -/
def modeAt (text : List Char) (i : ℕ) : Mode := (text.take i).foldl Mode.step .lineStart

/-- The reading of the whole text ends well. -/
def Lexable (text : List Char) : Prop := (modeAt text text.length).Ends = true

instance (text : List Char) : Decidable (Lexable text) :=
  inferInstanceAs (Decidable (_ = true))

/-- The text ends in blanks that cannot be read. -/
def BlankEnd (text : List Char) : Prop := (modeAt text text.length).AtBlanks = true

instance (text : List Char) : Decidable (BlankEnd text) :=
  inferInstanceAs (Decidable (_ = true))

/-- The text is not read to its end. -/
def Stuck (text : List Char) : Prop := modeAt text text.length = .stuck

/-- There are two ways to end badly. -/
theorem not_lexable_iff {text : List Char} : ¬ Lexable text ↔ BlankEnd text ∨ Stuck text := by
  unfold Lexable BlankEnd Stuck
  rcases modeAt text text.length with _ | _ | _ | _ | ⟨d, _ | _ | _⟩ | d | ⟨d, _ | _ | _⟩ | _ <;>
    simp [Mode.Ends, Mode.AtBlanks]

theorem BlankEnd.not_stuck {text : List Char} (h : BlankEnd text) : ¬ Stuck text := by
  intro hstuck
  rw [BlankEnd, hstuck] at h
  cases h

/-! ### Reading on -/

section Modes

variable {text : List Char} {i j k d fuel : ℕ}

theorem modeAt_succ (h : i < text.length) :
    modeAt text (i + 1) = (modeAt text i).step (charAt text i) := by
  have hget : charAt text i = text[i] := by
    rw [charAt, List.getD_eq_getElem?_getD, List.getElem?_eq_getElem h, Option.getD_some]
  rw [modeAt, List.take_add_one, List.getElem?_eq_getElem h, List.foldl_append, hget]
  rfl

@[simp]
theorem Run.next_text (c : Char) : Run.next .text c = .text := by
  simp [Run.next]

theorem Run.next_of_blank {r : Run} {c : Char} (hr : r ≠ .text) (hc : isBlank c = true) :
    r.next c = .blank := by
  simp [Run.next, hr, hc]

theorem Run.next_of_not_blank {r : Run} {c : Char} (hc : isBlank c = false) :
    r.next c = .text := by
  simp [Run.next, hc]

/-- A reading that stays in the family `f` over `[i, j)` knows at the end whether the
stretch was blank; `b` is its first character that is not. -/
theorem modeAt_family {f : Run → Mode} {b : ℕ} (hij : i < j) (hj : j ≤ text.length)
    (hfirst : modeAt text (i + 1) = (f .fresh).step (charAt text i))
    (hstep : ∀ k r, i ≤ k → k < j → (f r).step (charAt text k) = f (r.next (charAt text k)))
    (hib : i ≤ b) (hlead : BlankRun text i b) (hb : b < j → isBlank (charAt text b) = false) :
    modeAt text j = f (if j ≤ b then .blank else .text) := by
  suffices h : ∀ m, i + 1 + m ≤ j →
      modeAt text (i + 1 + m) = f (if i + 1 + m ≤ b then .blank else .text) by
    obtain ⟨m, rfl⟩ := Nat.exists_eq_add_of_le hij
    exact h m le_rfl
  intro m
  induction m with
  | zero =>
    intro hm
    rw [Nat.add_zero, hfirst, hstep i .fresh le_rfl (by omega)]
    split_ifs with h
    · rw [Run.next_of_blank (by decide) (hlead i le_rfl h)]
    · obtain rfl : i = b := by omega
      rw [Run.next_of_not_blank (hb (by omega))]
  | succ m ih =>
    intro hm
    rw [show i + 1 + (m + 1) = i + 1 + m + 1 by omega, modeAt_succ (by omega),
      ih (by omega), hstep _ _ (by omega) (by omega)]
    rcases lt_trichotomy (i + 1 + m) b with h | h | h
    · rw [if_pos (by omega), if_pos (by omega),
        Run.next_of_blank (by decide) (hlead _ (by omega) h)]
    · rw [if_pos (by omega), if_neg (by omega), h, Run.next_of_not_blank (hb (by omega))]
    · rw [if_neg (by omega), if_neg (by omega), Run.next_text]

/-- A reading that does not leave the mode `m` over `[i, j)`. -/
theorem modeAt_stays {m : Mode} (hij : i ≤ j) (hj : j ≤ text.length)
    (hfirst : modeAt text i = m)
    (hstep : ∀ k, i ≤ k → k < j → m.step (charAt text k) = m) : modeAt text j = m := by
  induction j, hij using Nat.le_induction with
  | base => exact hfirst
  | succ j hij ih =>
    rw [modeAt_succ (by omega), ih (by omega) fun k h₁ h₂ => hstep k h₁ (by omega),
      hstep j hij (by omega)]

/-- Once stuck, always stuck. -/
theorem modeAt_stuck (hi : modeAt text i = .stuck) (h : i ≤ text.length) :
    Stuck text :=
  modeAt_stays h le_rfl hi fun _ _ _ => rfl

/-- The reading goes on from `i` as it does in mode `m`, or the text is over and ends well. -/
def GoesOn (text : List Char) (m : Mode) (i : ℕ) : Prop :=
  (i < text.length ∧ modeAt text (i + 1) = m.step (charAt text i)) ∨
    (text.length ≤ i ∧ Lexable text)

theorem GoesOn.of_mode {m : Mode} (h : modeAt text i = m) (hm : m.Ends = true)
    (hi : i ≤ text.length) : GoesOn text m i := by
  rcases Nat.lt_or_ge i text.length with hlt | hge
  · exact .inl ⟨hlt, by rw [modeAt_succ hlt, h]⟩
  · obtain rfl : i = text.length := by omega
    exact .inr ⟨hge, by rw [Lexable, h, hm]⟩

/-- **Breaks and readings.** Where a break scan runs over a family of modes, the reading
agrees with its outcome: an unreadable break means that the text ends in blanks, a break at
the end that it ends in text, and a break inside that the stop character is read next. -/
theorem break_mode {any : List Char} {f : Run → Mode} (hi : i < text.length)
    (hfirst : modeAt text (i + 1) = (f .fresh).step (charAt text i))
    (hstep : ∀ c r, c ∉ any → (f r).step c = f (r.next c))
    (hany : ∀ c ∈ any, isBlank c = false) :
    (breakOnAny text any i text.length = none → modeAt text text.length = f .blank) ∧
      ∀ b e j c, breakOnAny text any i text.length = some (b, e, j, c) →
        (j = text.length → modeAt text text.length = f .text) ∧
        (j < text.length → ∃ r, modeAt text (j + 1) = (f r).step (charAt text j)) := by
  have hblank : ∀ k, isBlank (charAt text k) = true → charAt text k ∉ any := by
    intro k hk hmem
    rw [hany _ hmem] at hk
    cases hk
  constructor
  · intro h
    have hrun := (breakOnAny_eq_none_iff hi.le).mp h
    have := modeAt_family (b := text.length) hi le_rfl hfirst
      (fun k r h₁ h₂ => hstep _ r (hblank k (hrun k h₁ h₂))) hi.le hrun (by omega)
    simpa using this
  · intro b e j c h
    have hb := isBreak_of_breakOnAny hi.le h
    have hfam : ∀ k, i ≤ k → k < j → charAt text k ∉ any := by
      intro k h₁ h₂
      rcases Nat.lt_or_ge k b with hkb | hkb
      · exact hblank k (hb.lead_blank k h₁ hkb)
      · exact hb.not_any k hkb h₂
    have hmode : i < j → modeAt text j = f (if j ≤ b then .blank else .text) := fun hij =>
      modeAt_family hij hb.le_stop hfirst (fun k r h₁ h₂ => hstep _ r (hfam k h₁ h₂))
        hb.le_begin hb.lead_blank fun _ => hb.begin_not_blank
    constructor
    · intro hj
      have := hmode (by omega)
      rwa [if_neg (by have := hb.begin_lt; omega), hj] at this
    · intro hj
      rcases Nat.eq_or_lt_of_le hb.le with rfl | hij
      · exact ⟨.fresh, hfirst⟩
      · exact ⟨_, by rw [modeAt_succ hj, hmode hij]⟩

/-! ### What tokens say of the reading -/

/-- The reading stands inside of a section. -/
def Mode.InSection : Mode → Bool
  | .text (_ + 1) _ => true
  | .divider _ => true
  | .target _ _ => true
  | _ => false

/-- The text ends inside of a section. -/
def Unclosed (text : List Char) : Prop := (modeAt text text.length).InSection = true

/-- The tokens agree with the reading: an error is reported only if the text ends inside of a
section, and a line starts after each `END_LINE`. -/
def Marked (text : List Char) (ts : List Token) : Prop :=
  ∀ t ∈ ts, (t.ttype = .lexError → Unclosed text) ∧
    (t.ttype = .endLine → modeAt text (t.begin + 1) = .lineStart)

@[simp]
theorem marked_nil : Marked text [] := by
  intro t ht
  cases ht

@[simp]
theorem marked_append {ts us : List Token} :
    Marked text (ts ++ us) ↔ Marked text ts ∧ Marked text us := List.forall_mem_append

/-- Tokens of all other types say nothing. -/
theorem marked_of_type {ts : List Token} (tt : TokType) (hts : ∀ t ∈ ts, t.ttype = tt)
    (herror : tt ≠ .lexError) (hline : tt ≠ .endLine) : Marked text ts := by
  intro t ht
  rw [hts t ht]
  exact ⟨fun h => absurd h herror, fun h => absurd h hline⟩

theorem marked_token {s : LexState} {tt : TokType} {b e : ℕ} (herror : tt ≠ .lexError)
    (hline : tt ≠ .endLine) : Marked text [s.token tt b e] :=
  marked_of_type tt (fun t ht => by rw [List.mem_singleton.mp ht]; rfl) herror hline

theorem marked_optText {s : LexState} {c : Bool} {b e : ℕ} :
    Marked text (if c then [s.token .text b e] else []) := by
  cases c with
  | false => exact marked_nil
  | true => exact marked_token (by decide) (by decide)

/-! ### The generators -/

variable {s : LexState}

@[simp]
theorem wp_emitIf {ε : Type} {c : Bool} {t : Token} {R : Unit → List Token → LexState → Prop}
    {E : ε → List Token → LexState → Prop} {H : List Token → Prop} :
    (emitIf c t).wp s R E H ↔ R () (if c then [t] else []) s := Iff.rfl

/-- Reporting an error only yields tokens. -/
theorem wp_lexError {code : ErrorCode} {R : Unit → List Token → LexState → Prop}
    {E : PyError → List Token → LexState → Prop} {H : List Token → Prop}
    (h : ∀ ts, (Unclosed text → Marked text ts) → R () ts s) :
    (lexError text code).wp s R E H := by
  have herror (hopen : Unclosed text) :
      Marked text [{ s.token .lexError s.i s.i with error := some code }] := by
    intro t ht
    obtain rfl := List.mem_singleton.mp ht
    exact ⟨fun _ => hopen, fun h => by cases h⟩
  simp only [lexError, Gen.wp_bind, Gen.wp_get, Gen.wp_emit, List.nil_append]
  cases findLineBreak text s.i with
  | none => exact h _ fun hopen => marked_append.mpr ⟨herror hopen, marked_nil⟩
  | some stop =>
    refine h _ fun hopen => marked_append.mpr ⟨herror hopen, ?_⟩
    split_ifs
    · exact marked_token (by decide) (by decide)
    · exact marked_nil

/-- The test for `@` and `^` looks at the bracket itself, so every section is an anchor. -/
theorem opener_of_bracket (h : charAt text i = '[') :
    opener (openerChar text i) = (.beginAnchor, 1, ['[', '|', ']']) := by
  unfold openerChar opener
  split_ifs <;> simp_all

/-- The family of modes of a section inside `d` others, and its stop characters. -/
theorem section_family {r : Run} {c : Char} (h : c ∉ ['[', '|', ']']) :
    (Mode.text (d + 1) r).step c = .text (d + 1) (r.next c) := by
  simp only [List.mem_cons, List.not_mem_nil, or_false, not_or] at h
  simp [Mode.step, textStep, h]

theorem target_family {r : Run} {c : Char} (h : c ∉ [']']) :
    (Mode.target d r).step c = .target d (r.next c) := by
  simp only [List.mem_cons, List.not_mem_nil, or_false] at h
  simp [Mode.step, h]

/-- The text after a divider: it is left on its closing bracket, which the context reads. -/
theorem hypertextTarget_mode (hi : s.i < text.length) (hmode : modeAt text s.i = .target d .fresh) :
    (hypertextTarget text).wp s
      (fun ecode ts s' => s.i ≤ s'.i ∧ GoesOn text (.text d .fresh) s'.i ∧ Marked text ts ∧
        (ecode ≠ none ∨ text.length ≤ s'.i → Unclosed text))
      (fun _ ts _ => BlankEnd text ∧ Unclosed text ∧ Marked text ts) fun _ => False := by
  obtain ⟨hnone, hsome⟩ := break_mode (f := Mode.target d) hi (by rw [modeAt_succ hi, hmode])
    (fun c r => target_family) (by simp [isBlank, skippableWhitespace])
  simp only [hypertextTarget, Gen.wp_bind, Gen.wp_get]
  cases hb : breakOnAny text [']'] s.i text.length with
  | none =>
    simp [BlankEnd, Unclosed, hnone hb, Mode.AtBlanks, Mode.InSection]
  | some q =>
    obtain ⟨b, e, j, c⟩ := q
    have hbr := isBreak_of_breakOnAny hi.le hb
    obtain ⟨hend, hin⟩ := hsome b e j c hb
    have hgo : GoesOn text (.text d .fresh) j := by
      rcases Nat.lt_or_ge j text.length with hj | hj
      · obtain ⟨r, hr⟩ := hin hj
        have hch : charAt text j = ']' := by simpa using hbr.stop_any hj
        exact .inl ⟨hj, by rw [hr, hch]; rfl⟩
      · exact .inr ⟨hj, by rw [Lexable, hend (by have := hbr.le_stop; omega)]; rfl⟩
    have hopen : text.length ≤ j → Unclosed text := by
      intro hj
      rw [Unclosed, hend (by have := hbr.le_stop; omega)]
      rfl
    simp only [Gen.wp_bind, Gen.wp_modify, Gen.wp_emit, Gen.wp_ite, Gen.wp_pure, wp_emitIf,
      LexState.moveTo_i, marked_append, marked_nil, true_and, and_true]
    refine ⟨fun hc => ⟨hbr.le, hgo, ⟨marked_optText, marked_token (by decide) (by decide)⟩, ?_⟩,
      fun hc => ⟨hbr.le, hgo, marked_optText, fun _ => hopen ?_⟩⟩
    · rintro (h | h)
      · exact absurd rfl h
      · exact hopen h
    · -- the scan stops on a closing bracket or at the end
      by_contra hj
      refine hc ?_
      rw [hbr.char_of_lt (by omega), show charAt text j = ']' by
        simpa using hbr.stop_any (by omega)]

/-- A text that ends with a divider, or one character after it, ends well. -/
theorem lexable_of_divider (hj : j < text.length) (hr : modeAt text (j + 1) = .divider d)
    (hend : text.length ≤ j + 2) : Lexable text ∧ Unclosed text := by
  rcases Nat.lt_or_ge (j + 1) text.length with hlt | hge
  · rw [Lexable, Unclosed, show text.length = j + 1 + 1 by omega, modeAt_succ hlt, hr]
    exact ⟨rfl, rfl⟩
  · rw [Lexable, Unclosed, show text.length = j + 1 by omega, hr]
    exact ⟨rfl, rfl⟩

/-- How a section inside of `d` others is left, at a cursor not before `i`: the reading goes on
inside of the others, and the text ends inside of a section if this one has an error, or if it
is left at the end and others are open. -/
def SectionLeft (text : List Char) (d i : ℕ) (ecode : Option ErrorCode) (ts : List Token)
    (s' : LexState) : Prop :=
  i ≤ s'.i ∧ GoesOn text (.text d .fresh) s'.i ∧ Marked text ts ∧
    (ecode ≠ none → Unclosed text) ∧ (text.length ≤ s'.i → 0 < d → Unclosed text)

/-- How a section is left by an exception. -/
def SectionRaised (text : List Char) (ts : List Token) : Prop :=
  BlankEnd text ∧ Unclosed text ∧ Marked text ts

/-- The contract of `_hypertext`, entered on a bracket inside of `d` sections. -/
def SectionMode (text : List Char) (fuel : ℕ) : Prop :=
  ∀ s d, s.i < text.length → charAt text s.i = '[' →
    modeAt text (s.i + 1) = .text (d + 1) .fresh →
    (hypertext text fuel).wp s (fun _ ts s' => SectionLeft text d (s.i + 1) none ts s')
      (fun _ ts _ => SectionRaised text ts)
      fun ts => fuel < 2 * (text.length - s.i) + 1 ∧ Marked text ts

/-- The contract of its loop, entered inside of `d + 1` sections. -/
def SectionLoopMode (text : List Char) (fuel : ℕ) : Prop :=
  ∀ s d, GoesOn text (.text (d + 1) .fresh) s.i → (text.length ≤ s.i → Unclosed text) →
    (hypertextLoop text ['[', '|', ']'] fuel).wp s
      (fun ecode ts s' => SectionLeft text d s.i ecode ts s')
      (fun _ ts _ => SectionRaised text ts)
      fun ts => fuel < 2 * (text.length - s.i) + 2 ∧ Marked text ts

/-- A section is its opener, the loop and the report of an error that is left. -/
theorem SectionLoopMode.section_succ (h : SectionLoopMode text fuel) :
    SectionMode text (fuel + 1) := by
  intro s d hi hopen hmode
  have hopener : Marked text [s.token .beginAnchor s.i (s.i + 1)] :=
    marked_token (by decide) (by decide)
  simp only [hypertext, Gen.wp_protect, Gen.wp_bind, Gen.wp_get, Gen.wp_emit, Gen.wp_modify,
    opener_of_bracket hopen, SectionLeft, SectionRaised, marked_append, marked_nil, true_and,
    and_iff_right hopener]
  refine (h (s.moveTo (s.i + 1)) d ?_ ?_).imp ?_ ?_ ?_
  · exact GoesOn.of_mode hmode rfl hi
  · intro hge
    rw [LexState.moveTo_i] at hge
    rw [Unclosed, show text.length = s.i + 1 by omega, hmode]
    rfl
  · -- the `finally` block, after the loop and after an exception in it
    rintro (_ | code) ts s' ⟨hle, hgo, hts, hcode, hclosed⟩
    · exact ⟨hle, hgo, ⟨hts, marked_nil⟩, fun h => absurd rfl h, hclosed⟩
    · have hunclosed : Unclosed text := hcode (by simp)
      exact wp_lexError fun us hus =>
        ⟨hle, hgo, ⟨hts, hus hunclosed⟩, fun h => absurd rfl h, hclosed⟩
  · rintro ⟨e, _ | code⟩ ts s' ⟨hbad, hunclosed, hts⟩
    · exact ⟨hbad, hunclosed, hts, marked_nil⟩
    · exact wp_lexError fun us hus => ⟨hbad, hunclosed, hts, hus hunclosed⟩
  · rintro ts ⟨hfuel, hts⟩
    rw [LexState.moveTo_i] at hfuel
    exact ⟨by omega, hts⟩

/-- Going round the loop from a later position. -/
theorem SectionLoopMode.again (h : SectionLoopMode text fuel) (hin : i < text.length)
    (hi : i < s.i) (hgo : GoesOn text (.text (d + 1) .fresh) s.i)
    (hopen : text.length ≤ s.i → Unclosed text) :
    (hypertextLoop text ['[', '|', ']'] fuel).wp s
      (fun ecode ts s' => SectionLeft text d i ecode ts s')
      (fun _ ts _ => SectionRaised text ts)
      fun ts => fuel + 1 < 2 * (text.length - i) + 2 ∧ Marked text ts := by
  refine (h s d hgo hopen).imp ?_ (fun _ _ _ h => h) (fun _ h => ⟨by omega, h.2⟩)
  rintro _ _ s' ⟨hle, hleft⟩
  exact ⟨by omega, hleft⟩

/-- One round of the loop: a break scan, and what its stop character asks for. -/
theorem SectionLoopMode.succ (hsection : SectionMode text fuel)
    (hloop : SectionLoopMode text fuel) : SectionLoopMode text (fuel + 1) := by
  intro s d hgo hunclosed
  simp only [hypertextLoop, Gen.wp_bind, Gen.wp_get, Gen.wp_ite]
  refine ⟨fun hi => ?_, fun hi => ?_⟩
  swap
  · obtain ⟨hlt, -⟩ | ⟨hge, hlex⟩ := hgo
    · omega
    · exact ⟨le_rfl, .inr ⟨hge, hlex⟩, marked_nil, fun _ => hunclosed hge,
        fun _ _ => hunclosed hge⟩
  obtain ⟨-, hread⟩ | ⟨hge, -⟩ := hgo
  swap
  · omega
  obtain ⟨hnone, hsome⟩ := break_mode (f := Mode.text (d + 1)) hi hread
    (fun c r => section_family) (by simp [isBlank, skippableWhitespace])
  cases hb : breakOnAny text ['[', '|', ']'] s.i text.length with
  | none =>
    simp [SectionRaised, BlankEnd, Unclosed, hnone hb, Mode.AtBlanks, Mode.InSection]
  | some q =>
    obtain ⟨b, e, j, c⟩ := q
    have hbr := isBreak_of_breakOnAny hi.le hb
    have hle := hbr.le
    obtain ⟨hend, hin⟩ := hsome b e j c hb
    have htext := @marked_optText text s (decide (b < e)) b e
    simp only [Gen.wp_bind, Gen.wp_modify, Gen.wp_emit, Gen.wp_ite, Gen.wp_raise,
      Gen.wp_mapError, Gen.wp_pure, wp_emitIf, SectionLeft, SectionRaised, List.nil_append,
      marked_append, marked_nil, true_and, and_iff_right htext]
    refine ⟨fun hj => ?_, fun hj => ?_⟩
    · obtain ⟨r, hr⟩ := hin hj
      have hc := hbr.char_of_lt hj
      have hmem := hbr.stop_any hj
      simp only [List.mem_cons, List.not_mem_nil, or_false] at hmem
      rcases hmem with hch | hch | hch
      all_goals
        rw [hch] at hr hc
        subst hc
        simp only [Option.some.injEq, Char.reduceEq, IsEmpty.forall_iff, forall_const,
          true_and, and_true, not_true_eq_false, not_false_eq_true]
      · -- a nested section
        refine (hsection (s.moveTo j) (d + 1) hj hch hr).imp ?_ (fun _ _ _ h => h) ?_
        · rintro _ _ s' ⟨h₁, h₂, h₃, -, h₄⟩
          have h₁' : j + 1 ≤ s'.i := h₁
          simp only [and_iff_right h₃]
          exact hloop.again hi (by omega) h₂ fun hge => h₄ hge (Nat.succ_pos d)
        · rintro _ ⟨hfuel, hts⟩
          rw [LexState.moveTo_i] at hfuel
          exact ⟨by omega, hts⟩
      · -- the divider
        have hdivider : Marked text [s.token .hypertextDivider j (j + 1)] :=
          marked_token (by decide) (by decide)
        simp only [and_iff_right hdivider]
        refine ⟨fun hlt => ?_, fun hge => ?_⟩
        · refine (hypertextTarget_mode (d := d) hlt ?_).imp ?_ (fun _ _ _ h => h) ?_
          · rw [show ((s.moveTo j).moveTo (j + 2)).i = j + 1 + 1 from rfl,
              modeAt_succ (by omega), hr]
            rfl
          · rintro _ _ s' ⟨h₁, h₂, h₃, h₄⟩
            have h₁' : j + 2 ≤ s'.i := h₁
            exact ⟨by omega, h₂, h₃, fun h => h₄ (.inl h), fun h _ => h₄ (.inr h)⟩
          · exact fun _ => False.elim
        · obtain ⟨hlex, hopen⟩ := lexable_of_divider hj hr (by omega)
          exact hloop.again hi (by simp only [LexState.moveTo_i]; omega)
            (.inr ⟨Nat.le_of_not_lt hge, hlex⟩) fun _ => hopen
      · -- the end of the section
        refine ⟨by simp only [LexState.moveTo_i]; omega, GoesOn.of_mode hr rfl hj,
          marked_token (by decide) (by decide), fun h => absurd rfl h, fun hge hd => ?_⟩
        rw [LexState.moveTo_i] at hge
        obtain ⟨d, rfl⟩ := Nat.exists_eq_add_of_lt hd
        rw [Unclosed, show text.length = j + 1 by omega, hr]
        rfl
    · -- no stop character is left
      have hjn : j = text.length := by have := hbr.le_stop; omega
      refine hloop.again hi (by simp only [LexState.moveTo_i]; omega)
        (.inr ⟨hjn.ge, by rw [Lexable, hend hjn]; rfl⟩) fun _ => ?_
      rw [Unclosed, hend hjn]
      rfl

/-- **Sections.** A section that opens inside `d` others returns where the reading goes on
inside `d` sections, raises only on a text that is not lexable, and does not run out of fuel. It
reports an error only if the text ends before the section is closed. -/
theorem hypertext_mode (fuel : ℕ) : SectionMode text fuel ∧ SectionLoopMode text fuel := by
  induction fuel with
  | zero =>
    constructor
    · intro s d _ _ _
      simp [hypertext]
    · intro s d _ _
      simp [hypertextLoop]
  | succ fuel ih =>
    obtain ⟨hsection, hloop⟩ := ih
    exact ⟨hloop.section_succ, SectionLoopMode.succ hsection hloop⟩

theorem paragraph_family {r : Run} {c : Char} (h : c ∉ ['[', '\n']) :
    (Mode.text 0 r).step c = .text 0 (r.next c) := by
  simp only [List.mem_cons, List.not_mem_nil, or_false, not_or] at h
  simp [Mode.step, textStep, h]

/-- **Paragraphs.** A paragraph ends on a line feed that starts a line, or at the end. -/
theorem paragraph_mode (fuel : ℕ) :
    ∀ s, s.i < text.length → modeAt text (s.i + 1) = textStep 0 .fresh (charAt text s.i) →
      (paragraph text fuel).wp s
        (fun _ ts s' => s.i ≤ s'.i ∧ GoesOn text .lineStart s'.i ∧
          (s'.i < text.length → charAt text s'.i = '\n') ∧ Marked text ts)
        (fun _ ts _ => BlankEnd text ∧ Marked text ts)
        fun ts => fuel < 2 * (text.length - s.i) + 2 ∧ Marked text ts := by
  induction fuel with
  | zero => exact fun s _ _ => by simp [paragraph]
  | succ fuel ih =>
    intro s hi hread
    obtain ⟨hnone, hsome⟩ := break_mode (f := Mode.text 0) hi hread
      (fun c r => paragraph_family) (by simp [isBlank, skippableWhitespace])
    simp only [paragraph, Gen.wp_bind, Gen.wp_get]
    cases hb : breakOnAny text ['[', '\n'] s.i text.length with
    | none => simp [BlankEnd, hnone hb, Mode.AtBlanks]
    | some q =>
      obtain ⟨b, e, j, c⟩ := q
      have hbr := isBreak_of_breakOnAny hi.le hb
      have hle := hbr.le
      obtain ⟨hend, hin⟩ := hsome b e j c hb
      have htext := @marked_optText text s (decide (b < e)) b (if c ≠ some '[' then e else j)
      simp only [Gen.wp_bind, Gen.wp_modify, Gen.wp_get, Gen.wp_ite, Gen.wp_pure, wp_emitIf,
        marked_append, marked_nil, true_and, and_true, and_iff_right htext]
      refine ⟨fun hstop => ?_, fun hstop => ?_⟩
      · -- the paragraph ends, on a line feed or with the text
        rcases Nat.lt_or_ge j text.length with hj | hj
        · have hch : charAt text j = '\n' := by
            have hc := hbr.char_of_lt hj
            have hnl : c = some '\n' := hstop.resolve_left (by omega)
            rw [hnl] at hc
            exact (Option.some.inj hc).symm
          obtain ⟨r, hr⟩ := hin hj
          rw [hch] at hr
          exact ⟨hle, .inl ⟨hj, by rw [LexState.moveTo_i, hr, hch]; rfl⟩, fun _ => hch, htext⟩
        · have hjn : j = text.length := by have := hbr.le_stop; omega
          exact ⟨hle, .inr ⟨hj, by rw [Lexable, hend hjn]; rfl⟩, fun h => absurd h (by
            simp only [LexState.moveTo_i]; omega), htext⟩
      · -- a section interrupts it
        have hj : j < text.length := by omega
        have hch : charAt text j = '[' := by
          have hmem := hbr.stop_any hj
          simp only [List.mem_cons, List.not_mem_nil, or_false] at hmem
          exact hmem.resolve_right fun h => hstop (.inr (by rw [hbr.char_of_lt hj, h]))
        obtain ⟨r, hr⟩ := hin hj
        rw [hch] at hr
        refine ((hypertext_mode fuel).1 (s.moveTo j) 0 hj hch hr).imp ?_
          (fun _ _ _ h => ⟨h.1, h.2.2⟩) ?_
        · rintro _ ts s' ⟨h₁, h₂, hts, -⟩
          have h₁' : j + 1 ≤ s'.i := h₁
          simp only [and_iff_right hts]
          refine ⟨fun hge => ?_, fun hlt => ?_⟩
          · have hlex : Lexable text := h₂.elim (fun h => absurd h.1 (by omega)) fun h => h.2
            exact ⟨by omega, .inr ⟨hge, hlex⟩, fun h => absurd h (by omega), hts⟩
          · obtain ⟨hlt', hread'⟩ | ⟨hge, -⟩ := h₂
            · refine (ih s' hlt' hread').imp ?_ (fun _ _ _ h => h)
                (fun _ h => ⟨by omega, h.2⟩)
              rintro _ _ s'' ⟨h₃, h₄⟩
              exact ⟨by omega, h₄⟩
            · omega
        · rintro _ ⟨hfuel, hts⟩
          rw [LexState.moveTo_i] at hfuel
          exact ⟨by omega, hts⟩

/-! ### Terms -/

/-- A mode that a line feed ends, and that may end the text, hands over to the next line. -/
private theorem goesOn_of_stays {m : Mode} (hij : i ≤ j) (hj : j ≤ text.length)
    (hfirst : modeAt text i = m) (hm : m.Ends = true)
    (hstep : ∀ k, i ≤ k → k < j → m.step (charAt text k) = m)
    (hstop : j < text.length → m.step (charAt text j) = Mode.step .lineStart (charAt text j)) :
    GoesOn text .lineStart j := by
  have hmode := modeAt_stays hij hj hfirst hstep
  rcases Nat.lt_or_ge j text.length with hlt | hge
  · exact .inl ⟨hlt, by rw [modeAt_succ hlt, hmode, hstop hlt]⟩
  · obtain rfl : j = text.length := by omega
    exact .inr ⟨hge, by rw [Lexable, hmode, hm]⟩

theorem name_step {c : Char} (h : c ∉ [':', ';', '\n']) : Mode.step .name c = .name := by
  simp only [List.mem_cons, List.not_mem_nil, or_false, not_or] at h
  simp [Mode.step, h]

theorem defn_step {c : Char} (h : c ∉ ['\n']) : Mode.step .defn c = .defn := by
  simp only [List.mem_cons, List.not_mem_nil, or_false] at h
  simp [Mode.step, h]

/-- Blanks belong to the name or to the definition they are read in. -/
theorem blank_step {m : Mode} (hm : m = .name ∨ m = .defn) {c : Char}
    (h : isBlank c = true) : m.step c = m := by
  rcases isBlank_iff.mp h with rfl | rfl | rfl <;> rcases hm with rfl | rfl <;> rfl

/-- **Terms.** A term entered on its first character that is not blank never raises. -/
theorem term_mode (hi : s.i < text.length) (hnb : isBlank (charAt text s.i) = false)
    (hmode : modeAt text s.i = .name) :
    (term text).wp s
      (fun _ ts s' => s.i ≤ s'.i ∧ GoesOn text .lineStart s'.i ∧ Marked text ts)
      (fun _ _ _ => False) fun _ => False := by
  obtain ⟨e, j, c, hb⟩ := @breakOnAny_of_not_blank _ [':', ';', '\n'] _ _ hi hnb
  have hbr := isBreak_of_breakOnAny hi.le hb
  have hname : modeAt text j = .name := modeAt_stays hbr.le hbr.le_stop hmode fun k h₁ h₂ =>
    name_step (hbr.not_any k h₁ h₂)
  have hword : Marked text [s.token .name s.i e] := marked_token (by decide) (by decide)
  simp only [term, name, Gen.wp_bind, Gen.wp_get, hb, Gen.wp_modify, Gen.wp_emit, Gen.wp_ite,
    Gen.wp_pure, LexState.moveTo_i, marked_append, marked_nil, true_and, and_true,
    and_iff_right hword]
  have hle := hbr.le
  refine ⟨?_, fun hno => ⟨hle, ?_, hword⟩⟩
  · -- after the colon, blanks and then a definition or the end of the line
    rintro ⟨hj, hcolon⟩
    have hdefn : modeAt text (j + 1) = .defn := by rw [modeAt_succ hj, hname, hcolon]; rfl
    have hk := skipWhitespace_le text (Nat.succ_le_of_lt hj)
    have hjk := le_skipWhitespace text (j + 1) text.length
    have hrun := blankRun_skipWhitespace text (j + 1) text.length
    have hnbk := @not_blank_skipWhitespace text (j + 1) text.length
    simp only [Nat.succ_eq_add_one] at hk
    generalize skipWhitespace text (j + 1) text.length = k at hk hjk hrun hnbk ⊢
    have hdefn' : modeAt text k = .defn := modeAt_stays hjk hk hdefn fun m h₁ h₂ =>
      blank_step (.inr rfl) (hrun m h₁ h₂)
    have hpivot : Marked text [(s.moveTo j).token .pivotTerm j (j + 1)] :=
      marked_token (by decide) (by decide)
    simp only [and_iff_right hpivot]
    refine ⟨fun hin => ?_, fun hno => ⟨by omega, ?_, hpivot⟩⟩
    · -- a definition, up to the end of the line
      obtain ⟨hlt, hne⟩ := hin
      obtain ⟨e', j', c', hb'⟩ := @breakOnAny_of_not_blank _ ['\n'] _ _ hlt (hnbk hlt)
      have hbr' := isBreak_of_breakOnAny hlt.le hb'
      have hle' := hbr'.le
      simp only [defn, Gen.wp_bind, Gen.wp_get, hb', Gen.wp_modify, Gen.wp_emit,
        LexState.moveTo_i, List.nil_append]
      refine ⟨by omega, goesOn_of_stays hle' hbr'.le_stop hdefn' rfl
        (fun m h₁ h₂ => defn_step (hbr'.not_any m h₁ h₂)) fun hlt' => ?_,
        marked_token (by decide) (by decide)⟩
      have hch : charAt text j' = '\n' := by simpa using hbr'.stop_any hlt'
      rw [hch]
      rfl
    · refine goesOn_of_stays le_rfl hk hdefn' rfl (fun m h₁ h₂ => absurd h₁ (by omega))
        fun hlt => ?_
      have hch : charAt text k = '\n' := by
        by_contra hne
        exact hno ⟨hlt, hne⟩
      rw [hch]
      rfl
  · -- a semicolon ends the name as well, and the next call of `_line` reads on from it
    refine goesOn_of_stays le_rfl hbr.le_stop hname rfl (fun m h₁ h₂ => absurd h₁ (by omega))
      fun hlt => ?_
    have hmem := hbr.stop_any hlt
    simp only [List.mem_cons, List.not_mem_nil, or_false] at hmem
    rcases hmem with hch | hch | hch
    · exact absurd ⟨hlt, hch⟩ hno
    · rw [hch]
      rfl
    · rw [hch]
      rfl

/-! ### Lines -/

/-- The part of a line after its indentation. -/
theorem lineBody_mode {fuel : ℕ} (hi : s.i < text.length) (hnb : isBlank (charAt text s.i) = false)
    (hnl : charAt text s.i ≠ '\n')
    (hread : modeAt text (s.i + 1) = Mode.step .lineStart (charAt text s.i)) :
    (lineBody text fuel).wp s
      (fun _ ts s' => s.i ≤ s'.i ∧ GoesOn text .lineStart s'.i ∧
        (s'.i < text.length → charAt text s'.i ≠ '\n' → s.i < s'.i) ∧ Marked text ts)
      (fun _ ts _ => BlankEnd text ∧ Marked text ts)
      fun ts => fuel < 2 * (text.length - s.i) + 2 ∧ Marked text ts := by
  have hterm : Marked text [s.token .beginTerm s.i (s.i + 1)] :=
    marked_token (by decide) (by decide)
  have hpara : Marked text [s.token .beginPara s.i s.i] := marked_token (by decide) (by decide)
  simp only [lineBody, Gen.wp_bind, Gen.wp_get, Gen.wp_ite, Gen.wp_emit, Gen.wp_modify,
    Gen.wp_pure, marked_append, marked_nil, true_and, and_true, and_iff_right hterm,
    and_iff_right hpara]
  refine ⟨fun hdash => ?_, fun hdash => ?_⟩
  · have hname : modeAt text (s.i + 1) = .name := by rw [hread, hdash]; rfl
    have hk := skipWhitespace_le text (Nat.succ_le_of_lt hi)
    have hik := le_skipWhitespace text (s.i + 1) text.length
    have hrun := blankRun_skipWhitespace text (s.i + 1) text.length
    have hnbk := @not_blank_skipWhitespace text (s.i + 1) text.length
    simp only [Nat.succ_eq_add_one] at hk
    generalize skipWhitespace text (s.i + 1) text.length = k at hk hik hrun hnbk ⊢
    have hname' : modeAt text k = .name := modeAt_stays hik hk hname fun m h₁ h₂ =>
      blank_step (.inl rfl) (hrun m h₁ h₂)
    refine ⟨fun hge => ⟨?_, ?_, ?_, hterm⟩, fun hlt => ?_⟩
    · simp only [LexState.moveTo_i]
      omega
    · exact goesOn_of_stays le_rfl hk hname' rfl (fun m h₁ h₂ => absurd h₁ (by omega))
        fun hlt => absurd hge (by simp only [LexState.moveTo_i] at hlt; omega)
    · simp only [LexState.moveTo_i]
      omega
    · have hlt' : k < text.length := by omega
      refine (term_mode (s := s.moveTo k) hlt' (hnbk hlt') hname').imp ?_ (fun _ _ _ => False.elim)
        fun _ => False.elim
      rintro _ _ s' ⟨h₁, h₂, hts⟩
      simp only [LexState.moveTo_i] at h₁
      exact ⟨by omega, h₂, fun _ _ => by omega, hts⟩
  · have hpara : modeAt text (s.i + 1) = textStep 0 .fresh (charAt text s.i) := by
      rw [hread]
      have hb : ¬ (charAt text s.i = ' ' ∨ charAt text s.i = '\t' ∨ charAt text s.i = '\r') := by
        rw [← isBlank_iff, hnb]
        decide
      simp only [not_or] at hb
      simp [Mode.step, hb, hnl, hdash]
    refine (paragraph_mode fuel s hi hpara).imp ?_ (fun _ _ _ h => h) fun _ h => h
    rintro _ _ s' ⟨h₁, h₂, h₃, hts⟩
    exact ⟨h₁, h₂, fun hlt hne => absurd (h₃ hlt) hne, hts⟩

/-- The comparison with a four-space indent: it never succeeds, and on a space it never ends. -/
theorem fragmentIsNext_eq (h : i < text.length) (fuel : ℕ) :
    fragmentIsNext text fuel i text.length [' ', ' ', ' ', ' '] =
      if charAt text i = ' ' ∨ fuel = 0 then none else some false := by
  unfold fragmentIsNext
  induction fuel with
  | zero => simp [fragmentLoop]
  | succ fuel ih =>
    by_cases hc : charAt text i = ' '
    · simpa [fragmentLoop, h, hc] using ih
    · simp [fragmentLoop, h, hc]

/-- The blanks after the leading tabs: the only one that can start them is a carriage return,
and the line goes on behind them. -/
theorem goesOn_skipWhitespace (hi : i < text.length)
    (hread : modeAt text (i + 1) = Mode.step .lineStart (charAt text i))
    (htab : charAt text i ≠ '\t') (hspace : charAt text i ≠ ' ') :
    GoesOn text .lineStart (skipWhitespace text i text.length) := by
  have hk := skipWhitespace_le text hi.le
  have hik := le_skipWhitespace text i text.length
  have hrun := blankRun_skipWhitespace text i text.length
  have hnbk := @not_blank_skipWhitespace text i text.length
  generalize skipWhitespace text i text.length = k at hk hik hrun hnbk ⊢
  rcases Nat.eq_or_lt_of_le hik with rfl | hlt
  · exact .inl ⟨hi, hread⟩
  have hcr : charAt text i = '\r' := by
    rcases isBlank_iff.mp (hrun i le_rfl hlt) with h | h | h
    · exact absurd h hspace
    · exact absurd h htab
    · exact h
  refine goesOn_of_stays (m := .lead) hlt hk (by rw [hread, hcr]; rfl) rfl ?_ ?_
  · exact fun m h₁ h₂ => by simp [Mode.step, hrun m (by omega) h₂]
  · intro hlt'
    have hnb := hnbk hlt'
    have hb : ¬ (charAt text k = ' ' ∨ charAt text k = '\t' ∨ charAt text k = '\r') := by
      rw [← isBlank_iff, hnb]
      decide
    simp only [not_or] at hb
    simp [Mode.step, hnb, hb]

/-- The indentation tokens say nothing of the reading. -/
theorem wp_indentation {indents : List Token} {R : Unit → List Token → LexState → Prop}
    {E : PyError → List Token → LexState → Prop} {H : List Token → Prop}
    (hindents : Marked text indents)
    (h : ∀ ts n, Marked text ts → R () ts { s with indent := n }) :
    (indentation indents).wp s R E H := by
  have htake : Marked text (indents.take (indents.length - s.indent)) := fun t ht =>
    hindents t (List.mem_of_mem_take ht)
  have hdedents : Marked text
      (List.replicate (s.indent - indents.length) (s.token .dedent s.i s.i)) :=
    marked_of_type .dedent (fun t ht => by rw [List.eq_of_mem_replicate ht]; rfl)
      (by decide) (by decide)
  simp only [indentation, Gen.wp_bind, Gen.wp_get, Gen.wp_emitAll, Gen.wp_modify]
  refine h _ _ ?_
  simp only [marked_append, marked_nil, htake, hdedents, and_self]

/-- **Lines.** The loop over the leading indents, with the line that follows them. -/
theorem lineLoop_mode (fuel : ℕ) : ∀ (s : LexState) (indents : List Token),
    GoesOn text .lineStart s.i → Marked text indents →
    (lineLoop text indents fuel).wp s
      (fun _ ts s' => s.i ≤ s'.i ∧ GoesOn text .lineStart s'.i ∧
        (s'.i < text.length → charAt text s'.i ≠ '\n' → s.i < s'.i) ∧ Marked text ts)
      (fun _ ts _ => BlankEnd text ∧ Marked text ts)
      fun ts => (fuel < 2 * (text.length - s.i) + 3 ∨ Stuck text) ∧ Marked text ts := by
  induction fuel with
  | zero =>
    intro s indents _ _
    simp [lineLoop]
  | succ fuel ih =>
    intro s indents hgo hindents
    simp only [lineLoop, Gen.wp_bind, Gen.wp_get, Gen.wp_ite, Gen.wp_modify, Gen.wp_pure,
      List.nil_append]
    refine ⟨fun hi => ⟨fun htab => ?_, fun htab => ?_⟩,
      fun hi => ⟨le_rfl, hgo, fun h => by omega, marked_nil⟩⟩
    · -- one more tab
      obtain ⟨-, hread⟩ | ⟨hge, -⟩ := hgo
      · have hmode : modeAt text (s.i + 1) = .lineStart := by rw [hread, htab]; rfl
        have hindents' : Marked text (indents ++ [s.token .indent s.i (s.i + 1)]) :=
          marked_append.mpr ⟨hindents, marked_token (by decide) (by decide)⟩
        refine (ih (s.moveTo (s.i + 1)) _ (GoesOn.of_mode hmode rfl hi) hindents').imp ?_
          (fun _ _ _ h => h) ?_
        · rintro _ _ s' ⟨h₁, h₂, -, hts⟩
          simp only [LexState.moveTo_i] at h₁
          exact ⟨by omega, h₂, fun _ _ => by omega, hts⟩
        · simp only [LexState.moveTo_i]
          exact fun _ h => ⟨h.1.imp_left fun h => by omega, h.2⟩
      · omega
    · obtain ⟨-, hread⟩ | ⟨hge, -⟩ := hgo
      swap
      · omega
      -- `_fragment_is_next` asks for the same again and again if there is a space
      rw [fragmentIsNext_eq hi]
      by_cases hspace : charAt text s.i = ' '
      · rw [if_pos (.inl hspace)]
        refine ⟨.inr (modeAt_stuck (i := s.i + 1) ?_ hi), marked_nil⟩
        rw [hread, hspace]
        rfl
      by_cases hfuel : fuel = 0
      · rw [if_pos (.inr hfuel)]
        exact ⟨.inl (by omega), marked_nil⟩
      rw [if_neg (not_or.mpr ⟨hspace, hfuel⟩)]
      -- behind the tabs: other blanks, and then the end of the line or its text
      have hlead := goesOn_skipWhitespace hi hread htab hspace
      have hik := le_skipWhitespace text s.i text.length
      have hnbk := @not_blank_skipWhitespace text s.i text.length
      simp only [Gen.wp_bind, Gen.wp_modify, Gen.wp_ite, Gen.wp_pure, List.nil_append]
      generalize skipWhitespace text s.i text.length = k at hlead hik hnbk ⊢
      refine ⟨fun hge => ?_, fun hlt => ⟨fun hnl => ?_, fun hnl => ?_⟩⟩
      · exact ⟨hik, hlead, fun h => by simp only [LexState.moveTo_i] at h; omega, marked_nil⟩
      · exact ⟨hik, hlead, fun _ hne => absurd hnl hne, marked_nil⟩
      · have hlt' : k < text.length := by omega
        obtain ⟨-, hread'⟩ | ⟨hge, -⟩ := hlead
        swap
        · omega
        refine wp_indentation hindents fun us n hus => ?_
        simp only [marked_append, and_iff_right hus]
        refine (lineBody_mode hlt' (hnbk hlt') hnl hread').imp ?_
          (fun _ _ _ h => h) (fun _ h => ⟨.inl ?_, h.2⟩)
        · rintro _ _ s' ⟨h₁, h₂, h₃, hts⟩
          have h₁' : k ≤ s'.i := h₁
          exact ⟨by omega, h₂, fun h h' => hik.trans_lt (h₃ h h'), hts⟩
        · simp only [LexState.moveTo_i] at h
          omega

/-- A line entered inside the text moves the cursor, and hands over to the next line. -/
theorem line_mode {fuel : ℕ} (hi : s.i < text.length) (hgo : GoesOn text .lineStart s.i) :
    (line text fuel).wp s
      (fun _ ts s' => s.i < s'.i ∧ GoesOn text .lineStart s'.i ∧ Marked text ts)
      (fun _ ts _ => BlankEnd text ∧ Marked text ts)
      fun ts => (fuel < 2 * (text.length - s.i) + 3 ∨ Stuck text) ∧ Marked text ts := by
  simp only [line, Gen.wp_protect, Gen.wp_mapError, Gen.wp_bind, Gen.wp_modify, Gen.wp_get,
    Gen.wp_ite, Gen.wp_emit, Gen.wp_pure, List.nil_append, List.append_nil]
  refine (lineLoop_mode fuel { s with lineStart := s.i } [] hgo marked_nil).imp ?_
    (fun _ _ _ h => h) fun _ h => h
  rintro _ ts s' ⟨h₁, h₂, h₃, hts⟩
  have h₁' : s.i ≤ s'.i := h₁
  refine ⟨fun hin => ?_, fun hno => ?_⟩
  · obtain ⟨hlt, hnl⟩ := hin
    have hnext : modeAt text (s'.i + 1) = .lineStart := by
      obtain ⟨-, hread⟩ | ⟨hge, -⟩ := h₂
      · rw [hread, hnl]
        rfl
      · omega
    refine ⟨by simp only [LexState.moveTo_i]; omega, GoesOn.of_mode hnext rfl hlt,
      marked_append.mpr ⟨hts, fun t ht => ?_⟩⟩
    obtain rfl := List.mem_singleton.mp ht
    exact ⟨fun h => (by cases h), fun _ => hnext⟩
  · rcases Nat.lt_or_ge s'.i text.length with hlt | hge
    · exact ⟨h₃ hlt fun hnl => hno ⟨hlt, hnl⟩, h₂, hts⟩
    · exact ⟨by omega, h₂, hts⟩

theorem lexLoop_mode (fuel : ℕ) : ∀ s : LexState, GoesOn text .lineStart s.i →
    (lexLoop text fuel).wp s (fun _ ts _ => Lexable text ∧ Marked text ts)
      (fun _ ts _ => BlankEnd text ∧ Marked text ts)
      fun ts => (fuel < 2 * (text.length - s.i) + 4 ∨ Stuck text) ∧ Marked text ts := by
  induction fuel with
  | zero =>
    intro s _
    simp [lexLoop]
  | succ fuel ih =>
    intro s hgo
    simp only [lexLoop, Gen.wp_bind, Gen.wp_get, Gen.wp_ite, Gen.wp_pure, marked_append,
      marked_nil, true_and, and_true]
    refine ⟨fun hi => ?_, fun hi => ?_⟩
    · refine (line_mode hi hgo).imp ?_ (fun _ _ _ h => h)
        fun _ h => ⟨h.1.imp_left fun h => by omega, h.2⟩
      rintro _ ts s' ⟨h₁, h₂, hts⟩
      simp only [and_iff_right hts]
      exact (ih s' h₂).imp (fun _ _ _ h => h) (fun _ _ _ h => h)
        fun _ h => ⟨h.1.imp_left fun h => by omega, h.2⟩
    · exact hgo.elim (fun h => absurd h.1 hi) fun h => h.2

end Modes

/-! ### The whole text -/

variable {text : List Char}

/-- The run of `lex`, with the loop's contract applied. -/
private theorem lex_sat (text : List Char) (fuel : ℕ) :
    (lex text fuel).Sat
      (fun _ ts _ => (Lexable text ∧ (ts.getLast?.map (·.ttype)) = some .endDoc) ∧ Marked text ts)
      (fun _ ts _ => BlankEnd text ∧ Marked text ts)
      fun ts => (fuel < 2 * text.length + 4 ∨ Stuck text) ∧ Marked text ts := by
  have hbegin : Marked text [LexState.init.token .beginDoc 0 0] :=
    marked_token (by decide) (by decide)
  change (_ : LexM Unit).wp LexState.init _ _ _
  simp only [Gen.wp_bind, Gen.wp_get, Gen.wp_emit, marked_append, marked_nil, hbegin, true_and]
  refine (lexLoop_mode fuel LexState.init (GoesOn.of_mode rfl rfl (Nat.zero_le _))).imp ?_
    (fun _ _ _ h => h) fun _ h => h
  rintro _ ts s' ⟨h, hts⟩
  exact ⟨⟨h, by simp [LexState.token, List.getLast?_cons]⟩, hts,
    marked_token (by decide) (by decide)⟩

/-- The tokens of every run agree with the reading, whether or not it completes. -/
theorem lex_marked (text : List Char) (fuel : ℕ) : Marked text (lex text fuel).yields := by
  have hsat := lex_sat text fuel
  generalize lex text fuel = r at hsat
  obtain ⟨ys, s, _ | _ | _⟩ := r
  · exact hsat.2
  · exact hsat.2
  · exact hsat.2

/-- A text that `lex` completes on is lexable. -/
theorem Lexes.lexable {ts : List Token} (h : Lexes text ts) : Lexable text := by
  refine h.of_sat (P := fun _ => Lexable text) fun fuel => ?_
  have hsat := lex_sat text fuel
  generalize lex text fuel = r at hsat
  obtain ⟨ys, s, _ | _ | _⟩ := r
  · exact hsat.1.1
  · trivial
  · trivial

/-- On a lexable text `lex` completes, and its last token ends the document. -/
theorem Lexable.lexes (h : Lexable text) :
    ∃ ts, Lexes text ts ∧ (ts.getLast?.map (·.ttype)) = some .endDoc := by
  have hsat := lex_sat text (2 * text.length + 4)
  generalize hr : lex text (2 * text.length + 4) = r at hsat
  obtain ⟨ys, s, _ | _ | _⟩ := r
  · exact ⟨ys, ⟨_, by rw [hr], by rw [hr]⟩, hsat.1.2⟩
  · exact absurd h (not_lexable_iff.mpr (.inl hsat.1))
  · exact hsat.1.elim (fun h' => absurd h' (by omega))
      fun h' => absurd h (not_lexable_iff.mpr (.inr h'))

/-- **Completion.** `lex` produces a finite token sequence that ends the document exactly on
the lexable texts. -/
theorem lex_completes_iff (text : List Char) :
    (∃ ts, Lexes text ts ∧ (ts.getLast?.map (·.ttype)) = some .endDoc) ↔ Lexable text := by
  refine ⟨fun h => ?_, Lexable.lexes⟩
  obtain ⟨_, hlexes, -⟩ := h
  exact hlexes.lexable

/-- With enough fuel, a run on a text that ends in unreadable blanks raises. -/
theorem BlankEnd.raises (h : BlankEnd text) :
    ∃ e, (lex text (2 * text.length + 4)).ending = .raised e := by
  have hsat := lex_sat text (2 * text.length + 4)
  generalize lex text (2 * text.length + 4) = r at hsat ⊢
  obtain ⟨ys, s, _ | e | _⟩ := r
  · exact absurd hsat.1.1 (not_lexable_iff.mpr (.inl h))
  · exact ⟨e, rfl⟩
  · exact hsat.1.elim (fun h' => absurd h' (by omega)) fun h' => absurd h' h.not_stuck

/-- **Exceptions.** Iterating `lex` raises no exception exactly on the texts that do not end in
a run of blanks right after a bracket of a section, or after the character behind its divider. -/
theorem lex_raises_nothing_iff (text : List Char) :
    (∀ fuel e, (lex text fuel).ending ≠ .raised e) ↔ ¬ BlankEnd text := by
  constructor
  · intro h hblank
    obtain ⟨e, he⟩ := hblank.raises
    exact h _ e he
  · intro hblank fuel e he
    have hsat := lex_sat text fuel
    generalize lex text fuel = r at hsat he
    obtain ⟨ys, s, _ | _ | _⟩ := r
    · cases he
    · exact hblank hsat.1
    · cases he

/-- A space after a closing bracket at the end of the text: lexing it ends, with an exception. -/
theorem lex_raises_on_trailing_space :
    ¬ ∀ text : List Char, (∃ fuel, (lex text fuel).ending ≠ .hung) →
      ∀ fuel e, (lex text fuel).ending ≠ .raised e := by
  intro h
  have hblank : BlankEnd ['[', 'a', ']', ' '] := by decide
  obtain ⟨e, he⟩ := hblank.raises
  have hends : ∃ fuel, (lex ['[', 'a', ']', ' '] fuel).ending ≠ .hung := by
    refine ⟨2 * ['[', 'a', ']', ' '].length + 4, fun hhung => ?_⟩
    rw [he] at hhung
    cases hhung
  exact h _ hends _ e he

/-- A line indented with a space hangs the lexer: no amount of fuel completes it. -/
theorem lex_hangs_on_space :
    ¬ ∃ ts, Lexes [' ', 'a'] ts ∧ (ts.getLast?.map (·.ttype)) = some .endDoc := by
  rintro ⟨ts, h, -⟩
  exact absurd h.lexable (by decide)

end Intent.Py
