import Mathlib.Data.List.DropRight
import Intent.Py.Parse

/-!
# Parsing well-formed documents

A `DocLine` is a line of a well-formed document: empty, a paragraph of plain runs and anchors,
or a term with its definition. `parse_document` says what `parse_text` makes of the text of
such a document: one node for each line that is not empty, in order, with one part for each
run that is not all blank and one for each anchor.

The lexer is followed along the text that is left at its cursor, `text.drop i`. One scan over
a run up to a stop character (`breakOnAny_run`) is behind every piece; the tokens of a line are
then known to be consumed by the parser, whatever comes after them (`ConsumedAs`).
-/

namespace Intent.Py

/-- A line of a well-formed document. A paragraph is a plain run and then anchors, each with
the plain run that follows it. -/
inductive DocLine where
  | empty
  | paragraph (lead : List Char) (rest : List (List Char × List Char))
  | term (name definition : List Char)
  deriving DecidableEq, Repr

/-- The text of the anchors of a paragraph and of the runs that follow them. -/
def renderRest (rest : List (List Char × List Char)) : List Char :=
  rest.flatMap fun p => '[' :: (p.1 ++ ']' :: p.2)

/-- The text of a line. -/
def DocLine.render : DocLine → List Char
  | .empty => []
  | .paragraph lead rest => lead ++ renderRest rest
  | .term name definition => '-' :: (name ++ ':' :: definition)

/-- The text of a document: its lines, each terminated by a line feed. -/
def renderDoc (doc : List DocLine) : List Char := doc.flatMap fun l => l.render ++ ['\n']

/-- Some character of the text is not blank. -/
def NonBlank (cs : List Char) : Prop := ∃ c ∈ cs, isBlank c = false

/-- A plain run of a paragraph. -/
def PlainRun (run : List Char) : Prop := ∀ c ∈ run, c ≠ '[' ∧ c ≠ '\n'

/-- The text between the brackets of an anchor. -/
def AnchorText (w : List Char) : Prop :=
  NonBlank w ∧ w.head? ≠ some '@' ∧ w.head? ≠ some '^' ∧
    ∀ c ∈ w, c ≠ '[' ∧ c ≠ '|' ∧ c ≠ ']' ∧ c ≠ '\n'

/-- What makes a line well formed. -/
def DocLine.WellFormed : DocLine → Prop
  | .empty => True
  | .paragraph lead rest =>
    (∃ c ∈ (DocLine.paragraph lead rest).render.head?, isBlank c = false ∧ c ≠ '-' ∧ c ≠ '\n') ∧
      PlainRun lead ∧ ∀ p ∈ rest, AnchorText p.1 ∧ PlainRun p.2
  | .term name definition =>
    (NonBlank name ∧ ∀ c ∈ name, c ≠ ':' ∧ c ≠ ';' ∧ c ≠ '\n') ∧
      NonBlank definition ∧ ∀ c ∈ definition, c ≠ '\n'

-- The quantifiers range over the characters of one list, so the list decides them.
instance (cs : List Char) : Decidable (NonBlank cs) := List.decidableBEx (isBlank · = false) cs

instance (run : List Char) : Decidable (PlainRun run) :=
  List.decidableBAll (fun c => c ≠ '[' ∧ c ≠ '\n') run

instance (w : List Char) : Decidable (AnchorText w) :=
  haveI := List.decidableBAll (fun c => c ≠ '[' ∧ c ≠ '|' ∧ c ≠ ']' ∧ c ≠ '\n') w
  inferInstanceAs (Decidable (_ ∧ _))

instance : DecidablePred DocLine.WellFormed
  | .empty => inferInstanceAs (Decidable True)
  | .paragraph lead rest =>
    haveI : Decidable (∃ c ∈ (DocLine.paragraph lead rest).render.head?,
        isBlank c = false ∧ c ≠ '-' ∧ c ≠ '\n') :=
      match (DocLine.paragraph lead rest).render.head? with
      | none => isFalse (by simp)
      | some c => decidable_of_iff (isBlank c = false ∧ c ≠ '-' ∧ c ≠ '\n') (by simp)
    haveI := List.decidableBAll
      (fun p : List Char × List Char => AnchorText p.1 ∧ PlainRun p.2) rest
    inferInstanceAs (Decidable (_ ∧ _))
  | .term name definition =>
    haveI := List.decidableBAll (fun c => c ≠ ':' ∧ c ≠ ';' ∧ c ≠ '\n') name
    haveI := List.decidableBAll (· ≠ '\n') definition
    inferInstanceAs (Decidable ((_ ∧ _) ∧ _))

/-- A text without its leading and trailing blanks. -/
def strip (cs : List Char) : List Char :=
  ((cs.dropWhile isBlank).reverse.dropWhile isBlank).reverse

/-- A part by the text of its token. -/
inductive PartView where
  | text (value : List Char)
  | anchor (value : List Char)
  deriving DecidableEq, Repr

/-- A node by the texts of its tokens. -/
inductive NodeView where
  | paragraph (parts : List PartView)
  | term (name definition : List Char)
  | error
  deriving DecidableEq, Repr

def Part.view (text : List Char) : Part → PartView
  | .text t => .text (t.value text)
  | .anchor t => .anchor (t.value text)

def Node.view (text : List Char) : Node → NodeView
  | .paragraph parts => .paragraph (parts.map (Part.view text))
  | .term name definition => .term (name.value text) (definition.value text)
  | .lexError _ => .error
  | .syntaxError _ => .error

/-- The part of a plain run, unless it is all blank. Its trailing blanks are kept before an
anchor and dropped at the end of the line. -/
def runParts (run : List Char) (last : Bool) : List PartView :=
  if run.all isBlank then []
  else [.text (if last then strip run else run.dropWhile isBlank)]

/-- The parts of a paragraph. -/
def paragraphParts (lead : List Char) : List (List Char × List Char) → List PartView
  | [] => runParts lead true
  | (w, run) :: rest => runParts lead false ++ .anchor (strip w) :: paragraphParts run rest

/-- The node of a line. -/
def DocLine.node : DocLine → Option NodeView
  | .empty => none
  | .paragraph lead rest => some (.paragraph (paragraphParts lead rest))
  | .term name definition => some (.term (strip name) (strip definition))

/-! ### Scans along the text that is left -/

section Scans

variable {text any run post : List Char} {i : ℕ} {c : Char}

theorem charAt_drop (text : List Char) (i k : ℕ) :
    charAt (text.drop i) k = charAt text (i + k) := by
  simp only [charAt, List.getD_eq_getElem?_getD, List.getElem?_drop]

theorem charAt_run (h : text.drop i = run ++ c :: post) {k : ℕ} (hk : k < run.length) :
    charAt text (i + k) = run[k] := by
  rw [← charAt_drop, h, charAt, List.getD_eq_getElem?_getD, List.getElem?_append_left hk,
    List.getElem?_eq_getElem hk, Option.getD_some]

theorem charAt_stop (h : text.drop i = run ++ c :: post) : charAt text (i + run.length) = c := by
  rw [← charAt_drop, h, charAt, List.getD_eq_getElem?_getD, List.getElem?_append_right le_rfl,
    Nat.sub_self]
  rfl

theorem stop_lt (h : text.drop i = run ++ c :: post) : i + run.length < text.length := by
  have := congrArg List.length h
  simp only [List.length_drop, List.length_append, List.length_cons] at this
  omega

theorem drop_stop (h : text.drop i = run ++ c :: post) :
    text.drop (i + run.length) = c :: post := by
  rw [← List.drop_drop, h, List.drop_left]

theorem drop_after (h : text.drop i = run ++ c :: post) :
    text.drop (i + run.length + 1) = post := by
  rw [← List.drop_drop, drop_stop h]
  rfl

/-- A slice of the run. -/
theorem slice_run (h : text.drop i = run ++ c :: post) {b e : ℕ} (he : e ≤ run.length) :
    (text.take (i + e)).drop (i + b) = (run.take e).drop b := by
  rw [← List.drop_drop, List.drop_take, Nat.add_sub_cancel_left, h,
    List.take_append_of_le_length he]

theorem dropWhile_append_blank {a m : List Char} (ha : ∀ x ∈ a, isBlank x = true)
    (hm : ∀ x ∈ m.head?, isBlank x = false) : (a ++ m).dropWhile isBlank = m := by
  rw [List.dropWhile_append_of_pos ha]
  cases m with
  | nil => rfl
  | cons x m => rw [List.dropWhile_cons_of_neg (by simp [hm x rfl])]

theorem strip_append {a m z : List Char} (ha : ∀ x ∈ a, isBlank x = true)
    (hz : ∀ x ∈ z, isBlank x = true) (hm : ∀ x ∈ m.head?, isBlank x = false)
    (hlast : ∀ x ∈ m.getLast?, isBlank x = false) : strip (a ++ (m ++ z)) = m := by
  rcases List.eq_nil_or_concat' m with rfl | ⟨m', x, rfl⟩
  · have hall : ∀ x ∈ a ++ ([] ++ z), isBlank x = true :=
      List.forall_mem_append.mpr ⟨ha, hz⟩
    rw [strip, List.dropWhile_eq_nil_iff.mpr hall]
    rfl
  · have hm' : ∀ y ∈ (m' ++ [x] ++ z).head?, isBlank y = false := by
      intro y hy
      refine hm y ?_
      cases m' <;> simpa using hy
    rw [strip, dropWhile_append_blank ha hm', List.reverse_append,
      dropWhile_append_blank (fun y hy => hz y (List.mem_reverse.mp hy)) ?_, List.reverse_reverse]
    rw [List.head?_reverse]
    exact hlast

theorem strip_dropWhile (cs : List Char) : strip (cs.dropWhile isBlank) = strip cs := by
  rw [strip, List.dropWhile_idempotent, strip]

/-- A text of blanks has nothing to strip to, and no other text has. -/
theorem all_blank_iff {cs : List Char} : cs.all isBlank = true ↔ ¬ NonBlank cs := by
  simp [NonBlank]

/-- A break scan over a run stops at the character behind it. -/
private theorem isBreak_run (h : text.drop i = run ++ c :: post) (hrun : ∀ x ∈ run, x ∉ any)
    (hc : c ∈ any) (hblank : isBlank c = false) :
    ∃ b e, breakOnAny text any i text.length =
        some (i + b, i + e, i + run.length, some c) ∧
      IsBreak text any i text.length (i + b) (i + e) (i + run.length) (some c) := by
  have hlt := stop_lt h
  have hcs := charAt_stop h
  cases hq : breakOnAny text any i text.length with
  | none =>
    have := (breakOnAny_eq_none_iff (by omega)).mp hq (i + run.length) (by omega) hlt
    simp [hcs, hblank] at this
  | some q =>
    obtain ⟨b, e, j, c'⟩ := q
    have hbr := isBreak_of_breakOnAny (by omega) hq
    obtain ⟨b, rfl⟩ := Nat.exists_eq_add_of_le hbr.le_begin
    obtain ⟨e, rfl⟩ := Nat.exists_eq_add_of_le (hbr.le_begin.trans hbr.begin_le)
    have hbegin : b ≤ run.length := by
      by_contra hgt
      have := hbr.lead_blank (i + run.length) (by omega) (by omega)
      simp [hcs, hblank] at this
    -- the scan cannot stop inside the run, and it stops at the character after it
    have hj : j = i + run.length := by
      rcases lt_trichotomy j (i + run.length) with hlt' | heq | hgt
      · have hany := hbr.stop_any (by omega)
        obtain ⟨k, rfl⟩ := Nat.exists_eq_add_of_le hbr.le
        rw [charAt_run h (by omega)] at hany
        exact absurd hany (hrun _ (List.getElem_mem _))
      · exact heq
      · have := hbr.not_any (i + run.length) (by omega) hgt
        rw [hcs] at this
        exact absurd hc this
    subst hj
    obtain rfl : c' = some c := by rw [hbr.char_of_lt hlt, hcs]
    exact ⟨b, e, rfl, hbr⟩

/-- A stretch of a run with only blanks around it, and none at its ends, is the stripped run. -/
private theorem slice_eq_strip {b e : ℕ} (hbe : b ≤ e) (hlead : ∀ x ∈ run.take b, isBlank x = true)
    (htail : ∀ x ∈ run.drop e, isBlank x = true)
    (hhead : ∀ x ∈ ((run.take e).drop b).head?, isBlank x = false)
    (hlast : ∀ x ∈ ((run.take e).drop b).getLast?, isBlank x = false) :
    (run.take e).drop b = strip run := by
  have hsplit : run = run.take b ++ ((run.take e).drop b ++ run.drop e) := by
    conv_lhs => rw [← List.take_append_drop e run, ← List.take_append_drop b (run.take e)]
    rw [List.take_take, Nat.min_eq_left hbe, List.append_assoc]
  conv_rhs => rw [hsplit, strip_append hlead htail hhead hlast]

/-- **A scan over a run.** Up to its stop character, a break scan finds the run without its
leading blanks, and trims its trailing ones. -/
theorem breakOnAny_run (h : text.drop i = run ++ c :: post) (hrun : ∀ x ∈ run, x ∉ any)
    (hc : c ∈ any) (hblank : isBlank c = false) :
    ∃ b e, breakOnAny text any i text.length =
        some (i + b, i + e, i + run.length, some c) ∧ e ≤ run.length ∧
      (run.take e).drop b = strip run ∧ run.drop b = run.dropWhile isBlank ∧
      (b < e ↔ NonBlank run) := by
  obtain ⟨b, e, hbreak, hbr⟩ := isBreak_run h hrun hc hblank
  have hat : ∀ k (hk : k < run.length), charAt text (i + k) = run[k] := fun k hk => charAt_run h hk
  have he := hbr.end_le
  have hbe := hbr.begin_le
  -- the fields of the break, over the run instead of the text
  have hlead : ∀ x ∈ run.take b, isBlank x = true := by
    intro x hx
    obtain ⟨k, hk, rfl⟩ := List.mem_iff_getElem.mp hx
    rw [List.length_take] at hk
    rw [List.getElem_take, ← hat k (by omega)]
    exact hbr.lead_blank _ (by omega) (by omega)
  have htail : ∀ x ∈ run.drop e, isBlank x = true := by
    intro x hx
    obtain ⟨k, hk, rfl⟩ := List.mem_iff_getElem.mp hx
    rw [List.length_drop] at hk
    rw [List.getElem_drop, ← hat (e + k) (by omega)]
    exact hbr.tail_blank _ (by omega) (by omega)
  have hbegin : ∀ (hk : b < run.length), isBlank run[b] = false := by
    intro hk
    rw [← hat b hk]
    exact hbr.begin_not_blank
  refine ⟨b, e, hbreak, by omega, slice_eq_strip (by omega) hlead htail ?_ ?_, ?_, ?_⟩
  · intro x hx
    rw [List.head?_drop] at hx
    obtain ⟨hk, rfl⟩ := List.getElem?_eq_some_iff.mp hx
    rw [List.getElem_take]
    exact hbegin _
  · intro x hx
    rw [List.getLast?_eq_getElem?, List.length_drop, List.length_take, List.getElem?_drop] at hx
    obtain ⟨hk, rfl⟩ := List.getElem?_eq_some_iff.mp hx
    rw [List.length_take] at hk
    rw [List.getElem_take, ← hat _ (by omega)]
    have hidx : i + (b + (min e run.length - b - 1)) = i + e - 1 := by omega
    rw [hidx]
    exact hbr.end_not_blank (by omega)
  · have hhead : ∀ x ∈ (run.drop b).head?, isBlank x = false := by
      intro x hx
      rw [List.head?_drop] at hx
      obtain ⟨hk, rfl⟩ := List.getElem?_eq_some_iff.mp hx
      exact hbegin hk
    conv_rhs => rw [← List.take_append_drop b run, dropWhile_append_blank hlead hhead]
  · constructor
    · intro hlt
      exact ⟨run[b], List.getElem_mem _, hbegin (by omega)⟩
    · rintro ⟨x, hx, hxb⟩
      by_contra hnot
      have hb : run.length ≤ b := by
        by_contra hlt
        have := hbr.lt_end (by omega)
        omega
      rw [List.take_of_length_le hb] at hlead
      rw [hlead x hx] at hxb
      cases hxb

/-- Skipping blanks in front of a run. -/
theorem drop_skipWhitespace (h : text.drop i = run ++ c :: post) (hblank : isBlank c = false) :
    text.drop (skipWhitespace text i text.length) = run.dropWhile isBlank ++ c :: post := by
  have hlen := stop_lt h
  have htake := List.takeWhile_append_dropWhile (p := isBlank) (l := run)
  generalize hA : run.takeWhile isBlank = a at htake
  generalize hB : run.dropWhile isBlank = m at htake
  have ha : ∀ x ∈ a, isBlank x = true := fun x hx => List.mem_takeWhile_imp (hA ▸ hx)
  have hskip : skipWhitespace text i text.length = i + a.length := by
    refine scanWhile_eq (Nat.le_add_right _ _) ?_ (fun k hik hk => ?_) fun _ => ?_
    · rw [← htake, List.length_append] at hlen
      omega
    · obtain ⟨k, rfl⟩ := Nat.exists_eq_add_of_le hik
      have hk' : k < a.length := by omega
      rw [← charAt_drop, h, ← htake, List.append_assoc, charAt, List.getD_eq_getElem?_getD,
        List.getElem?_append_left hk', List.getElem?_eq_getElem hk', Option.getD_some]
      exact ha _ (List.getElem_mem _)
    · rw [← charAt_drop, h, ← htake, List.append_assoc, charAt, List.getD_eq_getElem?_getD,
        List.getElem?_append_right le_rfl, Nat.sub_self]
      cases m with
      | nil => exact hblank
      | cons x m =>
        have := List.head?_dropWhile_not isBlank run
        rw [hB] at this
        exact this
  rw [hskip, ← List.drop_drop, h, ← htake, List.append_assoc, List.drop_left]

end Scans

/-! ### The lexer along a document -/

section Generators

variable {text run post : List Char} {s : LexState}

theorem token_value (s : LexState) (tt : TokType) (b e : ℕ) :
    (s.token tt b e).value text = (text.take e).drop b := rfl

/-- None of the tokens is a `LEX_ERROR`. -/
def ErrorFree (ts : List Token) : Prop := ∀ t ∈ ts, t.ttype ≠ .lexError

theorem ErrorFree.append {ts us : List Token} (h₁ : ErrorFree ts) (h₂ : ErrorFree us) :
    ErrorFree (ts ++ us) := List.forall_mem_append.mpr ⟨h₁, h₂⟩

/-- An anchor yields three tokens; the middle one is its text without blanks. -/
theorem hypertext_document {w : List Char} {fuel : ℕ} (hw : AnchorText w)
    (h : text.drop s.i = '[' :: (w ++ ']' :: post)) (hfuel : 2 ≤ fuel) :
    (hypertext text fuel).wp s
      (fun _ ts s' => ∃ b x e, ts = [b, x, e] ∧ b.ttype = .beginAnchor ∧ x.ttype = .text ∧
        e.ttype = .endHypertext ∧ x.value text = strip w ∧ text.drop s'.i = post ∧
        s'.indent = s.indent)
      (fun _ _ _ => False) fun _ => False := by
  obtain ⟨fuel, rfl⟩ := Nat.exists_eq_add_of_le' hfuel
  have hopen : text.drop s.i = [] ++ '[' :: (w ++ ']' :: post) := h
  have hchar : charAt text s.i = '[' := charAt_stop hopen
  have hopener : opener (openerChar text s.i) = (.beginAnchor, 1, ['[', '|', ']']) := by
    unfold openerChar
    split_ifs
    · rfl
    · rw [hchar]
      rfl
  have hin : text.drop (s.i + 1) = w ++ ']' :: post := drop_after hopen
  obtain ⟨b, e, hbreak, he, hvalue, -, hlt⟩ := @breakOnAny_run _ ['[', '|', ']'] _ _ _ _ hin
    (fun c hc => by simp [hw.2.2.2 c hc]) (by simp) (by decide)
  have hstop := stop_lt hin
  simp only [hypertext, Gen.wp_protect, Gen.wp_bind, Gen.wp_get, Gen.wp_emit, Gen.wp_modify,
    hopener, hypertextLoop, LexState.moveTo_i, if_pos (show s.i + 1 < text.length by omega),
    hbreak, wp_emitIf, if_pos hstop, Option.some.injEq, Char.reduceEq, if_false,
    if_true, Gen.wp_pure, decide_true, Nat.add_lt_add_iff_left, hlt.mpr hw.1]
  refine ⟨_, _, _, rfl, rfl, rfl, rfl, ?_, ?_, rfl⟩
  · rw [token_value, slice_run hin he, hvalue]
  · exact drop_after hin

/-- The part of a run, if it has one, in front of other parts. -/
private theorem partsOf_run {c : Bool} {t : Token} {ts : List Token} {ps : List Part}
    {views : List PartView} {last : Bool} (ht : t.ttype = .text)
    (hc : c = true ↔ NonBlank run)
    (hvalue : t.value text = if last then strip run else run.dropWhile isBlank)
    (hps : PartsOf ts ps) (hviews : ps.map (Part.view text) = views) (herr : ErrorFree ts) :
    ∃ ps', PartsOf ((if c then [t] else []) ++ ts) ps' ∧
      ps'.map (Part.view text) = runParts run last ++ views ∧
      ErrorFree ((if c then [t] else []) ++ ts) := by
  cases c with
  | false =>
    refine ⟨ps, hps, ?_, herr⟩
    rw [runParts, if_pos (all_blank_iff.mpr fun h => Bool.noConfusion (hc.mpr h)), hviews]
    rfl
  | true =>
    refine ⟨.text t :: ps, .text ht hps, ?_,
      List.forall_mem_cons.mpr ⟨by rw [ht]; decide, herr⟩⟩
    rw [runParts, if_neg fun h => all_blank_iff.mp h (hc.mp rfl), List.map_cons, hviews, Part.view,
      hvalue]
    rfl

/-- **Paragraphs.** -/
theorem paragraph_document {rest : List (List Char × List Char)}
    (hrest : ∀ p ∈ rest, AnchorText p.1 ∧ PlainRun p.2) :
    ∀ (run : List Char) (s : LexState) (fuel : ℕ), PlainRun run →
      text.drop s.i = run ++ (renderRest rest ++ '\n' :: post) → rest.length + 3 ≤ fuel →
      (paragraph text fuel).wp s
        (fun _ ts s' => ∃ ps, PartsOf ts ps ∧ ps.map (Part.view text) = paragraphParts run rest ∧
          ErrorFree ts ∧ text.drop s'.i = '\n' :: post ∧ s'.indent = s.indent)
        (fun _ _ _ => False) fun _ => False := by
  induction rest with
  | nil =>
    intro run s fuel hrun h hfuel
    obtain ⟨fuel, rfl⟩ := Nat.exists_eq_add_of_lt (Nat.zero_lt_of_lt hfuel)
    change text.drop s.i = run ++ '\n' :: post at h
    obtain ⟨b, e, hbreak, he, hvalue, -, hlt⟩ := @breakOnAny_run _ ['[', '\n'] _ _ _ _ h
      (fun c hc => by simp [hrun c hc]) (by simp) (by decide)
    simp only [paragraph, Gen.wp_bind, Gen.wp_get, hbreak, Gen.wp_modify,
      wp_emitIf, Gen.wp_ite, Gen.wp_pure, List.nil_append, List.append_nil]
    refine ⟨fun _ => ?_, fun hnot => absurd (.inr trivial) hnot⟩
    obtain ⟨ps, hps, hviews, herr⟩ := @partsOf_run text run
      (decide (s.i + b < s.i + e)) (s.token .text (s.i + b) (s.i + e)) _ _ _ true rfl
      (by simpa using hlt) (by rw [token_value, slice_run h he, hvalue]; rfl) .nil rfl
      (List.forall_mem_nil _)
    rw [List.map_nil, List.append_nil] at hviews
    rw [List.append_nil] at hps herr
    exact ⟨ps, hps, hviews, herr, drop_stop h, rfl⟩
  | cons p rest ih =>
    obtain ⟨w, next⟩ := p
    obtain ⟨⟨hw, hnext⟩, hrest⟩ := List.forall_mem_cons.mp hrest
    intro run s fuel hrun h hfuel
    obtain ⟨fuel, rfl⟩ := Nat.exists_eq_add_of_lt (Nat.zero_lt_of_lt hfuel)
    rw [List.length_cons] at hfuel
    replace h : text.drop s.i =
        run ++ '[' :: (w ++ ']' :: (next ++ (renderRest rest ++ '\n' :: post))) := by
      rw [h]
      simp [renderRest]
    obtain ⟨b, e, hbreak, he, -, hdrop, hlt⟩ := @breakOnAny_run _ ['[', '\n'] _ _ _ _ h
      (fun c hc => by simp [hrun c hc]) (by simp) (by decide)
    have hstop := stop_lt h
    simp only [paragraph, Gen.wp_bind, Gen.wp_get, hbreak, Gen.wp_modify,
      wp_emitIf, Gen.wp_ite, Gen.wp_pure, List.nil_append]
    refine ⟨fun hor => absurd hor (by simpa using hstop), fun _ => ?_⟩
    refine (hypertext_document hw (drop_stop h) (by omega)).imp ?_ (fun _ _ _ h => h) fun _ h => h
    rintro _ _ s' ⟨b', x, e', rfl, hb', hx, he', hxv, hpost, hind⟩
    have hi : s'.i < text.length := by
      have := congrArg List.length hpost
      simp only [List.length_drop, List.length_append, List.length_cons] at this
      omega
    refine ⟨fun hge => absurd hi (by omega), fun _ => ?_⟩
    refine (ih hrest next s' _ hnext hpost ?fuel).imp ?_ (fun _ _ _ h => h) fun _ h => h
    case fuel => omega
    rintro _ ts s'' ⟨ps, hps, hviews, herr, hdone, hind'⟩
    have herr' : ErrorFree ([b', x, e'] ++ ts) :=
      .append (by simp [ErrorFree, hb', hx, he']) herr
    obtain ⟨ps', hps', hviews', herr''⟩ := @partsOf_run text run
      (decide (s.i + b < s.i + e)) (s.token .text (s.i + b) (s.i + run.length)) _ _ _ false rfl
      (by simpa using hlt)
      (by rw [token_value, slice_run h le_rfl, List.take_length, hdrop]; rfl)
      (.anchor hb' he' hps) rfl herr'
    refine ⟨ps', hps', ?_, herr'', hdone, hind'.trans hind⟩
    rw [hviews', paragraphParts, List.map_cons, hviews, Part.view, hxv]

theorem nonBlank_dropWhile {cs : List Char} (h : NonBlank cs) :
    ∃ c cs', cs.dropWhile isBlank = c :: cs' ∧ isBlank c = false := by
  obtain ⟨c, hc, hcb⟩ := h
  cases hcs : cs.dropWhile isBlank with
  | nil =>
    rw [List.dropWhile_eq_nil_iff.mp hcs c hc] at hcb
    cases hcb
  | cons c cs' =>
    have := List.head?_dropWhile_not isBlank cs
    rw [hcs] at this
    exact ⟨c, cs', rfl, this⟩

/-- **Terms**, after their hyphen. -/
theorem term_document {name definition : List Char}
    (hname : NonBlank name ∧ ∀ c ∈ name, c ≠ ':' ∧ c ≠ ';' ∧ c ≠ '\n')
    (hdefn : NonBlank definition ∧ ∀ c ∈ definition, c ≠ '\n')
    (h : text.drop s.i = name ++ ':' :: (definition ++ '\n' :: post)) :
    (term text).wp s
      (fun _ ts s' => ∃ n p d, ts = [n, p, d] ∧ n.ttype = .name ∧ p.ttype = .pivotTerm ∧
        d.ttype = .text ∧ n.value text = strip name ∧ d.value text = strip definition ∧
        text.drop s'.i = '\n' :: post ∧ s'.indent = s.indent)
      (fun _ _ _ => False) fun _ => False := by
  obtain ⟨b, e, hbreak, he, hvalue, -⟩ := @breakOnAny_run _ [':', ';', '\n'] _ _ _ _ h
    (fun c hc => by simp [hname.2 c hc]) (by simp) (by decide)
  have hstop := stop_lt h
  have hpivot : charAt text (s.i + name.length) = ':' := charAt_stop h
  have hskip := drop_skipWhitespace (drop_after h) (by decide)
  generalize hk₀ : skipWhitespace text (s.i + name.length + 1) text.length = k at hskip
  -- the definition is not blank, so the cursor is not at the line feed
  obtain ⟨c, cs, hcs, hc⟩ := nonBlank_dropWhile hdefn.1
  have hk : k < text.length := by
    have := congrArg List.length hskip
    simp only [List.length_drop, List.length_append, List.length_cons] at this
    omega
  have hchar : charAt text k = c := by
    have hstart : text.drop k = [] ++ c :: (cs ++ '\n' :: post) := by rw [hskip, hcs]; rfl
    exact charAt_stop hstart
  have hnl : c ≠ '\n' := by
    refine hdefn.2 c ?_
    have hmem : c ∈ definition.dropWhile isBlank := by rw [hcs]; exact List.mem_cons_self
    exact (List.dropWhile_suffix isBlank).mem hmem
  obtain ⟨b', e', hbreak', he', hvalue', -⟩ := @breakOnAny_run _ ['\n'] _ _ _ _ hskip
    (fun c hc => by simpa using hdefn.2 c ((List.dropWhile_suffix isBlank).mem hc)) (by simp)
    (by decide)
  simp only [term, Py.name, defn, Gen.wp_bind, Gen.wp_get, hbreak, Gen.wp_modify, Gen.wp_emit,
    LexState.moveTo_i, hstop, hpivot, and_self, if_true, hk₀, hk, hchar, ne_eq, hnl,
    not_false_eq_true, hbreak']
  refine ⟨_, _, _, rfl, rfl, rfl, rfl, ?_, ?_, drop_stop hskip, rfl⟩
  · rw [token_value, slice_run h he, hvalue]
  · rw [token_value, slice_run hskip he', hvalue', strip_dropWhile]

/-- The tokens are consumed as `ns`, whatever comes after them. -/
def ConsumedAs (ts : List Token) (ns : List Node) : Prop :=
  ∀ us ms, Consumes us ms → Consumes (ts ++ us) (ns ++ ms)

theorem ConsumedAs.append {ts us : List Token} {ns ms : List Node} (h₁ : ConsumedAs ts ns)
    (h₂ : ConsumedAs us ms) : ConsumedAs (ts ++ us) (ns ++ ms) := by
  intro vs ks h
  rw [List.append_assoc, List.append_assoc]
  exact h₁ _ _ (h₂ _ _ h)

theorem length_renderRest (rest : List (List Char × List Char)) :
    rest.length ≤ (renderRest rest).length := by
  induction rest with
  | nil => exact le_rfl
  | cons p rest ih =>
    simp only [renderRest, List.flatMap_cons, List.length_append, List.length_cons] at ih ⊢
    omega

/-- What is yielded up to the line feed of a line: the tokens of its node, if it has one. -/
def LineTokens (text : List Char) (l : DocLine) (ts : List Token) : Prop :=
  ErrorFree ts ∧ ∃ ns : List Node, ns.map (Node.view text) = l.node.toList ∧
    ∀ e, endsLine e = true → ConsumedAs (ts ++ [e]) ns

theorem lineBody_document {l : DocLine} {fuel : ℕ} (hl : l.WellFormed) (hne : l ≠ .empty)
    (h : text.drop s.i = l.render ++ '\n' :: post) (hfuel : l.render.length + 3 ≤ fuel) :
    (lineBody text fuel).wp s
      (fun _ ts s' => LineTokens text l ts ∧ text.drop s'.i = '\n' :: post ∧
        s'.indent = s.indent)
      (fun _ _ _ => False) fun _ => False := by
  cases l with
  | empty => exact absurd rfl hne
  | paragraph lead rest =>
    obtain ⟨⟨c, hc, -, hdash, -⟩, hlead, hrest⟩ := hl
    have hchar : charAt text s.i = c := by
      obtain ⟨cs, hcs⟩ := List.head?_eq_some_iff.mp hc
      rw [hcs] at h
      exact @charAt_stop text [] _ _ _ h
    simp only [lineBody, Gen.wp_bind, Gen.wp_get, hchar, hdash, if_false, Gen.wp_emit]
    have hlen : rest.length + 3 ≤ fuel := by
      have := length_renderRest rest
      simp only [DocLine.render, List.length_append] at hfuel
      omega
    refine (paragraph_document hrest lead s fuel hlead
      (by rw [h, DocLine.render, List.append_assoc]) hlen).imp ?_ (fun _ _ _ h => h) fun _ h => h
    rintro _ ts s' ⟨ps, hps, hviews, herr, hdone, hind⟩
    have hbegin : ErrorFree [s.token .beginPara s.i s.i] := by simp [ErrorFree]
    refine ⟨⟨hbegin.append herr, [.paragraph ps], ?_, fun e he us ms hms => ?_⟩, hdone, hind⟩
    · simp only [List.map_cons, List.map_nil, Node.view, hviews, DocLine.node, Option.toList_some]
    · have := Consumes.paragraph (b := s.token .beginPara s.i s.i) rfl hps he hms
      simpa using this
  | term name definition =>
    obtain ⟨hname, hdefn⟩ := hl
    replace h : text.drop s.i = [] ++ '-' :: (name ++ ':' :: (definition ++ '\n' :: post)) := by
      rw [h]
      simp [DocLine.render]
    have hchar : charAt text s.i = '-' := charAt_stop h
    have hskip := drop_skipWhitespace (drop_after h) (by decide)
    simp only [List.length_nil, Nat.add_zero] at hskip
    generalize hk₀ : skipWhitespace text (s.i + 1) text.length = k at hskip
    have hk : k < text.length := by
      have := congrArg List.length hskip
      simp only [List.length_drop, List.length_append, List.length_cons] at this
      omega
    obtain ⟨c, cs, hcs, hc⟩ := nonBlank_dropWhile hname.1
    have hname' : NonBlank (name.dropWhile isBlank) ∧
        ∀ c ∈ name.dropWhile isBlank, c ≠ ':' ∧ c ≠ ';' ∧ c ≠ '\n' :=
      ⟨⟨c, by rw [hcs]; exact List.mem_cons_self, hc⟩,
        fun c hc => hname.2 c ((List.dropWhile_suffix isBlank).mem hc)⟩
    simp only [lineBody, Gen.wp_bind, Gen.wp_get, hchar, if_true, Gen.wp_emit, Gen.wp_modify,
      hk₀, ge_iff_le, Nat.not_le.mpr hk, if_false]
    refine (term_document (s := s.moveTo k) hname' hdefn hskip).imp ?_ (fun _ _ _ h => h)
      fun _ h => h
    rintro _ _ s' ⟨n, p, d, rfl, hn, hp, hd, hnv, hdv, hdone, hind⟩
    refine ⟨⟨by simp [ErrorFree, hn, hp, hd], [.term n d], ?_, fun e he us ms hms => ?_⟩, hdone,
      hind⟩
    · simp only [List.map_cons, List.map_nil, Node.view, hnv, hdv, strip_dropWhile, DocLine.node,
        Option.toList_some]
    · exact Consumes.term rfl hp (.lineEnd he hms)

/-- The first character of a line. -/
theorem DocLine.WellFormed.head {l : DocLine} (hl : l.WellFormed) :
    ∃ c cs, l.render ++ '\n' :: post = c :: cs ∧ isBlank c = false ∧ (c = '\n' ↔ l = .empty) := by
  cases l with
  | empty => exact ⟨'\n', post, rfl, by decide, by simp⟩
  | paragraph lead rest =>
    obtain ⟨⟨c, hc, hblank, -, hnl⟩, -⟩ := hl
    obtain ⟨cs, hcs⟩ := List.head?_eq_some_iff.mp hc
    exact ⟨c, cs ++ '\n' :: post, by rw [hcs]; rfl, hblank, by simp [hnl]⟩
  | term name definition => exact ⟨'-', _, rfl, by decide, by simp⟩

theorem lineLoop_document {l : DocLine} {fuel : ℕ} (hl : l.WellFormed)
    (h : text.drop s.i = l.render ++ '\n' :: post) (hind : s.indent = 0)
    (hfuel : l.render.length + 5 ≤ fuel) :
    (lineLoop text [] fuel).wp s
      (fun _ ts s' => LineTokens text l ts ∧ text.drop s'.i = '\n' :: post ∧ s'.indent = 0)
      (fun _ _ _ => False) fun _ => False := by
  obtain ⟨fuel, rfl⟩ := Nat.exists_eq_add_of_lt (Nat.zero_lt_of_lt hfuel)
  obtain ⟨c, cs, hcs, hblank, hempty⟩ := @DocLine.WellFormed.head post l hl
  have hstart : text.drop s.i = [] ++ c :: cs := by rw [h, hcs]; rfl
  have hlt : s.i < text.length := stop_lt hstart
  have hchar : charAt text s.i = c := charAt_stop hstart
  have htab : c ≠ '\t' := by
    rintro rfl
    cases hblank
  have hspace : c ≠ ' ' := by
    rintro rfl
    cases hblank
  have hfragment : fragmentIsNext text (0 + fuel) s.i text.length [' ', ' ', ' ', ' '] =
      some false := by
    rw [fragmentIsNext_eq hlt, if_neg (by rw [hchar, not_or]; exact ⟨hspace, by omega⟩)]
  have hskip : skipWhitespace text s.i text.length = s.i :=
    skipWhitespace_of_not_blank (by rw [hchar, hblank])
  simp only [lineLoop, Gen.wp_bind, Gen.wp_get, hlt, if_true, hchar, htab, if_false, hfragment,
    Gen.wp_modify, hskip, ge_iff_le, Nat.not_le.mpr hlt]
  rw [Gen.wp_ite]
  refine ⟨fun hnl => ?_, fun hnl => ?_⟩
  · obtain rfl := hempty.mp hnl
    exact ⟨⟨by simp [ErrorFree], [], rfl, fun e he us ms hms => .lineEnd he hms⟩, h, hind⟩
  · simp only [indentation, Gen.wp_bind, Gen.wp_get, Gen.wp_emitAll, Gen.wp_modify, hind,
      LexState.moveTo]
    refine (@lineBody_document text post ⟨s.i, 0, s.lineNum, s.lineStart⟩ _ _ hl
      (fun he => hnl (hempty.mpr he)) h ?fuel).imp ?_ (fun _ _ _ h => h) fun _ h => h
    case fuel => omega
    rintro _ ts s' ⟨htokens, hdone, hind'⟩
    exact ⟨htokens, hdone, hind'⟩

/-- **Lines.** -/
theorem line_document {l : DocLine} {fuel : ℕ} (hl : l.WellFormed)
    (h : text.drop s.i = l.render ++ '\n' :: post) (hind : s.indent = 0)
    (hfuel : l.render.length + 5 ≤ fuel) :
    (line text fuel).wp s
      (fun _ ts s' => ErrorFree ts ∧ (∃ ns, ns.map (Node.view text) = l.node.toList ∧
        ConsumedAs ts ns) ∧ text.drop s'.i = post ∧ s'.indent = 0)
      (fun _ _ _ => False) fun _ => False := by
  simp only [line, Gen.wp_protect, Gen.wp_mapError, Gen.wp_bind, Gen.wp_modify, Gen.wp_get,
    Gen.wp_ite, Gen.wp_emit, Gen.wp_pure, List.nil_append, List.append_nil]
  refine (lineLoop_document (s := { s with lineStart := s.i }) hl h hind hfuel).imp ?_
    (fun _ _ _ h => h.elim) fun _ h => h
  rintro _ ts s' ⟨⟨herr, ns, hns, hcons⟩, hdone, hind'⟩
  have hdone' : text.drop s'.i = [] ++ '\n' :: post := hdone
  refine ⟨fun _ => ⟨herr.append (by simp [ErrorFree]), ⟨ns, hns, hcons _ rfl⟩,
    drop_after hdone', hind'⟩, fun hnot => absurd ⟨stop_lt hdone', charAt_stop hdone'⟩ hnot⟩

theorem lexLoop_document {doc : List DocLine} (hdoc : ∀ l ∈ doc, l.WellFormed) :
    ∀ (s : LexState) (fuel : ℕ), text.drop s.i = renderDoc doc → s.indent = 0 →
      (renderDoc doc).length + 6 ≤ fuel →
      (lexLoop text fuel).wp s
        (fun _ ts _ => ErrorFree ts ∧ ∃ ns,
          ns.map (Node.view text) = doc.filterMap DocLine.node ∧ ConsumedAs ts ns)
        (fun _ _ _ => False) fun _ => False := by
  induction doc with
  | nil =>
    intro s fuel h hind hfuel
    obtain ⟨fuel, rfl⟩ := Nat.exists_eq_add_of_lt (Nat.zero_lt_of_lt hfuel)
    have hge : ¬ s.i < text.length := by
      have := List.drop_eq_nil_iff.mp h
      omega
    simp only [lexLoop, Gen.wp_bind, Gen.wp_get, hge, if_false]
    exact ⟨by simp [ErrorFree], [], rfl, fun _ _ h => h⟩
  | cons l doc ih =>
    obtain ⟨hl, hdoc⟩ := List.forall_mem_cons.mp hdoc
    intro s fuel h hind hfuel
    obtain ⟨fuel, rfl⟩ := Nat.exists_eq_add_of_lt (Nat.zero_lt_of_lt hfuel)
    have hrender : renderDoc (l :: doc) = l.render ++ '\n' :: renderDoc doc := by
      simp [renderDoc]
    rw [hrender] at h hfuel
    simp only [List.length_append, List.length_cons] at hfuel
    have hlt : s.i < text.length := by
      have := stop_lt h
      omega
    simp only [lexLoop, Gen.wp_bind, Gen.wp_get, hlt, if_true]
    refine (line_document hl h hind (by omega)).imp ?_ (fun _ _ _ h => h) fun _ h => h
    rintro _ ts s' ⟨herr, ⟨ns, hns, hcons⟩, hdone, hind'⟩
    refine (ih hdoc s' _ hdone hind' ?fuel).imp ?_ (fun _ _ _ h => h) fun _ h => h
    case fuel => omega
    rintro _ us _ ⟨herr', ms, hms, hcons'⟩
    refine ⟨herr.append herr', ns ++ ms, ?_, hcons.append hcons'⟩
    rw [List.map_append, hns, hms, List.filterMap_cons]
    cases l.node <;> rfl

end Generators

/-- **Parsing of well-formed documents.** Given enough fuel, `parse_text` completes on the text
of a well-formed document and yields exactly one node for each line that is not empty: a
`Paragraph` with a part for each run that is not all blank and for each anchor, or a `Term`
with its stripped name and definition. -/
theorem parse_document (doc : List DocLine) (hdoc : ∀ l ∈ doc, l.WellFormed) :
    ∃ enough, ∀ fuel, enough ≤ fuel →
      (parseText (renderDoc doc) fuel).ending = .returned () ∧
      (parseText (renderDoc doc) fuel).yields.map (Node.view (renderDoc doc)) =
        doc.filterMap DocLine.node := by
  refine ⟨(renderDoc doc).length + 6, fun fuel hfuel => ?_⟩
  have hlex : (lex (renderDoc doc) fuel).Sat
      (fun _ ts _ => ErrorFree ts ∧ ∃ d us e ns, ts = d :: (us ++ [e]) ∧ d.ttype = .beginDoc ∧
        e.ttype = .endDoc ∧ ns.map (Node.view (renderDoc doc)) = doc.filterMap DocLine.node ∧
        ConsumedAs us ns)
      (fun _ _ _ => False) fun _ => False := by
    change (_ : LexM Unit).wp LexState.init _ _ _
    simp only [Gen.wp_bind, Gen.wp_get, Gen.wp_emit]
    refine (@lexLoop_document (renderDoc doc) _ hdoc LexState.init fuel List.drop_zero rfl
      hfuel).imp ?_ (fun _ _ _ h => h) fun _ h => h
    rintro _ us s ⟨herr, ns, hns, hcons⟩
    refine ⟨?_, _, us, _, ns, rfl, rfl, rfl, hns, hcons⟩
    have hbegin : ErrorFree [LexState.init.token .beginDoc LexState.init.i LexState.init.i] := by
      simp [ErrorFree]
    exact hbegin.append (herr.append (by simp [ErrorFree]))
  have hempty := lex_emptyError (renderDoc doc) fuel
  rw [parseText, syntaxCheckedTokenStream]
  generalize lex (renderDoc doc) fuel = r at hlex hempty
  obtain ⟨ts, s, a | _ | _⟩ := r
  · obtain ⟨herr, d, us, e, ns, rfl, hd, he, hns, hcons⟩ := hlex
    have hfilter : (d :: (us ++ [e])).filter (fun t => t.ttype ≠ .lexError) = d :: (us ++ [e]) :=
      List.filter_eq_self.mpr fun t ht => by simpa using herr t ht
    have hcheck : checkLoop (.returned a) [] none (d :: (us ++ [e])) =
        ⟨d :: (us ++ [e]), .returned a⟩ := by
      rw [checkLoop_eq_filter hempty (by simp), hfilter]
      rfl
    simp only [hcheck]
    have hconsumes : Consumes (us ++ [e]) (ns ++ []) :=
      hcons [e] [] (.lineEnd (by simp [endsLine, he]) .done)
    obtain ⟨_, ms, s', heq, rfl⟩ := (parseStream_complete hd hconsumes).exists_returned
    rw [heq]
    exact ⟨rfl, by rw [List.append_nil, hns]⟩
  · exact hlex.elim
  · exact hlex.elim

/-- The document of an empty line, a paragraph with an anchor and a term. -/
theorem parse_document_sample :
    ∃ enough, ∀ fuel, enough ≤ fuel →
      (parseText "\nIs [a b ] it\n- t: d\n".toList fuel).ending = .returned () ∧
      (parseText "\nIs [a b ] it\n- t: d\n".toList fuel).yields.map
          (Node.view "\nIs [a b ] it\n- t: d\n".toList) =
        [.paragraph [.text ['I', 's', ' '], .anchor ['a', ' ', 'b'], .text ['i', 't']],
          .term ['t'] ['d']] :=
  parse_document [.empty,
    .paragraph ['I', 's', ' '] [(['a', ' ', 'b', ' '], [' ', 'i', 't'])],
    .term [' ', 't'] [' ', 'd']] (by decide)

end Intent.Py
