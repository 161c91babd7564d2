import Intent.Py.Parse

/-!
# The filter for lines with errors

`syntax_checked_token_stream` is there to replace the tokens of a line with a lexical error by
that error, and to leave the other lines alone. `terminatedLines` splits a sequence of tokens at its
line ends, `filteredLine` is what is expected of one line, and `FiltersLines` of the sequence.

The loop keeps the error of a line when the line is over, and tests it for its truth. So the
expected stream comes out in exactly one situation (`checked_lines_iff`): from the first line
with an error on every line has one, the last error of each spans some text, and no error
follows the last line end. No stream of the lexer with an error is like that, since the lexer's
error tokens are empty (`lex_emptyError`).
-/

namespace Intent.Py

/-! ### Lines -/

/-- The tokens of a line, and the token that ends it. -/
abbrev TerminatedLine : Type := List Token × Token

/-- The lines of a sequence of tokens, and what follows the last line end. -/
def terminatedLines : List Token → List TerminatedLine × List Token
  | [] => ([], [])
  | t :: ts =>
    if endsLine t then (([], t) :: (terminatedLines ts).1, (terminatedLines ts).2)
    else
      match (terminatedLines ts).1 with
      | [] => ([], t :: (terminatedLines ts).2)
      | l :: ls => ((t :: l.1, l.2) :: ls, (terminatedLines ts).2)

/-- The last error among the tokens. -/
def lastError (ts : List Token) : Option Token :=
  ts.reverse.find? fun t => t.ttype = .lexError

/-- What is expected of the tokens of a line: all of them, or the last error alone. -/
def filteredLine (ts : List Token) : List Token :=
  match lastError ts with
  | some e => [e]
  | none => ts

/-- The checked stream is what is expected of each line, followed by the end of the line. -/
def FiltersLines (ts : List Token) : Prop :=
  syntaxCheckedTokenStream ⟨ts, .returned ()⟩ =
    ⟨(terminatedLines ts).1.flatMap (fun l => filteredLine l.1 ++ [l.2]) ++
      filteredLine (terminatedLines ts).2, .returned ()⟩

instance (ts : List Token) : Decidable (FiltersLines ts) :=
  inferInstanceAs (Decidable (_ = _))

/-! ### What the loop yields for a line -/

/-- The tokens of a line that are no errors. -/
def withoutErrors (ts : List Token) : List Token := ts.filter fun t => t.ttype ≠ .lexError

/-- The error kept after a line. -/
def keptError (errorOnLine : Option Token) (ts : List Token) : Option Token :=
  (lastError ts).or errorOnLine

/-- What the loop yields for the lines, one after the other, and for the rest. -/
def checkedLines (rest : TokenStream) (errorOnLine : Option Token) :
    List TerminatedLine → TokenStream
  | [] => rest
  | l :: ls =>
    match checkedLine (withoutErrors l.1) (keptError errorOnLine l.1) with
    | .ok line => (checkedLines rest (keptError errorOnLine l.1) ls).after (line ++ [l.2])
    | .error e => ⟨[], .raised e⟩

variable {ts us vs pending : List Token} {t e : Token} {errorOnLine : Option Token}
variable {l : TerminatedLine} {ls : List TerminatedLine}

theorem lastError_cons (t : Token) (ts : List Token) :
    lastError (t :: ts) =
      (lastError ts).or (if t.ttype = .lexError then some t else none) := by
  simp only [lastError, List.reverse_cons, List.find?_append]
  congr 1
  simp only [List.find?_singleton, decide_eq_true_eq]

theorem withoutErrors_cons_error (h : t.ttype = .lexError) :
    withoutErrors (t :: ts) = withoutErrors ts :=
  List.filter_cons_of_neg (by simpa using h)

theorem withoutErrors_cons (h : t.ttype ≠ .lexError) :
    withoutErrors (t :: ts) = t :: withoutErrors ts :=
  List.filter_cons_of_pos (by simpa using h)

theorem keptError_cons (t : Token) (ts : List Token) :
    keptError errorOnLine (t :: ts) =
      keptError (if t.ttype = .lexError then some t else errorOnLine) ts := by
  rw [keptError, keptError, lastError_cons, Option.or_assoc]
  congr 1
  split_ifs <;> simp

/-- A sequence of tokens that ends no line. -/
def Open (ts : List Token) : Prop := ∀ t ∈ ts, endsLine t = false

/-- The lines make up the sequence, and line ends are where they are said to be. -/
theorem terminatedLines_spec (ts : List Token) :
    (terminatedLines ts).1.flatMap (fun l => l.1 ++ [l.2]) ++ (terminatedLines ts).2 = ts ∧
      (∀ l ∈ (terminatedLines ts).1, Open l.1 ∧ endsLine l.2 = true) ∧
      Open (terminatedLines ts).2 := by
  induction ts with
  | nil => simp [terminatedLines, Open]
  | cons t ts ih =>
    obtain ⟨hjoin, hlines, hrest⟩ := ih
    rw [terminatedLines]
    split_ifs with hend
    · exact ⟨by simpa using hjoin, List.forall_mem_cons.mpr ⟨⟨by simp [Open], hend⟩, hlines⟩,
        hrest⟩
    · have hopen : endsLine t = false := by simpa using hend
      cases hls : (terminatedLines ts).1 with
      | nil =>
        rw [hls] at hjoin
        exact ⟨by simpa using hjoin, by simp, List.forall_mem_cons.mpr ⟨hopen, hrest⟩⟩
      | cons l ls =>
        rw [hls] at hjoin hlines
        obtain ⟨hl, hls'⟩ := List.forall_mem_cons.mp hlines
        exact ⟨by simpa using hjoin, List.forall_mem_cons.mpr
          ⟨⟨List.forall_mem_cons.mpr ⟨hopen, hl.1⟩, hl.2⟩, hls'⟩, hrest⟩

/-- **One line of the loop.** -/
theorem checkLoop_line {ending : Ending PyError Unit} (hus : Open us) (ht : endsLine t = true) :
    checkLoop ending pending errorOnLine (us ++ t :: ts) =
      match checkedLine (pending ++ withoutErrors us) (keptError errorOnLine us) with
      | .ok line => (checkLoop ending [] (keptError errorOnLine us) ts).after (line ++ [t])
      | .error e => ⟨[], .raised e⟩ := by
  induction us generalizing pending errorOnLine with
  | nil =>
    rw [List.nil_append, checkLoop, if_pos ht, withoutErrors, List.filter_nil, List.append_nil]
    rfl
  | cons u us ih =>
    obtain ⟨hu, hus⟩ := List.forall_mem_cons.mp hus
    rw [List.cons_append, checkLoop, if_neg (by simp [hu]), keptError_cons]
    split_ifs with herror
    · rw [ih hus, withoutErrors_cons_error herror]
    · rw [ih hus, withoutErrors_cons herror, List.append_assoc, List.singleton_append]

/-- The tokens after the last line end are passed on without their errors. -/
theorem checkLoop_rest (hus : Open us) :
    checkLoop (.returned ()) pending errorOnLine us =
      ⟨pending ++ withoutErrors us, .returned ()⟩ := by
  induction us generalizing pending errorOnLine with
  | nil => simp [checkLoop, withoutErrors]
  | cons u us ih =>
    obtain ⟨hu, hus⟩ := List.forall_mem_cons.mp hus
    rw [checkLoop, if_neg (by simp [hu])]
    split_ifs with herror
    · rw [ih hus, withoutErrors_cons_error herror]
    · rw [ih hus, withoutErrors_cons herror, List.append_assoc, List.singleton_append]

/-- **The loop, line by line.** -/
theorem checkLoop_lines (hls : ∀ l ∈ ls, Open l.1 ∧ endsLine l.2 = true) (hus : Open us) :
    checkLoop (.returned ()) [] errorOnLine (ls.flatMap (fun l => l.1 ++ [l.2]) ++ us) =
      checkedLines ⟨withoutErrors us, .returned ()⟩ errorOnLine ls := by
  induction ls generalizing errorOnLine with
  | nil => exact checkLoop_rest hus
  | cons l ls ih =>
    obtain ⟨⟨hopen, hend⟩, hls⟩ := List.forall_mem_cons.mp hls
    rw [List.flatMap_cons, List.append_assoc, List.append_assoc, List.singleton_append,
      checkLoop_line hopen hend, ih hls, checkedLines, List.nil_append]

/-! ### The two streams compared -/

theorem lastError_eq_none : lastError ts = none ↔ ∀ t ∈ ts, t.ttype ≠ .lexError := by
  simp [lastError]

theorem ttype_of_lastError (h : lastError ts = some e) : e ∈ ts ∧ e.ttype = .lexError := by
  have hmem := List.mem_of_find?_eq_some h
  have htype := List.find?_some h
  exact ⟨List.mem_reverse.mp hmem, by simpa using htype⟩

/-- Without the errors of a line nothing of the expected error is left. -/
theorem withoutErrors_ne_singleton (h : e.ttype = .lexError) : withoutErrors ts ≠ [e] := by
  intro heq
  have hmem : e ∈ withoutErrors ts := heq ▸ List.mem_singleton_self e
  simp [withoutErrors, h] at hmem

/-- What is yielded for the rest is what is expected if it has no error. -/
theorem withoutErrors_eq_filteredLine :
    withoutErrors ts = filteredLine ts ↔ lastError ts = none := by
  unfold filteredLine
  cases h : lastError ts with
  | none =>
    simp only [iff_true]
    exact List.filter_eq_self.mpr fun t ht => by simpa using lastError_eq_none.mp h t ht
  | some e => simpa using withoutErrors_ne_singleton (ttype_of_lastError h).2

/-- A line with an error yields it alone if the error spans some text. -/
theorem checkedLine_eq_error (h : pending ≠ [e]) :
    checkedLine pending (some e) = .ok [e] ↔ e.truth = .ok true := by
  rw [checkedLine]
  cases htruth : e.truth with
  | error err => exact iff_of_false (by rintro ⟨⟩) (by rintro ⟨⟩)
  | ok truth =>
    cases truth with
    | true => exact iff_of_true rfl rfl
    | false => exact iff_of_false (fun heq => h (Except.ok.inj heq)) (by rintro ⟨⟩)

/-- **One line compared.** What is yielded is what is expected if the error of the line spans
some text, or the line has none and no error of text is left over from the lines before. -/
theorem checkedLine_eq_filteredLine
    (herror : ∀ e ∈ errorOnLine, e.truth = .ok true ∧ e.ttype = .lexError) :
    checkedLine (withoutErrors ts) (keptError errorOnLine ts) = .ok (filteredLine ts) ↔
      (∀ e ∈ lastError ts, e.truth = .ok true) ∧
        (lastError ts = none → errorOnLine = none) := by
  unfold filteredLine keptError
  cases h : lastError ts with
  | some e =>
    refine (checkedLine_eq_error (withoutErrors_ne_singleton (ttype_of_lastError h).2)).trans ?_
    simp
  | none =>
    have hclean := lastError_eq_none.mp h
    have hall : withoutErrors ts = ts := List.filter_eq_self.mpr (by simpa using hclean)
    rw [hall, Option.none_or]
    cases errorOnLine with
    | none => simp [checkedLine]
    | some e =>
      obtain ⟨htruth, htype⟩ := herror e rfl
      have hne : [e] ≠ ts := fun heq => hclean e (heq ▸ List.mem_singleton_self e) htype
      rw [(checkedLine_eq_error hne.symm).mpr htruth]
      simpa using hne

/-- The condition on the lines: their errors span text, and all lines from the first error on
have one. -/
def ErrorsLast (ls : List TerminatedLine) : Prop :=
  (∀ l ∈ ls, ∀ e ∈ lastError l.1, e.truth = .ok true) ∧
    ls.Pairwise fun l l' => lastError l.1 ≠ none → lastError l'.1 ≠ none

/-- Line ends stand at the same places in both streams. -/
theorem append_lineEnd_inj {as bs : List Token} (ht : endsLine t = true) (has : Open as)
    (hbs : Open bs) : as ++ t :: ts = bs ++ t :: us ↔ as = bs ∧ ts = us := by
  have hcut : ∀ cs xs : List Token, Open cs →
      (cs ++ t :: xs).takeWhile (fun u => !endsLine u) = cs := by
    intro cs xs hcs
    rw [List.takeWhile_append_of_pos (fun u hu => by simp [hcs u hu]),
      List.takeWhile_cons_of_neg (by simp [ht]), List.append_nil]
  constructor
  · intro h
    have hab : as = bs := by rw [← hcut as ts has, h, hcut bs us hbs]
    subst hab
    exact ⟨rfl, List.tail_eq_of_cons_eq (List.append_cancel_left h)⟩
  · rintro ⟨rfl, rfl⟩
    rfl

theorem open_filteredLine (h : Open ts) : Open (filteredLine ts) := by
  unfold filteredLine
  cases herror : lastError ts with
  | none => exact h
  | some e =>
    rintro t ht
    obtain rfl := List.mem_singleton.mp ht
    exact h t (ttype_of_lastError herror).1

theorem open_checkedLine {line : List Token} (h : Open pending)
    (herror : ∀ e ∈ errorOnLine, e.ttype = .lexError)
    (hline : checkedLine pending errorOnLine = .ok line) : Open line := by
  cases errorOnLine with
  | none => exact Except.ok.inj hline ▸ h
  | some e =>
    rw [checkedLine] at hline
    cases htruth : e.truth with
    | error err =>
      rw [htruth] at hline
      cases hline
    | ok truth =>
      rw [htruth] at hline
      cases truth with
      | false => exact Except.ok.inj hline ▸ h
      | true =>
        obtain rfl := Except.ok.inj hline
        intro t ht
        obtain rfl := List.mem_singleton.mp ht
        have htype := herror t rfl
        simp [endsLine, htype]

/-- The error that is kept spans some text if those of the line and of the lines before do. -/
theorem keptError_ok (herror : ∀ e ∈ errorOnLine, e.truth = .ok true ∧ e.ttype = .lexError)
    (htruth : ∀ e ∈ lastError ts, e.truth = .ok true) :
    ∀ e ∈ keptError errorOnLine ts, e.truth = .ok true ∧ e.ttype = .lexError := by
  intro e he
  rcases Option.or_eq_some_iff.mp he with h | ⟨-, h⟩
  · exact ⟨htruth e h, (ttype_of_lastError h).2⟩
  · exact herror e h

/-- **The first line compared**, and the lines behind it. -/
theorem checkedLines_cons_eq_iff (hopen : Open l.1) (hend : endsLine l.2 = true)
    (herror : ∀ e ∈ errorOnLine, e.ttype = .lexError) {rest : TokenStream} :
    checkedLines rest errorOnLine (l :: ls) =
        ⟨filteredLine l.1 ++ l.2 :: us, .returned ()⟩ ↔
      checkedLine (withoutErrors l.1) (keptError errorOnLine l.1) = .ok (filteredLine l.1) ∧
        checkedLines rest (keptError errorOnLine l.1) ls = ⟨us, .returned ()⟩ := by
  have hkept : ∀ e ∈ keptError errorOnLine l.1, e.ttype = .lexError := by
    intro e he
    rcases Option.or_eq_some_iff.mp he with h | ⟨-, h⟩
    · exact (ttype_of_lastError h).2
    · exact herror e h
  have hwithout : Open (withoutErrors l.1) := fun t ht => hopen t (List.mem_filter.mp ht).1
  rw [checkedLines]
  cases hline : checkedLine (withoutErrors l.1) (keptError errorOnLine l.1) with
  | error e =>
    refine iff_of_false (fun h => ?_) (by rintro ⟨⟨⟩, -⟩)
    cases (TokenStream.mk.inj h).2
  | ok line =>
    generalize checkedLines rest (keptError errorOnLine l.1) ls = s
    obtain ⟨ts, ending⟩ := s
    simp only [TokenStream.after, TokenStream.mk.injEq, List.append_assoc, List.singleton_append,
      append_lineEnd_inj hend (open_checkedLine hwithout hkept hline) (open_filteredLine hopen),
      Except.ok.injEq, and_assoc]

/-- **The lines compared**, from a state in which the error that is kept spans some text. -/
theorem checkedLines_eq_iff (hls : ∀ l ∈ ls, Open l.1 ∧ endsLine l.2 = true)
    (herror : ∀ e ∈ errorOnLine, e.truth = .ok true ∧ e.ttype = .lexError) :
    checkedLines ⟨us, .returned ()⟩ errorOnLine ls =
        ⟨ls.flatMap (fun l => filteredLine l.1 ++ [l.2]) ++ vs, .returned ()⟩ ↔
      (ErrorsLast ls ∧ (errorOnLine ≠ none → ∀ l ∈ ls, lastError l.1 ≠ none)) ∧ us = vs := by
  induction ls generalizing errorOnLine with
  | nil => simp [checkedLines, ErrorsLast]
  | cons l ls ih =>
    obtain ⟨⟨hopen, hend⟩, hls⟩ := List.forall_mem_cons.mp hls
    have hnone :
        keptError errorOnLine l.1 ≠ none ↔ lastError l.1 ≠ none ∨ errorOnLine ≠ none := by
      simp only [keptError, Ne, Option.or_eq_none_iff, not_and_or]
    rw [List.flatMap_cons, List.append_assoc, List.append_assoc, List.singleton_append,
      checkedLines_cons_eq_iff hopen hend fun e he => (herror e he).2,
      checkedLine_eq_filteredLine herror, ErrorsLast, List.forall_mem_cons, List.pairwise_cons]
    constructor
    · rintro ⟨⟨htruth, hclean⟩, hrest⟩
      obtain ⟨⟨⟨htruths, hpairs⟩, hall⟩, hend⟩ :=
        (ih hls (keptError_ok herror htruth)).mp hrest
      refine ⟨⟨⟨⟨htruth, htruths⟩, fun l' hl' h => hall (hnone.mpr (.inl h)) l' hl', hpairs⟩,
        fun h => List.forall_mem_cons.mpr ⟨fun h' => h (hclean h'), ?_⟩⟩, hend⟩
      exact hall (hnone.mpr (.inr h))
    · rintro ⟨⟨⟨⟨htruth, htruths⟩, hfirst, hpairs⟩, hall⟩, hend⟩
      refine ⟨⟨htruth, fun h => ?_⟩, (ih hls (keptError_ok herror htruth)).mpr
        ⟨⟨⟨htruths, hpairs⟩, fun h l' hl' => ?_⟩, hend⟩⟩
      · by_contra herr
        exact (List.forall_mem_cons.mp (hall herr)).1 h
      · rcases hnone.mp h with h | h
        · exact hfirst l' hl' h
        · exact hall h l' (List.mem_cons_of_mem l hl')

/-- **The filter.** The checked stream is the expected one exactly if, from the first line with
an error on, every line has one, the last error of each line spans some text, and there is no
error after the last line end. -/
theorem checked_lines_iff (ts : List Token) :
    FiltersLines ts ↔
      ErrorsLast (terminatedLines ts).1 ∧ lastError (terminatedLines ts).2 = none := by
  obtain ⟨hjoin, hlines, hrest⟩ := terminatedLines_spec ts
  have hloop : syntaxCheckedTokenStream ⟨ts, .returned ()⟩ =
      checkedLines ⟨withoutErrors (terminatedLines ts).2, .returned ()⟩ none
        (terminatedLines ts).1 := by
    rw [← checkLoop_lines hlines hrest, hjoin]
    rfl
  rw [FiltersLines, hloop, checkedLines_eq_iff hlines (by simp), withoutErrors_eq_filteredLine]
  simp

/-- The stream of the text `[` has an error, which is lost with the filter. -/
theorem checked_lines_bracket : ¬ ∀ ts : List Token, FiltersLines ts := by
  intro h
  exact absurd (h (lex ['['] 10).yields) (by decide +kernel)

end Intent.Py
