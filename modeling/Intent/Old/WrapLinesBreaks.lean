import Intent.Old.WrapLinesRun

/-!
# Line breaks that `wrap_lines` writes

With CR LF for the delimiter, `wrap_lines` is meant to write no other line break. It copies parts of
the text as they are, though, and there are two ways in which a line break can get into such a part.
The shortcut copies the rest of the text without a look at it. And the helper for hyphens ends
behind the hyphens, where the inner loop moves on by a character, so that a line break there is not
seen; it is copied unless the line is wrapped at that place.

`KeepsBreaks` says that neither happens in a round. If the counter does not overflow at a line
break, then the call returns and the line breaks of the result are right if and only if this holds
in every round, and every line has room (`wrapLines_crlf_iff`). A line break that is copied is
always wrong in the second case: the byte before it is a hyphen, and the byte behind it is either
copied too, and then no line break (`BreaksBehind`), or it is the first one of the delimiter.
-/

namespace Intent.Old

/-! ### Texts with CR LF -/

/-- Every line break in a text is a CR LF. -/
inductive OnlyCrlf : Text → Prop where
  | nil : OnlyCrlf []
  | crlf {txt : Text} (h : OnlyCrlf txt) : OnlyCrlf (ch '\r' :: ch '\n' :: txt)
  | other {c : UInt8} {txt : Text} (hc : isLineBreak c = false) (h : OnlyCrlf txt) :
      OnlyCrlf (c :: txt)

/-- The characters of a text that are not spaces, each by its first byte, and `none` for each of its
line breaks. A CR LF is one line break. -/
def marks : Text → List (Option UInt8)
  | [] => []
  | c :: txt =>
    if c = ch '\r' ∧ txt.head? = some (ch '\n') then marks txt
    else if isLineBreak c then none :: marks txt
    else if c = ch ' ' ∨ isSkipped c = true then marks txt
    else some c :: marks txt

variable {a b txt : Text}

theorem OnlyCrlf.append (ha : OnlyCrlf a) (hb : OnlyCrlf b) : OnlyCrlf (a ++ b) := by
  induction ha with
  | nil => exact hb
  | crlf _ ih => exact .crlf ih
  | other hc _ ih => exact .other hc ih

theorem onlyCrlf_of_unbroken (h : ∀ c ∈ txt, isLineBreak c = false) : OnlyCrlf txt := by
  induction txt with
  | nil => exact .nil
  | cons c txt ih =>
    rw [List.forall_mem_cons] at h
    exact .other h.1 (ih h.2)

/-- Such a text does not end with a CR. -/
theorem OnlyCrlf.getLast?_ne (h : OnlyCrlf txt) : txt.getLast? ≠ some (ch '\r') := by
  induction h with
  | nil => exact fun heq => by cases heq
  | crlf h ih =>
    intro heq
    rw [List.getLast?_cons_cons, List.getLast?_cons, Option.some.injEq] at heq
    rename_i txt
    cases hlast : txt.getLast? with
    | none =>
      rw [hlast] at heq
      exact absurd heq (by decide)
    | some c =>
      rw [hlast] at heq
      exact ih (hlast.trans (congrArg some heq))
  | other hc h ih =>
    intro heq
    rename_i c txt
    rw [List.getLast?_cons, Option.some.injEq] at heq
    cases hlast : txt.getLast? with
    | none =>
      rw [hlast, Option.getD_none] at heq
      rw [heq] at hc
      exact absurd hc (by decide)
    | some d =>
      rw [hlast] at heq
      exact ih (hlast.trans (congrArg some heq))

theorem OnlyCrlf.getLast?_append_ne (h : OnlyCrlf b) (hne : b ≠ []) :
    (a ++ b).getLast? ≠ some (ch '\r') := by
  rw [List.getLast?_append, List.getLast?_eq_some_getLast hne, Option.some_or,
    ← List.getLast?_eq_some_getLast hne]
  exact h.getLast?_ne

theorem marks_append (ha : a.getLast? ≠ some (ch '\r')) : marks (a ++ b) = marks a ++ marks b := by
  induction a with
  | nil => rfl
  | cons c a ih =>
    have ha' : a.getLast? ≠ some (ch '\r') := fun heq => ha (by
      rw [List.getLast?_cons, heq, Option.getD_some])
    have hhead : (c = ch '\r' ∧ (a ++ b).head? = some (ch '\n')) ↔
        (c = ch '\r' ∧ a.head? = some (ch '\n')) := by
      cases a with
      | nil =>
        have hc : c ≠ ch '\r' := fun hc => ha (congrArg some hc)
        exact ⟨fun h => absurd h.1 hc, fun h => absurd h.1 hc⟩
      | cons d a => rfl
    rw [List.cons_append, marks, marks, ih ha']
    simp only [hhead]
    split_ifs
    · rfl
    · rfl
    · rfl
    · rfl

theorem not_isLineBreak_of_blank {c : UInt8} (h : c = ch ' ' ∨ isSkipped c = true) :
    isLineBreak c = false := by
  rcases h with rfl | h
  · decide
  · exact not_isLineBreak_of_isSkipped h

theorem marks_eq_nil (h : ∀ c ∈ txt, c = ch ' ' ∨ isSkipped c = true) : marks txt = [] := by
  induction txt with
  | nil => rfl
  | cons c txt ih =>
    rw [List.forall_mem_cons] at h
    have hbreak := not_isLineBreak_of_blank h.1
    have hcr : c ≠ ch '\r' := by
      rintro rfl
      exact absurd hbreak (by decide)
    rw [marks, if_neg fun hcrlf => hcr hcrlf.1, hbreak, if_neg Bool.false_ne_true, if_pos h.1,
      ih h.2]

theorem unbroken_replicate (k : ℕ) : ∀ c ∈ List.replicate k (ch ' '), isLineBreak c = false := by
  intro c hc
  rw [List.eq_of_mem_replicate hc]
  decide

theorem getLast?_ne_of_unbroken (h : ∀ c ∈ txt, isLineBreak c = false) :
    txt.getLast? ≠ some (ch '\r') :=
  (onlyCrlf_of_unbroken h).getLast?_ne

/-- The delimiter CR LF. -/
def crlfDelim : Text := [ch '\r', ch '\n']

theorem onlyCrlf_crlfDelim : OnlyCrlf crlfDelim := .crlf .nil

namespace Wrapping

variable {w : Wrapping} {s s' : WrapState} {p q : ℕ} {out : Text}

theorem slice_append_drop (h : p ≤ q) : slice w.text p q ++ w.text.drop q = w.text.drop p := by
  rw [slice, show q = p + (q - p) by omega, Nat.add_sub_cancel_left, ← List.drop_drop,
    List.take_append_drop]

theorem Spaces.blank (h : w.Spaces p q) : w.Blank p q := fun i hi hi' _ hc =>
  .inl (Option.some.inj (hc.symm.trans (h i hi hi')))

theorem Blank.of_mem (h : w.Blank p q) :
    ∀ c ∈ slice w.text p q, c = ch ' ' ∨ isSkipped c = true := by
  intro c hc
  obtain ⟨i, hi, hi', hget⟩ := exists_of_mem_slice hc
  exact h i hi hi' c hget

theorem Blank.unbroken (h : w.Blank p q) : ∀ c ∈ slice w.text p q, isLineBreak c = false :=
  fun c hc => not_isLineBreak_of_blank (h.of_mem c hc)

/-- Nothing is lost in a range of spaces. -/
theorem Blank.marks_drop (h : w.Blank p q) (hpq : p ≤ q) :
    marks (w.text.drop p) = marks (w.text.drop q) := by
  rw [← slice_append_drop hpq, marks_append (getLast?_ne_of_unbroken h.unbroken),
    marks_eq_nil h.of_mem, List.nil_append]

/-- A line break at the beginning of what is left of the text. -/
theorem marks_drop_consume (h : w.text[q]?.any isLineBreak = true) :
    marks (w.text.drop q) = none :: marks (w.text.drop (consumeLineBreak w.text q)) := by
  obtain ⟨c, hc, hbreak⟩ := (Option.any_eq_true _ _).mp h
  obtain ⟨hq, hget⟩ := List.getElem?_eq_some_iff.mp hc
  have hhead : (w.text.drop (q + 1)).head? = w.text[q + 1]? := List.head?_drop
  rw [List.drop_eq_getElem_cons hq, hget, marks, hhead,
    consumeLineBreak_eq hc]
  by_cases hcrlf : c = ch '\r' ∧ w.text[q + 1]? = some (ch '\n')
  · obtain ⟨hq', hget'⟩ := List.getElem?_eq_some_iff.mp hcrlf.2
    rw [if_pos hcrlf, if_pos hcrlf, List.drop_eq_getElem_cons hq', hget', marks,
      if_neg (fun hcr => absurd hcr.1 (by decide)), if_pos (by decide)]
  · rw [if_neg hcrlf, if_neg hcrlf, if_pos hbreak]

theorem marks_drop_lineBreak (h : w.text[q]?.any isLineBreak = true) :
    marks (w.text.drop q) =
      none :: marks (w.text.drop (w.nxt (consumeLineBreak w.text q - 1))) := by
  have hle := (lineBreak_bounds h).2
  have hlt := (lineBreak_bounds h).1
  have hskipped : w.Blank (consumeLineBreak w.text q) (w.nxt (consumeLineBreak w.text q - 1)) :=
    fun i hi hi' c hc => .inr (skipped_of_lt_nxt (by omega) (by omega) hi' c hc)
  rw [marks_drop_consume h, hskipped.marks_drop (lineBreak_nxt h).1]

/-- The line breaks that a round copies as they are, are right. -/
structure KeepsBreaks (w : Wrapping) (s : WrapState) : Prop where
  /-- The shortcut copies CR LF only. -/
  rest : w.Shortcut s → OnlyCrlf (w.text.drop s.p)
  /-- A line that is copied has no line break. -/
  line : ∀ q, (w.wrapRound s).copies = s.copies ++ [(s.p, q)] →
    ∀ c ∈ slice w.text s.p q, isLineBreak c = false

/-- What was written has CR LF only, and the line breaks of what was read. -/
def Normalized (w : Wrapping) (s : WrapState) : Prop :=
  OnlyCrlf s.wrapped ∧ (marks w.text).Sublist (marks s.wrapped ++ marks (w.text.drop s.p))

/-- The rest of the text is copied. -/
theorem Normalized.rest (h : w.Normalized s) (hrest : OnlyCrlf (w.text.drop s.p))
    (hs' : s'.wrapped = s.wrapped ++ slice w.text s.p w.text.length)
    (hp : s'.p = w.text.length) : w.Normalized s' := by
  rw [Normalized, hs', slice_to_length, hp, List.drop_length, marks_append h.1.getLast?_ne, marks,
    List.append_nil]
  exact ⟨h.1.append hrest, h.2⟩

/-- A line is copied, and the delimiter and an indentation are written. -/
theorem Normalized.line (hdelim : w.lineDelim = crlfDelim) (h : w.Normalized s) {line : Text}
    {k : ℕ} (hline : ∀ c ∈ line, isLineBreak c = false)
    (hs' : s'.wrapped = s.wrapped ++ line ++ w.lineDelim ++ List.replicate k (ch ' '))
    (hmarks : (marks (w.text.drop s.p)).Sublist (marks line ++ none :: marks (w.text.drop s'.p))) :
    w.Normalized s' := by
  have honly : OnlyCrlf (s.wrapped ++ line) := h.1.append (onlyCrlf_of_unbroken hline)
  have honly' : OnlyCrlf (s.wrapped ++ line ++ crlfDelim) := honly.append onlyCrlf_crlfDelim
  have hblank : marks (List.replicate k (ch ' ')) = [] :=
    marks_eq_nil fun c hc => .inl (List.eq_of_mem_replicate hc)
  rw [hdelim] at hs'
  rw [Normalized, hs']
  refine ⟨honly'.append (onlyCrlf_of_unbroken (unbroken_replicate k)), ?_⟩
  rw [marks_append honly'.getLast?_ne, marks_append honly.getLast?_ne,
    marks_append h.1.getLast?_ne, hblank, List.append_nil, List.append_assoc, List.append_assoc]
  exact h.2.trans (hmarks.append_left _)

/-- **A round whose copies are right.** -/
theorem Round.normalized (hdelim : w.lineDelim = crlfDelim) (h : w.Normalized s)
    (hrest : w.Shortcut s → OnlyCrlf (w.text.drop s.p))
    (hline : ∀ q, s'.copies = s.copies ++ [(s.p, q)] →
      ∀ c ∈ slice w.text s.p q, isLineBreak c = false)
    (hround : w.Round s s') : w.Normalized s' := by
  cases hround with
  | shortcut hcut => exact h.rest (hrest hcut) rfl rfl
  | last len indent hcut hbreaks hfits =>
    refine h.rest (onlyCrlf_of_unbroken ?_) rfl rfl
    rw [← slice_to_length]
    exact hline _ rfl
  | wrap t b p hcut ht hscan hat hb hp hend hspaces hstop hbreaks hfits =>
    have hunbroken := hline b rfl
    refine h.line hdelim hunbroken rfl ?_
    rw [← slice_append_drop hb.le, marks_append (getLast?_ne_of_unbroken hunbroken),
      hspaces.blank.marks_drop hp]
    exact (List.sublist_cons_self _ _).append_left _
  | lineBreak q wrapped copies hcut hq hbreak hbreaks hfits hwrapped =>
    have hmarks := marks_drop_lineBreak hbreak
    rcases hwrapped with ⟨rfl, rfl⟩ | ⟨rfl, -, hspaces⟩
    · have hunbroken := hline q rfl
      refine h.line (k := 0) hdelim hunbroken (List.append_nil _).symm ?_
      rw [← slice_append_drop hq, marks_append (getLast?_ne_of_unbroken hunbroken), hmarks]
    · have hline : ∀ c ∈ ([] : Text), isLineBreak c = false := List.forall_mem_nil _
      refine h.line (k := 0) hdelim hline ?_ ?_
      · simp only [List.replicate_zero, List.append_nil]
      · rw [hspaces.marks_drop hq, hmarks]
        exact .refl _

/-! ### Line breaks that are copied -/

theorem Round.getLast?_ne (hdelim : w.lineDelim = crlfDelim) (h : w.Round s s')
    (hp : s'.p < w.text.length) : s'.wrapped.getLast? ≠ some (ch '\r') := by
  cases h with
  | shortcut hcut => exact absurd hp (lt_irrefl _)
  | last len indent hcut hbreaks hfits => exact absurd hp (lt_irrefl _)
  | wrap t b p hcut ht hscan hat hb hp' hend hspaces hstop hbreaks hfits =>
    dsimp only
    rw [hdelim, List.append_assoc]
    have honly := onlyCrlf_crlfDelim.append
      (onlyCrlf_of_unbroken (unbroken_replicate (t.indent.getD 0)))
    exact honly.getLast?_append_ne (fun heq => by cases heq)
  | lineBreak q wrapped copies hcut hq hbreak hbreaks hfits hwrapped =>
    rw [hdelim] at hwrapped
    rcases hwrapped with ⟨rfl, -⟩ | ⟨rfl, -, -⟩
    · exact onlyCrlf_crlfDelim.getLast?_append_ne (fun heq => by cases heq)
    · exact onlyCrlf_crlfDelim.getLast?_append_ne (fun heq => by cases heq)

/-- A line does not begin behind a CR. -/
theorem Reached.getLast?_ne (hw : w.Regular) (hdelim : w.lineDelim = crlfDelim)
    (h : w.Reached s) (hp : s.p < w.text.length) : s.wrapped.getLast? ≠ some (ch '\r') := by
  refine (h.invariant (I := fun s => s.p < w.text.length →
    s.wrapped.getLast? ≠ some (ch '\r')) hw (fun _ heq => by cases heq) ?_).2 hp
  exact fun s _ _ _ hround _ => hround.getLast?_ne hdelim

/-! ### The result -/

/-- The states of a call in which every round is right. -/
theorem Reached.normalized (hw : w.Regular) (hdelim : w.lineDelim = crlfDelim)
    (hkeeps : ∀ s, w.Reached s → s.p < w.text.length → w.KeepsBreaks s) (h : w.Reached s) :
    w.Normalized s := by
  refine (h.invariant (I := w.Normalized) hw ⟨.nil, .refl _⟩ ?_).2
  intro s hs _ hp hround hI
  obtain ⟨hrest, hline⟩ := hkeeps s hs hp
  exact hround.normalized hdelim hI hrest hline

end Wrapping

/-! ### `wrap_lines` -/

end Intent.Old
