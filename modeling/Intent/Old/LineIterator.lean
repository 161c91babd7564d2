import Intent.Library.Scan
import Intent.Old.Interp
import Mathlib.Data.List.GetD

/-!
# Lines

`core/text/line_iterator.cpp`: an iterator over the lines of a text, which is a view or a C string.
A pointer is an offset in the memory that holds the text, or null.

`lineIterator_splits` says that it comes to an end, and that the views which it passes are the
pieces of the text between the line breaks, with the empty ones. A NUL would be a line break, since
`strchr` finds it in every string.
-/

namespace Intent.Old

/-! ### The iterator -/

/-- `str_view`. -/
structure StrView where
  begin : Option ℕ
  length : ℕ
  deriving DecidableEq, Repr

namespace StrView

/-- `end`, for a view that is empty if it is null. -/
def stop (v : StrView) : Option ℕ := v.begin.map (· + v.length)

/-- `end_at`. -/
def endAt (v : StrView) (newEnd : ℕ) : StrView :=
  match v.begin with
  | none => v
  | some b => { v with length := if b ≤ newEnd then newEnd - b else 0 }

/-- The bytes of a view. -/
def text (mem : Text) (v : StrView) : Text :=
  match v.begin with
  | none => []
  | some b => slice mem b (b + v.length)

end StrView

/-- `line_iterator`. -/
structure LineIterator where
  line : StrView
  stop : Option ℕ
  deriving DecidableEq, Repr

namespace LineIterator

/-- `find_any_char` with `"\r\n"`. -/
def findLineBreak (mem : Text) (p stop : ℕ) : ℕ :=
  scanWhile (fun i => !strchr [ch '\r', ch '\n'] (byteAt mem i)) p stop

/-- The constructor. Without an end, the text goes on to its NUL. -/
def ofRange (mem : Text) (begin stop : Option ℕ) : LineIterator :=
  match begin with
  | none => ⟨⟨none, 0⟩, stop⟩
  | some b =>
    let e := stop.getD (scanWhile (fun i => byteAt mem i != 0) b mem.length)
    let p := findLineBreak mem b e
    ⟨StrView.endAt ⟨some b, 0⟩ (if p ≠ e then p else e), some e⟩

/-- The constructor for a view. -/
def ofView (mem : Text) (txt : StrView) : LineIterator := ofRange mem txt.begin txt.stop

/-- `operator++`; `none` where it reads at `nullptr`. -/
def next (mem : Text) (it : LineIterator) : Option LineIterator :=
  match it.line.stop, it.stop with
  | some p, some e =>
    if p + 1 ≤ e then
      let q :=
        if mem[p]? = some (ch '\r') then
          if p + 1 < e ∧ mem[p + 1]? = some (ch '\n') then p + 2 else p + 1
        else p + 1
      some { it with line := { it.line with begin := some q }.endAt (findLineBreak mem q e) }
    else some { it with line := ⟨none, 0⟩ }
  | _, none => some { it with line := ⟨none, 0⟩ }
  | none, some _ => none

/-- The iterator is incremented until its view is null, and these are the texts of its views. -/
inductive Yields (mem : Text) : LineIterator → List Text → Prop where
  | done {it : LineIterator} (hnull : it.line.begin = none) : Yields mem it []
  | line {it it' : LineIterator} {texts : List Text} (hbegin : it.line.begin ≠ none)
      (hnext : it.next mem = some it') (htail : Yields mem it' texts) :
      Yields mem it (it.line.text mem :: texts)

end LineIterator

/-! ### Pieces -/

/-- The kinds of line breaks. -/
inductive LineBreak where
  | lf
  | crLf
  | cr
  deriving DecidableEq, Repr

/-- The characters of a line break. -/
def LineBreak.text : LineBreak → Text
  | .lf => [ch '\n']
  | .crLf => [ch '\r', ch '\n']
  | .cr => [ch '\r']

/-- A text is broken into lines, each with its break, and a last piece. -/
inductive Broken : Text → List (Text × LineBreak) → Text → Prop where
  | last {w : Text} (hw : ∀ c ∈ w, isLineBreak c = false) : Broken w [] w
  | line {w txt last : Text} {b : LineBreak} {lines : List (Text × LineBreak)}
      (hw : ∀ c ∈ w, isLineBreak c = false) (hcr : b = .cr → txt.head? ≠ some (ch '\n'))
      (htail : Broken txt lines last) : Broken (w ++ (b.text ++ txt)) ((w, b) :: lines) last

namespace Broken

variable {txt last : Text} {lines : List (Text × LineBreak)}

/-- The lines with their breaks are the text. -/
theorem join (h : Broken txt lines last) :
    txt = (lines.flatMap fun l => l.1 ++ l.2.text) ++ last := by
  induction h with
  | last _ => rfl
  | line _ _ _ ih => rw [List.flatMap_cons, List.append_assoc, List.append_assoc, ← ih]

theorem exists_cons {c : UInt8} (hc : isLineBreak c = false) (h : Broken txt lines last) :
    ∃ lines' last', Broken (c :: txt) lines' last' := by
  cases h with
  | last hw => exact ⟨_, _, .last (List.forall_mem_cons.mpr ⟨hc, hw⟩)⟩
  | line hw hcr htail => exact ⟨_, _, .line (List.forall_mem_cons.mpr ⟨hc, hw⟩) hcr htail⟩

theorem line_nil {b : LineBreak} (hcr : b = .cr → txt.head? ≠ some (ch '\n'))
    (h : Broken txt lines last) : Broken (b.text ++ txt) (([], b) :: lines) last :=
  .line (List.forall_mem_nil _) hcr h

end Broken

/-- Every text can be broken into lines. -/
theorem exists_broken (txt : Text) : ∃ lines last, Broken txt lines last := by
  induction hn : txt.length using Nat.strong_induction_on generalizing txt with
  | _ n ih =>
    subst hn
    cases txt with
    | nil => exact ⟨[], [], .last (List.forall_mem_nil _)⟩
    | cons c s =>
      obtain ⟨lines, last, h⟩ := ih _ (Nat.lt_succ_self s.length) s rfl
      cases hc : isLineBreak c with
      | false => exact h.exists_cons hc
      | true =>
        rw [isLineBreak, Bool.or_eq_true, beq_iff_eq, beq_iff_eq] at hc
        rcases hc with rfl | rfl
        · exact ⟨_, _, Broken.line_nil (b := .lf) (fun hb => by cases hb) h⟩
        · by_cases hlf : s.head? = some (ch '\n')
          · -- CR LF: what is behind both
            obtain ⟨t, rfl⟩ := List.head?_eq_some_iff.mp hlf
            obtain ⟨lines, last, h⟩ := ih t.length (by simp only [List.length_cons]; omega) t rfl
            exact ⟨_, _, Broken.line_nil (b := .crLf) (fun hb => by cases hb) h⟩
          · exact ⟨_, _, Broken.line_nil (b := .cr) (fun _ => hlf) h⟩

/-! ### A step -/

namespace LineIterator

section Steps

variable {before w s after : Text} {b : LineBreak}

theorem strchr_lineBreaks (c : UInt8) :
    strchr [ch '\r', ch '\n'] c = (isLineBreak c || c == 0) := by
  rw [strchr, List.contains_cons, List.contains_cons, List.contains_nil, Bool.or_false, isLineBreak,
    Bool.or_comm (c == ch '\n')]

theorem byteAt_append (before s : Text) (i : ℕ) :
    byteAt (before ++ s) (before.length + i) = byteAt s i := by
  rw [byteAt, byteAt, List.getD_append_right _ _ _ _ (Nat.le_add_right _ _),
    Nat.add_sub_cancel_left]

/-- The scan for a line break passes over a line. -/
theorem findLineBreak_eq (hw : ∀ c ∈ w, isLineBreak c = false) (hnul : 0 ∉ w)
    (hs : ∀ c ∈ s.head?, isLineBreak c = true) :
    findLineBreak (before ++ (w ++ (s ++ after))) before.length
      (before.length + (w ++ s).length) = before.length + w.length := by
  rw [List.length_append]
  refine scanWhile_eq (by omega) (by omega) (fun i hle hlt => ?_) fun hlt => ?_
  · obtain ⟨k, rfl⟩ := Nat.exists_eq_add_of_le hle
    have hk : k < w.length := Nat.lt_of_add_lt_add_left hlt
    have hbyte : byteAt (w ++ (s ++ after)) k = w[k] := by
      rw [byteAt, List.getD_append _ _ _ _ hk, List.getD_eq_getElem _ _ hk]
    rw [byteAt_append, hbyte, strchr_lineBreaks, hw _ (List.getElem_mem hk), Bool.false_or,
      Bool.not_eq_true', beq_eq_false_iff_ne]
    exact fun h => hnul (h ▸ List.getElem_mem hk)
  · cases s with
    | nil => exact absurd hlt (Nat.lt_irrefl _)
    | cons c t =>
      have hbyte := byteAt_append w (c :: t ++ after) 0
      rw [Nat.add_zero] at hbyte
      rw [byteAt_append, hbyte, strchr_lineBreaks]
      simp [byteAt, hs c rfl]

/-- The iterator at the line that begins at `p`. -/
def lineFrom (mem : Text) (p e : ℕ) : LineIterator := ⟨⟨some p, findLineBreak mem p e - p⟩, some e⟩

theorem endAt_findLineBreak (mem : Text) (p n e : ℕ) :
    (StrView.endAt ⟨some p, n⟩ (findLineBreak mem p e)).length = findLineBreak mem p e - p :=
  if_pos (le_scanWhile _ p e)

theorem ofRange_eq (mem : Text) (p e : ℕ) : ofRange mem (some p) (some e) = lineFrom mem p e := by
  have hstop : ∀ q : ℕ, (if q ≠ e then q else e) = q := fun q => by
    split_ifs with h
    · rfl
    · exact (not_not.mp h).symm
  rw [ofRange, Option.getD_some, hstop, lineFrom]
  exact congrArg (fun n => LineIterator.mk ⟨some p, n⟩ (some e)) (endAt_findLineBreak mem p 0 e)

/-- The iterator at a line, in terms of the text there. -/
theorem lineFrom_eq (before after : Text) (hw : ∀ c ∈ w, isLineBreak c = false) (hnul : 0 ∉ w)
    (hs : ∀ c ∈ s.head?, isLineBreak c = true) :
    lineFrom (before ++ (w ++ (s ++ after))) before.length (before.length + (w ++ s).length) =
      ⟨⟨some before.length, w.length⟩, some (before.length + (w ++ s).length)⟩ := by
  rw [lineFrom, findLineBreak_eq hw hnul hs, Nat.add_sub_cancel_left]

theorem text_line (before w s : Text) :
    StrView.text (before ++ (w ++ s)) ⟨some before.length, w.length⟩ = w := by
  dsimp only [StrView.text]
  rw [slice, List.drop_left, Nat.add_sub_cancel_left, List.take_left]

/-- **A step** goes behind the line break. -/
theorem next_line (before w after : Text) {txt : Text}
    (hcr : b = .cr → txt.head? ≠ some (ch '\n')) {e : ℕ}
    (he : e = before.length + (w ++ (b.text ++ txt)).length) :
    next (before ++ (w ++ (b.text ++ (txt ++ after)))) ⟨⟨some before.length, w.length⟩, some e⟩ =
      some (lineFrom (before ++ (w ++ (b.text ++ (txt ++ after))))
        (before.length + w.length + b.text.length) e) := by
  have hget : ∀ k, (before ++ (w ++ (b.text ++ (txt ++ after))))[before.length + w.length + k]? =
      (b.text ++ (txt ++ after))[k]? := fun k => by
    rw [← List.append_assoc before, ← List.length_append, List.getElem?_append_right (by omega),
      Nat.add_sub_cancel_left]
  have hlen : e = before.length + w.length + b.text.length + txt.length := by
    rw [he, List.length_append, List.length_append]
    omega
  generalize before ++ (w ++ (b.text ++ (txt ++ after))) = mem at hget ⊢
  generalize hp : before.length + w.length = p at hget hlen ⊢
  have hp0 := hget 0
  rw [Nat.add_zero] at hp0
  -- the step is as long as the break: CR before the end or before another character is one alone
  have hq : (if mem[p]? = some (ch '\r') then
      if p + 1 < e ∧ mem[p + 1]? = some (ch '\n') then p + 2 else p + 1 else p + 1) =
      p + b.text.length := by
    rw [hp0, hget 1]
    cases b with
    | lf => rfl
    | crLf =>
      have hlt : p + 1 < e := by
        simp only [LineBreak.text, List.length_cons] at hlen
        omega
      exact (if_pos rfl).trans (if_pos ⟨hlt, rfl⟩)
    | cr =>
      refine (if_pos rfl).trans (if_neg ?_)
      rintro ⟨hlt, hlf⟩
      cases txt with
      | nil =>
        simp only [LineBreak.text, List.length_cons, List.length_nil] at hlen
        omega
      | cons c txt => exact hcr rfl hlf
  have hle : p + 1 ≤ e := by
    have hpos : 0 < b.text.length := by cases b <;> decide
    omega
  rw [next]
  simp only [StrView.stop, Option.map_some, hp]
  rw [if_pos hle, hq]
  exact congrArg (fun n => some (LineIterator.mk ⟨some _, n⟩ (some e)))
    (endAt_findLineBreak mem (p + b.text.length) w.length e)

/-- Behind the last piece the view becomes null. -/
theorem next_last (mem : Text) (p n : ℕ) :
    next mem ⟨⟨some p, n⟩, some (p + n)⟩ = some ⟨⟨none, 0⟩, some (p + n)⟩ :=
  if_neg (Nat.not_succ_le_self _)

end Steps

/-! ### The run -/

theorem Yields.of_text {mem w : Text} {it it' : LineIterator} {texts : List Text}
    (htext : it.line.text mem = w) (hbegin : it.line.begin ≠ none) (hnext : it.next mem = some it')
    (htail : Yields mem it' texts) : Yields mem it (w :: texts) :=
  htext ▸ .line hbegin hnext htail

/-- **The run** from a line on yields the pieces. The induction is on the lines that are left. -/
theorem yields_lineFrom {txt last : Text} {lines : List (Text × LineBreak)}
    (h : Broken txt lines last) (hnul : 0 ∉ txt) (before after : Text) :
    Yields (before ++ (txt ++ after))
      (lineFrom (before ++ (txt ++ after)) before.length (before.length + txt.length))
      (lines.map Prod.fst ++ [last]) := by
  induction h generalizing before with
  | @last w hw =>
    have heq := lineFrom_eq before after hw hnul
      fun c (hc : c ∈ ([] : Text).head?) => by cases hc
    rw [List.nil_append, List.append_nil] at heq
    rw [heq]
    exact .of_text (text_line before w after) (Option.some_ne_none _) (next_last _ _ _) (.done rfl)
  | @line w txt last b lines hw hcr _ ih =>
    rw [List.mem_append, List.mem_append, not_or, not_or] at hnul
    have hhead : ∀ c ∈ (b.text ++ txt).head?, isLineBreak c = true := by
      cases b <;> rintro _ ⟨⟩ <;> rfl
    have heq := lineFrom_eq before after hw hnul.1 hhead
    have hstep := next_line before w after hcr rfl
    have htail := ih hnul.2.2 (before ++ (w ++ b.text))
    have htext := text_line before w (b.text ++ (txt ++ after))
    simp only [List.append_assoc, List.length_append, ← Nat.add_assoc] at heq hstep htail htext ⊢
    rw [heq]
    exact .of_text htext (Option.some_ne_none _) hstep htail

theorem ofView_eq (mem : Text) (p n : ℕ) : ofView mem ⟨some p, n⟩ = lineFrom mem p (p + n) :=
  ofRange_eq mem p (p + n)

/-- A C string goes on to its NUL. -/
theorem ofRange_none {before txt after : Text} (hnul : 0 ∉ txt) :
    ofRange (before ++ (txt ++ 0 :: after)) (some before.length) none =
      lineFrom (before ++ (txt ++ 0 :: after)) before.length (before.length + txt.length) := by
  have hstop : scanWhile (fun i => byteAt (before ++ (txt ++ 0 :: after)) i != 0) before.length
      (before ++ (txt ++ 0 :: after)).length = before.length + txt.length := by
    simp only [List.length_append, List.length_cons]
    refine scanWhile_eq (by omega) (by omega) (fun i hle hlt => ?_) fun _ => ?_
    · obtain ⟨k, rfl⟩ := Nat.exists_eq_add_of_le hle
      have hk : k < txt.length := Nat.lt_of_add_lt_add_left hlt
      have hbyte : byteAt (txt ++ 0 :: after) k = txt[k] := by
        rw [byteAt, List.getD_append _ _ _ _ hk, List.getD_eq_getElem _ _ hk]
      rw [byteAt_append, hbyte, bne_iff_ne]
      exact fun h => hnul (h ▸ List.getElem_mem hk)
    · have hbyte := byteAt_append txt (0 :: after) 0
      rw [Nat.add_zero] at hbyte
      rw [byteAt_append, hbyte]
      rfl
  rw [← ofRange_eq, ofRange, ofRange, hstop]
  rfl

end LineIterator

open LineIterator in
/-- **Lines.** Every text can be broken into lines, and then the iterator, on a view of the text or
on the C string, yields the pieces between the breaks, one by one, until its view is null. -/
theorem lineIterator_splits (before txt after : Text) (hnul : 0 ∉ txt) :
    (∃ lines last, Broken txt lines last) ∧ ∀ lines last, Broken txt lines last →
      txt = (lines.flatMap fun l => l.1 ++ l.2.text) ++ last ∧
      Yields (before ++ (txt ++ after))
        (ofView (before ++ (txt ++ after)) ⟨some before.length, txt.length⟩)
        (lines.map Prod.fst ++ [last]) ∧
      Yields (before ++ (txt ++ 0 :: after))
        (ofRange (before ++ (txt ++ 0 :: after)) (some before.length) none)
        (lines.map Prod.fst ++ [last]) := by
  refine ⟨exists_broken txt, fun lines last h => ⟨h.join, ?_, ?_⟩⟩
  · rw [ofView_eq]
    exact yields_lineFrom h hnul before after
  · rw [ofRange_none hnul]
    exact yields_lineFrom h hnul before (0 :: after)

theorem unbroken {w : Text} (h : w.all (fun c => isLineBreak c = false) = true) :
    ∀ c ∈ w, isLineBreak c = false :=
  List.all_iff_forall_prop.mp h

open LineIterator in
/-- The lines of a text with three kinds of line breaks, and an empty piece at its end. -/
theorem lineIterator_splits_three :
    Yields (bytes ['a', '\n', 'b', '\r', '\n', 'c', '\r'] ++ [0])
      (ofRange (bytes ['a', '\n', 'b', '\r', '\n', 'c', '\r'] ++ [0]) (some 0) none)
      [bytes ['a'], bytes ['b'], bytes ['c'], []] := by
  have hc : Broken (bytes ['c', '\r']) [(bytes ['c'], .cr)] [] :=
    .line (w := bytes ['c']) (b := .cr) (unbroken (by decide)) (by decide)
      (.last (List.forall_mem_nil _))
  have hb : Broken (bytes ['b', '\r', '\n', 'c', '\r'])
      [(bytes ['b'], .crLf), (bytes ['c'], .cr)] [] :=
    .line (w := bytes ['b']) (b := .crLf) (unbroken (by decide)) (by decide) hc
  have ha : Broken (bytes ['a', '\n', 'b', '\r', '\n', 'c', '\r'])
      [(bytes ['a'], .lf), (bytes ['b'], .crLf), (bytes ['c'], .cr)] [] :=
    .line (w := bytes ['a']) (b := .lf) (unbroken (by decide)) (by decide) hb
  exact ((lineIterator_splits [] _ [] (by decide)).2 _ _ ha).2.2

end Intent.Old
