import Intent.Py.LexMode

/-!
# An error is never confined to its line

The lexer works line by line, the report of an error computes the rest of *its* line as an
`UNLEXED` token, and the break set of a paragraph ends at a line feed. One would expect an
error in a line `A` to leave the lines after it alone (`ErrorConfined`): an `END_LINE` for the
line feed after `A`, and from there on the tokens of the rest of the text.

**No erroneous line behaves so.** The scanner of a hypertext section has a break set without
the line feed, so a section that `A` leaves open reads on into the next line. By `lex_marked` a
line reports an error only if it ends inside of a section (`Unclosed`), and a reading that
stands inside of a section still does after a line feed (`InSection.lineFeed`): the line feed
after such a line is never the one of an `END_LINE` token.
-/

namespace Intent.Py

/-! ### Reading a line feed inside of a section -/

/-- A line feed leaves the reading inside of the section it stands in. -/
theorem InSection.lineFeed {m : Mode} (h : m.InSection = true) :
    (m.step '\n').InSection = true := by
  rcases m with _ | _ | _ | _ | ⟨_ | d, r⟩ | d | ⟨d, r⟩ | _
  case text.succ => rfl
  case divider => rfl
  case target => rfl
  all_goals cases h

/-- The reading of a prefix does not see what follows it. -/
theorem modeAt_append {text rest : List Char} {i : ℕ} (hi : i ≤ text.length) :
    modeAt (text ++ rest) i = modeAt text i := by
  rw [modeAt, List.take_append_of_le_length hi, modeAt]

/-- After a line that ends inside of a section, the next line starts inside of it too. -/
theorem Unclosed.next_line {A : List Char} (h : Unclosed A) (B : List Char) :
    (modeAt (A ++ '\n' :: B) (A.length + 1)).InSection = true := by
  have hlt : A.length < (A ++ '\n' :: B).length := by simp
  have hfeed : charAt (A ++ '\n' :: B) A.length = '\n' := by simp [charAt]
  rw [modeAt_succ hlt, hfeed, modeAt_append le_rfl]
  exact InSection.lineFeed h

/-! ### Confined errors -/

/-- Lexing reports an error. -/
def ReportsError (text : List Char) : Prop :=
  ∃ fuel, ∃ t ∈ (lex text fuel).yields, t.ttype = .lexError

/-- The type and the span of a token, moved by `n`. -/
def Token.shifted (n : ℕ) (t : Token) : TokType × ℕ × ℕ := (t.ttype, t.begin + n, t.stop + n)

/-- Lexing the line `A`, a line feed and `B` yields an `END_LINE` for that line feed, and after
it the tokens of `B` without `BEGIN_DOC`, at their new places. -/
def ErrorConfined (A B : List Char) : Prop :=
  ∃ fuel before t after,
    (lex (A ++ '\n' :: B) fuel).yields = before ++ t :: after ∧
      t.ttype = .endLine ∧ t.begin = A.length ∧ t.stop = A.length + 1 ∧
      ∃ fuel', after.map (Token.shifted 0) =
        (lex B fuel').yields.tail.map (Token.shifted (A.length + 1))

/-- A text that reports an error ends inside of a section. -/
theorem ReportsError.unclosed {text : List Char} (h : ReportsError text) : Unclosed text := by
  obtain ⟨fuel, t, ht, herror⟩ := h
  exact (lex_marked text fuel t ht).1 herror

/-- After a line that ends inside of a section, no run yields an `END_LINE` for its line
feed. -/
theorem Unclosed.begin_ne_length {A B : List Char} {fuel : ℕ} {t : Token} (h : Unclosed A)
    (ht : t ∈ (lex (A ++ '\n' :: B) fuel).yields) (hline : t.ttype = .endLine) :
    t.begin ≠ A.length := by
  intro hbegin
  have hstart := (lex_marked _ fuel t ht).2 hline
  have hinside := h.next_line B
  rw [← hbegin, hstart] at hinside
  cases hinside

/-- An open section takes the line feed after it, whatever follows. -/
theorem Unclosed.not_confined {A : List Char} (h : Unclosed A) (B : List Char) :
    ¬ ErrorConfined A B := by
  rintro ⟨fuel, before, t, after, hyields, hline, hbegin, -⟩
  have ht : t ∈ (lex (A ++ '\n' :: B) fuel).yields := by
    rw [hyields]
    exact List.mem_append_right before List.mem_cons_self
  exact h.begin_ne_length ht hline hbegin

/-- **Errors are never confined.** Whatever follows a text that reports an error, and so for
every single line that does, the line feed after it is read inside of the open section and ends
no line. -/
theorem lex_error_not_confined (A B : List Char) (herror : ReportsError A) :
    ¬ ErrorConfined A B := by
  have hopen : Unclosed A := herror.unclosed
  exact hopen.not_confined B

-- the line feed of `[\nb` is read as text of the section, with the line after it
example : (lex ['[', '\n', 'b'] 10).yields.map (fun t => (t.ttype, t.begin, t.stop)) =
    [(.beginDoc, 0, 0), (.beginPara, 0, 0), (.beginAnchor, 0, 1), (.text, 1, 3),
      (.lexError, 3, 3), (.endDoc, 3, 3)] := by decide +kernel

/-- A bracket alone reports an error. -/
theorem reportsError_bracket : ReportsError ['['] := ⟨6, by decide +kernel⟩

/-- Nothing after the line `[` is lexed as it is alone. -/
theorem lex_error_not_confined_bracket :
    '\n' ∉ ['['] ∧ ReportsError ['['] ∧ ∀ B, ¬ ErrorConfined ['['] B :=
  ⟨by decide, reportsError_bracket, fun B => lex_error_not_confined ['['] B reportsError_bracket⟩

/-- The line `[` before an empty line: the error is reported at the end of the text, and no
token ends the first line. -/
theorem bracket_line_not_confined :
    ¬ ∀ A B : List Char, '\n' ∉ A → ReportsError A → ErrorConfined A B := by
  intro h
  have hconfined : ErrorConfined ['['] [] := h ['['] [] (by decide) reportsError_bracket
  exact reportsError_bracket.unclosed.not_confined [] hconfined

end Intent.Py
