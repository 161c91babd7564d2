import Intent.Library.Gen
import Intent.Library.Scan

/-!
# The document lexer of `intent/lang`

A translation of `lex.py`, with the token and state classes of `tok.py`, `tok_types.py`,
`lex_state.py` and `lex_errors.py`. Each generator of the source is a `Gen` over the lexer
state; the text itself is never assigned and is a parameter.

* Every loop whose end depends on the cursor `ls.i` recurses on a `fuel` argument, so that a
  loop that does not advance is a run that ends in `hung`. `fragmentIsNext` is such a loop:
  it moves neither of its cursors.
* `breakOnAny` returns `none` where the source returns a triple; all its callers unpack four
  values, and fail with a `ValueError` there.
* `hypertext` tests the character *at* the bracket for `@` and `^`, as the source does.

The stack of states (`push`, `pop`) is left out: nothing but `__str__` reads it.
-/

namespace Intent.Py

/-- The token types of `tok_types.py`. -/
inductive TokType where
  | beginDoc | beginLine | beginPara | beginTerm | beginInstr | indent | dedent | name | text
  | beginAnchor | beginAside | beginLink | beginQuoted | endQuoted | endHypertext | pivotTerm
  | argSep | hypertextDivider | endLine | endDoc | lexError | unlexed
  deriving DecidableEq, Repr

/-- The error codes of `lex_errors.py`. -/
inductive ErrorCode where
  | noCloseBracket
  deriving DecidableEq, Repr

/-- The entry of `codes` for an error. -/
def ErrorCode.code : ErrorCode → String
  | .noCloseBracket => "NO_CLOSE_BRACKET"

/-- The entry of `msgs` for an error. -/
def ErrorCode.msg : ErrorCode → String
  | .noCloseBracket => "Expected a ] to match [."

/-- The exceptions the lexer and the parser can raise. -/
inductive PyError where
  | valueError
  | typeError
  | assertionError
  | stopIteration
  | preconditionViolation (comment : String)
  | postconditionViolation (comment : String)
  deriving DecidableEq, Repr

/-- A token: its type, its span `[begin, stop)` in the text, and where it was found. The
error is set on `LEX_ERROR` tokens only. -/
structure Token where
  ttype : TokType
  begin : ℕ
  stop : ℕ
  lineNum : ℕ
  col : ℤ
  error : Option ErrorCode
  deriving DecidableEq, Repr

/-- The slice of the text a token spans. -/
def Token.value (text : List Char) (t : Token) : List Char :=
  (text.take t.stop).drop t.begin

/-- The mutable part of `LexState`. -/
structure LexState where
  i : ℕ
  indent : ℕ
  lineNum : ℕ
  lineStart : ℕ
  deriving DecidableEq, Repr

/-- `LexState(text)`. -/
def LexState.init : LexState := ⟨0, 0, 1, 0⟩

/-- `Token(ls, ttype, begin, end)`. -/
def LexState.token (ls : LexState) (ttype : TokType) (begin stop : ℕ) : Token :=
  ⟨ttype, begin, stop, ls.lineNum, 1 + ((begin : ℤ) - ls.lineStart), none⟩

/-- Assign the cursor. -/
def LexState.moveTo (ls : LexState) (i : ℕ) : LexState := { ls with i := i }

@[simp] theorem LexState.moveTo_i (ls : LexState) (i : ℕ) : (ls.moveTo i).i = i := rfl

/-- A generator of the lexer. -/
abbrev LexM (α : Type) : Type := Gen LexState Token PyError α

/-- `_SKIPPABLE_WHITESPACE`. -/
def skippableWhitespace : List Char := [' ', '\t', '\r']

/-- `c in _SKIPPABLE_WHITESPACE`. -/
def isBlank (c : Char) : Bool := skippableWhitespace.contains c

section Text

variable (text : List Char)

/-- `text[i]`; the source only subscripts below the length. -/
def charAt (i : ℕ) : Char := text.getD i default

/-- The loop of `_fragment_is_next`: neither `i` nor `j` is advanced. -/
def fragmentLoop (fragment : List Char) (i j stop : ℕ) : ℕ → Option Bool
  | 0 => none
  | fuel + 1 =>
    if i < stop ∧ j < fragment.length then
      if charAt text i ≠ fragment.getD j default then some false
      else fragmentLoop fragment i j stop fuel
    else some (j == fragment.length)

/-- `_fragment_is_next`. -/
def fragmentIsNext (fuel i stop : ℕ) (fragment : List Char) : Option Bool :=
  fragmentLoop text fragment i 0 stop fuel

/-- `_skip_whitespace`. -/
def skipWhitespace (i stop : ℕ) : ℕ := scanWhile (fun k => isBlank (charAt text k)) i stop

/-- The loop of `_break_on_any`. `last` is `last_non_whitespace + 1`; the result is its last
value with the position where the loop stops. -/
def breakLoop (any : List Char) (i stop last : ℕ) : ℕ × ℕ :=
  if i < stop then
    if charAt text i ∈ any then (last, i)
    else breakLoop any (i + 1) stop (if isBlank (charAt text i) then last else i + 1)
  else (last, i)
termination_by stop - i

/-- `_break_on_any`: `begin`, `end`, `i` and the character that stopped the scan, or `none`
for the triple it returns when only blanks are left. -/
def breakOnAny (any : List Char) (i stop : ℕ) : Option (ℕ × ℕ × ℕ × Option Char) :=
  let begin := skipWhitespace text i stop
  if begin = stop then none
  else
    let r := breakLoop text any begin stop 0
    some (begin, max r.1 begin, r.2, if r.2 < stop then some (charAt text r.2) else none)

/-- `yield t` if `c` holds. -/
def emitIf {ε : Type} (c : Bool) (t : Token) : Gen LexState Token ε Unit :=
  Gen.emitAll (if c then [t] else [])

/-- `_name`. -/
def name : LexM Unit := do
  let ls ← Gen.get
  match breakOnAny text [':', ';', '\n'] ls.i text.length with
  | none => Gen.raise .valueError
  | some (begin, stop, i, _) => do
    Gen.modify (·.moveTo i)
    Gen.emit (ls.token .name begin stop)

/-- `_def`. -/
def defn : LexM Unit := do
  let ls ← Gen.get
  match breakOnAny text ['\n'] ls.i text.length with
  | none => Gen.raise .valueError
  | some (begin, stop, i, _) => do
    Gen.modify (·.moveTo i)
    Gen.emit (ls.token .text begin stop)

/-- `_term`. -/
def term : LexM Unit := do
  name text
  let ls ← Gen.get
  if ls.i < text.length ∧ charAt text ls.i = ':' then do
    Gen.emit (ls.token .pivotTerm ls.i (ls.i + 1))
    let i := skipWhitespace text (ls.i + 1) text.length
    Gen.modify (·.moveTo i)
    if i < text.length ∧ charAt text i ≠ '\n' then defn text else pure ()
  else pure ()

/-- `ls.text.find('\n', i)`, with `none` for `-1`. -/
def findLineBreak (i : ℕ) : Option ℕ :=
  let k := scanWhile (fun k => charAt text k ≠ '\n') i text.length
  if k < text.length then some k else none

/-- `_lex_error`, and the two `yield`s of its caller: the error token, and an `UNLEXED` token
for the rest of the line when there is any. -/
def lexError (code : ErrorCode) : LexM Unit := do
  let ls ← Gen.get
  Gen.emit { ls.token .lexError ls.i ls.i with error := some code }
  match findLineBreak text ls.i with
  | none => pure ()
  | some stop => emitIf (decide (ls.i < stop)) (ls.token .unlexed ls.i stop)

/-- The opener of a hypertext section: its token type, its length and the characters that
interrupt its text. -/
def opener (c : Option Char) : TokType × ℕ × List Char :=
  if c = some '@' then (.beginLink, 2, ['[', ';', '|', ']'])
  else if c = some '^' then (.beginAside, 2, ['[', ';', '|', ']'])
  else (.beginAnchor, 1, ['[', '|', ']'])

/-- The first character looked at by `_hypertext`. -/
def openerChar (i : ℕ) : Option Char :=
  if i + 1 ≥ text.length then none else some (charAt text i)

/-- The part of `_hypertext` after a divider that is followed by more text: the second text of
the section, and its closing bracket, which is left for the caller to read again. -/
def hypertextTarget : Gen LexState Token (PyError × Option ErrorCode) (Option ErrorCode) := do
  let ls ← Gen.get
  match breakOnAny text [']'] ls.i text.length with
  | none => Gen.raise (.valueError, some .noCloseBracket)
  | some (begin, stop, i, c) => do
    Gen.modify (·.moveTo i)
    emitIf (decide (begin < stop)) (ls.token .text begin stop)
    if c = some ']' then do
      Gen.emit (ls.token .endHypertext begin stop)
      pure none
    else pure (some .noCloseBracket)

mutual

/-- `_hypertext`. The `finally` block reports an error unless `ecode` was cleared. -/
def hypertext : ℕ → LexM Unit
  | 0 => Gen.hang
  | fuel + 1 =>
    Gen.protect
      (do
        let ls ← Gen.get
        let o := opener (openerChar text ls.i)
        Gen.emit (ls.token o.1 ls.i (ls.i + o.2.1))
        Gen.modify (·.moveTo (ls.i + o.2.1))
        hypertextLoop o.2.2 fuel)
      fun ecode => match ecode with
        | none => pure ()
        | some code => lexError text code

/-- The `while` loop of `_hypertext`. It returns the value of `ecode`, and an exception that
leaves it carries that value. -/
def hypertextLoop (breakers : List Char) :
    ℕ → Gen LexState Token (PyError × Option ErrorCode) (Option ErrorCode)
  | 0 => Gen.hang
  | fuel + 1 => do
    let ls ← Gen.get
    if ls.i < text.length then
      match breakOnAny text breakers ls.i text.length with
      | none => Gen.raise (.valueError, some .noCloseBracket)
      | some (begin, stop, i, c) => do
        Gen.modify (·.moveTo i)
        emitIf (decide (begin < stop)) (ls.token .text begin stop)
        if i < text.length then
          if c = some '|' then do
            Gen.emit (ls.token .hypertextDivider i (i + 1))
            Gen.modify (·.moveTo (i + 2))
            if i + 2 < text.length then hypertextTarget text
            else hypertextLoop breakers fuel
          else if c = some ';' then Gen.raise (.typeError, none)
          else if c = some '[' then do
            Gen.mapError (·, some .noCloseBracket) (hypertext fuel)
            hypertextLoop breakers fuel
          else if c = some ']' then do
            Gen.emit (ls.token .endHypertext i (i + 1))
            Gen.modify (·.moveTo (i + 1))
            pure none
          else Gen.raise (.assertionError, some .noCloseBracket)
        else hypertextLoop breakers fuel
    else pure (some .noCloseBracket)

end

/-- The loop of `_paragraph`. -/
def paragraph : ℕ → LexM Unit
  | 0 => Gen.hang
  | fuel + 1 => do
    let ls ← Gen.get
    match breakOnAny text ['[', '\n'] ls.i text.length with
    | none => Gen.raise .valueError
    | some (begin, stop, i, c) => do
      Gen.modify (·.moveTo i)
      emitIf (decide (begin < stop)) (ls.token .text begin (if c ≠ some '[' then stop else i))
      if i ≥ text.length ∨ c = some '\n' then pure ()
      else do
        hypertext text fuel
        let ls ← Gen.get
        if ls.i ≥ text.length then pure () else paragraph fuel

/-- The `INDENT` or `DEDENT` tokens of a line with the given leading `indents`; the new value
of `ls.indent` is `min`, since the loop that emits indents counts `n` down again. -/
def indentation (indents : List Token) : LexM Unit := do
  let ls ← Gen.get
  let n := indents.length
  Gen.emitAll (List.replicate (ls.indent - n) (ls.token .dedent ls.i ls.i))
  Gen.emitAll (indents.take (n - ls.indent))
  Gen.modify fun ls => { ls with indent := min ls.indent n }

/-- The part of `_line` after the indentation: a term or a paragraph. -/
def lineBody (fuel : ℕ) : LexM Unit := do
  let ls ← Gen.get
  if charAt text ls.i = '-' then do
    Gen.emit (ls.token .beginTerm ls.i (ls.i + 1))
    let i := skipWhitespace text (ls.i + 1) text.length
    Gen.modify (·.moveTo i)
    if i ≥ text.length then pure () else term text
  else do
    Gen.emit (ls.token .beginPara ls.i ls.i)
    paragraph text fuel

/-- The `while` loop of `_line`, which collects the indents of the line. -/
def lineLoop (indents : List Token) : ℕ → LexM Unit
  | 0 => Gen.hang
  | fuel + 1 => do
    let ls ← Gen.get
    if ls.i < text.length then
      if charAt text ls.i = '\t' then do
        Gen.modify (·.moveTo (ls.i + 1))
        lineLoop (indents ++ [ls.token .indent ls.i (ls.i + 1)]) fuel
      else
        match fragmentIsNext text fuel ls.i text.length [' ', ' ', ' ', ' '] with
        | none => Gen.hang
        | some true => do
          Gen.modify (·.moveTo (ls.i + 4))
          lineLoop (indents ++ [ls.token .indent ls.i (ls.i + 4)]) fuel
        | some false => do
          let i := skipWhitespace text ls.i text.length
          Gen.modify (·.moveTo i)
          if i ≥ text.length then pure ()
          else if charAt text i = '\n' then pure ()
          else do
            indentation indents
            lineBody text fuel
    else pure ()

/-- `_line`. -/
def line (fuel : ℕ) : LexM Unit :=
  Gen.protect
    (Gen.mapError (·, ()) do
      Gen.modify fun ls => { ls with lineStart := ls.i }
      lineLoop text [] fuel
      let ls ← Gen.get
      if ls.i < text.length ∧ charAt text ls.i = '\n' then do
        Gen.emit (ls.token .endLine ls.i (ls.i + 1))
        Gen.modify (·.moveTo (ls.i + 1))
      else pure ())
    fun _ => Gen.modify fun ls => { ls with lineNum := ls.lineNum + 1 }

/-- The loop of `lex`. -/
def lexLoop : ℕ → LexM Unit
  | 0 => Gen.hang
  | fuel + 1 => do
    let ls ← Gen.get
    if ls.i < text.length then do
      line text fuel
      lexLoop fuel
    else pure ()

/-- `lex(text)`, run to its end. -/
def lex (fuel : ℕ) : Trace LexState Token PyError Unit :=
  (show LexM Unit from do
    let ls ← Gen.get
    Gen.emit (ls.token .beginDoc 0 0)
    lexLoop text fuel
    let ls ← Gen.get
    Gen.emit (ls.token .endDoc text.length text.length)) LexState.init

/-- `lex(text)` completes normally and yields exactly `ts`. -/
def Lexes (ts : List Token) : Prop :=
  ∃ fuel, (lex text fuel).yields = ts ∧ (lex text fuel).ending = .returned ()

end Text

/-- What is known of every run of `lex` holds of the tokens of a completed one. -/
theorem Lexes.of_sat {text : List Char} {ts : List Token} {P : List Token → Prop}
    (hl : Lexes text ts)
    (h : ∀ fuel, (lex text fuel).Sat (fun _ ts _ => P ts) (fun _ _ _ => True) fun _ => True) :
    P ts := by
  obtain ⟨fuel, rfl, hend⟩ := hl
  have hsat := h fuel
  generalize lex text fuel = r at hsat hend
  obtain ⟨ys, s, _ | _ | _⟩ := r
  · exact hsat
  · cases hend
  · cases hend

end Intent.Py
