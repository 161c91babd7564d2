import Intent.Library.Gen
import Intent.Library.Scan
import Intent.Old.Unicode
import Mathlib.Data.List.DropRight
import Mathlib.Logic.Function.Basic

/-!
# The lexer of `lang/lexer.cpp`

A `lexer` reads a `str_view`. `View` is such a view inside of a larger buffer: the bytes of
the view, and the memory that follows it. A function that tests its cursor against `end`
before every read takes the `Text` alone; one that does not takes the whole `View`, and reads
through `View.byte`. Addresses are counted from the beginning of the view, which is not null.

The member functions are generators over the state `Lexer`. What they yield is not output of
the program but a record of decisions that later statements speak about (`Event`): the lines
whose indent was measured, the addresses at which `advance` dispatched, the ends of the lines
of comments. They raise a `Fault` where the source writes or reads outside of `indent_stack`,
which has no defined behaviour.

* `Indentation` — the four members that hold the indents, `Lexer` — the whole state
* `scanBeginningOfLine`, `nextLineContinues` — what happens after a line break
* `scanLt`, …, `scanQuestion` — the operators, one table of spellings each
* `getNumberToken`, `getPhraseToken`, `getCommentToken`, `getStringLiteral`
* `advance` — one token; `Run` — the tokens of the constructor and of further calls

A value of a floating-point token is kept as the parts it is computed from (`Floating`). The
member `inconsistent_indent`, which nothing reads, and with it the indent character, are left
out; `unwrapped_text` is the accumulator of the loops that build it.
-/

namespace Intent.Old

/-! ### Views -/

/-- A sequence of bytes. -/
abbrev Text := List UInt8

/-- A character constant of the source. -/
def ch (c : Char) : UInt8 := c.toUInt8

/-- A string constant of the source, without its terminator. -/
def bytes (s : List Char) : Text := s.map ch

/-- A `str_view`: the bytes between `begin` and `end()`, and the memory from `end()` on. -/
structure View where
  text : Text
  beyond : ℕ → UInt8

/-- `*p`, with no test against `end`. -/
def View.byte (v : View) (p : ℕ) : UInt8 := v.text[p]?.getD (v.beyond (p - v.text.length))

/-- The byte at `end()` is NUL. -/
def View.Terminated (v : View) : Prop := v.beyond 0 = 0

/-- A part of a buffer: the member `substr` of a token. -/
structure Span where
  begin : ℕ
  length : ℕ
  deriving DecidableEq

/-- `strview::end`. -/
def Span.stop (s : Span) : ℕ := s.begin + s.length

/-- `strview::begin_at`. -/
def Span.beginAt (s : Span) (newBegin : ℕ) : Span :=
  if newBegin > s.begin then
    let shortened := newBegin - s.begin
    ⟨newBegin, if shortened ≥ s.length then 0 else s.length - shortened⟩
  else if newBegin < s.begin then ⟨newBegin, s.length + (s.begin - newBegin)⟩
  else s

/-- `strview::end_at`. -/
def Span.endAt (s : Span) (newEnd : ℕ) : Span :=
  { s with length := if newEnd ≥ s.begin then newEnd - s.begin else 0 }

/-! ### Characters -/

/-- `isupper`. -/
def isupper (c : UInt8) : Bool := ch 'A' ≤ c && c ≤ ch 'Z'

/-- `isalpha`. -/
def isalpha (c : UInt8) : Bool := isupper c || (ch 'a' ≤ c && c ≤ ch 'z')

/-- `isdigit`. -/
def isdigit (c : UInt8) : Bool := ch '0' ≤ c && c ≤ ch '9'

/-- `isalnum`. -/
def isalnum (c : UInt8) : Bool := isalpha c || isdigit c

/-- `is_line_break`. -/
def isLineBreak (c : UInt8) : Bool := c == ch '\n' || c == ch '\r'

/-- A space or a tab. -/
def isSpaceOrTab (c : UInt8) : Bool := c == ch ' ' || c == ch '\t'

/-- A space, a tab, a CR or an LF. -/
def isWhitespace (c : UInt8) : Bool := isSpaceOrTab c || isLineBreak c

/-- `scan_spaces_and_tabs`. -/
def scanSpacesAndTabs (txt : Text) (p : ℕ) : ℕ :=
  scanWhile (fun i => txt[i]?.any isSpaceOrTab) p txt.length

/-- `scan_rest_of_line`. -/
def scanRestOfLine (txt : Text) (p : ℕ) : ℕ :=
  scanWhile (fun i => txt[i]?.any fun c => !isLineBreak c) p txt.length

/-- `consume_line_break`. -/
def consumeLineBreak (txt : Text) (p : ℕ) : ℕ :=
  if txt[p]? = some (ch '\r') ∧ txt[p + 1]? = some (ch '\n') then p + 2 else p + 1

/-- The bytes of `[p, q)`. -/
def slice (txt : Text) (p q : ℕ) : Text := (txt.drop p).take (q - p)

/-- `rtrim` with its default of any whitespace: `strchr` finds a NUL in every string, so that
trailing NULs go as well. -/
def rtrim (s : Text) : Text := s.rdropWhile fun c => isWhitespace c || c == 0

/-! ### Tokens -/

/-- The values of `token_type` that the lexer assigns. -/
inductive TokenType where
  | none | error | indent | dedent | noun | verb
  | binaryNumber | decimalNumber | hexNumber | octalNumber | floatingPointNumber
  | quotedString | comment | docComment
  | operatorParen | operatorCloseParen | operatorDot | operatorSafeDot | operatorSpread
  | operatorBrace | operatorSafeSubscript | operatorSafeEmpty
  | operatorSafeSubscriptSafeEmpty | operatorCloseBrace
  | operatorPositiveMark | operatorNegativeMark | operatorDoublePositiveMark
  | operatorDoubleNegativeMark | operatorBitNot | operatorBoolNot
  | operatorStar | operatorSlash | operatorMod | operatorPlus | operatorMinus
  | operatorIncrement | operatorDecrement | operatorLshift | operatorRshift
  | operatorUnsignedRshift | operatorGreater | operatorLess | operatorGreaterEqual
  | operatorLessEqual | operatorInstanceOf | operatorBoolEqual | operatorNotEqual
  | operatorSpaceship | operatorQspaceship | operatorSpaceshipq | operatorIn | operatorNotIn
  | operatorBitAnd | operatorBitXor | operatorBitOr | operatorBoolAnd | operatorBoolOr
  | operatorTernary | operatorElvis | operatorColon | operatorGets | operatorAssignEquals
  | operatorPlusEquals | operatorMinusEquals | operatorTimesEquals | operatorDivideEquals
  | operatorModEquals | operatorBitAndEquals | operatorBitXorEquals | operatorBitOrEquals
  | operatorLshiftEquals | operatorRshiftEquals | operatorComma
  deriving DecidableEq, Repr

/-- The parts of a floating-point value: the digits after the radix with the number before it
(`none` where the source starts from `0.0` because there was no radix), the exponent with its
sign, and whether the product is negated. -/
structure Floating where
  significand : Option (List ℕ × UInt64)
  exponent : Option (Bool × UInt64)
  negated : Bool
  deriving DecidableEq

/-- The member `value` of a token. -/
inductive Value where
  | empty
  | text (s : Text)
  | unsigned (n : UInt64)
  | signed (n : Int64)
  | floating (x : Floating)
  deriving DecidableEq

/-- `token`. -/
structure Token where
  type : TokenType
  substr : Span
  value : Value
  deriving DecidableEq

/-- `issue_id`. -/
inductive Issue where
  | unterminatedStringLiteral
  | unexpectedContinuation
  deriving DecidableEq, Repr

/-- The number of an issue. -/
def Issue.number : Issue → ℕ
  | .unterminatedStringLiteral => 1
  | .unexpectedContinuation => 2

/-- `get_issue_msg`. -/
def getIssueMsg : Issue → String
  | .unterminatedStringLiteral => "String literal ends without a closing quote."
  | .unexpectedContinuation => "It makes no sense for a line continuation to appear here."

/-- `note`, for a site without a URL. -/
structure Note where
  issue : Issue
  lineNumber : ℕ
  offsetOnLine : ℕ
  deriving DecidableEq

/-- `note::to_string`. -/
def Note.toText (n : Note) : Text :=
  bytes (("line " ++ toString n.lineNumber ++ ", offset " ++ toString n.offsetOnLine ++
    ": error " ++ toString n.issue.number ++ " -- " ++ getIssueMsg n.issue).toList)

/-! ### The state -/

/-- `NO_INDENT_YET`. -/
def noIndentYet : ℕ := 2 ^ 32 - 1

/-- `EMPTY_INDENT_STACK`. -/
def emptyIndentStack : ℕ := 0

/-- The size of the array `indent_stack`. -/
def indentStackSize : ℕ := 64

/-- The members that hold the indents. -/
structure Indentation where
  totalIndentWidth : ℕ
  indentDedentDelta : ℤ
  lastStackInsertIdx : ℕ
  indentStack : ℕ → UInt8

/-- `lexer`. -/
structure Lexer extends Indentation where
  t : Token
  lineBegin : ℕ
  p : ℕ
  lineNumber : ℕ
  pendingError : Option Note

/-- The members as the constructor initialises them. -/
def Lexer.initial : Lexer where
  totalIndentWidth := 0
  indentDedentDelta := 0
  lastStackInsertIdx := noIndentYet
  indentStack := fun _ => 0
  t := ⟨.none, ⟨0, 0⟩, .empty⟩
  lineBegin := 0
  p := 0
  lineNumber := 0
  pendingError := none

/-- What is recorded of a run: the width of a line's indent with the members it is compared
with, the address at which `advance` looks for a token, the end of a line of a comment. -/
inductive Event where
  | lineIndent (indentWidth totalIndentWidth lastStackInsertIdx : ℕ)
  | dispatch (p : ℕ)
  | commentLine (endOfLine : ℕ)
  deriving DecidableEq

/-- A subscript outside of `indent_stack`. -/
inductive Fault where
  | subscript (idx : ℕ)
  deriving DecidableEq

/-- A member function. -/
abbrev Lex := Gen Lexer Event Fault

/-- Assignment to the member `p`. -/
def Lexer.setP (m : Lexer) (p : ℕ) : Lexer := { m with p := p }

/-- Assignment to the members of `t`, its span ending at `stop`. -/
def Lexer.setToken (m : Lexer) (type : TokenType) (stop : ℕ) (value : Value) : Lexer :=
  { m with t := ⟨type, m.t.substr.endAt stop, value⟩ }

/-! ### After a line break -/

/-- `get_indent_width`. -/
def getIndentWidth (txt : Text) (p q : ℕ) : ℕ :=
  (slice txt p q).foldl (fun value c => (value + if c = ch '\t' then 4 else 1) % 2 ^ 32) 0

/-- `static_cast<int>`. -/
def toInt (n : ℤ) : ℤ := n.bmod (2 ^ 32)

/-- The updates of `push_indent`. The new total is the indent width of a line, so that the sum
does not wrap. -/
def Indentation.push (s : Indentation) (newIndentWidth : ℕ) : Indentation where
  totalIndentWidth := s.totalIndentWidth + newIndentWidth
  indentDedentDelta := 1
  lastStackInsertIdx := s.lastStackInsertIdx + 1
  indentStack :=
    Function.update s.indentStack (s.lastStackInsertIdx + 1) (UInt8.ofNat newIndentWidth)

/-- `lexer::push_indent`. The caller has replaced `NO_INDENT_YET`, so that the increment does
not wrap. -/
def pushIndent (newIndentWidth : ℕ) : Lex Unit := do
  let m ← Gen.get
  if m.lastStackInsertIdx + 1 < indentStackSize then
    Gen.modify fun m => { m with toIndentation := m.push newIndentWidth }
  else Gen.raise (.subscript (m.lastStackInsertIdx + 1))

/-- The first indent of all: `indent_stack[0]` becomes the indent character. -/
def Indentation.openStack (s : Indentation) (c : UInt8) : Indentation :=
  if s.lastStackInsertIdx = noIndentYet then
    { s with
      indentStack := Function.update s.indentStack 0 c
      lastStackInsertIdx := emptyIndentStack }
  else s

/-- A request for dedents: `width` columns have to be closed. -/
def Indentation.request (s : Indentation) (width : ℤ) : Indentation :=
  { s with indentDedentDelta := -1 * toInt width }

/-- The part of `scan_beginning_of_line` that looks at the indent of a line which is not
empty. -/
def lookAtIndent (txt : Text) (endOfIndent : ℕ) : Lex Unit := do
  let m ← Gen.get
  let indentWidth := getIndentWidth txt m.lineBegin endOfIndent
  Gen.emit (.lineIndent indentWidth m.totalIndentWidth m.lastStackInsertIdx)
  if indentWidth > m.totalIndentWidth then do
    Gen.modify fun m => { m with toIndentation := m.openStack (txt.getD m.lineBegin 0) }
    pushIndent (indentWidth - m.totalIndentWidth)
  else if indentWidth < m.totalIndentWidth then
    Gen.modify fun m =>
      { m with toIndentation := m.request ((m.totalIndentWidth : ℤ) - indentWidth) }
  else pure ()

/-- The loop of `scan_beginning_of_line`, with a bound on the number of lines. -/
def scanLines (txt : Text) : ℕ → Lex ℕ
  | 0 => Gen.hang
  | fuel + 1 => do
    let m ← Gen.get
    if m.p < txt.length then do
      Gen.modify fun m =>
        { m with lineNumber := (m.lineNumber + 1) % 2 ^ 32, lineBegin := m.p }
      let endOfIndent := scanSpacesAndTabs txt m.p
      if endOfIndent = txt.length then
        -- The rest of the text is blank: the member `p` stays where it was.
        pure txt.length
      else do
        Gen.modify fun m => m.setP endOfIndent
        if txt[endOfIndent]?.any isLineBreak then do
          Gen.modify fun m => m.setP (consumeLineBreak txt endOfIndent)
          scanLines txt fuel
        else do
          lookAtIndent txt endOfIndent
          pure endOfIndent
    else pure m.p

/-- `lexer::scan_beginning_of_line`. -/
def scanBeginningOfLine (txt : Text) : Lex ℕ := scanLines txt (txt.length + 1)

/-- `lexer::push_error`. -/
def pushError (issue : Issue) : Lex Unit :=
  Gen.modify fun m => { m with
    pendingError :=
      some ⟨issue, m.lineNumber, (((m.p : ℤ) - m.lineBegin) % 2 ^ 32).toNat⟩ }

/-- The width that `pop_indent` takes off the stack. -/
def Indentation.topWidth (s : Indentation) : ℕ := (s.indentStack s.lastStackInsertIdx).toNat

/-- The updates of `pop_indent`. The total is at least the sum of the widths on the stack
(`Indentation.stored_le`), so that the difference does not wrap. -/
def Indentation.pop (s : Indentation) : Indentation :=
  { s with
    lastStackInsertIdx := s.lastStackInsertIdx - 1
    totalIndentWidth := s.totalIndentWidth - s.topWidth }

/-- `lexer::pop_indent`. -/
def popIndent : Lex ℕ := do
  let m ← Gen.get
  if m.lastStackInsertIdx > emptyIndentStack then
    if m.lastStackInsertIdx < indentStackSize then do
      Gen.modify fun m => { m with toIndentation := m.pop }
      pure m.topWidth
    else Gen.raise (.subscript m.lastStackInsertIdx)
  else pure 0

/-- `lexer::next_line_continues`. -/
def nextLineContinues (txt : Text) (beginningOfNextLine : ℕ) : Lex Bool := do
  let last ← Gen.get
  Gen.modify fun m => m.setP beginningOfNextLine
  let next ← scanBeginningOfLine txt
  let m ← Gen.get
  if (last.lineNumber + 1) % 2 ^ 32 ≠ m.lineNumber ∨
      last.totalIndentWidth ≠ m.totalIndentWidth then
    pure false
  else if next + 3 ≥ txt.length ∨ slice txt next (next + 3) ≠ bytes ['.', '.', '.'] then
    pure false
  else do
    Gen.modify fun m => m.setP (next + 3)
    pure true

/-! ### Numbers -/

/-- The value of a hexadecimal digit. -/
def hexDigit (c : UInt8) : Option ℕ :=
  if isdigit c then some (c.toNat - (ch '0').toNat)
  else if ch 'a' ≤ c ∧ c ≤ ch 'f' then some (10 + (c.toNat - (ch 'a').toNat))
  else if ch 'A' ≤ c ∧ c ≤ ch 'F' then some (10 + (c.toNat - (ch 'A').toNat))
  else none

/-- The value of a digit below `base`, which is at most ten. -/
def digitBelow (base : ℕ) (c : UInt8) : Option ℕ :=
  if isdigit c ∧ c.toNat - (ch '0').toNat < base then some (c.toNat - (ch '0').toNat) else none

/-- The loop of the four functions that read digits: the digits found, and how many bytes
they take. Underscores between digits are skipped. -/
def digitRun (digit : UInt8 → Option ℕ) : Text → List ℕ × ℕ
  | [] => ([], 0)
  | c :: cs =>
    match digit c with
    | some d => (d :: (digitRun digit cs).1, (digitRun digit cs).2 + 1)
    | none => if c = ch '_' then ((digitRun digit cs).1, (digitRun digit cs).2 + 1) else ([], 0)

/-- The number of a run of digits, in a `uint64_t`, and how many bytes it takes. -/
def scanDigits (base : ℕ) (digit : UInt8 → Option ℕ) (s : Text) : UInt64 × ℕ :=
  ((digitRun digit s).1.foldl (fun n d => n * UInt64.ofNat base + UInt64.ofNat d) 0,
    (digitRun digit s).2)

/-- `scan_hex_digits`, on the bytes from `p` to `end`. -/
def scanHexDigits (s : Text) : UInt64 × ℕ := scanDigits 16 hexDigit s

/-- `scan_binary_digits`. -/
def scanBinaryDigits (s : Text) : UInt64 × ℕ := scanDigits 2 (digitBelow 2) s

/-- `scan_octal_digits`. -/
def scanOctalDigits (s : Text) : UInt64 × ℕ := scanDigits 8 (digitBelow 8) s

/-- `scan_decimal_digits_pre_radix`. -/
def scanDecimalDigitsPreRadix (s : Text) : UInt64 × ℕ := scanDigits 10 (digitBelow 10) s

/-- `scan_decimal_digits_post_radix`: the digits, from which the source sums a `double`. -/
def scanDecimalDigitsPostRadix (s : Text) : List ℕ × ℕ := digitRun (digitBelow 10) s

/-- `scan_decimal_number` at `p < end`: whether there is a minus sign, the number, and the
address after it. -/
def scanDecimalNumber (txt : Text) (p : ℕ) : Bool × UInt64 × ℕ :=
  let negative := txt[p]? = some (ch '-')
  let q := if txt[p]? = some (ch '+') ∨ negative then p + 1 else p
  let (n, k) := scanDecimalDigitsPreRadix (txt.drop q)
  (negative, n, q + k)

/-- What a scanner found: the members of the token. -/
structure Scanned where
  type : TokenType
  stop : ℕ
  value : Value
  deriving DecidableEq

/-- `set_possibly_signed_value`. -/
def possiblySignedValue (negative : Bool) (n : UInt64) : Value :=
  if negative then .signed (-1 * n.toInt64) else .unsigned n

/-- The branch of `get_number_token` for a `0` at `q` with a character that selects a base. -/
def getPrefixedNumber (txt : Text) (q : ℕ) (negative : Bool) : Option Scanned :=
  if q + 2 < txt.length then
    let s := txt.drop (q + 2)
    let c := txt.getD (q + 1) 0
    let found (type : TokenType) (r : UInt64 × ℕ) : Scanned :=
      ⟨type, q + 2 + r.2, possiblySignedValue negative r.1⟩
    if c = ch 'x' ∨ c = ch 'X' then some (found .hexNumber (scanHexDigits s))
    else if c = ch 'b' ∨ c = ch 'B' then some (found .binaryNumber (scanBinaryDigits s))
    else if ch '0' ≤ c ∧ c ≤ ch '7' then some (found .octalNumber (scanOctalDigits s))
    else none
  else none

/-- The part of `get_number_token` after the radix: `q` is the address reached, and
`significand` what was read around a radix, if there was one. -/
def finishNumber (txt : Text) (negative : Bool) (wholeNumber : UInt64)
    (significand : Option (List ℕ × UInt64)) (q : ℕ) : Scanned :=
  if q + 1 < txt.length ∧ (txt[q]? = some (ch 'e') ∨ txt[q]? = some (ch 'E')) then
    let (negativeExponent, exponent, stop) := scanDecimalNumber txt (q + 1)
    ⟨.floatingPointNumber, stop,
      .floating ⟨significand, some (negativeExponent, exponent), negative⟩⟩
  else
    match significand with
    | some s => ⟨.floatingPointNumber, q, .floating ⟨some s, none, false⟩⟩
    | none => ⟨.decimalNumber, q, possiblySignedValue negative wholeNumber⟩

/-- The part of `get_number_token` for decimal numbers, from `q` on. -/
def getDecimalNumber (txt : Text) (negative floatingPoint : Bool) (q : ℕ) : Scanned :=
  let (wholeNumber, k) :=
    if floatingPoint then (0, 0) else scanDecimalDigitsPreRadix (txt.drop q)
  if floatingPoint ∨ txt[q + k]? = some (ch '.') then
    let (digits, l) := scanDecimalDigitsPostRadix (txt.drop (q + k + 1))
    finishNumber txt negative wholeNumber (some (digits, wholeNumber)) (q + k + 1 + l)
  else finishNumber txt negative wholeNumber none (q + k)

/-- `get_number_token`. -/
def getNumberToken (v : View) (p : ℕ) : Scanned :=
  let negative := v.byte p = ch '-'
  let q := if v.byte p = ch '+' ∨ negative then p + 1 else p
  if v.byte q = ch '.' then getDecimalNumber v.text negative true q
  else if v.byte q = ch '0' then
    (getPrefixedNumber v.text q negative).getD (getDecimalNumber v.text negative false q)
  else getDecimalNumber v.text negative false q

/-! ### Escape sequences -/

/-- `CHARS_FOR_1CHAR_ESCAPES`, with the character of `NEED_1CHAR_ESCAPES` at its place. -/
def oneCharEscapes : List (UInt8 × ℕ) :=
  [(ch 'n', 0x0A), (ch 'r', 0x0D), (ch 't', 0x09), (ch 'f', 0x0C), (ch 'v', 0x0B),
    (ch 'b', 0x08), (ch 'a', 0x07)]

/-- The digits of an escape sequence in the `count` bytes from `seq` on: a codepoint with the
address after it, or a replacement character with `seq`. -/
def scanEscapeDigits (v : View) (scanFunc : Text → UInt64 × ℕ) (seq count : ℕ) : ℕ × ℕ :=
  let r := scanFunc ((List.range count).map fun i => v.byte (seq + i))
  if r.2 = count ∧ ¬(count = 8 ∧ r.1.toNat > maxUnicodeChar) then
    (r.1.toNat % 2 ^ 32, seq + count)
  else (unicodeReplacementChar, seq)

/-- `scan_unicode_escape_sequence`: the codepoint, and the address after the sequence. -/
def scanUnicodeEscapeSequence (v : View) (seq : ℕ) : ℕ × ℕ :=
  let c := v.byte seq
  if c = ch 'x' then scanEscapeDigits v scanHexDigits (seq + 1) 2
  else if c = ch 'u' then scanEscapeDigits v scanHexDigits (seq + 1) 4
  else if c = ch 'U' then scanEscapeDigits v scanHexDigits (seq + 1) 8
  else if c = ch '\\' ∨ c = ch '"' ∨ c = ch '\'' then (c.toNat, seq + 1)
  else if ch '0' ≤ c ∧ c ≤ ch '7' then scanEscapeDigits v scanOctalDigits seq 3
  else
    match oneCharEscapes.lookup c with
    | some cp => (cp, seq + 1)
    | none => (unicodeReplacementChar, seq + 1)

/-- `cat_codepoint_to_utf8` on the buffer of `get_string_literal`, which is long enough, and
the string that the buffer then holds: up to its first NUL. -/
def catCodepointToUtf8 (cp : ℕ) : Text :=
  (if cp < 0x80 then [UInt8.ofNat cp]
  else if cp < 0x800 then
    [UInt8.ofNat (cp >>> 6 ||| 0xC0), UInt8.ofNat (cp &&& 0x3F ||| 0x80)]
  else if cp < 0x10000 then
    [UInt8.ofNat (cp >>> 12 ||| 0xE0), UInt8.ofNat (cp >>> 6 &&& 0x3F ||| 0x80),
      UInt8.ofNat (cp &&& 0x3F ||| 0x80)]
  else if cp < 0x110000 then
    [UInt8.ofNat (cp >>> 18 ||| 0xF0), UInt8.ofNat (cp >>> 12 &&& 0x3F ||| 0x80),
      UInt8.ofNat (cp >>> 6 &&& 0x3F ||| 0x80), UInt8.ofNat (cp &&& 0x3F ||| 0x80)]
  else []).takeWhile (· ≠ 0)

/-! ### Operators -/

/-- An operator scanner: the spellings of its operators after the first character, the longer
ones first, the type of the first character alone, and whether a digit after it makes a
number. -/
structure Operator where
  numeric : Bool
  longer : List (List Char × TokenType)
  plain : TokenType

/-- `scan_lt`. -/
def scanLt : Operator :=
  ⟨false, [(['<', '='], .operatorLshiftEquals), (['<'], .operatorLshift),
    (['=', '>', '?'], .operatorSpaceshipq), (['=', '>'], .operatorSpaceship),
    (['='], .operatorLessEqual)], .operatorLess⟩

/-- `scan_brace`. -/
def scanBrace : Operator := ⟨false, [(['?'], .operatorSafeEmpty)], .operatorBrace⟩

/-- `scan_gt`. -/
def scanGt : Operator :=
  ⟨false, [(['>', '='], .operatorRshiftEquals), (['>', '>'], .operatorUnsignedRshift),
    (['>'], .operatorRshift), (['='], .operatorGreaterEqual)], .operatorGreater⟩

/-- `scan_dot`. -/
def scanDot : Operator := ⟨true, [], .operatorDot⟩

/-- `scan_minus`. -/
def scanMinus : Operator :=
  ⟨true, [(['-', '<'], .operatorDoubleNegativeMark), (['-'], .operatorDecrement),
    (['='], .operatorMinusEquals), (['['], .operatorIn), (['<'], .operatorNegativeMark)],
    .operatorMinus⟩

/-- `scan_plus`. -/
def scanPlus : Operator :=
  ⟨true, [(['+', '<'], .operatorDoublePositiveMark), (['+'], .operatorIncrement),
    (['='], .operatorPlusEquals), (['<'], .operatorPositiveMark)], .operatorPlus⟩

/-- `scan_colon`. -/
def scanColon : Operator :=
  ⟨false, [(['='], .operatorGets), ([':'], .operatorInstanceOf)], .operatorColon⟩

/-- `scan_star`. -/
def scanStar : Operator :=
  ⟨false, [(['.'], .operatorSpread), (['='], .operatorTimesEquals)], .operatorStar⟩

/-- `scan_slash`. -/
def scanSlash : Operator := ⟨false, [(['='], .operatorDivideEquals)], .operatorSlash⟩

/-- `scan_amper`. -/
def scanAmper : Operator :=
  ⟨false, [(['&'], .operatorBoolAnd), (['='], .operatorBitAndEquals)], .operatorBitAnd⟩

/-- `scan_equals`. -/
def scanEquals : Operator := ⟨false, [(['='], .operatorBoolEqual)], .operatorAssignEquals⟩

/-- `scan_bang`. -/
def scanBang : Operator :=
  ⟨false, [(['='], .operatorNotEqual), (['-', '['], .operatorNotIn)], .operatorBoolNot⟩

/-- `scan_pipe`. -/
def scanPipe : Operator :=
  ⟨false, [(['|'], .operatorBoolOr), (['='], .operatorBitOrEquals)], .operatorBitOr⟩

/-- `scan_caret`. -/
def scanCaret : Operator := ⟨false, [(['='], .operatorBitXorEquals)], .operatorBitXor⟩

/-- `scan_percent`. -/
def scanPercent : Operator := ⟨false, [(['='], .operatorModEquals)], .operatorMod⟩

/-- `scan_question`. -/
def scanQuestion : Operator :=
  ⟨false, [(['.'], .operatorSafeDot), (['[', '?'], .operatorSafeSubscriptSafeEmpty),
    (['['], .operatorSafeSubscript), ([':'], .operatorElvis),
    (['<', '=', '>'], .operatorQspaceship)], .operatorTernary⟩

/-- An operator of a single character, which `advance` consumes itself. -/
def single (type : TokenType) : Operator := ⟨false, [], type⟩

/-- The operators, by the character on which `advance` dispatches. -/
def operators : List (Char × Operator) :=
  [('<', scanLt), ('>', scanGt), ('?', scanQuestion), ('.', scanDot), ('=', scanEquals),
    ('~', single .operatorBitNot), ('[', scanBrace), (']', single .operatorCloseBrace),
    ('(', single .operatorParen), (')', single .operatorCloseParen), ('/', scanSlash),
    ('%', scanPercent), ('*', scanStar), ('&', scanAmper), ('!', scanBang), ('|', scanPipe),
    ('^', scanCaret), ('-', scanMinus), ('+', scanPlus), (':', scanColon),
    (',', single .operatorComma)]

/-- The operator whose scanner `advance` calls. -/
def operatorAt (c : UInt8) : Option Operator :=
  (operators.find? fun r => ch r.1 = c).map Prod.snd

/-- The longest spelling of an operator at `p`: its length and its type. -/
def Operator.spelledAt (op : Operator) (txt : Text) (p : ℕ) : ℕ × TokenType :=
  match op.longer.find? fun r => slice txt (p + 1) (p + 1 + r.1.length) = bytes r.1 with
  | some r => (r.1.length + 1, r.2)
  | none => (1, op.plain)

/-- `lexer::consume`. -/
def consume (charCount : ℕ) (type : TokenType) : Lex Unit :=
  Gen.modify fun m => { m.setP (m.p + charCount) with
    t := { m.t with type := type, substr := m.t.substr.endAt (m.p + charCount) } }

/-- The token that a scanner without side effects found. -/
def assign (s : Scanned) : Lex Unit := Gen.modify fun m => m.setToken s.type s.stop s.value

/-- The operator scanners. -/
def scanOperator (v : View) (op : Operator) : Lex Unit := do
  let m ← Gen.get
  if op.numeric ∧ v.text[m.p + 1]?.any isdigit then assign (getNumberToken v m.p)
  else consume (op.spelledAt v.text m.p).1 (op.spelledAt v.text m.p).2

/-! ### Phrases, comments and strings -/

/-- A byte that the loop of `get_phrase_token` appends. -/
def isPhraseByte (c : UInt8) : Bool := isalnum c || c == ch '\'' || c == ch ' '

/-- `lexer::get_phrase_token`. Its loop appends bytes up to the first that is no part of a
phrase; a line break there is looked over, and the loop ends whether or not the next line
continues the phrase. -/
def getPhraseToken (v : View) : Lex Unit := do
  let m ← Gen.get
  let type : TokenType := if isupper (v.byte m.p) then .verb else .noun
  let q := scanWhile (fun i => v.text[i]?.any isPhraseByte) m.p v.text.length
  let unwrappedText := slice v.text m.p q
  Gen.modify fun m => m.setP q
  if v.text[q]?.any isLineBreak then do
    let continues ← nextLineContinues v.text (consumeLineBreak v.text q)
    Gen.modify fun m =>
      m.setToken type m.p (.text (if continues then unwrappedText ++ [ch ' '] else unwrappedText))
  else Gen.modify fun m => m.setToken type m.p (.text unwrappedText)

/-- What a line of a comment, from `p` to `endOfLine`, adds to the text before it. -/
def appendCommentLine (txt : Text) (p endOfLine : ℕ) (unwrappedText : Text) : Text :=
  let afterSpaces := scanSpacesAndTabs txt p
  if afterSpaces < endOfLine then
    (if unwrappedText ≠ [] then unwrappedText ++ [ch ' '] else unwrappedText) ++
      rtrim (slice txt afterSpaces endOfLine)
  else unwrappedText

/-- The loop of `get_comment_token`, with a bound on the number of lines. -/
def commentLines (txt : Text) : ℕ → Text → Lex Text
  | 0, _ => Gen.hang
  | fuel + 1, unwrappedText => do
    Gen.modify fun m => m.setP (m.p + 1)
    let m ← Gen.get
    let endOfLine := scanRestOfLine txt m.p
    Gen.emit (.commentLine endOfLine)
    let continues ← nextLineContinues txt (endOfLine + 1)
    if continues then commentLines txt fuel (appendCommentLine txt m.p endOfLine unwrappedText)
    else pure (appendCommentLine txt m.p endOfLine unwrappedText)

/-- `lexer::get_comment_token`: the text of the comment. -/
def getCommentToken (txt : Text) : Lex Text := commentLines txt (txt.length + 1) []

/-- `lexer::scan_hash`. -/
def scanHash (txt : Text) : Lex Unit := do
  let m ← Gen.get
  let doc := slice txt (m.p + 1) (m.p + 3) = bytes ['#', '#']
  Gen.modify fun m => if doc then m.setP (m.p + 2) else m
  let text ← getCommentToken txt
  Gen.modify fun m => m.setToken (if doc then .docComment else .comment) m.p (.text text)

/-- The loop of `get_string_literal`, with a bound on the number of its rounds. -/
def stringRounds (v : View) (quote : UInt8) : ℕ → Text → Lex Text
  | 0, _ => Gen.hang
  | fuel + 1, unwrappedText => do
    let m ← Gen.get
    match v.text[m.p]? with
    | none => pure unwrappedText
    | some c =>
      if c = quote then do
        Gen.modify fun m => m.setP (m.p + 1)
        pure unwrappedText
      else if c = ch '\\' then
        let (cp, seqEnd) := scanUnicodeEscapeSequence v (m.p + 1)
        if cp ≠ unicodeReplacementChar ∧ seqEnd > m.p ∧ seqEnd ≤ v.text.length then do
          Gen.modify fun m => m.setP seqEnd
          stringRounds v quote fuel (unwrappedText ++ catCodepointToUtf8 cp)
        else do
          Gen.modify fun m => m.setP (m.p + 1)
          stringRounds v quote fuel (unwrappedText ++ [c])
      else if isLineBreak c then do
        let continues ← nextLineContinues v.text (consumeLineBreak v.text m.p)
        if continues then do
          Gen.modify fun m => m.setP (m.p + 1)
          stringRounds v quote fuel (unwrappedText ++ [ch ' '])
        else do
          pushError .unterminatedStringLiteral
          pure unwrappedText
      else do
        Gen.modify fun m => m.setP (m.p + 1)
        stringRounds v quote fuel (unwrappedText ++ [c])

/-- `lexer::get_string_literal`: the normalized content. -/
def getStringLiteral (v : View) (quote : UInt8) : Lex Text :=
  stringRounds v quote (v.text.length + 1) []

/-- `lexer::scan_quote`. -/
def scanQuote (v : View) : Lex Unit := do
  let m ← Gen.get
  Gen.modify fun m => m.setP (m.p + 1)
  let text ← getStringLiteral v (v.byte m.p)
  Gen.modify fun m => m.setToken .quotedString m.p (.text text)

/-! ### `advance` -/

/-- The cases of the `switch` of `advance` that find a token, on the character `c` at `p`. -/
def scanToken (v : View) (c : UInt8) : Lex Unit :=
  match operatorAt c with
  | some op => scanOperator v op
  | none =>
    if c = ch '#' then scanHash v.text
    else if c = ch '"' ∨ c = ch '\'' ∨ c = ch '`' then scanQuote v
    else if isalpha c then getPhraseToken v
    else do
      let m ← Gen.get
      if isdigit c then assign (getNumberToken v m.p)
      else assign ⟨.error, m.p + 1, .empty⟩

/-- The line break at `p`, which `advance` crosses before it recurses. -/
def crossLineBreak (txt : Text) (c : UInt8) : Lex Unit := do
  let m ← Gen.get
  let p := if c = ch '\r' ∧ txt[m.p + 1]? = some (ch '\n') then m.p + 2 else m.p + 1
  Gen.modify fun m => m.setP p
  if p < txt.length then do
    let next ← scanBeginningOfLine txt
    Gen.modify fun m => { m with t := { m.t with substr := m.t.substr.endAt next } }
  else
    Gen.modify fun m => { m with
      t := { m.t with substr := m.t.substr.endAt txt.length }
      toIndentation := m.request m.totalIndentWidth }

/-- The beginning of `advance`: an empty token of no type where the last one ended. -/
def Lexer.reset (m : Lexer) : Lexer :=
  let substr := m.t.substr.beginAt m.t.substr.stop
  { m with t := ⟨.none, substr, .empty⟩, p := substr.begin }

/-- Assignment to the type of the token. -/
def Lexer.setType (m : Lexer) (type : TokenType) : Lexer :=
  { m with t := { m.t with type := type } }

/-- What `advance` makes of a negative `indent_dedent_delta` after `width` columns are
closed. -/
def Indentation.settle (s : Indentation) (width : ℕ) : Indentation :=
  { s with
    indentDedentDelta :=
      if s.indentDedentDelta + width > 0 then 0 else s.indentDedentDelta + width }

/-- The branch of `advance` for a negative `indent_dedent_delta`. -/
def emitDedent : Lex Unit := do
  let width ← popIndent
  Gen.modify fun m => { m.setType .dedent with toIndentation := m.settle width }

/-- `lexer::advance`, with a bound on the depth of its recursion. -/
def advanceWithin (v : View) : ℕ → Lex Bool
  | 0 => Gen.hang
  | fuel + 1 => do
    Gen.modify Lexer.reset
    let m ← Gen.get
    match m.pendingError with
    | some note => do
      Gen.modify fun m =>
        { m with
          t := { m.t with type := .error, value := .text note.toText }
          pendingError := none }
      pure true
    | none =>
      if m.indentDedentDelta > 0 then do
        Gen.modify fun m => { m.setType .indent with indentDedentDelta := 0 }
        pure true
      else if m.indentDedentDelta < 0 then do
        emitDedent
        pure true
      else if m.t.substr.begin > v.text.length then pure false
      else do
        Gen.emit (.dispatch m.p)
        let c := v.byte m.p
        if c = 0 then pure false
        else if isLineBreak c then do
          crossLineBreak v.text c
          advanceWithin v fuel
        else if isSpaceOrTab c then do
          Gen.modify fun m =>
            { m with
              t := { m.t with substr := m.t.substr.endAt (scanSpacesAndTabs v.text (m.p + 1)) } }
          advanceWithin v fuel
        else do
          scanToken v c
          pure true

/-- `lexer::advance`. A recursive call follows the consumption of at least one byte, or finds
`p` at the end or beyond; a recursion deeper than the bound does not end. -/
def advance (v : View) : Lex Bool := advanceWithin v (v.text.length + 3)

/-- The constructor, up to its call of `advance`. -/
def construct (txt : Text) : Lex Unit := do
  let next ← scanBeginningOfLine txt
  Gen.modify fun m => { m with t := { m.t with substr := m.t.substr.endAt next } }

/-! ### Runs -/

/-- The tokens yielded by the constructor's call of `advance` and by further calls, as long as
they return true, and the state they lead to. -/
inductive Run (v : View) : List Token → Lexer → Prop where
  | start {es : List Event} {m : Lexer} :
      construct v.text Lexer.initial = ⟨es, m, .returned ()⟩ → Run v [] m
  | next {ts : List Token} {es : List Event} {m m' : Lexer} :
      Run v ts m → advance v m = ⟨es, m', .returned true⟩ → Run v (ts ++ [m'.t]) m'

/-- The run of `k` calls of `advance`, if all of them return true. -/
def runOf (v : View) : ℕ → Option (List Token × Lexer)
  | 0 =>
    match construct v.text Lexer.initial with
    | ⟨_, m, .returned ()⟩ => some ([], m)
    | _ => none
  | k + 1 =>
    match runOf v k with
    | some (ts, m) =>
      match advance v m with
      | ⟨_, m', .returned true⟩ => some (ts ++ [m'.t], m')
      | _ => none
    | none => none

theorem runOf_sound {v : View} {k : ℕ} {r : List Token × Lexer} (h : runOf v k = some r) :
    Run v r.1 r.2 := by
  induction k generalizing r with
  | zero =>
    simp only [runOf] at h
    split at h
    case h_1 m hm =>
      obtain rfl := Option.some.inj h
      exact .start hm
    case h_2 => cases h
  | succ k ih =>
    simp only [runOf] at h
    split at h
    case h_1 ts m hk =>
      split at h
      case h_1 m' hm =>
        obtain rfl := Option.some.inj h
        exact .next (ih hk) hm
      case h_2 => cases h
    case h_2 => cases h

theorem Run.runOf_eq {v : View} {ts : List Token} {m : Lexer} (h : Run v ts m) :
    runOf v ts.length = some (ts, m) := by
  induction h with
  | start hm => simp only [List.length_nil, runOf, hm]
  | next _ hm ih =>
    rw [List.length_append, List.length_singleton]
    simp only [runOf, ih, hm]

/-- A run with known tokens. -/
theorem exists_run {v : View} {k : ℕ} {ts : List Token}
    (h : (runOf v k).map Prod.fst = some ts) : ∃ m, Run v ts m := by
  obtain ⟨r, hr, rfl⟩ := Option.map_eq_some_iff.mp h
  exact ⟨r.2, runOf_sound hr⟩

/-- The events of the constructor and of every call of `advance` in a run. -/
inductive Occurs (v : View) (e : Event) : Prop where
  | start : e ∈ (construct v.text Lexer.initial).yields → Occurs v e
  | call {ts : List Token} {m : Lexer} : Run v ts m → e ∈ (advance v m).yields → Occurs v e

/-- The events of all calls of `advance` from a state on, if they come to an end within `k`. -/
def eventsFrom (v : View) : ℕ → Lexer → Option (List Event)
  | 0, _ => none
  | k + 1, m =>
    match advance v m with
    | ⟨es, m', .returned true⟩ => (eventsFrom v k m').map (es ++ ·)
    | ⟨es, _, _⟩ => some es

/-- All events of a run that ends within `k` calls. -/
def eventsOf (v : View) (k : ℕ) : Option (List Event) :=
  match construct v.text Lexer.initial with
  | ⟨es, m, .returned ()⟩ => (eventsFrom v k m).map (es ++ ·)
  | ⟨es, _, _⟩ => some es

theorem yields_subset_eventsFrom {v : View} {k : ℕ} {m : Lexer} {es : List Event}
    (h : eventsFrom v k m = some es) : (advance v m).yields ⊆ es := by
  cases k with
  | zero => cases h
  | succ k =>
    simp only [eventsFrom] at h
    split at h
    case h_1 es' m' hm =>
      obtain ⟨es₂, -, rfl⟩ := Option.map_eq_some_iff.mp h
      rw [hm]
      exact List.subset_append_left _ _
    case h_2 hm =>
      obtain rfl := Option.some.inj h
      rw [hm]
      exact List.Subset.refl _

theorem Run.eventsFrom {v : View} {k : ℕ} {ts : List Token} {m : Lexer} {es : List Event}
    (h : Run v ts m) (hes : eventsOf v k = some es) :
    ∃ k' es', eventsFrom v k' m = some es' ∧ es' ⊆ es := by
  induction h with
  | start hm =>
    simp only [eventsOf, hm] at hes
    obtain ⟨es', hes', rfl⟩ := Option.map_eq_some_iff.mp hes
    exact ⟨k, es', hes', List.subset_append_right _ _⟩
  | next _ hm ih =>
    obtain ⟨k', es', hes', hsub⟩ := ih
    cases k' with
    | zero => cases hes'
    | succ k' =>
      simp only [Old.eventsFrom, hm] at hes'
      obtain ⟨es'', hes'', rfl⟩ := Option.map_eq_some_iff.mp hes'
      exact ⟨k', es'', hes'', fun e he => hsub (List.mem_append_right _ he)⟩

/-- The events of a run can be computed. -/
theorem Occurs.mem_eventsOf {v : View} {k : ℕ} {e : Event} {es : List Event} (h : Occurs v e)
    (hes : eventsOf v k = some es) : e ∈ es := by
  cases h with
  | start he =>
    simp only [eventsOf] at hes
    split at hes
    case h_1 hm =>
      obtain ⟨es', -, rfl⟩ := Option.map_eq_some_iff.mp hes
      rw [hm] at he
      exact List.mem_append_left _ he
    case h_2 hm =>
      obtain rfl := Option.some.inj hes
      rwa [hm] at he
  | call hrun he =>
    obtain ⟨k', es', hes', hsub⟩ := hrun.eventsFrom hes
    exact hsub (yields_subset_eventsFrom hes' he)

end Intent.Old
