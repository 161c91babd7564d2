import Intent.Old.UnicodeText
import Intent.Old.Lexer

/-!
# Escape sequences

`add_escape_sequence` and `add_utf8_or_escape_sequence` write escape sequences into a buffer,
and `insert_escape_sequences` and `expand_escape_sequences` use them on whole strings. Both
keep one local array for all of their rounds and read it back as a NUL-terminated string; the
array's first contents are whatever the stack held, and reading an array without a NUL is
undefined: `cString` then answers `none`.

The two functions undo each other on few strings only:

* the writers that `insert_escape_sequences` calls end what they write with a NUL only where
  they go through `snprintf`, so that a non-ASCII character or a two-byte sequence is followed
  by what an earlier round left in the array;
* `expand_escape_sequences` writes what it decoded with `cat_utf8_or_escape_sequence`, which
  escapes it again.

`insert_expand_iff` says that exactly the strings of `IsPlain` bytes survive both.
-/

namespace Intent.Old

/-! ### Writing escape sequences -/

/-- A digit of `%X`. -/
def hexChar (d : ℕ) : UInt8 := UInt8.ofNat (if d < 10 then 0x30 + d else 0x37 + d)

/-- `%.2X`, `%.4X` and `%.8X`, for a number of at most `width` digits. -/
def hexChars : ℕ → ℕ → Text
  | 0, _ => []
  | width + 1, n => hexChars width (n / 16) ++ [hexChar (n % 16)]

/-- The character for the two-byte sequence of a control character: what `strchr` finds in
`NEED_1CHAR_ESCAPES` selects a character of `CHARS_FOR_1CHAR_ESCAPES`, and `strchr` finds the
terminator for `0`. -/
def oneCharEscapeOf (cp : ℕ) : Option UInt8 :=
  if cp = 0 then some 0 else (oneCharEscapes.find? fun r => r.2 = cp).map Prod.fst

namespace Buffer

/-- Bytes stored at the position, which stays. -/
def store (b : Buffer) (bs : Text) : Buffer :=
  match b.buf with
  | none => b
  | some p => { b with memory := overwrite b.memory p bs }

/-- `snprintf(buf, buf_length, …)`: what fits, and a NUL. -/
def snprintf (b : Buffer) (bs : Text) : Buffer :=
  if b.bufLength = 0 then b else b.store (bs.take (b.bufLength - 1) ++ [0])

/-- `advance_and_return_true`: the length grows with the position. -/
def advanceAndReturnTrue (b : Buffer) (n : ℕ) : Bool × Buffer :=
  (true, { b with buf := b.buf.map (· + n), bufLength := b.bufLength + n })

/-- `write_2byte_sequence`. -/
def write2byteSequence (b : Buffer) (c : UInt8) : Bool × Buffer :=
  if b.bufLength ≥ 2 then (b.store [ch '\\', c]).advanceAndReturnTrue 2 else (false, b)

/-- The branch of the escape writers for `\x`. -/
def writeX (b : Buffer) (cp : ℕ) : Bool × Buffer :=
  if b.bufLength > 4 then
    (b.snprintf (ch '\\' :: ch 'x' :: hexChars 2 (cp % 2 ^ 8))).advanceAndReturnTrue 4
  else (false, b)

/-- The branches of the escape writers for `\u` and `\U`. -/
def writeU (b : Buffer) (cp : ℕ) : Bool × Buffer :=
  if cp ≤ 0xFFFF then
    if b.bufLength ≥ 6 then
      (b.snprintf (ch '\\' :: ch 'u' :: hexChars 4 (cp % 2 ^ 16))).advanceAndReturnTrue 6
    else (false, b)
  else if b.bufLength ≥ 10 then
    (b.snprintf (ch '\\' :: ch 'U' :: hexChars 8 cp)).advanceAndReturnTrue 10
  else (false, b)

/-- `add_escape_sequence`. -/
def addEscapeSequence (b : Buffer) (cp : ℕ) : Bool × Buffer :=
  match if cp < 0x20 then oneCharEscapeOf cp else none with
  | some c => b.write2byteSequence c
  | none => if cp ≤ 0x7F then b.writeX cp else b.writeU cp

/-- `add_utf8_or_escape_sequence`. -/
def addUtf8OrEscapeSequence (b : Buffer) (cp : ℕ) : Bool × Buffer :=
  if b.buf = none ∨ b.bufLength < 1 then (false, b)
  else if cp < 0x80 then
    if cp < 0x20 then
      match if cp ≠ 0 then oneCharEscapeOf cp else none with
      | some c => b.write2byteSequence c
      | none => b.writeX cp
    else if cp = 0x5C ∨ cp = 0x22 ∨ cp = 0x27 then b.write2byteSequence (UInt8.ofNat cp)
    else if cp = 0x7F then
      if b.bufLength ≥ 4 then
        (b.store [ch '\\', ch 'x', ch '7', ch 'F']).advanceAndReturnTrue 4
      else (false, b)
    else (b.store [UInt8.ofNat cp]).advanceAndReturnTrue 1
  else b.writeU cp

/-- `cat_utf8_or_escape_sequence`. -/
def catUtf8OrEscapeSequence (b : Buffer) (cp : ℕ) : Bool × Buffer :=
  if b.bufLength ≠ 0 then
    let r := { b with bufLength := b.bufLength - 1 }.addUtf8OrEscapeSequence cp
    if r.1 then (true, r.2.put [0]) else (false, b)
  else (false, b)

end Buffer

/-! ### Whole strings -/

/-- A local array, read as a NUL-terminated string. -/
def cString (memory : Text) : Option Text :=
  if 0 ∈ memory then some (memory.takeWhile (· ≠ 0)) else none

/-- `should_escape_in_utf8_string_literals`. -/
def shouldEscapeInUtf8StringLiterals (cp : ℕ) : Bool :=
  if cp < 32 then !(cp == 9 || cp == 10 || cp == 13)
  else if cp ≤ 0x7F then cp == 0x5C || cp == 0x22 || cp == 0x7F
  else false

/-- `if (add_…(bufp, bufsize, cp)) result += buf`. -/
def appendWritten (w : Bool × Buffer) (result : Text) : Option Text :=
  if w.1 then (cString w.2.memory).map (result ++ ·) else some result

/-- The loop of `insert_escape_sequences`, on the rest of the string; `buf` is its array. -/
def insertLoop (shouldEscape : ℕ → Bool) (s buf result : Text) : Option Text :=
  match s with
  | [] => some result
  | c :: cs =>
    let r := getCodepointFromUtf8 (c :: cs)
    let rest := (c :: cs).drop r.2
    if shouldEscape r.1 then
      let w := Buffer.addEscapeSequence ⟨buf, some 0, 12⟩ r.1
      (appendWritten w result).bind fun result => insertLoop shouldEscape rest w.2.memory result
    else if r.1 < 0x7F then insertLoop shouldEscape rest buf (result ++ [UInt8.ofNat r.1])
    else
      let w := Buffer.addCodepointToUtf8 ⟨buf, some 0, 12⟩ r.1
      (appendWritten w result).bind fun result => insertLoop shouldEscape rest w.2.memory result
termination_by s.length
decreasing_by
  all_goals
    have hpos := getCodepointFromUtf8_pos (c :: cs)
    simp only [List.length_drop, List.length_cons]
    omega

/-- `insert_escape_sequences`, with the first contents of its array of 12 characters. -/
def insertEscapeSequences (s : Text) (shouldEscape : ℕ → Bool) (buf : Text) : Option Text :=
  insertLoop shouldEscape s buf []

theorem le_scanUnicodeEscapeSequence (v : View) (seq : ℕ) :
    seq ≤ (scanUnicodeEscapeSequence v seq).2 := by
  have hdigits : ∀ scanFunc q count, q ≤ (scanEscapeDigits v scanFunc q count).2 := by
    intro scanFunc q count
    rw [scanEscapeDigits, apply_ite Prod.snd]
    split_ifs <;> omega
  have hx := fun count => hdigits scanHexDigits (seq + 1) count
  rw [scanUnicodeEscapeSequence]
  split_ifs
  · exact (Nat.le_succ seq).trans (hx 2)
  · exact (Nat.le_succ seq).trans (hx 4)
  · exact (Nat.le_succ seq).trans (hx 8)
  · exact Nat.le_succ seq
  · exact hdigits _ _ _
  · split <;> exact Nat.le_succ seq

/-- The loop of `expand_escape_sequences`, on the rest of the string; `buf` is its array. -/
def expandLoop (s buf result : Text) : Option Text :=
  match s with
  | [] => some result
  | c :: cs =>
    if c = ch '\\' then
      let r := scanUnicodeEscapeSequence ⟨c :: cs, fun _ => 0⟩ 1
      -- the source's `p` is one before the end of the sequence here
      if r.2 - 1 < (c :: cs).length then
        let w := Buffer.catUtf8OrEscapeSequence ⟨buf, some 0, 8⟩ r.1
        (cString w.2.memory).bind fun piece =>
          expandLoop ((c :: cs).drop r.2) w.2.memory (result ++ piece)
      else some result
    else expandLoop cs buf (result ++ [c])
termination_by s.length
decreasing_by
  · have hle := le_scanUnicodeEscapeSequence ⟨c :: cs, fun _ => 0⟩ 1
    rw [List.length_drop, List.length_cons]
    omega
  · exact Nat.lt_succ_self _

/-- `expand_escape_sequences`, with the first contents of its array of 8 characters. -/
def expandEscapeSequences (s : Text) (buf : Text) : Option Text := expandLoop s buf []

/-! ### Hexadecimal digits, written and read -/

theorem hexDigit_hexChar {d : ℕ} (h : d < 16) : hexDigit (hexChar d) = some d := by
  have key : ∀ d : Fin 16, hexDigit (hexChar d) = some d.val := by decide
  exact key ⟨d, h⟩

theorem digitRun_append {digit : UInt8 → Option ℕ} {xs : Text}
    (h : ∀ c ∈ xs, (digit c).isSome) (ys : Text) :
    digitRun digit (xs ++ ys) =
      ((digitRun digit xs).1 ++ (digitRun digit ys).1, xs.length + (digitRun digit ys).2) := by
  induction xs with
  | nil => simp [digitRun]
  | cons c xs ih =>
    obtain ⟨hc, hxs⟩ := List.forall_mem_cons.mp h
    obtain ⟨d, hd⟩ := Option.isSome_iff_exists.mp hc
    simp only [List.cons_append, digitRun, hd, ih hxs, List.length_cons]
    exact Prod.ext rfl (by dsimp only; omega)

theorem isSome_hexDigit_of_mem {width n : ℕ} : ∀ c ∈ hexChars width n, (hexDigit c).isSome := by
  induction width generalizing n with
  | zero => exact List.forall_mem_nil _
  | succ width ih =>
    rw [hexChars, List.forall_mem_append, List.forall_mem_singleton,
      hexDigit_hexChar (Nat.mod_lt n (by decide))]
    exact ⟨ih, rfl⟩

theorem length_hexChars (width n : ℕ) : (hexChars width n).length = width := by
  induction width generalizing n with
  | zero => rfl
  | succ width ih => rw [hexChars, List.length_append, ih, List.length_singleton]

/-- `scan_hex_digits` reads back what `snprintf` wrote. -/
theorem scanHexDigits_hexChars {width n : ℕ} (h : n < 16 ^ width) :
    scanHexDigits (hexChars width n) = (UInt64.ofNat n, width) := by
  induction width generalizing n with
  | zero =>
    obtain rfl : n = 0 := by omega
    rfl
  | succ width ih =>
    -- the last digit is read behind the others, which are those of the quotient
    have hdiv : n / 16 < 16 ^ width := by
      rw [Nat.div_lt_iff_lt_mul (by decide), ← Nat.pow_succ]
      exact h
    have hrun : digitRun hexDigit [hexChar (n % 16)] = ([n % 16], 1) := by
      simp only [digitRun, hexDigit_hexChar (Nat.mod_lt n (by decide : 0 < 16))]
    have hih := Prod.mk.inj (ih hdiv)
    rw [scanHexDigits, scanDigits, hexChars, digitRun_append isSome_hexDigit_of_mem, hrun,
      List.foldl_append, hih.1, length_hexChars]
    refine Prod.ext ?_ rfl
    simp only [List.foldl_cons, List.foldl_nil, ← UInt64.ofNat_mul, ← UInt64.ofNat_add]
    congr 1
    omega

/-! ### One escape sequence, written and read -/

/-- What `add_utf8_or_escape_sequence` writes for a codepoint other than NUL. -/
def escaped (cp : ℕ) : Text :=
  if cp < 0x80 then
    if cp < 0x20 then
      match oneCharEscapeOf cp with
      | some c => [ch '\\', c]
      | none => ch '\\' :: ch 'x' :: hexChars 2 cp
    else if cp = 0x5C ∨ cp = 0x22 ∨ cp = 0x27 then [ch '\\', UInt8.ofNat cp]
    else if cp = 0x7F then [ch '\\', ch 'x', ch '7', ch 'F']
    else [UInt8.ofNat cp]
  else if cp ≤ 0xFFFF then ch '\\' :: ch 'u' :: hexChars 4 cp
  else ch '\\' :: ch 'U' :: hexChars 8 cp

/-- What `add_utf8_or_escape_sequence` writes for any codepoint. -/
def written (cp : ℕ) : Text :=
  if cp = 0 then ch '\\' :: ch 'x' :: hexChars 2 0 else escaped cp

/-- The room that `add_utf8_or_escape_sequence` needs: where it leaves the writing to `snprintf`,
a NUL comes behind the sequence. -/
def roomFor (cp : ℕ) : ℕ :=
  if cp = 0 ∨ cp < 0x20 ∧ oneCharEscapeOf cp = none ∨ 0x80 ≤ cp then (written cp).length + 1
  else (written cp).length

section Scan

variable {v : View} {p cp : ℕ} {rest : Text}

theorem byte_of_drop {c : UInt8} (h : v.text.drop p = c :: rest) : v.byte p = c := by
  have hget : v.text[p]? = some c := by rw [← List.head?_drop, h, List.head?_cons]
  rw [View.byte, hget, Option.getD_some]

theorem drop_succ_of_drop {c : UInt8} (h : v.text.drop p = c :: rest) :
    v.text.drop (p + 1) = rest := by
  rw [← List.drop_drop, h, List.drop_succ_cons, List.drop_zero]

/-- The bytes that a scanner gets to see. -/
theorem window_of_drop {w : Text} (h : v.text.drop p = w ++ rest) :
    ((List.range w.length).map fun i => v.byte (p + i)) = w := by
  induction w generalizing p with
  | nil => rfl
  | cons c w ih =>
    rw [List.length_cons, List.range_succ_eq_map, List.map_cons, List.map_map, Nat.add_zero,
      byte_of_drop h]
    have hrest := ih (drop_succ_of_drop h)
    have hshift : ((fun i => v.byte (p + i)) ∘ Nat.succ) = fun i => v.byte (p + 1 + i) := by
      funext i
      exact congrArg v.byte (Nat.add_right_comm p i 1)
    rw [hshift, hrest]

theorem scanEscapeDigits_hexChars {width : ℕ} (h : v.text.drop p = hexChars width cp ++ rest)
    (hlt : cp < 16 ^ width) (hmax : cp ≤ maxUnicodeChar) :
    scanEscapeDigits v scanHexDigits p width = (cp, p + width) := by
  have hwindow := window_of_drop h
  rw [length_hexChars] at hwindow
  have hcp : (UInt64.ofNat cp).toNat = cp := by
    rw [maxUnicodeChar] at hmax
    exact UInt64.toNat_ofNat_of_lt' (hmax.trans_lt (by decide))
  rw [scanEscapeDigits, hwindow, scanHexDigits_hexChars hlt]
  dsimp only
  rw [hcp, if_pos ⟨rfl, fun hbig => absurd hbig.2 (by omega)⟩, Nat.mod_eq_of_lt]
  rw [maxUnicodeChar] at hmax
  omega

theorem scan_x (h : v.text.drop p = ch 'x' :: (hexChars 2 cp ++ rest)) (hlt : cp < 0x100) :
    scanUnicodeEscapeSequence v p = (cp, p + 3) := by
  rw [scanUnicodeEscapeSequence, byte_of_drop h, if_pos rfl,
    scanEscapeDigits_hexChars (drop_succ_of_drop h) hlt (by rw [maxUnicodeChar]; omega)]

theorem scan_u (h : v.text.drop p = ch 'u' :: (hexChars 4 cp ++ rest)) (hlt : cp ≤ 0xFFFF) :
    scanUnicodeEscapeSequence v p = (cp, p + 5) := by
  rw [scanUnicodeEscapeSequence, byte_of_drop h, if_neg (by decide), if_pos rfl,
    scanEscapeDigits_hexChars (drop_succ_of_drop h) (by omega) (by rw [maxUnicodeChar]; omega)]

theorem scan_U (h : v.text.drop p = ch 'U' :: (hexChars 8 cp ++ rest))
    (hmax : cp ≤ maxUnicodeChar) : scanUnicodeEscapeSequence v p = (cp, p + 9) := by
  have hlt : cp < 16 ^ 8 := by
    rw [maxUnicodeChar] at hmax
    omega
  rw [scanUnicodeEscapeSequence, byte_of_drop h, if_neg (by decide), if_neg (by decide),
    if_pos rfl, scanEscapeDigits_hexChars (drop_succ_of_drop h) hlt hmax]

/-- The sequences of two bytes. -/
theorem scan_two {c : UInt8} (h : v.text.drop p = c :: rest)
    (hc : (c, cp) ∈ oneCharEscapes ++ [(ch '\\', 0x5C), (ch '"', 0x22), (ch '\'', 0x27)]) :
    scanUnicodeEscapeSequence v p = (cp, p + 1) := by
  rw [scanUnicodeEscapeSequence, byte_of_drop h]
  simp only [oneCharEscapes, List.cons_append, List.nil_append, List.mem_cons, Prod.mk.injEq,
    List.not_mem_nil, or_false] at hc
  rcases hc with ⟨rfl, rfl⟩ | ⟨rfl, rfl⟩ | ⟨rfl, rfl⟩ | ⟨rfl, rfl⟩ | ⟨rfl, rfl⟩ | ⟨rfl, rfl⟩ |
    ⟨rfl, rfl⟩ | ⟨rfl, rfl⟩ | ⟨rfl, rfl⟩ | ⟨rfl, rfl⟩ <;> rfl

theorem mem_of_oneCharEscapeOf {c : UInt8} (hcp : cp ≠ 0) (h : oneCharEscapeOf cp = some c) :
    (c, cp) ∈ oneCharEscapes := by
  rw [oneCharEscapeOf, if_neg hcp] at h
  obtain ⟨⟨c', cp'⟩, hfind, rfl⟩ := Option.map_eq_some_iff.mp h
  obtain rfl : cp' = cp := by simpa using List.find?_some hfind
  exact List.mem_of_find?_eq_some hfind

/-- **An escape sequence is read back**, unless the codepoint is written as it is. -/
theorem scan_escaped (hcp : IsCodepoint cp) (h : v.text.drop p = escaped cp ++ rest)
    (hesc : (escaped cp).head? = some (ch '\\')) :
    scanUnicodeEscapeSequence v (p + 1) = (cp, p + (escaped cp).length) := by
  obtain ⟨hpos, hmax⟩ := hcp
  unfold escaped at h hesc ⊢
  split_ifs at h hesc ⊢ with h₁ h₂ h₃ h₄ h₅
  · -- a control character has a letter of its own, or two digits
    have hone := @mem_of_oneCharEscapeOf cp
    generalize oneCharEscapeOf cp = o at h hone ⊢
    cases o with
    | some c =>
      exact scan_two (drop_succ_of_drop h) (List.mem_append_left _ (hone (by omega) rfl))
    | none =>
      rw [scan_x (drop_succ_of_drop h) (by omega)]
      rfl
  · have hmem : (UInt8.ofNat cp, cp) ∈
        oneCharEscapes ++ [(ch '\\', 0x5C), (ch '"', 0x22), (ch '\'', 0x27)] := by
      rcases h₃ with rfl | rfl | rfl <;> decide
    exact scan_two (drop_succ_of_drop h) hmem
  · subst h₄
    rw [@scan_x v (p + 1) 0x7F rest (drop_succ_of_drop h) (by decide)]
    rfl
  · -- a character that needs no escape is not a backslash
    have hbyte : UInt8.ofNat cp = ch '\\' := Option.some.inj hesc
    have hnat := congrArg UInt8.toNat hbyte
    rw [UInt8.toNat_ofNat'] at hnat
    have h5c : (ch '\\').toNat = 0x5C := rfl
    omega
  · rw [scan_u (drop_succ_of_drop h) h₅]
    rw [List.length_cons, List.length_cons, length_hexChars]
  · rw [scan_U (drop_succ_of_drop h) hmax]
    rw [List.length_cons, List.length_cons, length_hexChars]

end Scan

namespace Buffer

/-- A call of a writer that succeeds: it writes `w` and adds its length to `buf_length`. -/
def Succeeds (b : Buffer) (w : Text) (r : Bool × Buffer) : Prop :=
  r.1 = true ∧ b.Writes w r.2 ∧ r.2.bufLength = b.bufLength + w.length

section Succeeds

variable {b : Buffer} {p cp : ℕ} {w : Text}

/-- Storing `w`, and perhaps more, before the position moves behind `w`. -/
theorem store_succeeds (w' : Text) (hp : b.buf = some p)
    (h : p + (w ++ w').length ≤ b.memory.length) :
    b.Succeeds w ((b.store (w ++ w')).advanceAndReturnTrue w.length) := by
  obtain ⟨h₁, h₂⟩ := overwrite_spec h
  rw [store, hp]
  refine ⟨rfl, ⟨p, hp, rfl, ?_, h₂⟩, rfl⟩
  -- what was stored behind `w` is cut off
  have hcut := congrArg (List.take (p + w.length)) h₁
  rw [List.take_take, List.length_append, ← List.append_assoc,
    Nat.min_eq_left (by omega)] at hcut
  refine hcut.trans (List.take_left' ?_)
  rw [List.length_append, List.length_take]
  rw [List.length_append] at h
  omega

theorem write2byteSequence_succeeds {c : UInt8} (hp : b.buf = some p) (hroom : 2 ≤ b.bufLength)
    (h : p + 2 ≤ b.memory.length) :
    b.Succeeds [ch '\\', c] (b.write2byteSequence c) := by
  rw [write2byteSequence, if_pos hroom]
  exact store_succeeds [] hp h

theorem snprintf_succeeds (hp : b.buf = some p) (hroom : w.length < b.bufLength)
    (h : p + w.length + 1 ≤ b.memory.length) :
    b.Succeeds w ((b.snprintf w).advanceAndReturnTrue w.length) := by
  rw [snprintf, if_neg (by omega), List.take_of_length_le (by omega)]
  refine store_succeeds [0] hp ?_
  rw [List.length_append, List.length_singleton]
  omega

theorem writeX_succeeds (hcp : cp < 0x100) (hp : b.buf = some p) (hroom : 4 < b.bufLength)
    (h : p + 5 ≤ b.memory.length) :
    b.Succeeds (ch '\\' :: ch 'x' :: hexChars 2 cp) (b.writeX cp) := by
  have hlen : (ch '\\' :: ch 'x' :: hexChars 2 cp).length = 4 := by
    rw [List.length_cons, List.length_cons, length_hexChars]
  rw [writeX, if_pos hroom, Nat.mod_eq_of_lt (show cp < 2 ^ 8 from hcp)]
  have key := snprintf_succeeds hp (hlen ▸ hroom) (by omega)
  rwa [hlen] at key

theorem writeU_succeeds {w : Text}
    (hw : w = if cp ≤ 0xFFFF then ch '\\' :: ch 'u' :: hexChars 4 cp
      else ch '\\' :: ch 'U' :: hexChars 8 cp)
    (hp : b.buf = some p) (hroom : w.length < b.bufLength)
    (h : p + w.length + 1 ≤ b.memory.length) : b.Succeeds w (b.writeU cp) := by
  have key := snprintf_succeeds hp hroom h
  rw [writeU]
  split_ifs at hw ⊢ with h₁ h₂ h₃
  · have hlen : w.length = 6 := by rw [hw, List.length_cons, List.length_cons, length_hexChars]
    rw [Nat.mod_eq_of_lt (by omega), ← hw]
    rwa [hlen] at key
  · rw [hw, List.length_cons, List.length_cons, length_hexChars] at hroom
    omega
  · have hlen : w.length = 10 := by rw [hw, List.length_cons, List.length_cons, length_hexChars]
    rw [← hw]
    rwa [hlen] at key
  · rw [hw, List.length_cons, List.length_cons, length_hexChars] at hroom
    omega

/-- **One codepoint, written** into a buffer that has room for it. -/
theorem addUtf8OrEscapeSequence_written (hp : b.buf = some p) (hroom : roomFor cp ≤ b.bufLength)
    (h : p + roomFor cp ≤ b.memory.length) :
    b.Succeeds (written cp) (b.addUtf8OrEscapeSequence cp) := by
  by_cases hzero : cp = 0
  · subst hzero
    have hlen : roomFor 0 = 5 := rfl
    rw [hlen] at hroom h
    rw [addUtf8OrEscapeSequence, if_neg (by rw [hp, not_or]; exact ⟨by simp, by omega⟩)]
    exact writeX_succeeds (by decide) hp hroom h
  have hwritten : written cp = escaped cp := if_neg hzero
  have hpos : 0 < (escaped cp).length := by
    unfold escaped
    split_ifs
    · cases oneCharEscapeOf cp <;> exact Nat.zero_lt_succ _
    all_goals exact Nat.zero_lt_succ _
  have hle : (escaped cp).length ≤ roomFor cp := by
    rw [roomFor, hwritten]
    split_ifs
    · exact Nat.le_succ _
    · exact le_rfl
  have hnot : ¬ (b.buf = none ∨ b.bufLength < 1) := by
    rw [hp, not_or]
    exact ⟨by simp, by omega⟩
  -- where `snprintf` writes, the room is one byte more
  have hterm : cp < 0x20 ∧ oneCharEscapeOf cp = none ∨ 0x80 ≤ cp →
      (escaped cp).length + 1 ≤ roomFor cp := by
    intro hs
    rw [roomFor, if_pos (.inr hs), hwritten]
  rw [hwritten]
  unfold escaped at hle hterm ⊢
  unfold addUtf8OrEscapeSequence
  rw [if_neg hnot, if_pos hzero]
  split_ifs at hle hterm ⊢ with h₁ h₂ h₃ h₄ h₅ h₆
  · cases hone : oneCharEscapeOf cp with
    | some c =>
      rw [hone] at hle
      exact write2byteSequence_succeeds hp (hle.trans hroom)
        ((Nat.add_le_add_left hle p).trans h)
    | none =>
      rw [hone] at hterm
      have hlen : 5 ≤ roomFor cp := by
        have := hterm (.inl ⟨h₂, rfl⟩)
        rwa [List.length_cons, List.length_cons, length_hexChars] at this
      exact writeX_succeeds (by omega) hp (hlen.trans hroom) (by omega)
  · exact write2byteSequence_succeeds hp (hle.trans hroom) ((Nat.add_le_add_left hle p).trans h)
  · exact store_succeeds [] hp ((Nat.add_le_add_left hle p).trans h)
  · exact absurd (hle.trans hroom) h₅
  · exact store_succeeds [] hp ((Nat.add_le_add_left hle p).trans h)
  · have hlen := hterm (.inr (by omega))
    exact writeU_succeeds (if_pos h₆).symm hp (hlen.trans hroom) (by omega)
  · have hlen := hterm (.inr (by omega))
    exact writeU_succeeds (if_neg h₆).symm hp (hlen.trans hroom) (by omega)

/-- **One codepoint, escaped.** -/
theorem addUtf8OrEscapeSequence_succeeds (hcp : 1 ≤ cp) (hp : b.buf = some p)
    (hroom : (escaped cp).length < b.bufLength)
    (h : p + (escaped cp).length + 1 ≤ b.memory.length) :
    b.Succeeds (escaped cp) (b.addUtf8OrEscapeSequence cp) := by
  have hwritten : written cp = escaped cp := if_neg (by omega)
  have hle : roomFor cp ≤ (escaped cp).length + 1 := by
    rw [roomFor, hwritten]
    split_ifs
    · exact le_rfl
    · exact Nat.le_succ _
  rw [← hwritten]
  exact addUtf8OrEscapeSequence_written hp (hle.trans hroom) (by omega)

end Succeeds

end Buffer

/-! ### Both loops -/

/-- A byte that both functions copy: a tab, a line break, or a printable ASCII character other
than a quote and a backslash. -/
def IsPlain (c : UInt8) : Prop :=
  c.toNat = 0x09 ∨ c.toNat = 0x0A ∨ c.toNat = 0x0D ∨
    (0x20 ≤ c.toNat ∧ c.toNat ≤ 0x7E ∧ c.toNat ≠ 0x22 ∧ c.toNat ≠ 0x5C)

/-- What `insert_escape_sequences` appends for a character that it escapes. The two-byte
sequences are followed by what is left in the array. -/
inductive Piece (cp : ℕ) : Text → Text → Prop where
  | two {c : UInt8} {junk : Text} : (c, cp) ∈ oneCharEscapes → Piece cp [ch '\\', c] junk
  | x : Piece cp (ch '\\' :: ch 'x' :: hexChars 2 cp) []

section Loops

variable {s pre buf result out : Text}

theorem insertLoop_plain (h : ∀ c ∈ pre, IsPlain c) (s buf result : Text) :
    insertLoop shouldEscapeInUtf8StringLiterals (pre ++ s) buf result =
      insertLoop shouldEscapeInUtf8StringLiterals s buf (result ++ pre) := by
  induction pre generalizing result with
  | nil => simp
  | cons c pre ih =>
    obtain ⟨hc, hpre⟩ := List.forall_mem_cons.mp h
    have hrange : InRange 0x01 0x7F c ∧ c.toNat < 0x7F ∧
        shouldEscapeInUtf8StringLiterals c.toNat = false := by
      unfold IsPlain at hc
      refine ⟨⟨by omega, by omega⟩, by omega, ?_⟩
      unfold shouldEscapeInUtf8StringLiterals
      split_ifs <;> simp <;> omega
    obtain ⟨hone, hlt, hno⟩ := hrange
    rw [List.cons_append, insertLoop, getCodepoint_one hone]
    simp only [hno, hlt, if_true, Bool.false_eq_true, if_false, List.drop_succ_cons,
      List.drop_zero, UInt8.ofNat_toNat]
    rw [ih hpre, List.append_assoc, List.singleton_append]

theorem expandLoop_raw (h : ∀ c ∈ pre, c ≠ ch '\\') (s buf result : Text) :
    expandLoop (pre ++ s) buf result = expandLoop s buf (result ++ pre) := by
  induction pre generalizing result with
  | nil => simp
  | cons c pre ih =>
    obtain ⟨hc, hpre⟩ := List.forall_mem_cons.mp h
    rw [List.cons_append, expandLoop, if_neg hc, ih hpre, List.append_assoc,
      List.singleton_append]

theorem prefix_of_appendWritten {w : Bool × Buffer} (h : appendWritten w result = some out) :
    result <+: out := by
  unfold appendWritten at h
  split_ifs at h
  · obtain ⟨piece, -, rfl⟩ := Option.map_eq_some_iff.mp h
    exact List.prefix_append _ _
  · exact Option.some.inj h ▸ List.prefix_rfl

/-- The result only grows. -/
theorem prefix_of_insertLoop {f : ℕ → Bool} {s buf result : Text}
    (h : insertLoop f s buf result = some out) : result <+: out := by
  fun_induction insertLoop f s buf result with
  | case1 buf result => exact Option.some.inj h ▸ List.prefix_rfl
  | case2 buf result c cs r rest hesc w ih =>
    obtain ⟨result', hw, hrun⟩ := Option.bind_eq_some_iff.mp h
    exact (prefix_of_appendWritten hw).trans (ih result' hrun)
  | case3 buf result c cs r rest hesc hascii ih => exact (List.prefix_append _ _).trans (ih h)
  | case4 buf result c cs r rest hesc hascii w ih =>
    obtain ⟨result', hw, hrun⟩ := Option.bind_eq_some_iff.mp h
    exact (prefix_of_appendWritten hw).trans (ih result' hrun)

theorem prefix_of_expandLoop {s buf result : Text} (h : expandLoop s buf result = some out) :
    result <+: out := by
  fun_induction expandLoop s buf result with
  | case1 buf result => exact Option.some.inj h ▸ List.prefix_rfl
  | case2 buf result cs r hend w ih =>
    obtain ⟨piece, -, hrun⟩ := Option.bind_eq_some_iff.mp h
    exact (List.prefix_append _ _).trans (ih piece hrun)
  | case3 buf result cs r hend => exact Option.some.inj h ▸ List.prefix_rfl
  | case4 buf result c cs hc ih => exact (List.prefix_append _ _).trans (ih h)

theorem cString_append {w t : Text} (hw : 0 ∉ w) : cString (w ++ t) = (cString t).map (w ++ ·) := by
  have htake : (w ++ t).takeWhile (· ≠ 0) = w ++ t.takeWhile (· ≠ 0) :=
    List.takeWhile_append_of_pos fun c hc => decide_eq_true fun h0 => hw (h0 ▸ hc)
  rw [cString, cString, htake]
  by_cases ht : (0 : UInt8) ∈ t
  · rw [if_pos (List.mem_append_right _ ht), if_pos ht, Option.map_some]
  · rw [if_neg (by simp [hw, ht]), if_neg ht, Option.map_none]

theorem cString_of_take {memory w : Text} {k : ℕ} (h : memory.take k = w ++ [0]) (hw : 0 ∉ w) :
    cString memory = some w := by
  have hmem : memory = w ++ (0 :: memory.drop k) := by
    rw [← List.singleton_append, ← List.append_assoc, ← h, List.take_append_drop]
  rw [hmem, cString_append hw]
  simp [cString]

theorem zero_notMem_hexChars (width n : ℕ) : 0 ∉ hexChars width n := by
  intro hmem
  have hsome := isSome_hexDigit_of_mem 0 hmem
  exact absurd hsome (by decide)

theorem ne_zero_of_oneCharEscapes {c : UInt8} {cp : ℕ} (h : (c, cp) ∈ oneCharEscapes) :
    c ≠ 0 := by
  have key : ∀ r ∈ oneCharEscapes, r.1 ≠ 0 := by decide
  exact key _ h

/-- What the local array of `insert_escape_sequences` gets for an ASCII character. -/
theorem addEscapeSequence_local {cp : ℕ} (hpos : 1 ≤ cp) (hmax : cp ≤ 0x7F) (buf : Text) :
    ∃ w k, Buffer.addEscapeSequence ⟨buf, some 0, 12⟩ cp =
        (true, ⟨overwrite buf 0 w, some k, 12 + k⟩) ∧
      ((∃ c, (c, cp) ∈ oneCharEscapes ∧ w = [ch '\\', c]) ∨
        w = ch '\\' :: ch 'x' :: hexChars 2 cp ++ [0]) := by
  rw [Buffer.addEscapeSequence]
  cases ho : if cp < 0x20 then oneCharEscapeOf cp else none with
  | some c =>
    refine ⟨[ch '\\', c], 2, rfl, .inl ⟨c, ?_, rfl⟩⟩
    split_ifs at ho
    · exact mem_of_oneCharEscapeOf (by omega) ho
  | none =>
    refine ⟨_, 4, ?_, .inr rfl⟩
    have hlen : (ch '\\' :: ch 'x' :: hexChars 2 cp).length = 4 := by
      rw [List.length_cons, List.length_cons, length_hexChars]
    dsimp only
    rw [if_pos hmax, Buffer.writeX, if_pos (show 12 > 4 by decide), Nat.mod_eq_of_lt (by omega),
      Buffer.snprintf, if_neg (show ¬ 12 = 0 by decide),
      List.take_of_length_le (by rw [hlen]; exact show 4 ≤ 11 by decide)]
    rfl

/-- **Inserting an escape sequence.** The round for an ASCII character that is escaped. -/
theorem insertLoop_escape {c : UInt8} {f : ℕ → Bool} (hc : InRange 0x01 0x7F c)
    (hf : f c.toNat = true) (hbuf : buf.length = 12)
    (h : insertLoop f (c :: s) buf result = some out) :
    ∃ piece junk buf', Piece c.toNat piece junk ∧ buf'.length = 12 ∧
      insertLoop f s buf' (result ++ (piece ++ junk)) = some out := by
  rw [insertLoop, getCodepoint_one hc] at h
  simp only [hf, if_true, List.drop_succ_cons, List.drop_zero] at h
  obtain ⟨result', hw, hrun⟩ := Option.bind_eq_some_iff.mp h
  obtain ⟨w, k, hadd, hcases⟩ := addEscapeSequence_local hc.1 hc.2 buf
  rw [hadd] at hw hrun
  rw [appendWritten, if_pos rfl] at hw
  have hback : (0 : UInt8) ≠ ch '\\' := by decide
  rcases hcases with ⟨e, hmem, rfl⟩ | rfl
  · -- the two bytes are not terminated: what the array holds behind them is appended too
    have hcut : cString (overwrite buf 0 [ch '\\', e]) =
        (cString (buf.drop 2)).map ([ch '\\', e] ++ ·) :=
      cString_append (by simp [(ne_zero_of_oneCharEscapes hmem).symm, hback])
    rw [hcut] at hw
    obtain ⟨piece, hpiece, rfl⟩ := Option.map_eq_some_iff.mp hw
    obtain ⟨junk, -, rfl⟩ := Option.map_eq_some_iff.mp hpiece
    refine ⟨[ch '\\', e], junk, _, .two hmem, ?_, hrun⟩
    rw [(Buffer.overwrite_spec (by simp [hbuf])).2, hbuf]
  · -- `snprintf` puts a NUL behind its output
    have hlen : (ch '\\' :: ch 'x' :: hexChars 2 c.toNat ++ [0]).length = 5 := by
      simp [length_hexChars]
    have hspec := @Buffer.overwrite_spec buf _ 0 (by rw [hlen, hbuf]; decide)
    have hcut : cString (overwrite buf 0 (ch '\\' :: ch 'x' :: hexChars 2 c.toNat ++ [0])) =
        some (ch '\\' :: ch 'x' :: hexChars 2 c.toNat) := by
      refine cString_of_take hspec.1 ?_
      have hx : (0 : UInt8) ≠ ch 'x' := by decide
      simp [hback, hx, zero_notMem_hexChars]
    rw [hcut] at hw
    refine ⟨_, [], _, .x, hspec.2.trans hbuf, ?_⟩
    obtain rfl : result ++ ch '\\' :: ch 'x' :: hexChars 2 c.toNat = result' := Option.some.inj hw
    rw [List.append_nil]
    exact hrun

/-- What `expand_escape_sequences` appends for an ASCII character is escaped again. -/
theorem catUtf8OrEscapeSequence_local {cp : ℕ} (hpos : 1 ≤ cp) (hmax : cp ≤ 0x7F)
    (hbuf : buf.length = 8) :
    cString (Buffer.catUtf8OrEscapeSequence ⟨buf, some 0, 8⟩ cp).2.memory = some (escaped cp) ∧
      (Buffer.catUtf8OrEscapeSequence ⟨buf, some 0, 8⟩ cp).2.memory.length = 8 := by
  have key : ∀ n : Fin 128, 1 ≤ n.val → (escaped n).length ≤ 4 ∧ 0 ∉ escaped n := by decide
  obtain ⟨hlen, hzero⟩ := key ⟨cp, by omega⟩ hpos
  obtain ⟨htrue, hw, -⟩ := @Buffer.addUtf8OrEscapeSequence_succeeds ⟨buf, some 0, 7⟩ 0 cp hpos rfl
    (by dsimp only at hlen ⊢; omega) (by dsimp only at hlen ⊢; omega)
  rw [Buffer.catUtf8OrEscapeSequence, if_pos (show 8 ≠ 0 by decide)]
  dsimp only at hlen ⊢
  rw [Nat.add_one_sub_one, if_pos htrue]
  obtain ⟨q, hq, hq', -, hmem⟩ := id hw
  obtain rfl : 0 = q := Option.some.inj hq
  have hput := hw.append (Buffer.put_writes (w := [0]) hq' (by rw [hmem, hbuf]; simp; omega))
  obtain ⟨q, hq, -, htake, hmem'⟩ := hput
  obtain rfl : 0 = q := Option.some.inj hq
  exact ⟨cString_of_take htake hzero, hmem'.trans hbuf⟩

/-- **Expanding an escape sequence** writes it again, in the form of
`add_utf8_or_escape_sequence`. -/
theorem expandLoop_piece {cp : ℕ} {piece junk : Text} (hpos : 1 ≤ cp) (hmax : cp ≤ 0x7F)
    (hpiece : Piece cp piece junk) (hbuf : buf.length = 8)
    (h : expandLoop (piece ++ s) buf result = some out) :
    ∃ buf', buf'.length = 8 ∧ expandLoop s buf' (result ++ escaped cp) = some out := by
  obtain ⟨hcat, hlen⟩ := catUtf8OrEscapeSequence_local hpos hmax hbuf
  obtain ⟨w, rfl, hscan⟩ : ∃ w, piece = ch '\\' :: w ∧
      scanUnicodeEscapeSequence ⟨ch '\\' :: (w ++ s), fun _ => 0⟩ 1 = (cp, w.length + 1) := by
    cases hpiece with
    | two hmem => exact ⟨[_], rfl, scan_two rfl (List.mem_append_left _ hmem)⟩
    | x =>
      refine ⟨_, rfl, (scan_x rfl (by omega)).trans ?_⟩
      rw [List.length_cons, length_hexChars]
  rw [List.cons_append, expandLoop, if_pos rfl, hscan] at h
  simp only [Nat.add_sub_cancel, List.length_cons, List.length_append] at h
  rw [if_pos (by omega), hcat, Option.bind_some, List.drop_succ_cons, List.drop_left] at h
  exact ⟨_, hlen, h⟩

/-- Backslashes are doubled. -/
theorem insertLoop_backslashes (k : ℕ) : ∀ {buf result : Text}, buf.length = 12 →
    insertLoop shouldEscapeInUtf8StringLiterals (List.replicate k (ch '\\') ++ s) buf result =
      some out →
    result ++ (List.replicate k (bytes ['\\', 'x', '5', 'C'])).flatten <+: out := by
  induction k with
  | zero =>
    intro buf result _ h
    simpa using prefix_of_insertLoop h
  | succ k ih =>
    intro buf result hbuf h
    rw [List.replicate_succ, List.cons_append] at h
    obtain ⟨piece, junk, buf', hpiece, hbuf', hrun⟩ :=
      insertLoop_escape (by decide) rfl hbuf h
    have hx : piece ++ junk = bytes ['\\', 'x', '5', 'C'] := by
      cases hpiece with
      | two hmem =>
        have hno : (ch '\\').toNat ∉ oneCharEscapes.map Prod.snd := by decide
        exact absurd (List.mem_map_of_mem hmem) hno
      | x => rfl
    have hrest := ih hbuf' hrun
    rwa [hx, List.append_assoc] at hrest

theorem expandLoop_backslashes (k : ℕ) : ∀ {buf result : Text}, buf.length = 8 →
    expandLoop ((List.replicate k (bytes ['\\', 'x', '5', 'C'])).flatten ++ s) buf result =
      some out →
    result ++ List.replicate (2 * k) (ch '\\') <+: out := by
  induction k with
  | zero =>
    intro buf result _ h
    simpa using prefix_of_expandLoop h
  | succ k ih =>
    intro buf result hbuf h
    rw [List.replicate_succ, List.flatten_cons, List.append_assoc] at h
    have hpiece : Piece 0x5C (bytes ['\\', 'x', '5', 'C']) [] := .x
    obtain ⟨buf', hbuf', hrun⟩ := expandLoop_piece (by decide) (by decide) hpiece hbuf h
    have hrest := ih hbuf' hrun
    rw [List.append_assoc] at hrest
    exact hrest

end Loops

/-! ### Escaping and expanding -/

section Undone

variable {s pre bad : Text}

/-- A well-formed string up to the first character that is not plain. -/
theorem exists_plain_prefix (hs : WellFormedUtf8 s) :
    ∃ pre bad, s = pre ++ bad ∧ (∀ c ∈ pre, IsPlain c) ∧
      (bad = [] ∨ ∃ w rest, bad = w ++ rest ∧ Utf8Sequence w ∧ ∀ a, w = [a] → ¬ IsPlain a) := by
  induction hs with
  | nil => exact ⟨[], [], rfl, List.forall_mem_nil _, .inl rfl⟩
  | @append w txt hw _ ih =>
    by_cases hplain : ∃ a, w = [a] ∧ IsPlain a
    · obtain ⟨a, rfl, ha⟩ := hplain
      obtain ⟨pre, bad, rfl, hpre, hbad⟩ := ih
      exact ⟨a :: pre, bad, rfl, List.forall_mem_cons.mpr ⟨ha, hpre⟩, hbad⟩
    · refine ⟨[], w ++ txt, rfl, List.forall_mem_nil _, .inr ⟨w, txt, rfl, hw, fun a ha hp => ?_⟩⟩
      exact hplain ⟨a, ha, hp⟩

theorem ne_backslash_of_plain {c : UInt8} (hc : IsPlain c) : c ≠ ch '\\' := by
  rintro rfl
  exact absurd hc (by unfold IsPlain; decide)

/-- The rounds of both functions over the plain characters at the start. -/
theorem undone_plain (hpre : ∀ c ∈ pre, IsPlain c) {b₁ b₂ out : Text}
    (h : (insertEscapeSequences (pre ++ bad) shouldEscapeInUtf8StringLiterals b₁).bind
      (fun t => expandEscapeSequences t b₂) = some out) :
    ∃ t, insertLoop shouldEscapeInUtf8StringLiterals bad b₁ pre = some (pre ++ t) ∧
      expandLoop t b₂ pre = some out := by
  obtain ⟨t, hins, hexp⟩ := Option.bind_eq_some_iff.mp h
  rw [insertEscapeSequences, insertLoop_plain hpre, List.nil_append] at hins
  obtain ⟨t', rfl⟩ := prefix_of_insertLoop hins
  rw [expandEscapeSequences, expandLoop_raw (fun c hc => ne_backslash_of_plain (hpre c hc)),
    List.nil_append] at hexp
  exact ⟨t', hins, hexp⟩

theorem shouldEscape_of_not_plain {c : UInt8} (hc : InRange 0x01 0x7F c) (h : ¬ IsPlain c) :
    shouldEscapeInUtf8StringLiterals c.toNat = true := by
  obtain ⟨h₁, h₂⟩ := hc
  unfold IsPlain at h
  unfold shouldEscapeInUtf8StringLiterals
  split_ifs <;> simp <;> omega

theorem head?_escaped {cp : ℕ} (hcp : 1 ≤ cp) (hmax : cp ≤ 0x7F)
    (h : shouldEscapeInUtf8StringLiterals cp = true) : (escaped cp).head? = some (ch '\\') := by
  have key : ∀ n : Fin 128, 1 ≤ n.val → shouldEscapeInUtf8StringLiterals n = true →
      (escaped n).head? = some (ch '\\') := by decide
  exact key ⟨cp, by omega⟩ hcp h

/-- A character that is escaped comes back as a backslash and more. -/
theorem not_undone_escape {c : UInt8} {b₁ b₂ rest : Text} (hpre : ∀ c ∈ pre, IsPlain c)
    (hc : InRange 0x01 0x7F c) (hplain : ¬ IsPlain c) (hne : c ≠ ch '\\')
    (h₁ : b₁.length = 12) (h₂ : b₂.length = 8) :
    (insertEscapeSequences (pre ++ c :: rest) shouldEscapeInUtf8StringLiterals b₁).bind
      (fun t => expandEscapeSequences t b₂) ≠ some (pre ++ c :: rest) := by
  intro h
  obtain ⟨t, hins, hexp⟩ := undone_plain hpre h
  have hesc := shouldEscape_of_not_plain hc hplain
  obtain ⟨piece, junk, buf', hpiece, -, hrun⟩ := insertLoop_escape hc hesc h₁ hins
  obtain ⟨more, rfl⟩ := (List.prefix_append_right_inj pre).mp (prefix_of_insertLoop hrun)
  rw [List.append_assoc] at hexp
  obtain ⟨buf'', -, hrun'⟩ := expandLoop_piece hc.1 hc.2 hpiece h₂ hexp
  obtain ⟨more', hmore⟩ :=
    (List.prefix_append_right_inj pre).mp (prefix_of_expandLoop hrun')
  -- what comes back starts with a backslash in the place of `c`
  obtain ⟨w, hw⟩ := List.head?_eq_some_iff.mp (head?_escaped hc.1 hc.2 hesc)
  rw [hw, List.cons_append] at hmore
  exact hne (List.cons.inj hmore).1.symm

/-- A run of backslashes comes back twice as long. -/
theorem not_undone_backslash {b₁ b₂ rest : Text} (hpre : ∀ c ∈ pre, IsPlain c)
    (h₁ : b₁.length = 12) (h₂ : b₂.length = 8) :
    (insertEscapeSequences (pre ++ ch '\\' :: rest) shouldEscapeInUtf8StringLiterals b₁).bind
      (fun t => expandEscapeSequences t b₂) ≠ some (pre ++ ch '\\' :: rest) := by
  intro h
  obtain ⟨t, hins, hexp⟩ := undone_plain hpre h
  -- the run, and what follows it
  obtain ⟨k, tail, hrest, htail⟩ : ∃ k tail, rest = List.replicate k (ch '\\') ++ tail ∧
      tail.head? ≠ some (ch '\\') := by
    refine ⟨(rest.takeWhile (· = ch '\\')).length, rest.dropWhile (· = ch '\\'), ?_, ?_⟩
    · have hrun : ∀ c ∈ rest.takeWhile (· = ch '\\'), c = ch '\\' := by
        intro c hc
        have hdec := List.mem_takeWhile_imp hc
        exact of_decide_eq_true hdec
      rw [← List.eq_replicate_of_mem hrun, List.takeWhile_append_dropWhile]
    · intro hhead
      have := List.head?_dropWhile_not (fun c => decide (c = ch '\\')) rest
      simp [hhead] at this
  rw [hrest, ← List.cons_append, ← List.replicate_succ] at hins hexp
  obtain ⟨more, rfl⟩ :=
    (List.prefix_append_right_inj pre).mp (insertLoop_backslashes (k + 1) h₁ hins)
  obtain ⟨more', hmore⟩ :=
    (List.prefix_append_right_inj pre).mp (expandLoop_backslashes (k + 1) h₂ hexp)
  have hsplit : 2 * (k + 1) = (k + 1) + (k + 1) := by omega
  rw [hsplit, List.replicate_add, List.append_assoc] at hmore
  have htail' := List.append_cancel_left hmore
  rw [← htail', List.replicate_succ] at htail
  exact htail rfl

/-- The bytes of a codepoint that is not ASCII. -/
theorem utf8Bytes_high {cp : ℕ} (h : 0x80 ≤ cp) : ∀ c ∈ utf8Bytes cp, 0x80 ≤ c.toNat := by
  by_cases hmax : cp ≤ maxUnicodeChar
  · have hp := packed_utf8Bytes ⟨by omega, hmax⟩
    generalize utf8Bytes cp = w at hp
    cases hp with
    | one ha heq => exact absurd ha.2 (by omega)
    | two ha hb _ => simpa using ⟨(by have := ha.1; omega), hb.1⟩
    | three ha hb hc _ => simpa using ⟨(by have := ha.1; omega), hb.1, hc.1⟩
    | four ha hb hc hd _ => simpa using ⟨(by have := ha.1; omega), hb.1, hc.1, hd.1⟩
  · have hnil : utf8Bytes cp = [] := by
      unfold maxUnicodeChar at hmax
      unfold utf8Bytes
      split_ifs <;> first | rfl | omega
    rw [hnil]
    exact List.forall_mem_nil _

theorem length_utf8Bytes_le (cp : ℕ) : (utf8Bytes cp).length ≤ 4 := by
  unfold utf8Bytes
  split_ifs <;> simp

/-- What is decoded from a sequence of more than one byte. -/
theorem getCodepoint_of_sequence {w : Text} (hw : Utf8Sequence w) (hlen : 1 < w.length)
    (rest : Text) : ∃ cp, 0x80 ≤ cp ∧ getCodepointFromUtf8 (w ++ rest) = (cp, w.length) := by
  obtain ⟨haccept, hdist, -⟩ := @Utf8Sequence.accepted rest w hw
  refine ⟨(getCodepointFromUtf8 (w ++ rest)).1, ?_, Prod.ext rfl hdist⟩
  rw [acceptsNext, hdist] at haccept
  have hproper := ((acceptsCodepoint_many hlen).mp haccept).1
  exact le_properLength.1.mp (by omega)

/-- A byte that is followed by something else in the first bytes of a text. -/
theorem exists_fill (bad : Text) :
    ∃ f : UInt8, f ∉ bad.take 5 ∧ f ≠ 0 ∧ f ≠ ch '\\' := by
  by_contra hno
  have hsub : bytes ['A', 'B', 'C', 'D', 'E', 'F'] ⊆ bad.take 5 := by
    intro f hf
    by_contra hnot
    have hmem : ∀ f ∈ bytes ['A', 'B', 'C', 'D', 'E', 'F'], f ≠ 0 ∧ f ≠ ch '\\' := by
      simp [bytes, ch]
      decide
    exact hno ⟨f, hnot, hmem f hf⟩
  have hnodup : (bytes ['A', 'B', 'C', 'D', 'E', 'F']).Nodup := by decide
  have hle := (hnodup.subperm hsub).length_le
  rw [List.length_take] at hle
  exact absurd (hle.trans (Nat.min_le_left _ _)) (by decide)

/-- The array of `insert_escape_sequences` after a codepoint was written over a fill byte. -/
theorem addCodepointToUtf8_filled (f : UInt8) (cp : ℕ) :
    (Buffer.addCodepointToUtf8 ⟨List.replicate 11 f ++ [0], some 0, 12⟩ cp).1 = true ∧
      ∃ t, (Buffer.addCodepointToUtf8 ⟨List.replicate 11 f ++ [0], some 0, 12⟩ cp).2.memory =
        utf8Bytes cp ++ [f] ++ t := by
  have hle := length_utf8Bytes_le cp
  have hfill : (List.replicate 11 f ++ [0]).drop (utf8Bytes cp).length =
      [f] ++ (List.replicate (10 - (utf8Bytes cp).length) f ++ [0]) := by
    have hsplit : 11 = (utf8Bytes cp).length + (1 + (10 - (utf8Bytes cp).length)) := by omega
    conv_lhs => rw [hsplit, List.replicate_add, List.append_assoc]
    rw [List.drop_left' List.length_replicate, List.replicate_add, List.append_assoc]
    rfl
  rw [Buffer.addCodepointToUtf8_of_room (by simp) (show 4 ≤ 12 by decide)]
  refine ⟨rfl, List.replicate (10 - (utf8Bytes cp).length) f ++ [0], ?_⟩
  rw [List.append_assoc, ← hfill]
  split_ifs with hlt
  · simp [Buffer.put, overwrite]
  · have hnil : utf8Bytes cp = [] := by
      unfold utf8Bytes
      split_ifs <;> first | rfl | omega
    rw [hnil]
    rfl

/-- A character that is not ASCII comes back with what the array held behind it. -/
theorem not_undone_utf8 {w rest b₂ : Text} {f : UInt8} (hpre : ∀ c ∈ pre, IsPlain c)
    (hw : Utf8Sequence w) (hlen : 1 < w.length) (hfill : f ∉ (w ++ rest).take 5) (hzero : f ≠ 0)
    (hback : f ≠ ch '\\') :
    (insertEscapeSequences (pre ++ (w ++ rest)) shouldEscapeInUtf8StringLiterals
      (List.replicate 11 f ++ [0])).bind (fun t => expandEscapeSequences t b₂) ≠
      some (pre ++ (w ++ rest)) := by
  intro h
  obtain ⟨t, hins, hexp⟩ := undone_plain hpre h
  obtain ⟨cp, hcp, hget⟩ := getCodepoint_of_sequence hw hlen rest
  obtain ⟨htrue, t', hmem⟩ := addCodepointToUtf8_filled f cp
  have hhigh := utf8Bytes_high hcp
  have hbytes : 0 ∉ utf8Bytes cp ++ [f] ∧ ∀ c ∈ utf8Bytes cp ++ [f], c ≠ ch '\\' := by
    constructor
    · intro h0
      rcases List.mem_append.mp h0 with h0 | h0
      · exact absurd (hhigh 0 h0) (by decide)
      · exact hzero (List.mem_singleton.mp h0).symm
    · refine List.forall_mem_append.mpr ⟨fun c hc heq => ?_, List.forall_mem_singleton.mpr hback⟩
      rw [heq] at hc
      exact absurd (hhigh _ hc) (by decide)
  have hno : shouldEscapeInUtf8StringLiterals cp = false := by
    unfold shouldEscapeInUtf8StringLiterals
    rw [if_neg (by omega), if_neg (by omega)]
  -- one round of `insert_escape_sequences` appends the codepoint and the fill byte
  obtain ⟨c, cs, hcs⟩ := List.exists_cons_of_length_pos
    (show 0 < (w ++ rest).length by rw [List.length_append]; omega)
  rw [hcs, insertLoop, ← hcs, hget] at hins
  simp only [hno, Bool.false_eq_true, if_false, if_neg (show ¬ cp < 0x7F by omega)] at hins
  obtain ⟨result', hres, hrun⟩ := Option.bind_eq_some_iff.mp hins
  rw [appendWritten, if_pos htrue, hmem, cString_append hbytes.1] at hres
  obtain ⟨piece, hpiece, rfl⟩ := Option.map_eq_some_iff.mp hres
  obtain ⟨junk, -, rfl⟩ := Option.map_eq_some_iff.mp hpiece
  obtain ⟨more, rfl⟩ := (List.prefix_append_right_inj pre).mp (prefix_of_insertLoop hrun)
  -- which `expand_escape_sequences` copies
  rw [List.append_assoc, expandLoop_raw hbytes.2] at hexp
  have hout := (List.prefix_append_right_inj pre).mp (prefix_of_expandLoop hexp)
  obtain ⟨tail, htail⟩ := hout
  have hle : (utf8Bytes cp ++ [f]).length ≤ 5 := by
    rw [List.length_append, List.length_singleton]
    exact Nat.succ_le_succ (length_utf8Bytes_le cp)
  rw [← htail, List.take_append, List.take_of_length_le hle] at hfill
  exact hfill (by simp)

end Undone

/-- **Escaping is undone** exactly on plain strings: for every well-formed string without NUL,
expanding what was escaped gives the string back, whatever the two arrays hold at first, if and
only if all of its bytes are plain. -/
theorem insert_expand_iff (s : Text) (hs : WellFormedUtf8 s) :
    (∀ b₁ b₂ : Text, b₁.length = 12 → b₂.length = 8 →
      (insertEscapeSequences s shouldEscapeInUtf8StringLiterals b₁).bind
        (fun t => expandEscapeSequences t b₂) = some s) ↔
    ∀ c ∈ s, IsPlain c := by
  constructor
  · intro h
    obtain ⟨pre, bad, rfl, hpre, rfl | ⟨w, rest, rfl, hw, hplain⟩⟩ := exists_plain_prefix hs
    · simpa using hpre
    · -- the first character that is not plain does not come back
      exfalso
      rcases Nat.lt_or_ge 1 w.length with hlen | hlen
      · obtain ⟨f, hfill, hzero, hback⟩ := exists_fill (w ++ rest)
        exact not_undone_utf8 hpre hw hlen hfill hzero hback
          (h _ (List.replicate 8 0) (by simp) (by simp))
      · obtain ⟨a, rfl, ha⟩ : ∃ a, w = [a] ∧ InRange 0x01 0x7F a := by
          cases hw with
          | ascii ha => exact ⟨_, rfl, ha⟩
          | _ => simp at hlen
        have hundone := h (List.replicate 12 0) (List.replicate 8 0) (by simp) (by simp)
        by_cases hback : a = ch '\\'
        · subst hback
          exact not_undone_backslash hpre (by simp) (by simp) hundone
        · exact not_undone_escape hpre ha (hplain a rfl) hback (by simp) (by simp) hundone
  · intro hplain b₁ b₂ _ _
    have hins : insertEscapeSequences s shouldEscapeInUtf8StringLiterals b₁ = some s := by
      have hrun := insertLoop_plain hplain [] b₁ []
      rw [List.append_nil, List.nil_append] at hrun
      rw [insertEscapeSequences, hrun, insertLoop]
    rw [hins, Option.bind_some, expandEscapeSequences]
    have hrun := expandLoop_raw (fun c hc => ne_backslash_of_plain (hplain c hc)) [] b₂ []
    rw [List.append_nil, List.nil_append] at hrun
    rw [hrun, expandLoop]

/-- Two words on two lines survive. -/
theorem insert_expand_lines :
    WellFormedUtf8 [0x6F, 0x6E, 0x65, 0x0A, 0x09, 0x32] ∧ ∀ b₁ b₂ : Text, b₁.length = 12 →
      b₂.length = 8 → (insertEscapeSequences [0x6F, 0x6E, 0x65, 0x0A, 0x09, 0x32]
        shouldEscapeInUtf8StringLiterals b₁).bind (fun t => expandEscapeSequences t b₂) =
          some [0x6F, 0x6E, 0x65, 0x0A, 0x09, 0x32] :=
  have hs : WellFormedUtf8 [0x6F, 0x6E, 0x65, 0x0A, 0x09, 0x32] :=
    .append (.ascii (by decide)) (.append (.ascii (by decide)) (.append (.ascii (by decide))
      (.append (.ascii (by decide)) (.append (.ascii (by decide))
        (.append (.ascii (by decide)) .nil)))))
  ⟨hs, (insert_expand_iff _ hs).mpr (by simp [IsPlain])⟩

/-- A quote is escaped as `\x22`, and that is expanded to a backslash and a quote. -/
theorem insert_expand_quote : WellFormedUtf8 [0x22] ∧
    ¬ ∀ b₁ b₂ : Text, b₁.length = 12 → b₂.length = 8 →
      (insertEscapeSequences [0x22] shouldEscapeInUtf8StringLiterals b₁).bind
        (fun t => expandEscapeSequences t b₂) = some [0x22] := by
  refine ⟨.append (.ascii (by decide)) .nil, fun h => ?_⟩
  have hback : (insertEscapeSequences [0x22] shouldEscapeInUtf8StringLiterals
      (List.replicate 12 0)).bind (fun t => expandEscapeSequences t (List.replicate 8 0)) =
      some [0x5C, 0x22] := by decide +kernel
  rw [h (List.replicate 12 0) (List.replicate 8 0) (by simp) (by simp)] at hback
  exact absurd hback (by decide)

end Intent.Old
