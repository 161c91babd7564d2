import Intent.Old.EscapeSequence
import Intent.Old.NumericLiteral

/-!
# Which escape sequences are read

`documented` is the list of escape sequences in `unicode.h`, as a function of a text: the codepoint
and the length of the sequence at its beginning. `scan_unicode_escape_sequence` leaves the digits to
the scanners of numeric literals, which skip underscores, and takes a sequence for complete where
they stop at the end of the window. `scan_eq_expected_iff` says when this makes a difference:
where the window holds digits and at least one underscore (`AcceptsUnderscore`).

The sequences that `add_utf8_or_escape_sequence` writes have no underscores, and are read back for
every codepoint and with anything behind them (`written_read_back`).
-/

namespace Intent.Old

/-! ### The documented sequences -/

/-- The digits of an escape sequence: a fixed number of them. -/
structure EscapeDigits where
  base : ℕ
  digit : UInt8 → Option ℕ
  count : ℕ

/-- The digits behind `x`, `u` and `U`. -/
def EscapeDigits.hex (count : ℕ) : EscapeDigits := ⟨16, hexDigit, count⟩

/-- The digits of an octal sequence. -/
def EscapeDigits.octal : EscapeDigits := ⟨8, digitBelow 8, 3⟩

namespace EscapeDigits

/-- The number that the digits at the beginning of a text denote. -/
def value (d : EscapeDigits) (s : Text) : ℕ :=
  numeral d.base ((s.take d.count).filterMap d.digit)

/-- The text begins with the digits of a codepoint. -/
def Documented (d : EscapeDigits) (s : Text) : Prop :=
  (s.take d.count).length = d.count ∧ (∀ c ∈ s.take d.count, (d.digit c).isSome = true) ∧
    d.value s ≤ maxUnicodeChar

/-- The text begins with what the scanners take for the digits of a codepoint. -/
def Accepted (d : EscapeDigits) (s : Text) : Prop :=
  (s.take d.count).length = d.count ∧
    (∀ c ∈ s.take d.count, (d.digit c).isSome = true ∨ c = ch '_') ∧ d.value s ≤ maxUnicodeChar

instance (d : EscapeDigits) (s : Text) : Decidable (d.Documented s) :=
  inferInstanceAs (Decidable (_ ∧ _ ∧ _))

/-- The codepoint and the length of a sequence, if the digits are there; `k` characters come
before them. -/
def read (d : EscapeDigits) (k : ℕ) (s : Text) : Option (ℕ × ℕ) :=
  if d.Documented s then some (d.value s, k + d.count) else none

end EscapeDigits

/-- The escape sequence at the beginning of a text: its codepoint and its length. -/
def documented : Text → Option (ℕ × ℕ)
  | [] => none
  | c :: cs =>
    if c = ch 'x' then (EscapeDigits.hex 2).read 1 cs
    else if c = ch 'u' then (EscapeDigits.hex 4).read 1 cs
    else if c = ch 'U' then (EscapeDigits.hex 8).read 1 cs
    else if c = ch '\\' ∨ c = ch '"' ∨ c = ch '\'' then some (c.toNat, 1)
    else
      match oneCharEscapes.lookup c with
      | some cp => some (cp, 1)
      | none => EscapeDigits.octal.read 0 (c :: cs)

/-- The first character of an octal sequence. -/
def startsOctal (s : Text) : Bool := s.head?.any fun c => ch '0' ≤ c ∧ c ≤ ch '7'

/-- What the documentation promises for the sequence at `p`: the codepoint with the address after
the sequence, or a replacement character with the address after the first character, which is not
skipped where it is an octal digit. -/
def expectedEscape (v : View) (p : ℕ) : ℕ × ℕ :=
  match documented (v.text.drop p) with
  | some (cp, n) => (cp, p + n)
  | none => (unicodeReplacementChar, if startsOctal (v.text.drop p) then p else p + 1)

/-- The digits, with an underscore among them. -/
def EscapeDigits.HasUnderscore (d : EscapeDigits) (s : Text) : Prop :=
  d.Accepted s ∧ ch '_' ∈ s.take d.count

/-- The text begins with an escape sequence that has underscores in the place of digits. -/
def AcceptsUnderscore : Text → Prop
  | [] => False
  | c :: cs =>
    if c = ch 'x' then (EscapeDigits.hex 2).HasUnderscore cs
    else if c = ch 'u' then (EscapeDigits.hex 4).HasUnderscore cs
    else if c = ch 'U' then (EscapeDigits.hex 8).HasUnderscore cs
    else startsOctal (c :: cs) ∧ EscapeDigits.octal.HasUnderscore (c :: cs)

/-! ### Digits in a window -/

theorem numeral_lt {base : ℕ} (hbase : 1 < base) {digits : List ℕ} (h : ∀ d ∈ digits, d < base) :
    numeral base digits < base ^ digits.length := ofDigits_reverse_lt hbase h

theorem hexDigit_lt {c : UInt8} {x : ℕ} (h : hexDigit c = some x) : x < 16 := by
  have key : ∀ n : Fin 256, ∀ x ∈ hexDigit (UInt8.ofNat n), x < 16 := by
    decide +kernel
  refine key ⟨c.toNat, c.toNat_lt⟩ x ?_
  rw [UInt8.ofNat_toNat, h]
  rfl

theorem digitBelow_lt {base : ℕ} {c : UInt8} {x : ℕ} (h : digitBelow base c = some x) :
    x < base := by
  rw [digitBelow] at h
  split_ifs at h with hc
  exact Option.some.inj h ▸ hc.2

theorem octalDigit_iff {c : UInt8} :
    (digitBelow 8 c).isSome = true ↔ ch '0' ≤ c ∧ c ≤ ch '7' := by
  have key : ∀ n : Fin 256, (digitBelow 8 (UInt8.ofNat n)).isSome = true ↔
      ch '0' ≤ UInt8.ofNat n ∧ UInt8.ofNat n ≤ ch '7' := by
    decide +kernel
  have := key ⟨c.toNat, c.toNat_lt⟩
  rwa [UInt8.ofNat_toNat] at this

theorem octal_lookup {c : UInt8} (h : ch '0' ≤ c ∧ c ≤ ch '7') :
    ¬ (c = ch '\\' ∨ c = ch '"' ∨ c = ch '\'') ∧ oneCharEscapes.lookup c = none := by
  have key : ∀ n : Fin 256, ch '0' ≤ UInt8.ofNat n ∧ UInt8.ofNat n ≤ ch '7' →
      ¬ (UInt8.ofNat n = ch '\\' ∨ UInt8.ofNat n = ch '"' ∨ UInt8.ofNat n = ch '\'') ∧
        oneCharEscapes.lookup (UInt8.ofNat n) = none := by
    decide +kernel
  have := key ⟨c.toNat, c.toNat_lt⟩
  rw [UInt8.ofNat_toNat] at this
  exact this h

/-- A run of digits fills the text if all of it is digits and underscores. -/
theorem digitRun_full_iff {digit : UInt8 → Option ℕ} {w : Text} :
    (digitRun digit w).2 = w.length ↔ ∀ c ∈ w, (digit c).isSome = true ∨ c = ch '_' := by
  induction w with
  | nil => simp [digitRun]
  | cons c w ih =>
    rw [List.forall_mem_cons, ← ih, digitRun]
    cases hdigit : digit c with
    | some d => simp
    | none => by_cases hc : c = ch '_' <;> simp [hc]

namespace EscapeDigits

variable {d : EscapeDigits} {v : View} {q : ℕ}

/-- What the three kinds of digits have in common: their values fit 32 bits, and only eight of them
can denote more than `MAX_UNICODE_CHAR`. -/
structure Regular (d : EscapeDigits) : Prop where
  count_pos : 0 < d.count
  base_gt : 1 < d.base
  digit_lt : ∀ c x, d.digit c = some x → x < d.base
  nul : d.digit 0 = none
  underscore : d.digit (ch '_') = none
  fits : d.base ^ d.count ≤ 2 ^ 32
  small : d.count ≠ 8 → d.base ^ d.count ≤ maxUnicodeChar + 1

theorem hex_regular {count : ℕ} (h : count = 2 ∨ count = 4 ∨ count = 8) :
    (hex count).Regular where
  count_pos := by
    show 0 < count
    omega
  base_gt := show 1 < 16 by decide
  digit_lt _ _ := hexDigit_lt
  nul := rfl
  underscore := rfl
  fits := by
    rcases h with rfl | rfl | rfl <;> decide
  small h8 := by
    rcases h with rfl | rfl | rfl
    · decide
    · decide
    · exact absurd rfl h8

theorem octal_regular : octal.Regular where
  count_pos := by decide
  base_gt := by decide
  digit_lt _ _ := digitBelow_lt
  nul := rfl
  underscore := rfl
  fits := by decide
  small _ := by decide

theorem value_lt (hd : d.Regular) (s : Text) : d.value s < d.base ^ d.count := by
  have hdigits : ∀ x ∈ (s.take d.count).filterMap d.digit, x < d.base := by
    intro x hx
    obtain ⟨c, -, hc⟩ := List.mem_filterMap.mp hx
    exact hd.digit_lt c x hc
  refine (numeral_lt hd.base_gt hdigits).trans_le
    (Nat.pow_le_pow_right (Nat.zero_lt_of_lt hd.base_gt) ?_)
  exact (List.length_filterMap_le _ _).trans (List.length_take_le _ _)

/-- The bytes of a window are those of the text, or one of them is the NUL behind it. -/
theorem window_cases (hv : v.Terminated) (hq : q ≤ v.text.length) (count : ℕ) :
    ((List.range count).map fun i => v.byte (q + i)) = (v.text.drop q).take count ∧
        ((v.text.drop q).take count).length = count ∨
      0 ∈ ((List.range count).map fun i => v.byte (q + i)) ∧
        ((v.text.drop q).take count).length ≠ count := by
  rcases Nat.lt_or_ge (v.text.length - q) count with hlt | hge
  · refine .inr ⟨?_, ?_⟩
    · refine List.mem_map.mpr ⟨v.text.length - q, List.mem_range.mpr hlt, ?_⟩
      rw [Nat.add_sub_cancel' hq, View.byte, List.getElem?_eq_none le_rfl, Nat.sub_self]
      exact hv
    · rw [List.length_take, List.length_drop]
      omega
  · have hlen : ((v.text.drop q).take count).length = count := by
      rw [List.length_take, List.length_drop]
      omega
    have hwindow := @window_of_drop v q ((v.text.drop q).drop count) ((v.text.drop q).take count)
      (List.take_append_drop count _).symm
    rw [hlen] at hwindow
    exact .inl ⟨hwindow, hlen⟩

/-- **The digits of an escape sequence** are read wherever the scanners get through the window. -/
theorem scanEscapeDigits_cases (hd : d.Regular) (hv : v.Terminated) (hq : q ≤ v.text.length) :
    d.Accepted (v.text.drop q) ∧ scanEscapeDigits v (scanDigits d.base d.digit) q d.count =
        (d.value (v.text.drop q), q + d.count) ∨
      ¬ d.Accepted (v.text.drop q) ∧ scanEscapeDigits v (scanDigits d.base d.digit) q d.count =
        (unicodeReplacementChar, q) := by
  rw [scanEscapeDigits]
  rcases window_cases hv hq d.count with ⟨hwindow, hlen⟩ | ⟨hnul, hlen⟩
  · rw [hwindow]
    have hfull := @digitRun_full_iff d.digit ((v.text.drop q).take d.count)
    rw [hlen] at hfull
    by_cases hall : ∀ c ∈ (v.text.drop q).take d.count, (d.digit c).isSome = true ∨ c = ch '_'
    · -- the number of the digits fits the types
      have hlt := value_lt hd (v.text.drop q)
      have hfits := hd.fits
      have hends : EndsDigits d.digit [] := fun c hc => absurd hc (by simp)
      have hrun := scanDigits_append d.base hall hends
      rw [List.append_nil] at hrun
      have hnat : (scanDigits d.base d.digit ((v.text.drop q).take d.count)).1.toNat =
          d.value (v.text.drop q) := by
        rw [hrun.1]
        exact Nat.mod_eq_of_lt (lt_of_lt_of_le hlt (hfits.trans (by decide)))
      rw [hnat, hrun.2, hlen, Nat.mod_eq_of_lt (hlt.trans_le hfits)]
      by_cases hmax : d.value (v.text.drop q) ≤ maxUnicodeChar
      · rw [if_pos ⟨rfl, fun hbig => absurd hbig.2 (by omega)⟩]
        exact .inl ⟨⟨hlen, hall, hmax⟩, rfl⟩
      · -- only eight digits go beyond the codepoints
        have h8 : d.count = 8 := by
          by_contra hne
          have := hd.small hne
          omega
        rw [if_neg fun hok => hok.2 ⟨h8, by omega⟩]
        exact .inr ⟨fun hacc => hmax hacc.2.2, rfl⟩
    · rw [if_neg fun hok => hall (hfull.mp hok.1)]
      exact .inr ⟨fun hacc => hall hacc.2.1, rfl⟩
  · -- the scanners stop at the NUL
    have hstop : (scanDigits d.base d.digit
        ((List.range d.count).map fun i => v.byte (q + i))).2 ≠ d.count := by
      intro heq
      have hfull := @digitRun_full_iff d.digit ((List.range d.count).map fun i => v.byte (q + i))
      rw [List.length_map, List.length_range] at hfull
      have h0 := hfull.mp heq 0 hnul
      rw [hd.nul] at h0
      exact absurd h0 (by decide)
    rw [if_neg fun hok => hstop hok.1]
    exact .inr ⟨fun hacc => hlen hacc.1, rfl⟩

theorem documented_iff (hd : d.Regular) (s : Text) :
    d.Documented s ↔ d.Accepted s ∧ ch '_' ∉ s.take d.count := by
  constructor
  · rintro ⟨hlen, hall, hmax⟩
    refine ⟨⟨hlen, fun c hc => .inl (hall c hc), hmax⟩, fun hmem => ?_⟩
    have := hall _ hmem
    rw [hd.underscore] at this
    exact absurd this (by decide)
  · rintro ⟨⟨hlen, hall, hmax⟩, hno⟩
    exact ⟨hlen, fun c hc => (hall c hc).resolve_right fun heq => hno (heq ▸ hc), hmax⟩

/-- Where a sequence ends in digits, an underscore is what can go wrong. -/
theorem scan_iff (hd : d.Regular) (hv : v.Terminated) (hq : q ≤ v.text.length) {p k : ℕ}
    (hk : p + k = q) :
    (scanEscapeDigits v (scanDigits d.base d.digit) q d.count =
      match d.read k (v.text.drop q) with
      | some (cp, n) => (cp, p + n)
      | none => (unicodeReplacementChar, q)) ↔ ¬ d.HasUnderscore (v.text.drop q) := by
  have hdoc := documented_iff hd (v.text.drop q)
  rw [read, HasUnderscore]
  rcases scanEscapeDigits_cases hd hv hq with ⟨hacc, hscan⟩ | ⟨hacc, hscan⟩
  · rw [hscan]
    by_cases hmem : ch '_' ∈ (v.text.drop q).take d.count
    · -- the code goes behind the digits
      rw [if_neg fun h => (hdoc.mp h).2 hmem]
      have hpos := hd.count_pos
      refine iff_of_false (fun heq => ?_) (not_not_intro ⟨hacc, hmem⟩)
      have hstop : q + d.count = q := congrArg Prod.snd heq
      omega
    · rw [if_pos (hdoc.mpr ⟨hacc, hmem⟩)]
      refine iff_of_true (Prod.ext rfl ?_) fun h => hmem h.2
      show q + d.count = p + (k + d.count)
      omega
  · rw [hscan, if_neg fun h => hacc (hdoc.mp h).1]
    exact iff_of_true rfl fun h => hacc h.1

end EscapeDigits

/-! ### Where the code differs -/

section Scan

variable {v : View} {p : ℕ}

/-- The branches that need no digits. -/
theorem scan_of_lookup {c : UInt8} {cs : Text} (h : v.text.drop p = c :: cs)
    (hx : c ≠ ch 'x') (hu : c ≠ ch 'u') (hU : c ≠ ch 'U')
    (hself : ¬ (c = ch '\\' ∨ c = ch '"' ∨ c = ch '\'')) (hoct : ¬ startsOctal (c :: cs)) :
    scanUnicodeEscapeSequence v p = expectedEscape v p := by
  have hrange : ¬ (ch '0' ≤ c ∧ c ≤ ch '7') := fun h => hoct (decide_eq_true h)
  have hread : EscapeDigits.octal.read 0 (c :: cs) = none := by
    refine if_neg fun hdoc => ?_
    have hc : (digitBelow 8 c).isSome = true := hdoc.2.1 c List.mem_cons_self
    exact hrange (octalDigit_iff.mp hc)
  rw [scanUnicodeEscapeSequence, expectedEscape, h, documented, byte_of_drop h]
  simp only [if_neg hx, if_neg hu, if_neg hU, if_neg hself, if_neg hrange, hread, if_neg hoct]
  cases oneCharEscapes.lookup c <;> rfl

theorem expectedEscape_of_digits {c : UInt8} {cs : Text} {d : EscapeDigits} {k q : ℕ}
    (h : v.text.drop p = c :: cs) (hdoc : documented (c :: cs) = d.read k (v.text.drop q))
    (hq : (if startsOctal (c :: cs) then p else p + 1) = q) :
    expectedEscape v p =
      match d.read k (v.text.drop q) with
      | some (cp, n) => (cp, p + n)
      | none => (unicodeReplacementChar, q) := by
  rw [expectedEscape, h, hdoc, hq]

/-- The sequences of hexadecimal digits. -/
theorem scan_hex_iff {c : UInt8} {cs : Text} {count : ℕ} (hv : v.Terminated)
    (h : v.text.drop p = c :: cs) (hcount : count = 2 ∨ count = 4 ∨ count = 8)
    (hscan : scanUnicodeEscapeSequence v p = scanEscapeDigits v scanHexDigits (p + 1) count)
    (hdoc : documented (c :: cs) = (EscapeDigits.hex count).read 1 cs)
    (hoct : ¬ startsOctal (c :: cs))
    (hacc : AcceptsUnderscore (c :: cs) ↔ (EscapeDigits.hex count).HasUnderscore cs) :
    scanUnicodeEscapeSequence v p = expectedEscape v p ↔ ¬ AcceptsUnderscore (c :: cs) := by
  have hcs := drop_succ_of_drop h
  have hlen : p + 1 ≤ v.text.length := by
    have := congrArg List.length h
    rw [List.length_drop, List.length_cons] at this
    omega
  subst hcs
  rw [expectedEscape_of_digits h hdoc (if_neg hoct), hscan, hacc]
  exact EscapeDigits.scan_iff (EscapeDigits.hex_regular hcount) hv hlen rfl

/-- **The documented escape sequences**: a NUL-terminated text is read as documented if and only if
it does not begin with a sequence that has underscores in the place of digits. -/
theorem scan_eq_expected_iff (hv : v.Terminated) (hp : p ≤ v.text.length) :
    scanUnicodeEscapeSequence v p = expectedEscape v p ↔ ¬ AcceptsUnderscore (v.text.drop p) := by
  cases h : v.text.drop p with
  | nil =>
    have hlen : p = v.text.length := le_antisymm hp (List.drop_eq_nil_iff.mp h)
    have hbyte : v.byte p = 0 := by
      rw [View.byte, hlen, List.getElem?_eq_none le_rfl, Nat.sub_self]
      exact hv
    refine iff_of_true ?_ id
    rw [scanUnicodeEscapeSequence, hbyte, expectedEscape, h]
    rfl
  | cons c cs =>
    by_cases hx : c = ch 'x'
    · subst hx
      exact scan_hex_iff hv h (.inl rfl) (by rw [scanUnicodeEscapeSequence, byte_of_drop h]; rfl)
        rfl Bool.false_ne_true Iff.rfl
    by_cases hu : c = ch 'u'
    · subst hu
      exact scan_hex_iff hv h (.inr (.inl rfl))
        (by rw [scanUnicodeEscapeSequence, byte_of_drop h]; rfl) rfl Bool.false_ne_true Iff.rfl
    by_cases hU : c = ch 'U'
    · subst hU
      exact scan_hex_iff hv h (.inr (.inr rfl))
        (by rw [scanUnicodeEscapeSequence, byte_of_drop h]; rfl) rfl Bool.false_ne_true Iff.rfl
    -- none of the letters: an octal sequence, or a single character
    have hacc : AcceptsUnderscore (c :: cs) ↔
        startsOctal (c :: cs) ∧ EscapeDigits.octal.HasUnderscore (c :: cs) := by
      rw [AcceptsUnderscore, if_neg hx, if_neg hu, if_neg hU]
    by_cases hoct : startsOctal (c :: cs) = true
    · obtain ⟨hself, hlookup⟩ := octal_lookup (of_decide_eq_true hoct)
      have hdoc : documented (c :: cs) = EscapeDigits.octal.read 0 (v.text.drop p) := by
        rw [documented, if_neg hx, if_neg hu, if_neg hU, if_neg hself, hlookup, h]
      have hscan : scanUnicodeEscapeSequence v p = scanEscapeDigits v scanOctalDigits p 3 := by
        rw [scanUnicodeEscapeSequence, byte_of_drop h]
        simp only [if_neg hx, if_neg hu, if_neg hU, if_neg hself,
          if_pos (show ch '0' ≤ c ∧ c ≤ ch '7' from of_decide_eq_true hoct)]
      have hiff := EscapeDigits.scan_iff EscapeDigits.octal_regular hv hp (Nat.add_zero p)
      rw [hacc, expectedEscape_of_digits h hdoc (if_pos hoct), hscan, and_iff_right hoct]
      rwa [h] at hiff ⊢
    · refine iff_of_true ?_ fun h' => hoct (hacc.mp h').1
      by_cases hself : c = ch '\\' ∨ c = ch '"' ∨ c = ch '\''
      · rw [scanUnicodeEscapeSequence, expectedEscape, h, documented, byte_of_drop h]
        simp only [if_neg hx, if_neg hu, if_neg hU, if_pos hself]
      · exact scan_of_lookup h hx hu hU hself hoct

end Scan

/-- The two digits of `\x41` are read as documented. -/
theorem scan_eq_expected_x41 : View.Terminated ⟨bytes ['x', '4', '1'], fun _ => 0⟩ ∧
    scanUnicodeEscapeSequence ⟨bytes ['x', '4', '1'], fun _ => 0⟩ 0 =
      expectedEscape ⟨bytes ['x', '4', '1'], fun _ => 0⟩ 0 :=
  have hno : ¬ AcceptsUnderscore (bytes ['x', '4', '1']) := fun h => absurd h.2 (by decide)
  ⟨rfl, (scan_eq_expected_iff (v := ⟨bytes ['x', '4', '1'], fun _ => 0⟩) (p := 0) rfl
    (Nat.zero_le _)).mpr hno⟩

/-- `x_4` is read as the codepoint 4, and there is no such escape sequence. -/
theorem scan_x_underscore :
    scanUnicodeEscapeSequence ⟨bytes ['x', '_', '4'], fun _ => 0⟩ 0 = (4, 3) ∧
      expectedEscape ⟨bytes ['x', '_', '4'], fun _ => 0⟩ 0 = (unicodeReplacementChar, 1) := by
  decide

/-! ### What is written is read back -/

theorem written_cases (cp : ℕ) : written cp = [UInt8.ofNat cp] ∧ cp < 0x80 ∧ cp ≠ 0x5C ∨
    (written cp).head? = some (ch '\\') := by
  unfold written escaped
  split_ifs with h₀ h₁ h₂ h₃ h₄
  · exact .inr rfl
  · refine .inr ?_
    cases oneCharEscapeOf cp <;> rfl
  · exact .inr rfl
  · exact .inr rfl
  · exact .inl ⟨rfl, h₁, fun h => h₃ (.inl h)⟩
  · exact .inr rfl
  · exact .inr rfl

theorem scan_written {cp : ℕ} (hcp : cp ≤ maxUnicodeChar)
    (hesc : (written cp).head? = some (ch '\\')) (r : Text) (beyond : ℕ → UInt8) :
    scanUnicodeEscapeSequence ⟨written cp ++ r, beyond⟩ 1 = (cp, (written cp).length) := by
  by_cases hzero : cp = 0
  · subst hzero
    have hdrop : (written 0 ++ r).drop 1 = ch 'x' :: (hexChars 2 0 ++ r) := rfl
    exact scan_x hdrop (by decide)
  · have hwritten : written cp = escaped cp := if_neg hzero
    rw [hwritten] at hesc ⊢
    have hscan := @scan_escaped ⟨escaped cp ++ r, beyond⟩ 0 cp r ⟨Nat.pos_of_ne_zero hzero, hcp⟩
      rfl hesc
    rwa [Nat.zero_add, Nat.zero_add] at hscan

/-- **Escape sequences decode uniquely**: what is written for a codepoint is its one byte, or an
escape sequence that is read back whatever comes behind it. -/
theorem written_read_back {b : Buffer} {p cp : ℕ} (hp : b.buf = some p)
    (hmem : p + b.bufLength ≤ b.memory.length) (hroom : roomFor cp ≤ b.bufLength)
    (hcp : cp ≤ maxUnicodeChar) :
    (b.addUtf8OrEscapeSequence cp).1 = true ∧ ∃ w, b.Writes w (b.addUtf8OrEscapeSequence cp).2 ∧
      (w = [UInt8.ofNat cp] ∧ cp < 0x80 ∧ cp ≠ 0x5C ∨
        w.head? = some (ch '\\') ∧ ∀ (r : Text) (beyond : ℕ → UInt8),
          scanUnicodeEscapeSequence ⟨w ++ r, beyond⟩ 1 = (cp, w.length)) := by
  obtain ⟨htrue, hwrites, -⟩ :=
    Buffer.addUtf8OrEscapeSequence_written hp hroom ((Nat.add_le_add_left hroom p).trans hmem)
  refine ⟨htrue, written cp, hwrites, ?_⟩
  rcases written_cases cp with hbyte | hesc
  · exact .inl hbyte
  · exact .inr ⟨hesc, scan_written hcp hesc⟩

/-- A line break is written as `\n`. -/
theorem written_read_back_lineBreak :
    (Buffer.addUtf8OrEscapeSequence ⟨[0, 0, 0], some 0, 3⟩ 0x0A).1 = true ∧
      ∃ w, Buffer.Writes ⟨[0, 0, 0], some 0, 3⟩ w
        (Buffer.addUtf8OrEscapeSequence ⟨[0, 0, 0], some 0, 3⟩ 0x0A).2 ∧
      (w = [UInt8.ofNat 0x0A] ∧ 0x0A < 0x80 ∧ 0x0A ≠ 0x5C ∨
        w.head? = some (ch '\\') ∧ ∀ (r : Text) (beyond : ℕ → UInt8),
          scanUnicodeEscapeSequence ⟨w ++ r, beyond⟩ 1 = (0x0A, w.length)) :=
  written_read_back rfl (by decide) (by decide) (by decide)

end Intent.Old
