import Intent.Library.Bootstring
import Intent.Old.Lexer
import Mathlib.Data.List.InsertIdx

/-!
# Punycode

The code points of a text are `punycode_uint`s, unsigned integers of 32 bits. The encoder writes
the basic ones, a delimiter, and then a number for each of the others. The decoder takes what is
before the last delimiter as it stands, and inserts a code point for each number that follows.

An array and its length are a list here. The room for the output, the in-value of `output_length`,
is a natural number, since it is only compared with the length of what is written.
-/

namespace Intent.Old.Punycode

/-- `punycode_uint`. -/
abbrev PunycodeUint := UInt32

/-- The values of `punycode_status` other than `punycode_success`. -/
inductive PunycodeStatus where
  | badInput
  | bigOutput
  | overflow
  deriving DecidableEq, Repr

/-! ### The parameters -/

/-- `base`. -/
abbrev base : PunycodeUint := 36
/-- `tmin`. -/
abbrev tmin : PunycodeUint := 1
/-- `tmax`. -/
abbrev tmax : PunycodeUint := 26
/-- `skew`. -/
abbrev skew : PunycodeUint := 38
/-- `damp`. -/
abbrev damp : PunycodeUint := 700
/-- `initial_bias`. -/
abbrev initialBias : PunycodeUint := 72
/-- `initial_n`. -/
abbrev initialN : PunycodeUint := 0x80
/-- `delimiter`. -/
abbrev delimiter : UInt8 := 0x2D
/-- `maxint`. -/
abbrev maxint : PunycodeUint := 0xFFFFFFFF

/-! ### Digits and letters -/

/-- A `char` as a `punycode_uint`. The sign of a `char` is extended. -/
def charUint (c : UInt8) : PunycodeUint :=
  if c < 0x80 then c.toUInt32 else c.toUInt32 - 0x100

/-- `basic`. -/
def basic (cp : PunycodeUint) : Bool := cp < 0x80

/-- `decode_digit`. -/
def decodeDigit (cp : PunycodeUint) : PunycodeUint :=
  if cp - 48 < 10 then cp - 22 else if cp - 65 < 26 then cp - 65
  else if cp - 97 < 26 then cp - 97 else base

/-- A truth value, shifted to the bit that differs in the two cases of a letter. -/
def shl5 (flag : Bool) : PunycodeUint := flag.toUInt32 <<< (5 : PunycodeUint)

/-- `encode_digit`. -/
def encodeDigit (d : PunycodeUint) (flag : Bool) : UInt8 :=
  (d + 22 + 75 * (decide (d < 26)).toUInt32 - shl5 flag).toUInt8

/-- `flagged`. -/
def flagged (bcp : PunycodeUint) : Bool := bcp - 65 < 26

/-- `encode_basic`. -/
def encodeBasic (bcp : PunycodeUint) (flag : Bool) : UInt8 :=
  let bcp := bcp - shl5 (bcp - 97 < 26)
  (bcp + shl5 (!flag && bcp - 65 < 26)).toUInt8

/-! ### The bias -/

/-- The loop of `adapt`, and the result that is computed from what it leaves. -/
def adaptLoop (k delta : PunycodeUint) : PunycodeUint :=
  if delta > ((base - tmin) * tmax) / 2 then adaptLoop (k + base) (delta / (base - tmin))
  else k + (base - tmin + 1) * delta / (delta + skew)
termination_by delta.toNat
decreasing_by
  rename_i h
  have hlt : ((base - tmin) * tmax / 2).toNat < delta.toNat := UInt32.lt_iff_toNat_lt.mp h
  rw [UInt32.toNat_div]
  exact Nat.div_lt_self (by omega) (by decide)

/-- `adapt`. -/
def adapt (delta numpoints : PunycodeUint) (firsttime : Bool) : PunycodeUint :=
  let delta := if firsttime then delta / damp else delta >>> 1
  let delta := delta + delta / numpoints
  adaptLoop 0 delta

/-- The threshold `t` of the digit with the offset `k`. -/
def threshold (k bias : PunycodeUint) : PunycodeUint :=
  if k ≤ bias then tmin else if k ≥ bias + tmax then tmax else k - bias

theorem threshold_bounds (k bias : PunycodeUint) :
    1 ≤ threshold k bias ∧ threshold k bias ≤ 26 := by
  unfold threshold
  grind

/-! ### The encoder -/

/-- The arguments of `punycode_encode`: the code points, and a flag for each of them unless the
pointer to the flags is null. -/
structure EncodeInput where
  input : List PunycodeUint
  caseFlags : Option (List UInt8)
  length_lt : input.length < 2 ^ 32
  length_caseFlags : ∀ flags ∈ caseFlags, flags.length = input.length

/-- Every code point with `case_flags && case_flags[j]`. -/
def EncodeInput.points (x : EncodeInput) : List (PunycodeUint × Bool) :=
  match x.caseFlags with
  | none => x.input.map fun c => (c, false)
  | some flags => x.input.zip (flags.map (· ≠ 0))

/-- The loop over the basic code points. -/
def copyBasic (useFlags : Bool) (maxOut : ℕ) :
    List (PunycodeUint × Bool) → Text → Except PunycodeStatus Text
  | [], output => .ok output
  | (c, flag) :: points, output =>
    if basic c then
      if maxOut - output.length < 2 then .error .bigOutput
      else copyBasic useFlags maxOut points
        (output ++ [if useFlags then encodeBasic c flag else c.toUInt8])
    else copyBasic useFlags maxOut points output

/-- The loop that writes a number, and the digit after it. -/
def encodeInt (maxOut : ℕ) (bias : PunycodeUint) (flag : Bool) (q k : PunycodeUint)
    (output : Text) : Except PunycodeStatus Text :=
  if output.length ≥ maxOut then .error .bigOutput
  else
    let t := threshold k bias
    if q < t then .ok (output ++ [encodeDigit q flag])
    else encodeInt maxOut bias flag ((q - t) / (base - t)) (k + base)
      (output ++ [encodeDigit (t + (q - t) % (base - t)) false])
termination_by q.toNat
decreasing_by
  rename_i h
  have ht := threshold_bounds k bias
  have hlt : t ≤ q := by simpa using h
  have h1 : t.toNat ≤ q.toNat := hlt
  have h2 : 1 ≤ t.toNat := ht.1
  rw [UInt32.toNat_div, UInt32.toNat_sub_of_le _ _ hlt]
  calc (q.toNat - t.toNat) / (base - t).toNat ≤ q.toNat - t.toNat := Nat.div_le_self _ _
    _ < q.toNat := by omega

/-- The variables of the main loop of the encoder. -/
structure EncodeState where
  n : PunycodeUint
  delta : PunycodeUint
  bias : PunycodeUint
  /-- How many code points have been handled. -/
  h : PunycodeUint
  output : Text
  deriving DecidableEq, Repr

/-- The search for the next larger code point. -/
def nextPoint (n : PunycodeUint) (points : List (PunycodeUint × Bool)) : PunycodeUint :=
  points.foldl (fun m p => if p.1 ≥ n ∧ p.1 < m then p.1 else m) maxint

/-- The loop over the code points in a round of the main loop. -/
def scanPoints (maxOut : ℕ) (b : PunycodeUint) :
    List (PunycodeUint × Bool) → EncodeState → Except PunycodeStatus EncodeState
  | [], s => .ok s
  | (c, flag) :: points, s =>
    if c < s.n ∧ s.delta + 1 = 0 then .error .overflow
    else
      let s := if c < s.n then { s with delta := s.delta + 1 } else s
      if c = s.n then
        match encodeInt maxOut s.bias flag s.delta base s.output with
        | .error e => .error e
        | .ok output =>
          scanPoints maxOut b points
            { s with
              delta := 0
              bias := adapt s.delta (s.h + 1) (s.h = b)
              h := s.h + 1
              output := output }
      else scanPoints maxOut b points s

/-- A round of the main loop of the encoder. -/
def encodeRound (points : List (PunycodeUint × Bool)) (maxOut : ℕ) (b : PunycodeUint)
    (s : EncodeState) : Except PunycodeStatus EncodeState :=
  let m := nextPoint s.n points
  if m - s.n > (maxint - s.delta) / (s.h + 1) then .error .overflow
  else
    match scanPoints maxOut b points
        { s with n := m, delta := s.delta + (m - s.n) * (s.h + 1) } with
    | .error e => .error e
    | .ok s => .ok { s with delta := s.delta + 1, n := s.n + 1 }

/-- A `while` loop with a bound on the number of its rounds. A round can return from the function
with an error. -/
def whileRounds {σ ε : Type} (live : σ → Bool) (round : σ → Except ε σ) :
    ℕ → σ → Option (Except ε σ)
  | 0, s => if live s then none else some (.ok s)
  | fuel + 1, s =>
    if live s then
      match round s with
      | .error e => some (.error e)
      | .ok s => whileRounds live round fuel s
    else some (.ok s)

section WhileRounds

variable {σ ε : Type} {live : σ → Bool} {round : σ → Except ε σ} {s s' : σ} {e : ε}

theorem whileRounds_of_not_live (h : ¬ live s) (fuel : ℕ) :
    whileRounds live round fuel s = some (.ok s) := by
  cases fuel with
  | zero => rw [whileRounds, if_neg h]
  | succ fuel => rw [whileRounds, if_neg h]

theorem whileRounds_of_ok (h : live s) (hround : round s = .ok s') (fuel : ℕ) :
    whileRounds live round (fuel + 1) s = whileRounds live round fuel s' := by
  rw [whileRounds, if_pos h, hround]

theorem whileRounds_of_error (h : live s) (hround : round s = .error e) (fuel : ℕ) :
    whileRounds live round (fuel + 1) s = some (.error e) := by
  rw [whileRounds, if_pos h, hround]

end WhileRounds

/-- `h < input_length`. -/
def EncodeState.unhandled (points : List (PunycodeUint × Bool)) (s : EncodeState) : Bool :=
  s.h.toNat < points.length

/-- The main loop of the encoder. -/
def encodeRounds (points : List (PunycodeUint × Bool)) (maxOut : ℕ) (b : PunycodeUint) :
    ℕ → EncodeState → Option (Except PunycodeStatus EncodeState) :=
  whileRounds (EncodeState.unhandled points) (encodeRound points maxOut b)

/-- `punycode_encode`, with a bound on the rounds of its main loop. On success the length of the
text is the out-value of `output_length`. -/
def punycodeEncode (fuel : ℕ) (x : EncodeInput) (maxOut : ℕ) :
    Option (Except PunycodeStatus Text) :=
  match copyBasic x.caseFlags.isSome maxOut x.points [] with
  | .error e => some (.error e)
  | .ok output =>
    let b := UInt32.ofNat output.length
    let output := if b > 0 then output ++ [delimiter] else output
    (encodeRounds x.points maxOut b fuel ⟨initialN, 0, initialBias, b, output⟩).map
      (Except.map EncodeState.output)

/-! ### The decoder -/

/-- The loop that looks for the last delimiter. -/
def lastDelim : Text → (j b : ℕ) → ℕ
  | [], _, b => b
  | c :: input, j, b => lastDelim input (j + 1) (if c = delimiter then j else b)

/-- The variables of the main loop of the decoder. The flags are `none` if the pointer to them is
null. -/
structure DecodeState where
  n : PunycodeUint
  i : PunycodeUint
  bias : PunycodeUint
  output : List PunycodeUint
  caseFlags : Option (List Bool)
  deriving DecidableEq, Repr

/-- The loop over the basic code points. -/
def takeBasic : Text → DecodeState → Except PunycodeStatus DecodeState
  | [], s => .ok s
  | c :: input, s =>
    let caseFlags := s.caseFlags.map (· ++ [flagged (charUint c)])
    if ¬ basic (charUint c) then .error .badInput
    else takeBasic input { s with output := s.output ++ [charUint c], caseFlags := caseFlags }

/-- The loop that reads a number and adds it to `i`. It returns `i`, the last character read and
what follows it. -/
def decodeInt (bias : PunycodeUint) :
    Text → (i w k : PunycodeUint) → Except PunycodeStatus (PunycodeUint × UInt8 × Text)
  | [], _, _, _ => .error .badInput
  | c :: input, i, w, k =>
    let digit := decodeDigit (charUint c)
    if digit ≥ base then .error .badInput
    else if digit > (maxint - i) / w then .error .overflow
    else
      let i := i + digit * w
      let t := threshold k bias
      if digit < t then .ok (i, c, input)
      else if w > maxint / (base - t) then .error .overflow
      else decodeInt bias input i (w * (base - t)) (k + base)

/-- A round of the main loop of the decoder. -/
def decodeRound (maxOut : ℕ) (input : Text) (s : DecodeState) :
    Except PunycodeStatus (Text × DecodeState) :=
  match decodeInt s.bias input s.i 1 base with
  | .error e => .error e
  | .ok (i, c, input) =>
    let out := UInt32.ofNat s.output.length
    let bias := adapt (i - s.i) (out + 1) (s.i = 0)
    if i / (out + 1) > maxint - s.n then .error .overflow
    else
      let n := s.n + i / (out + 1)
      let i := i % (out + 1)
      if s.output.length ≥ maxOut then .error .bigOutput
      else .ok (input,
        { n := n
          i := i + 1
          bias := bias
          output := s.output.insertIdx i.toNat n
          caseFlags := s.caseFlags.map (·.insertIdx i.toNat (flagged (charUint c))) })

theorem length_of_decodeInt {bias i w k i' : PunycodeUint} {input input' : Text} {c : UInt8}
    (h : decodeInt bias input i w k = .ok (i', c, input')) : input'.length < input.length := by
  induction input generalizing i w k with
  | nil => cases h
  | cons d input ih =>
    rw [decodeInt] at h
    dsimp only at h
    split_ifs at h
    · cases h
      exact Nat.lt_succ_self _
    · exact (ih h).trans (Nat.lt_succ_self _)

theorem length_of_decodeRound {maxOut : ℕ} {input input' : Text} {s s' : DecodeState}
    (h : decodeRound maxOut input s = .ok (input', s')) : input'.length < input.length := by
  unfold decodeRound at h
  split at h
  · cases h
  · rename_i hint
    dsimp only at h
    split at h
    · cases h
    · split at h
      · cases h
      · cases h
        exact length_of_decodeInt hint

/-- The main loop of the decoder. -/
def decodeRounds (maxOut : ℕ) (input : Text) (s : DecodeState) :
    Except PunycodeStatus DecodeState :=
  if input = [] then .ok s
  else
    match _h : decodeRound maxOut input s with
    | .error e => .error e
    | .ok (input', s') => decodeRounds maxOut input' s'
termination_by input.length
decreasing_by exact length_of_decodeRound _h

/-- `punycode_decode`. -/
def punycodeDecode (input : Text) (maxOut : ℕ) (useFlags : Bool) :
    Except PunycodeStatus (List PunycodeUint × Option (List Bool)) :=
  let b := lastDelim input 0 0
  if b > maxOut then .error .bigOutput
  else
    match takeBasic (input.take b)
        ⟨initialN, 0, initialBias, [], if useFlags then some [] else none⟩ with
    | .error e => .error e
    | .ok s =>
      (decodeRounds maxOut (input.drop (if b > 0 then b + 1 else 0)) s).map
        fun s => (s.output, s.caseFlags)

end Intent.Old.Punycode
