import Intent.Old.Cmdline
import Intent.Old.NumericLiteral

/-!
# Numbers in a range

`in_numeric_range` of `core/cli/cmdline_validators.cpp` validates an argument of a command line by
`scan_number`. Arithmetic with `double`s is exact here, as in `scanNumber`.

A number is valid if `scan_number` moves its pointer to the end of the value, and its magnitude,
with the sign that is left to the caller, is in the range. The whole number is cast to `int64_t`
first, so that a great magnitude changes its sign (`compared_whole`, `int64Of_eq_iff`), and the
change of the sign of `-2 ^ 63` is undefined.
-/

namespace Intent.Old

/-! ### The function -/

namespace Cli

/-- `numeric_range_info`, for a range that is not empty. -/
structure NumericRangeInfo where
  min : ℚ
  max : ℚ
  allowedFormats : NumericFormats
  min_le_max : min ≤ max

/-- The formats in the order in which `get_names_for_numeric_formats` comes to them. -/
def formatNames : List (NumericFormats × Text) :=
  [(.decimal, bytes ['d', 'e', 'c', 'i', 'm', 'a', 'l']), (.octal, bytes ['o', 'c', 't', 'a', 'l']),
    (.hex, bytes ['h', 'e', 'x']), (.binary, bytes ['b', 'i', 'n', 'a', 'r', 'y']),
    (.floatingPointOnly, bytes ['f', 'l', 'o', 'a', 't'])]

/-- `get_names_for_numeric_formats`. -/
def getNamesForNumericFormats (f : NumericFormats) (delim : Text) : Text :=
  delim.intercalate ((formatNames.filter fun r => f &&& r.1 ≠ 0).map Prod.snd)

/-- `MSG`. -/
def rangeMessage : Text :=
  bytes "Error with {1}=\"{2}\": expected a value between ".toList ++
    bytes "{3=min} and {4=max} (inclusive), formatted as {5}.".toList

end Cli

/-- The number that is compared to the range; a whole number becomes an `int64_t` first. There is
none where `n *= -1` overflows, which is undefined. -/
def NumberInfo.compared (info : NumberInfo) : Option ℚ :=
  match info.value with
  | .floatingPoint x => some x
  | .wholeNumber whole =>
    let n := whole.toInt64
    if info.negative then
      if n = Int64.minValue then none else some ((n * -1).toInt : ℤ)
    else some (n.toInt : ℤ)

/-- A whole number with its sign, in an `int64_t`, if it does not overflow. -/
def int64Of (sign : Sign) (k : ℕ) : Option ℤ :=
  let n := (k : ℤ).bmod (2 ^ 64)
  if sign = .minus then if n = -2 ^ 63 then none else some (-n) else some n

/-- A whole number is compared as it is kept. -/
theorem compared_whole (format : NumericFormats) (sign : Sign) (k : ℕ) :
    NumberInfo.compared ⟨format, .wholeNumber (UInt64.ofNat k), decide (sign = .minus)⟩ =
      (int64Of sign k).map Int.cast := by
  have hn : (UInt64.ofNat k).toInt64.toInt = (k : ℤ).bmod (2 ^ 64) := by
    change BitVec.toInt _ = _
    rw [BitVec.toInt_eq_toNat_bmod]
    change ((UInt64.ofNat k).toNat : ℤ).bmod (2 ^ 64) = _
    rw [UInt64.toNat_ofNat', Int.natCast_mod]
    exact Int.emod_bmod k (2 ^ 64)
  have hone : (-1 : Int64).toInt = -1 := by decide
  have hmin : (UInt64.ofNat k).toInt64 = Int64.minValue ↔ (k : ℤ).bmod (2 ^ 64) = -2 ^ 63 := by
    rw [← Int64.toInt_inj, hn]
    exact Iff.rfl
  simp only [NumberInfo.compared, int64Of, decide_eq_true_eq, hmin]
  split_ifs with hsign hoverflow
  · rfl
  · have hneg : (-(k : ℤ).bmod (2 ^ 64)).bmod (2 ^ 64) = -(k : ℤ).bmod (2 ^ 64) := by
      have hrange := (UInt64.ofNat k).toInt64.toInt_lt
      rw [hn] at hrange
      have hrange' := (UInt64.ofNat k).toInt64.le_toInt
      rw [hn] at hrange'
      refine Int.bmod_eq_of_le ?_ ?_ <;> omega
    rw [Int64.toInt_mul, hn, hone, Int.mul_neg_one, hneg]
    rfl
  · rw [hn]
    rfl

/-- Nothing is added to a whole number. -/
theorem le_of_int64Of {sign : Sign} {k l : ℕ}
    (h : (int64Of sign k).map (Int.cast : ℤ → ℚ) = some (sign.apply l)) : l ≤ k := by
  have hle : (k : ℤ).bmod (2 ^ 64) ≤ k := by
    simp only [Int.bmod]
    omega
  have hcast : (l : ℚ) = ((l : ℤ) : ℚ) := (Int.cast_natCast l).symm
  simp only [int64Of, Sign.apply] at h
  split_ifs at h with hsign hoverflow
  · cases h
  · rw [Option.map_some, Option.some.injEq, hcast, ← Int.cast_neg, Int.cast_inj] at h
    omega
  · rw [Option.map_some, Option.some.injEq, hcast, Int.cast_inj] at h
    omega

/-- A whole number is compared as itself if and only if it is below `2 ^ 63`. -/
theorem int64Of_eq_iff {sign : Sign} {k : ℕ} :
    (int64Of sign k).map (Int.cast : ℤ → ℚ) = some (sign.apply k) ↔ k < 2 ^ 63 := by
  have hn : (k : ℤ).bmod (2 ^ 64) = k ↔ k < 2 ^ 63 := by
    simp only [Int.bmod]
    omega
  have hcast : (k : ℚ) = ((k : ℤ) : ℚ) := (Int.cast_natCast k).symm
  simp only [int64Of, Sign.apply]
  split_ifs with hsign hoverflow
  · refine iff_of_false (fun h => by cases h) ?_
    rw [← hn]
    omega
  · rw [Option.map_some, Option.some.injEq, hcast, ← Int.cast_neg, Int.cast_inj, neg_inj, hn]
  · rw [Option.map_some, Option.some.injEq, hcast, Int.cast_inj, hn]

namespace Cli

/-- A number is in the range. -/
def NumericRangeInfo.Contains (nri : NumericRangeInfo) (x : ℚ) : Prop := nri.min ≤ x ∧ x ≤ nri.max

instance (nri : NumericRangeInfo) (x : ℚ) : Decidable (nri.Contains x) :=
  inferInstanceAs (Decidable (_ ∧ _))

/-- `valid`, for a C string; `none` where the behaviour is undefined. -/
def isValid (value : Text) (nri : NumericRangeInfo) : Option Bool :=
  let r := scanNumber ⟨value, fun _ => 0⟩ 0 nri.allowedFormats
  if r.2 = value.length then r.1.compared.map fun x => decide (nri.Contains x) else some false

/-- What becomes of a call of a validator. -/
inductive Validated where
  /-- It returns, with a message if there is an error. -/
  | returns (message : Text)
  /-- Its precondition throws. -/
  | throws
  /-- Its behaviour is undefined: a signed overflow, or `names[0]` where there are no names. -/
  | undefined
  deriving DecidableEq

/-- `in_numeric_range`. -/
def inNumericRange (lib : CLibrary ℚ) (param : CmdlineParam) (value : Text) :
    Option NumericRangeInfo → Validated
  | none => .throws
  | some nri =>
    match isValid value nri with
    | none => .undefined
    | some true => .returns []
    | some false =>
      match param.names with
      | [] => .undefined
      | name :: _ =>
        .returns (interp lib [.string name, .cstr (some value), .float nri.min, .float nri.max,
          .string (getNamesForNumericFormats nri.allowedFormats [ch '|'])] rangeMessage).state

/-- A piece of `MSG` without a reference. -/
def plainPiece (s : Text) (h : s.all (fun c => c ≠ ch '{' ∧ c ≠ 0) = true) : FormatPiece 5 :=
  .literal s (List.all_iff_forall_prop.mp h)

/-- A reference in `MSG`. -/
def referencePiece (d : UInt8) (comment : Option Text)
    (hd : (digitBelow 10 d).isSome = true ∧ 1 ≤ decimalNumber [d] ∧ decimalNumber [d] ≤ 5)
    (h : comment.all (fun s => s.all fun c => c ≠ ch '}' ∧ c ≠ ch '\r' ∧ c ≠ ch '\n' ∧ c ≠ 0) =
      true) : FormatPiece 5 :=
  .reference [d] (List.forall_mem_singleton.mpr hd.1) hd.2.1 hd.2.2 comment fun s hs => by
    obtain rfl := Option.mem_def.mp hs
    exact List.all_iff_forall_prop.mp h

/-- The pieces of `MSG`, for five arguments. -/
def messagePieces : List (FormatPiece 5) :=
  [plainPiece (bytes "Error with ".toList) (by decide),
    referencePiece (ch '1') none (by decide) rfl,
    plainPiece (bytes "=\"".toList) (by decide),
    referencePiece (ch '2') none (by decide) rfl,
    plainPiece (bytes "\": expected a value between ".toList) (by decide),
    referencePiece (ch '3') (some (bytes "min".toList)) (by decide) (by decide),
    plainPiece (bytes " and ".toList) (by decide),
    referencePiece (ch '4') (some (bytes "max".toList)) (by decide) (by decide),
    plainPiece (bytes " (inclusive), formatted as ".toList) (by decide),
    referencePiece (ch '5') none (by decide) rfl,
    plainPiece [ch '.'] (by decide)]

/-- The message names the parameter, the value, the range and the formats. -/
theorem interp_rangeMessage (lib : CLibrary ℚ) (a b c d e : Arg ℚ) :
    (interp lib [a, b, c, d, e] rangeMessage).state =
      bytes "Error with ".toList ++ a.toString lib none ++ bytes "=\"".toList ++
        b.toString lib none ++ bytes "\": expected a value between ".toList ++
        c.toString lib none ++ bytes " and ".toList ++ d.toString lib none ++
        bytes " (inclusive), formatted as ".toList ++ e.toString lib none ++ [ch '.'] := by
  have hlen : [a, b, c, d, e].length ≤ 99 := Nat.le_of_ble_eq_true rfl
  have hpieces := (show Returns lib _ _ _ from interp_pieces hlen messagePieces).2
  have htext : messagePieces.flatMap FormatPiece.text = rangeMessage := by decide
  have hexpansion : messagePieces.map (FormatPiece.expansion lib [a, b, c, d, e]) =
      [bytes "Error with ".toList, a.toString lib none, bytes "=\"".toList, b.toString lib none,
        bytes "\": expected a value between ".toList, c.toString lib none, bytes " and ".toList,
        d.toString lib none, bytes " (inclusive), formatted as ".toList, e.toString lib none,
        [ch '.']] := rfl
  rw [htext, List.flatMap_def, hexpansion] at hpieces
  rw [hpieces]
  simp only [List.flatten_cons, List.flatten_nil, List.append_assoc, List.append_nil]

end Cli

end Intent.Old
