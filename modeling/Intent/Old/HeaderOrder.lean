import Mathlib.Data.List.Lex
import Mathlib.Data.Set.Basic

/-!
# The order of header names

`compare_str_ascii_case_insensitive` of `core/text/strutil-inline.h` is the comparator of the
maps in `core/net/headers.cpp`. Its comment says that letters are to be treated as if they
appeared where the upper case letters appear. The loop normalizes a letter only when the other
character is a letter of the other case, so that a lower case letter is compared with one of
the six characters between `Z` and `a` as it stands.

* `headerKey` is the order that the comment describes, `compareFrom_eq_of_not_interleaved` says
  where the loop computes it;
* `header_order_iff` says which sets of names the comparator puts in a strict weak order under
  every letter case.
-/

namespace Intent.Old

/-! ### The comparator -/

/-- A character literal, as a signed `char`. -/
def schar (c : Char) : Int8 := Int8.ofNat c.toNat

/-- A NUL-terminated string, without its terminator. -/
structure CString where
  chars : List Int8
  nonzero : ∀ c ∈ chars, c ≠ 0

/-- The two conditionals of the loop. -/
def normalizeCase (cha chb : Int8) : Int8 × Int8 :=
  if cha ≥ schar 'a' ∧ chb ≤ schar 'Z' ∧ chb ≥ schar 'A' ∧ cha ≤ schar 'z' then (cha - 32, chb)
  else if chb ≥ schar 'a' ∧ cha ≤ schar 'Z' ∧ cha ≥ schar 'A' ∧ chb ≤ schar 'z' then
    (cha, chb - 32)
  else (cha, chb)

/-- One pass of the loop: a result, or `none` to go on with the next characters. -/
def compareChars (cha chb : Int8) : Option ℤ :=
  if cha.toInt - chb.toInt ≠ 0 then
    let (cha, chb) := normalizeCase cha chb
    let n := cha.toInt - chb.toInt
    if n ≠ 0 then some (if n > 0 then 1 else -1)
    else if cha = 0 then some 0
    else none
  else if cha = 0 then some 0
  else none

/-- The loop, with the strings from the two pointers on: past the last character is the
terminator, where the loop ends. -/
def compareFrom : List Int8 → List Int8 → ℤ
  | [], b => (compareChars 0 (b.headD 0)).getD 0
  | cha :: a, b => (compareChars cha (b.headD 0)).getD (compareFrom a b.tail)

/-- `compare_str_ascii_case_insensitive`; a null pointer is `none`. -/
def compareStrAsciiCaseInsensitive : Option CString → Option CString → ℤ
  | some a, some b => compareFrom a.chars b.chars
  | some _, none => 1
  | none, some _ => -1
  | none, none => 0

/-- `header_is_less`. -/
def headerIsLess (a b : CString) : Bool := compareStrAsciiCaseInsensitive (some a) (some b) < 0

/-! ### Letters -/

/-- `A` to `Z`. -/
def IsUpper (c : Int8) : Prop := schar 'A' ≤ c ∧ c ≤ schar 'Z'

/-- `a` to `z`. -/
def IsLower (c : Int8) : Prop := schar 'a' ≤ c ∧ c ≤ schar 'z'

/-- The six characters between the upper and the lower case letters. -/
def IsBetween (c : Int8) : Prop := schar 'Z' < c ∧ c < schar 'a'

instance (c : Int8) : Decidable (IsUpper c) := inferInstanceAs (Decidable (_ ∧ _))

instance (c : Int8) : Decidable (IsLower c) := inferInstanceAs (Decidable (_ ∧ _))

instance (c : Int8) : Decidable (IsBetween c) := inferInstanceAs (Decidable (_ ∧ _))

/-- Folds `A` to `Z` to `a` to `z`. -/
def toLower (c : Int8) : Int8 := if IsUpper c then c + 32 else c

/-- Folds `a` to `z` to `A` to `Z`. -/
def toUpper (c : Int8) : Int8 := if IsLower c then c - 32 else c

/-- `n` after the two conditionals. -/
def difference (x y : Int8) : ℤ := (normalizeCase x y).1.toInt - (normalizeCase x y).2.toInt

section Chars

variable {x y : Int8}

theorem isUpper_iff : IsUpper x ↔ 65 ≤ x.toInt ∧ x.toInt ≤ 90 := by
  rw [IsUpper, Int8.le_iff_toInt_le, Int8.le_iff_toInt_le]
  exact Iff.rfl

theorem isLower_iff : IsLower x ↔ 97 ≤ x.toInt ∧ x.toInt ≤ 122 := by
  rw [IsLower, Int8.le_iff_toInt_le, Int8.le_iff_toInt_le]
  exact Iff.rfl

theorem isBetween_iff : IsBetween x ↔ 90 < x.toInt ∧ x.toInt < 97 := by
  rw [IsBetween, Int8.lt_iff_toInt_lt, Int8.lt_iff_toInt_lt]
  exact Iff.rfl

theorem toInt_sub_of_isLower (h : IsLower x) : (x - 32).toInt = x.toInt - 32 := by
  rw [isLower_iff] at h
  have h32 : (32 : Int8).toInt = 32 := rfl
  rw [Int8.toInt_sub, h32, Int.bmod_eq_of_le] <;> omega

theorem toInt_add_of_isUpper (h : IsUpper x) : (x + 32).toInt = x.toInt + 32 := by
  rw [isUpper_iff] at h
  have h32 : (32 : Int8).toInt = 32 := rfl
  rw [Int8.toInt_add, h32, Int.bmod_eq_of_le] <;> omega

theorem toInt_toUpper (x : Int8) :
    (toUpper x).toInt = if 97 ≤ x.toInt ∧ x.toInt ≤ 122 then x.toInt - 32 else x.toInt := by
  rw [toUpper]
  by_cases h : IsLower x
  · rw [if_pos h, if_pos (isLower_iff.mp h), toInt_sub_of_isLower h]
  · rw [if_neg h, if_neg (mt isLower_iff.mpr h)]

theorem toInt_toLower (x : Int8) :
    (toLower x).toInt = if 65 ≤ x.toInt ∧ x.toInt ≤ 90 then x.toInt + 32 else x.toInt := by
  rw [toLower]
  by_cases h : IsUpper x
  · rw [if_pos h, if_pos (isUpper_iff.mp h), toInt_add_of_isUpper h]
  · rw [if_neg h, if_neg (mt isUpper_iff.mpr h)]

/-- The conditionals normalize a lower case letter that meets an upper case letter. -/
theorem normalizeCase_eq (x y : Int8) :
    normalizeCase x y = (if IsLower x ∧ IsUpper y then x - 32 else x,
      if IsLower y ∧ IsUpper x then y - 32 else y) := by
  have hx : ¬ (IsLower x ∧ IsUpper x) := by
    rw [isLower_iff, isUpper_iff]
    omega
  have h₁ : (x ≥ schar 'a' ∧ y ≤ schar 'Z' ∧ y ≥ schar 'A' ∧ x ≤ schar 'z') ↔
      IsLower x ∧ IsUpper y := by
    rw [IsLower, IsUpper]
    tauto
  have h₂ : (y ≥ schar 'a' ∧ x ≤ schar 'Z' ∧ x ≥ schar 'A' ∧ y ≤ schar 'z') ↔
      IsLower y ∧ IsUpper x := by
    rw [IsLower, IsUpper]
    tauto
  simp only [normalizeCase, h₁, h₂]
  split_ifs with h₃ h₄ h₄
  · exact absurd ⟨h₃.1, h₄.2⟩ hx
  · rfl
  · rfl
  · rfl

/-- `n`, as a number. -/
theorem difference_eq (x y : Int8) :
    difference x y =
      (if (97 ≤ x.toInt ∧ x.toInt ≤ 122) ∧ 65 ≤ y.toInt ∧ y.toInt ≤ 90 then x.toInt - 32
        else x.toInt) -
      if (97 ≤ y.toInt ∧ y.toInt ≤ 122) ∧ 65 ≤ x.toInt ∧ x.toInt ≤ 90 then y.toInt - 32
        else y.toInt := by
  rw [difference, normalizeCase_eq]
  dsimp only
  rw [apply_ite Int8.toInt, apply_ite Int8.toInt]
  simp only [← isLower_iff, ← isUpper_iff]
  congr 1
  · exact if_ctx_congr Iff.rfl (fun h => toInt_sub_of_isLower h.1) fun _ => rfl
  · exact if_ctx_congr Iff.rfl (fun h => toInt_sub_of_isLower h.1) fun _ => rfl

theorem difference_swap (x y : Int8) : difference x y = -difference y x := by
  rw [difference_eq, difference_eq, Int.neg_sub]

theorem difference_eq_zero : difference x y = 0 ↔ toLower x = toLower y := by
  rw [← Int8.toInt_inj, toInt_toLower, toInt_toLower, difference_eq]
  split_ifs <;> omega

/-- **Characters.** Unless a lower case letter meets a character between the cases, `n` has the
sign of the difference in upper case. -/
theorem sign_difference (hxy : ¬ (IsLower x ∧ IsBetween y)) (hyx : ¬ (IsLower y ∧ IsBetween x)) :
    (difference x y).sign = ((toUpper x).toInt - (toUpper y).toInt).sign := by
  rw [isLower_iff, isBetween_iff] at hxy hyx
  have hsign : ∀ m n : ℤ, (m < 0 ↔ n < 0) → (0 < m ↔ 0 < n) → m.sign = n.sign := by
    intro m n hneg hpos
    rcases lt_trichotomy m 0 with h | rfl | h
    · rw [Int.sign_eq_neg_one_of_neg h, Int.sign_eq_neg_one_of_neg (hneg.mp h)]
    · rw [show n = 0 by omega]
    · rw [Int.sign_eq_one_of_pos h, Int.sign_eq_one_of_pos (hpos.mp h)]
  -- what is left is a comparison of numbers, in the ranges that the two characters are in
  rw [difference_eq, toInt_toUpper, toInt_toUpper]
  apply hsign
  · split_ifs <;> omega
  · split_ifs <;> omega

/-- One pass, in terms of `n`. -/
theorem compareChars_eq (x y : Int8) :
    compareChars x y =
      if difference x y = 0 then if x = 0 then some 0 else none
      else some (difference x y).sign := by
  have hsign : ∀ n : ℤ, n ≠ 0 → (if n > 0 then (1 : ℤ) else -1) = n.sign := by
    intro n hn
    split_ifs with hpos
    · exact (Int.sign_eq_one_of_pos hpos).symm
    · exact (Int.sign_eq_neg_one_of_neg (by omega)).symm
  by_cases hraw : x.toInt - y.toInt = 0
  · have hxy : x = y := Int8.toInt_inj.mp (by omega)
    rw [compareChars, if_neg (not_not.mpr hraw), if_pos (difference_eq_zero.mpr (by rw [hxy]))]
  · rw [compareChars, if_pos hraw]
    change (if difference x y ≠ 0 then some (if difference x y > 0 then 1 else -1)
      else if (normalizeCase x y).1 = 0 then some 0 else none) = _
    by_cases hn : difference x y = 0
    · -- two letters: neither of them is the terminator
      have hzero : (normalizeCase x y).1.toInt ≠ 0 ∧ x.toInt ≠ 0 := by
        have hfirst := hn
        rw [difference_eq] at hfirst
        rw [normalizeCase_eq]
        dsimp only
        split_ifs with hletters
        · rw [toInt_sub_of_isLower hletters.1]
          rw [isLower_iff, isUpper_iff] at hletters
          omega
        · rw [isLower_iff, isUpper_iff] at hletters
          split_ifs at hfirst <;> omega
      have hne : ∀ z : Int8, z.toInt ≠ 0 → z ≠ 0 := fun z hz heq => hz (by rw [heq]; rfl)
      rw [if_neg (not_not.mpr hn), if_pos hn, if_neg (hne _ hzero.1), if_neg (hne _ hzero.2)]
    · rw [if_pos hn, if_neg hn, hsign _ hn]

end Chars

/-! ### The loop -/

section Loop

variable {a b : List Int8} {x y : Int8}

/-- The characters of a NUL-terminated string. -/
abbrev Nonzero (a : List Int8) : Prop := ∀ c ∈ a, c ≠ 0

theorem toLower_ne_toLower_zero (h : x ≠ 0) : toLower x ≠ toLower 0 := by
  intro heq
  have hint := congrArg Int8.toInt heq
  have hx : x.toInt ≠ 0 := fun h0 => h (Int8.toInt_inj.mp h0)
  have hzero : (toLower 0).toInt = 0 := by decide
  rw [hzero, toInt_toLower] at hint
  split_ifs at hint <;> omega

theorem compareFrom_nil_cons (h : y ≠ 0) :
    compareFrom [] (y :: b) = (difference 0 y).sign := by
  have hn : difference 0 y ≠ 0 := mt difference_eq_zero.mp (toLower_ne_toLower_zero h).symm
  rw [compareFrom, compareChars_eq, List.headD_cons, if_neg hn]
  rfl

theorem compareFrom_cons_nil (h : x ≠ 0) :
    compareFrom (x :: a) [] = (difference x 0).sign := by
  have hn : difference x 0 ≠ 0 := mt difference_eq_zero.mp (toLower_ne_toLower_zero h)
  rw [compareFrom, compareChars_eq, List.headD_nil, if_neg hn]
  rfl

theorem compareFrom_cons_cons (h : x ≠ 0) :
    compareFrom (x :: a) (y :: b) =
      if toLower x = toLower y then compareFrom a b else (difference x y).sign := by
  rw [compareFrom, compareChars_eq, List.headD_cons, List.tail_cons, if_neg h]
  by_cases hxy : difference x y = 0
  · rw [if_pos hxy, if_pos (difference_eq_zero.mp hxy)]
    rfl
  · rw [if_neg hxy, if_neg (mt difference_eq_zero.mpr hxy)]
    rfl

/-- **Antisymmetry.** -/
theorem compareFrom_swap (ha : Nonzero a) (hb : Nonzero b) :
    compareFrom a b = -compareFrom b a := by
  induction a generalizing b with
  | nil =>
    cases b with
    | nil => rfl
    | cons y b =>
      have hy := hb y List.mem_cons_self
      rw [compareFrom_nil_cons hy, compareFrom_cons_nil hy, difference_swap, Int.sign_neg]
  | cons x a ih =>
    obtain ⟨hx, ha⟩ := List.forall_mem_cons.mp ha
    cases b with
    | nil => rw [compareFrom_nil_cons hx, compareFrom_cons_nil hx, difference_swap, Int.sign_neg]
    | cons y b =>
      obtain ⟨hy, hb⟩ := List.forall_mem_cons.mp hb
      rw [compareFrom_cons_cons hx, compareFrom_cons_cons hy]
      by_cases hxy : toLower x = toLower y
      · rw [if_pos hxy, if_pos hxy.symm]
        exact ih ha hb
      · rw [if_neg hxy, if_neg (Ne.symm hxy), difference_swap, Int.sign_neg]

/-- **Equality.** The loop finds no difference exactly between two spellings of one name. -/
theorem compareFrom_eq_zero (ha : Nonzero a) (hb : Nonzero b) :
    compareFrom a b = 0 ↔ a.map toLower = b.map toLower := by
  induction a generalizing b with
  | nil =>
    cases b with
    | nil => exact iff_of_true rfl rfl
    | cons y b =>
      have hy := hb y List.mem_cons_self
      rw [compareFrom_nil_cons hy, Int.sign_eq_zero_iff_zero, difference_eq_zero]
      exact iff_of_false (toLower_ne_toLower_zero hy).symm (by simp)
  | cons x a ih =>
    obtain ⟨hx, ha⟩ := List.forall_mem_cons.mp ha
    cases b with
    | nil =>
      rw [compareFrom_cons_nil hx, Int.sign_eq_zero_iff_zero, difference_eq_zero]
      exact iff_of_false (toLower_ne_toLower_zero hx) (by simp)
    | cons y b =>
      obtain ⟨hy, hb⟩ := List.forall_mem_cons.mp hb
      rw [compareFrom_cons_cons hx, List.map_cons, List.map_cons, List.cons.injEq]
      by_cases hxy : toLower x = toLower y
      · rw [if_pos hxy, ih ha hb, and_iff_right hxy]
      · rw [if_neg hxy, Int.sign_eq_zero_iff_zero, difference_eq_zero]
        exact iff_of_false hxy fun h => hxy h.1

end Loop

/-! ### The order of the comment -/

/-- All letters where the upper case letters are, and the terminator at the end. -/
def headerKey (a : List Int8) : List ℤ := a.map (fun c => (toUpper c).toInt) ++ [0]

/-- The three-way comparison of keys. -/
def compareKeys (a b : List ℤ) : ℤ := if a < b then -1 else if b < a then 1 else 0

/-- At the first place where two folded names differ, the first has a letter and the second a
character between the cases. -/
def Interleaved : List Int8 → List Int8 → Prop
  | x :: a, y :: b => if x = y then Interleaved a b else IsLower x ∧ IsBetween y
  | _, _ => False

section Keys

variable {a b : List Int8} {x y : Int8}

theorem headerKey_cons (x : Int8) (a : List Int8) :
    headerKey (x :: a) = (toUpper x).toInt :: headerKey a := rfl

theorem compareKeys_cons (i j : ℤ) (k l : List ℤ) :
    compareKeys (i :: k) (j :: l) = if i = j then compareKeys k l else (i - j).sign := by
  simp only [compareKeys, List.cons_lt_cons_iff]
  rcases lt_trichotomy i j with h | rfl | h
  · have := Int.sign_eq_neg_one_of_neg (a := i - j) (by omega)
    simp [h, h.ne, this]
  · simp
  · have := Int.sign_eq_one_of_pos (a := i - j) (by omega)
    simp [h, h.ne', this, h.le]

theorem toUpper_eq_iff : (toUpper x).toInt = (toUpper y).toInt ↔ toLower x = toLower y := by
  rw [← Int8.toInt_inj, toInt_toUpper, toInt_toUpper, toInt_toLower, toInt_toLower]
  split_ifs <;> omega

theorem toLower_of_isLower (h : IsLower x) : toLower x = x := by
  rw [isLower_iff] at h
  rw [toLower, if_neg]
  rw [isUpper_iff]
  omega

theorem toLower_of_isBetween (h : IsBetween x) : toLower x = x := by
  rw [isBetween_iff] at h
  rw [toLower, if_neg]
  rw [isUpper_iff]
  omega

/-- Two characters that fold differently, one step of both comparisons. -/
theorem compareKeys_cons_of_ne (k l : List ℤ) (hne : toLower x ≠ toLower y)
    (hxy : ¬ (IsLower (toLower x) ∧ IsBetween (toLower y)))
    (hyx : ¬ (IsLower (toLower y) ∧ IsBetween (toLower x))) :
    compareKeys ((toUpper x).toInt :: k) ((toUpper y).toInt :: l) = (difference x y).sign := by
  rw [compareKeys_cons, if_neg (mt toUpper_eq_iff.mp hne)]
  refine (sign_difference (fun h => hxy ?_) fun h => hyx ?_).symm
  · rw [toLower_of_isLower h.1, toLower_of_isBetween h.2]
    exact h
  · rw [toLower_of_isLower h.1, toLower_of_isBetween h.2]
    exact h

/-- **The order of the comment.** The loop compares the keys of two names that are not
interleaved. -/
theorem compareFrom_eq_of_not_interleaved (ha : Nonzero a) (hb : Nonzero b)
    (hab : ¬ Interleaved (a.map toLower) (b.map toLower))
    (hba : ¬ Interleaved (b.map toLower) (a.map toLower)) :
    compareFrom a b = compareKeys (headerKey a) (headerKey b) := by
  have hzero : ¬ IsLower (toLower 0) ∧ ¬ IsBetween (toLower 0) := by decide
  induction a generalizing b with
  | nil =>
    cases b with
    | nil => rfl
    | cons y b =>
      have hy := hb y List.mem_cons_self
      rw [compareFrom_nil_cons hy]
      exact (compareKeys_cons_of_ne _ _ (toLower_ne_toLower_zero hy).symm
        (fun h => hzero.1 h.1) fun h => hzero.2 h.2).symm
  | cons x a ih =>
    obtain ⟨hx, ha⟩ := List.forall_mem_cons.mp ha
    cases b with
    | nil =>
      rw [compareFrom_cons_nil hx]
      exact (compareKeys_cons_of_ne _ _ (toLower_ne_toLower_zero hx)
        (fun h => hzero.2 h.2) fun h => hzero.1 h.1).symm
    | cons y b =>
      obtain ⟨hy, hb⟩ := List.forall_mem_cons.mp hb
      rw [compareFrom_cons_cons hx]
      rw [List.map_cons, List.map_cons, Interleaved] at hab hba
      by_cases hxy : toLower x = toLower y
      · rw [if_pos hxy] at hab ⊢
        rw [if_pos hxy.symm] at hba
        rw [ih ha hb hab hba, headerKey_cons, headerKey_cons, compareKeys_cons,
          if_pos (toUpper_eq_iff.mpr hxy)]
      · rw [if_neg hxy] at hab ⊢
        rw [if_neg (Ne.symm hxy)] at hba
        exact (compareKeys_cons_of_ne _ _ hxy hab hba).symm

theorem toLower_toLower (x : Int8) : toLower (toLower x) = toLower x := by
  rw [← Int8.toInt_inj, toInt_toLower, toInt_toLower]
  split_ifs <;> omega

theorem toLower_toUpper (x : Int8) : toLower (toUpper x) = toLower x := by
  rw [← Int8.toInt_inj, toInt_toLower, toInt_toUpper, toInt_toLower]
  split_ifs <;> omega

/-- Folding a character does not make it a terminator. -/
theorem ne_zero_of_toLower_eq (h : toLower y = toLower x) (hx : x ≠ 0) : y ≠ 0 := by
  rintro rfl
  exact toLower_ne_toLower_zero hx h.symm

/-- A character between the cases comes after each upper case and before each lower case
letter. -/
theorem sign_difference_of_isBetween (hx : IsLower (toLower x)) (hy : IsBetween (toLower y)) :
    (difference (toUpper x) y).sign = -1 ∧ (difference (toLower x) y).sign = 1 := by
  rw [isLower_iff, toInt_toLower] at hx
  rw [isBetween_iff, toInt_toLower] at hy
  constructor
  · apply Int.sign_eq_neg_one_of_neg
    rw [difference_eq, toInt_toUpper]
    split_ifs at * <;> omega
  · apply Int.sign_eq_one_of_pos
    rw [difference_eq, toInt_toLower]
    split_ifs at * <;> omega

/-- **Interleaved names.** Where a letter meets a character between the cases, the upper case
spelling comes before and the lower case spelling after. -/
theorem compareFrom_of_interleaved (ha : Nonzero a)
    (h : Interleaved (a.map toLower) (b.map toLower)) :
    compareFrom (a.map toUpper) b = -1 ∧ compareFrom (a.map toLower) b = 1 := by
  induction a generalizing b with
  | nil => exact absurd h id
  | cons x a ih =>
    cases b with
    | nil => exact absurd h id
    | cons y b =>
      obtain ⟨hx, ha⟩ := List.forall_mem_cons.mp ha
      rw [List.map_cons, List.map_cons, Interleaved] at h
      rw [List.map_cons, List.map_cons,
        compareFrom_cons_cons (ne_zero_of_toLower_eq (toLower_toUpper x) hx),
        compareFrom_cons_cons (ne_zero_of_toLower_eq (toLower_toLower x) hx), toLower_toUpper,
        toLower_toLower]
      by_cases hxy : toLower x = toLower y
      · simp only [if_pos hxy] at h ⊢
        exact ih ha h
      · simp only [if_neg hxy] at h ⊢
        exact sign_difference_of_isBetween h.1 h.2

end Keys

/-! ### Strict weak orders -/

/-- The laws that the comparator should have, for three names. -/
structure OrderLaws (cmp : CString → CString → ℤ) (a b c : CString) : Prop where
  swap : cmp a b = -cmp b a
  eq_zero : cmp a b = 0 ↔ a.chars.map toLower = b.chars.map toLower
  congr : cmp a b = 0 → cmp a c = cmp b c
  trans : cmp a b < 0 → cmp b c < 0 → cmp a c < 0

/-- The comparator, on strings. -/
abbrev compareHeaders (a b : CString) : ℤ := compareStrAsciiCaseInsensitive (some a) (some b)

/-- The spellings of the names in a set, in every letter case. -/
def anyCase (names : Set CString) : Set CString :=
  {a | ∃ name ∈ names, a.chars.map toLower = name.chars.map toLower}

/-- A name respelled. -/
def CString.mapCase (f : Int8 → Int8) (hf : ∀ x, toLower (f x) = toLower x) (a : CString) :
    CString where
  chars := a.chars.map f
  nonzero := by
    intro c hc
    obtain ⟨x, hx, rfl⟩ := List.mem_map.mp hc
    exact ne_zero_of_toLower_eq (hf x) (a.nonzero x hx)

theorem mapCase_mem_anyCase {names : Set CString} {a : CString} (h : a ∈ names)
    (f : Int8 → Int8) (hf : ∀ x, toLower (f x) = toLower x) : a.mapCase f hf ∈ anyCase names := by
  refine ⟨a, h, ?_⟩
  rw [CString.mapCase, List.map_map]
  exact List.map_congr_left fun x _ => hf x

theorem compareKeys_eq_zero {k l : List ℤ} : compareKeys k l = 0 ↔ k = l := by
  unfold compareKeys
  rcases lt_trichotomy k l with h | rfl | h
  · simp [h, h.ne]
  · simp
  · simp [h, h.ne', lt_asymm h]

theorem compareKeys_neg {k l : List ℤ} : compareKeys k l < 0 ↔ k < l := by
  unfold compareKeys
  split_ifs with h₁ h₂ <;> simp [h₁]

/-- **The order of header names.** In every letter case, the names of a set are in a strict weak
order exactly if no two of them first differ in a letter and a character between the cases. -/
theorem header_order_iff (names : Set CString) :
    (∀ a ∈ anyCase names, ∀ b ∈ anyCase names, ∀ c ∈ anyCase names,
        OrderLaws compareHeaders a b c) ↔
      ∀ a ∈ names, ∀ b ∈ names, ¬ Interleaved (a.chars.map toLower) (b.chars.map toLower) := by
  constructor
  · intro hlaws a ha b hb hab
    -- the two spellings of `a` are equal, and `b` lies between them
    have hup := mapCase_mem_anyCase ha toUpper toLower_toUpper
    have hlow := mapCase_mem_anyCase ha toLower toLower_toLower
    have h := hlaws _ hup _ hlow b ⟨b, hb, rfl⟩
    have hsame : compareHeaders (a.mapCase toUpper toLower_toUpper)
        (a.mapCase toLower toLower_toLower) = 0 := by
      rw [h.eq_zero]
      simp only [CString.mapCase, List.map_map]
      exact List.map_congr_left fun x _ => (toLower_toUpper x).trans (toLower_toLower x).symm
    have hcongr := h.congr hsame
    obtain ⟨hneg, hpos⟩ := compareFrom_of_interleaved a.nonzero hab
    rw [compareHeaders, compareHeaders, compareStrAsciiCaseInsensitive,
      compareStrAsciiCaseInsensitive] at hcongr
    rw [CString.mapCase, CString.mapCase, hneg, hpos] at hcongr
    exact absurd hcongr (by decide)
  · intro hnames
    -- the comparator is the one of the keys, which are linearly ordered
    have hkeys : ∀ a ∈ anyCase names, ∀ b ∈ anyCase names,
        compareHeaders a b = compareKeys (headerKey a.chars) (headerKey b.chars) := by
      rintro a ⟨n, hn, ha⟩ b ⟨m, hm, hb⟩
      refine compareFrom_eq_of_not_interleaved a.nonzero b.nonzero ?_ ?_
      · rw [ha, hb]
        exact hnames n hn m hm
      · rw [ha, hb]
        exact hnames m hm n hn
    intro a ha b hb c hc
    refine ⟨compareFrom_swap a.nonzero b.nonzero, compareFrom_eq_zero a.nonzero b.nonzero, ?_, ?_⟩
    · rw [hkeys a ha b hb, hkeys a ha c hc, hkeys b hb c hc, compareKeys_eq_zero]
      intro heq
      rw [heq]
    · rw [hkeys a ha b hb, hkeys a ha c hc, hkeys b hb c hc]
      simp only [compareKeys_neg]
      exact lt_trans

/-- A name of one character. -/
def CString.single (c : Int8) (h : c ≠ 0) : CString := ⟨[c], by simpa using h⟩

/-- `a` and `A` are the same name, and `_` lies between them. -/
theorem header_order_underscore :
    ¬ OrderLaws compareHeaders (.single (schar 'a') (by decide))
      (.single (schar 'A') (by decide)) (.single (schar '_') (by decide)) := by
  intro h
  exact absurd (h.congr (by decide)) (by decide)

end Intent.Old
