import Mathlib.Data.Nat.Digits.Defs
import Mathlib.Data.Nat.Log

/-!
# Positional notation, from the left

Digits are lists with the leading digit first, so that `Nat.ofDigits base digits.reverse` is the
number that they denote. `Canonical` says that a list of digits is the representation of a number:
it denotes the number and has no zeros in front. `numDigits` is its length.

`quotients` is the way to the digits by division: by a multiple, the rest by the next smaller
multiple, and so on. With the powers of the base for the multiples these are the digits
(`quotients_canonical`). Where the first multiple is smaller than the power of the base at its
place, they denote a number that is too big (`not_canonical_quotients`).
-/

namespace Intent

variable {base n k fuel multiple : ℕ} {digits : List ℕ}

/-- The digit in front. -/
theorem ofDigits_reverse_cons (base d : ℕ) (digits : List ℕ) :
    Nat.ofDigits base (d :: digits).reverse =
      d * base ^ digits.length + Nat.ofDigits base digits.reverse := by
  rw [List.reverse_cons, Nat.ofDigits_append, Nat.ofDigits_singleton, List.length_reverse,
    Nat.add_comm, Nat.mul_comm]

theorem ofDigits_reverse_lt (hbase : 1 < base) (h : ∀ d ∈ digits, d < base) :
    Nat.ofDigits base digits.reverse < base ^ digits.length := by
  rw [← List.length_reverse]
  exact Nat.ofDigits_lt_base_pow_length hbase fun d hd => h d (List.mem_reverse.mp hd)

/-! ### The representation of a number -/

/-- The digits of `n`, without zeros in front. -/
structure Canonical (base n : ℕ) (digits : List ℕ) : Prop where
  ne_nil : digits ≠ []
  digit_lt : ∀ d ∈ digits, d < base
  leading : digits.head? = some 0 → digits = [0]
  ofDigits_eq : Nat.ofDigits base digits.reverse = n

/-- How many digits a number has. -/
def numDigits (base n : ℕ) : ℕ := Nat.log base n + 1

theorem lt_pow_numDigits (hbase : 1 < base) (n : ℕ) : n < base ^ numDigits base n :=
  Nat.lt_pow_succ_log_self hbase n

theorem Canonical.length_eq (h : Canonical base n digits) (hbase : 1 < base) :
    digits.length = numDigits base n := by
  have hlt := h.digit_lt
  have hlead := h.leading
  have hn := h.ofDigits_eq
  obtain ⟨d, digits, rfl⟩ := List.exists_cons_of_ne_nil h.ne_nil
  rw [ofDigits_reverse_cons] at hn
  have hrest := ofDigits_reverse_lt hbase fun e he => hlt e (List.mem_cons_of_mem d he)
  have hd := hlt d List.mem_cons_self
  rw [numDigits, List.length_cons, Nat.add_right_cancel_iff, eq_comm]
  rcases Nat.eq_zero_or_pos d with rfl | hpos
  · obtain rfl : digits = [] := (List.cons.inj (hlead rfl)).2
    rw [← hn]
    exact Nat.log_zero_right base
  · refine Nat.log_eq_of_pow_le_of_lt_pow ?_ ?_
    · calc base ^ digits.length ≤ d * base ^ digits.length := Nat.le_mul_of_pos_left _ hpos
        _ ≤ n := by omega
    · calc n < d * base ^ digits.length + base ^ digits.length := by omega
        _ = (d + 1) * base ^ digits.length := by rw [Nat.add_mul, Nat.one_mul]
        _ ≤ base * base ^ digits.length := Nat.mul_le_mul_right _ hd
        _ = base ^ (digits.length + 1) := (Nat.pow_succ' ..).symm

/-! ### Quotients -/

/-- The quotients by falling multiples, and the last rest. -/
def quotients (base : ℕ) : ℕ → ℕ → ℕ → List ℕ
  | 0, n, _ => [n]
  | fuel + 1, n, multiple =>
    if multiple > 1 then (n / multiple) :: quotients base fuel (n % multiple) (multiple / base)
    else [n]

theorem single_digit (hn : n < base) :
    [n].length = 0 + 1 ∧ (∀ d ∈ [n], d < base) ∧ Nat.ofDigits base [n].reverse = n := by
  refine ⟨rfl, fun d hd => ?_, Nat.ofDigits_singleton⟩
  rwa [List.mem_singleton.mp hd]

/-- **Powers of the base.** -/
theorem quotients_pow (hbase : 1 < base) (hn : n < base ^ (k + 1)) (hfuel : k ≤ fuel) :
    (quotients base fuel n (base ^ k)).length = k + 1 ∧
      (∀ d ∈ quotients base fuel n (base ^ k), d < base) ∧
      Nat.ofDigits base (quotients base fuel n (base ^ k)).reverse = n := by
  induction fuel generalizing n k with
  | zero =>
    obtain rfl : k = 0 := by omega
    rw [Nat.zero_add, Nat.pow_one] at hn
    exact single_digit hn
  | succ fuel ih =>
    cases k with
    | zero =>
      rw [Nat.zero_add, Nat.pow_one] at hn
      rw [quotients, Nat.pow_zero, if_neg (lt_irrefl 1)]
      exact single_digit hn
    | succ k =>
      have hpos : 0 < base ^ (k + 1) := Nat.pow_pos (by omega)
      have hone : base ^ (k + 1) > 1 := Nat.one_lt_pow (by omega) hbase
      have hdiv : base ^ (k + 1) / base = base ^ k := by
        rw [Nat.pow_succ, Nat.mul_div_cancel _ (by omega)]
      obtain ⟨hlen, hlt, hvalue⟩ := ih (Nat.mod_lt n hpos) (Nat.le_of_succ_le_succ hfuel)
      rw [quotients, if_pos hone, hdiv]
      refine ⟨by rw [List.length_cons, hlen], List.forall_mem_cons.mpr ⟨?_, hlt⟩, ?_⟩
      · rw [Nat.div_lt_iff_lt_mul hpos, Nat.mul_comm, ← Nat.pow_succ]
        exact hn
      · rw [ofDigits_reverse_cons, hlen, hvalue, Nat.mul_comm]
        exact Nat.div_add_mod n _

/-- The quotients by the powers of the base, from the largest that is not above `n` on. -/
theorem quotients_canonical (hbase : 1 < base) (hfuel : Nat.log base n ≤ fuel) :
    Canonical base n (quotients base fuel n (base ^ Nat.log base n)) := by
  obtain ⟨hlen, hlt, hvalue⟩ := quotients_pow hbase (lt_pow_numDigits hbase n) hfuel
  refine ⟨fun hnil => ?_, hlt, fun hhead => ?_, hvalue⟩
  · rw [hnil] at hlen
    cases hlen
  · -- the leading quotient is not zero, unless there is only one digit
    cases hlog : Nat.log base n with
    | zero =>
      rw [hlog] at hlen hhead
      obtain ⟨d, hd⟩ := List.length_eq_one_iff.mp hlen
      rw [hd] at hhead ⊢
      rw [Option.some.inj hhead]
    | succ k =>
      have hn : n ≠ 0 := by
        rintro rfl
        rw [Nat.log_zero_right] at hlog
        cases hlog
      have hle : base ^ (k + 1) ≤ n := hlog ▸ Nat.pow_log_le_self base hn
      have hone : base ^ (k + 1) > 1 := Nat.one_lt_pow (by omega) hbase
      obtain ⟨fuel, rfl⟩ := Nat.exists_eq_succ_of_ne_zero (show fuel ≠ 0 by omega)
      rw [hlog, quotients, if_pos hone] at hhead
      have hzero : n / base ^ (k + 1) = 0 := Option.some.inj hhead
      have hpos : 0 < n / base ^ (k + 1) := Nat.div_pos hle (by omega)
      omega

/-! ### Multiples that are too small -/

theorem div_lt_pow (hbase : 1 < base) (h : multiple < base ^ (k + 1)) :
    multiple / base < base ^ k := by
  rwa [Nat.div_lt_iff_lt_mul (by omega), ← Nat.pow_succ]

theorem exists_eq_succ_of_lt_pow (h : multiple < base ^ k) (hone : 1 < multiple) :
    ∃ j, k = j + 1 := by
  refine Nat.exists_eq_succ_of_ne_zero fun hzero => ?_
  rw [hzero, Nat.pow_zero] at h
  omega

theorem length_quotients_le (hbase : 1 < base) (hk : multiple < base ^ k) :
    (quotients base fuel n multiple).length ≤ k + 1 := by
  induction fuel generalizing n multiple k with
  | zero => exact Nat.le_add_left 1 k
  | succ fuel ih =>
    rw [quotients]
    split_ifs with hone
    · obtain ⟨k, rfl⟩ := exists_eq_succ_of_lt_pow hk hone
      exact Nat.succ_le_succ (ih (div_lt_pow hbase hk))
    · exact Nat.le_add_left 1 k

/-- As many quotients as there are places denote at least the number. -/
theorem le_ofDigits_quotients (hbase : 1 < base) (hk : multiple < base ^ k)
    (hlen : (quotients base fuel n multiple).length = k + 1) :
    n ≤ Nat.ofDigits base (quotients base fuel n multiple).reverse := by
  induction fuel generalizing n multiple k with
  | zero => exact Nat.ofDigits_singleton.ge
  | succ fuel ih =>
    rw [quotients] at hlen ⊢
    split_ifs at hlen ⊢ with hone
    · obtain ⟨k, rfl⟩ := exists_eq_succ_of_lt_pow hk hone
      have hlen' := Nat.succ.inj hlen
      have hrest := ih (div_lt_pow hbase hk) hlen'
      rw [ofDigits_reverse_cons, hlen']
      calc n = n / multiple * multiple + n % multiple := (Nat.div_add_mod' n multiple).symm
        _ ≤ _ := Nat.add_le_add (Nat.mul_le_mul_left _ hk.le) hrest
    · exact Nat.ofDigits_singleton.ge

/-- **Too small a multiple.** The quotients by a multiple that is smaller than the leading power of
the base are not the digits. -/
theorem not_canonical_quotients (hbase : 1 < base) (hn : base ≤ n)
    (hk : multiple < base ^ Nat.log base n) :
    ¬ Canonical base n (quotients base fuel n multiple) := by
  intro h
  have hlen := h.length_eq hbase
  have hhead := h.leading
  have hvalue := h.ofDigits_eq
  obtain ⟨k, hlog⟩ : ∃ k, Nat.log base n = k + 1 :=
    Nat.exists_eq_succ_of_ne_zero (Nat.log_pos hbase hn).ne'
  rw [numDigits, hlog] at hlen
  rw [hlog] at hk
  cases fuel with
  | zero => cases hlen
  | succ fuel =>
    rw [quotients] at hlen hhead hvalue
    split_ifs at hlen hhead hvalue with hone
    · have hlen' := Nat.succ.inj hlen
      have hrest := le_ofDigits_quotients hbase (div_lt_pow hbase hk) hlen'
      have hlead : 0 < n / multiple := by
        refine Nat.pos_of_ne_zero fun hzero => ?_
        rw [hzero] at hhead
        have hnil := (List.cons.inj (hhead rfl)).2
        rw [hnil] at hlen'
        cases hlen'
      rw [ofDigits_reverse_cons, hlen'] at hvalue
      have hlt : n / multiple * multiple < n / multiple * base ^ (k + 1) :=
        Nat.mul_lt_mul_of_pos_left hk hlead
      have hsum := Nat.div_add_mod' n multiple
      omega
    · cases hlen

end Intent
