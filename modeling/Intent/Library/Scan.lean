import Mathlib.Order.Nat
import Mathlib.Tactic.Common

/-!
# Forward scans over an interval of positions

Every scanner of the program walks a cursor forward over a bounded interval and stops at
the first position where some test fails. `scanWhile q p e` is that walk, stated over
positions alone: it starts at `p`, never looks at a position from `e` on, and stops at the
first position where `q` is false.

The four facts that later proofs use are that a scan never moves backwards
(`le_scanWhile`), never passes the end of its interval (`scanWhile_le`), only skips
positions that pass the test (`of_lt_scanWhile`), and stops inside the interval only
where the test fails (`scanWhile_stop`). `scanWhile_eq` is the converse: a position with
these properties is the result of the scan.

A scanner that tries the words of a list in turn finds the longest one that matches, provided
that no word is behind one which it extends (`length_le_of_find?_prefix`).
-/

namespace Intent

/-- The first position from `p` on where `q` fails, or `e` when there is none before `e`
(or `p` itself when the interval is empty). -/
def scanWhile (q : ℕ → Bool) (p e : ℕ) : ℕ :=
  if p < e then if q p then scanWhile q (p + 1) e else p else p
termination_by e - p

variable {q : ℕ → Bool} {p e i j : ℕ}

theorem scanWhile_of_le (h : e ≤ p) : scanWhile q p e = p := by
  rw [scanWhile, if_neg (by omega)]

theorem scanWhile_of_false (h : q p = false) : scanWhile q p e = p := by
  rw [scanWhile]
  simp [h]

theorem scanWhile_of_true (hp : p < e) (h : q p = true) :
    scanWhile q p e = scanWhile q (p + 1) e := by
  rw [scanWhile, if_pos hp, if_pos h]

/-- A scan never moves backwards. -/
theorem le_scanWhile (q : ℕ → Bool) (p e : ℕ) : p ≤ scanWhile q p e := by
  fun_induction scanWhile q p e with
  | case1 p _ _ ih => omega
  | case2 p => exact le_rfl
  | case3 p => exact le_rfl

/-- A scan never passes the end of its interval. -/
theorem scanWhile_le (h : p ≤ e) : scanWhile q p e ≤ e := by
  fun_induction scanWhile q p e with
  | case1 p hp _ ih => exact ih (by omega)
  | case2 p => exact h
  | case3 p => exact h

/-- Every skipped position passes the test. -/
theorem of_lt_scanWhile (hi : p ≤ i) (h : i < scanWhile q p e) : q i = true := by
  fun_induction scanWhile q p e with
  | case1 p _ hq ih =>
    rcases Nat.eq_or_lt_of_le hi with rfl | hlt
    · exact hq
    · exact ih hlt h
  | case2 p => omega
  | case3 p => omega

/-- A scan that stops inside its interval stops where the test fails. -/
theorem scanWhile_stop (h : scanWhile q p e < e) : q (scanWhile q p e) = false := by
  fun_induction scanWhile q p e with
  | case1 p _ _ ih => exact ih h
  | case2 p _ hq => simpa using hq
  | case3 p hp => omega

/-- A position that has the properties of a scan's result is its result. -/
theorem scanWhile_eq (hpj : p ≤ j) (hje : j ≤ e) (hq : ∀ i, p ≤ i → i < j → q i = true)
    (hstop : j < e → q j = false) : scanWhile q p e = j := by
  have h1 := le_scanWhile q p e
  have h2 : scanWhile q p e ≤ e := scanWhile_le (hpj.trans hje)
  rcases lt_trichotomy (scanWhile q p e) j with h | h | h
  · have := scanWhile_stop (q := q) (p := p) (e := e) (by omega)
    simp [hq _ h1 h] at this
  · exact h
  · have := of_lt_scanWhile hpj h
    simp [hstop (by omega)] at this

/-- The first word that matches is the longest. -/
theorem length_le_of_find?_prefix {α β : Type} [DecidableEq α] {word : β → List α} {l : List β}
    {s : List α} {r b : β} (hl : l.Pairwise fun a b => ¬ word a <+: word b)
    (hr : l.find? (fun b => word b <+: s) = some r) (hb : b ∈ l) (hbs : word b <+: s) :
    (word b).length ≤ (word r).length := by
  obtain ⟨hrs, before, behind, rfl, hnone⟩ := List.find?_eq_some_iff_append.mp hr
  have hrs : word r <+: s := by simpa using hrs
  rcases List.mem_append.mp hb with hmem | hmem
  · exact absurd hbs (by simpa using hnone b hmem)
  rcases List.mem_cons.mp hmem with rfl | hmem
  · exact le_rfl
  · -- a longer match behind `r` would extend it
    by_contra hlt
    have hext := List.prefix_of_prefix_length_le hrs hbs (Nat.le_of_not_le hlt)
    exact List.rel_of_pairwise_cons (List.pairwise_append.mp hl).2.1 hmem hext

end Intent
