import Mathlib.Data.List.Basic
import Mathlib.Order.Nat

/-!
# Spans that tile an interval up to gaps

A tokenizer is lossless when its spans follow one another and everything between them is
ignorable. `Tiles b e gap i ts j` says this of the items `ts` over the interval `[i, j)`: item
`t` occupies `[b t, e t)`, the items stand in order, and every position of the interval outside
of them is a gap. Spans may be empty.

Tilings compose (`Tiles.append`), and a tiling yields the facts a reader of the tokens
wants: bounds (`Tiles.bounds`), order (`Tiles.pairwise`) and coverage (`Tiles.covered`).
-/

namespace Intent

variable {τ : Type} (b e : τ → ℕ) (gap : ℕ → Prop)

/-- The items `ts`, with spans `[b t, e t)`, tile `[i, j)` up to gaps. -/
def Tiles : ℕ → List τ → ℕ → Prop
  | i, [], j => i ≤ j ∧ ∀ k, i ≤ k → k < j → gap k
  | i, t :: ts, j =>
    i ≤ b t ∧ b t ≤ e t ∧ (∀ k, i ≤ k → k < b t → gap k) ∧ Tiles (e t) ts j

variable {b e gap} {i j k : ℕ} {ts us : List τ} {t : τ}

theorem Tiles.le (h : Tiles b e gap i ts j) : i ≤ j := by
  induction ts generalizing i with
  | nil => exact h.1
  | cons t ts ih =>
    obtain ⟨h₁, h₂, -, h₃⟩ := h
    exact h₁.trans (h₂.trans (ih h₃))

/-- No items at all: a gap from `i` to `j`. -/
theorem Tiles.nil (hij : i ≤ j) (h : ∀ k, i ≤ k → k < j → gap k) : Tiles b e gap i [] j := ⟨hij, h⟩

/-- One item, with gaps on both sides. -/
theorem Tiles.single (h₁ : i ≤ b t) (h₂ : b t ≤ e t) (h₃ : e t ≤ j)
    (hl : ∀ k, i ≤ k → k < b t → gap k) (hr : ∀ k, e t ≤ k → k < j → gap k) :
    Tiles b e gap i [t] j := ⟨h₁, h₂, hl, h₃, hr⟩

/-- A gap before a tiling. -/
theorem Tiles.extend (hij : i ≤ j) (hg : ∀ m, i ≤ m → m < j → gap m)
    (h : Tiles b e gap j us k) : Tiles b e gap i us k := by
  have join : ∀ {m}, (∀ l, j ≤ l → l < m → gap l) → ∀ l, i ≤ l → l < m → gap l := by
    intro m hm l hl hlm
    rcases Nat.lt_or_ge l j with hlt | hge
    · exact hg l hl hlt
    · exact hm l hge hlm
  cases us with
  | nil => exact ⟨hij.trans h.1, join h.2⟩
  | cons t ts => exact ⟨hij.trans h.1, h.2.1, join h.2.2.1, h.2.2.2⟩

/-- **Tilings compose.** -/
theorem Tiles.append (h₁ : Tiles b e gap i ts j) (h₂ : Tiles b e gap j us k) :
    Tiles b e gap i (ts ++ us) k := by
  induction ts generalizing i with
  | nil => exact Tiles.extend h₁.1 h₁.2 h₂
  | cons t ts ih =>
    obtain ⟨ha, hb, hg, ht⟩ := h₁
    exact ⟨ha, hb, hg, ih ht⟩

/-- Every item lies in the interval. -/
theorem Tiles.bounds (h : Tiles b e gap i ts j) (ht : t ∈ ts) : i ≤ b t ∧ b t ≤ e t ∧ e t ≤ j := by
  induction ts generalizing i with
  | nil => cases ht
  | cons u us ih =>
    obtain ⟨h₁, h₂, -, h₃⟩ := h
    rcases List.mem_cons.mp ht with rfl | ht
    · exact ⟨h₁, h₂, h₃.le⟩
    · obtain ⟨h₄, h₅⟩ := ih h₃ ht
      exact ⟨h₁.trans (h₂.trans h₄), h₅⟩

/-- Every item begins at or after the end of all items before it. -/
theorem Tiles.pairwise (h : Tiles b e gap i ts j) : ts.Pairwise fun t u => e t ≤ b u := by
  induction ts generalizing i with
  | nil => exact List.Pairwise.nil
  | cons t ts ih =>
    obtain ⟨-, -, -, h⟩ := h
    exact List.Pairwise.cons (fun u hu => (h.bounds hu).1) (ih h)

/-- Every position of the interval is a gap or belongs to an item. -/
theorem Tiles.covered (h : Tiles b e gap i ts j) (hi : i ≤ k) (hj : k < j) :
    gap k ∨ ∃ t ∈ ts, b t ≤ k ∧ k < e t := by
  induction ts generalizing i with
  | nil => exact .inl (h.2 k hi hj)
  | cons t ts ih =>
    obtain ⟨-, -, hg, ht⟩ := h
    rcases Nat.lt_or_ge k (b t) with h₁ | h₁
    · exact .inl (hg k hi h₁)
    rcases Nat.lt_or_ge k (e t) with h₂ | h₂
    · exact .inr ⟨t, List.mem_cons_self, h₁, h₂⟩
    · refine (ih ht h₂).imp_right fun hex => ?_
      obtain ⟨u, hu, h⟩ := hex
      exact ⟨u, List.mem_cons_of_mem _ hu, h⟩

/-- Where the whole interval is made of gaps, items may be dropped from the end. -/
theorem Tiles.take (h : Tiles b e gap i ts j) (hg : ∀ k, i ≤ k → k < j → gap k) (n : ℕ) :
    Tiles b e gap i (ts.take n) j := by
  induction ts generalizing i n with
  | nil => simpa using h
  | cons t ts ih =>
    cases n with
    | zero => exact ⟨h.le, hg⟩
    | succ n =>
      obtain ⟨h₁, h₂, h₃, h₄⟩ := h
      exact ⟨h₁, h₂, h₃, ih h₄ (fun k hk hj => hg k (by omega) hj) n⟩

/-- Two items of a tiling that share a position, counted with multiplicity, are one: the items
that hold a given position are counted at most once. -/
theorem Tiles.countP_le_one (h : Tiles b e gap i ts j) (k : ℕ) (P : τ → Bool)
    (hP : ∀ t, P t = true → b t ≤ k ∧ k < e t) : ts.countP P ≤ 1 := by
  induction ts generalizing i with
  | nil => exact Nat.zero_le 1
  | cons t ts ih =>
    obtain ⟨-, -, -, ht⟩ := h
    rw [List.countP_cons]
    split_ifs with hPt
    · have hzero : ts.countP P = 0 := by
        rw [List.countP_eq_zero]
        intro u hu hPu
        have := (hP t hPt).2
        have := (hP u hPu).1
        have := (ht.bounds hu).1
        omega
      rw [hzero]
    · exact ih ht

end Intent
