import Mathlib.Data.List.Basic
import Mathlib.Data.UInt

/-!
# Reference counts

Cells with a value and a 32-bit count, under their addresses; a cell that is gone stays as `none`,
so that no address is used again. `addRef` and `fetchSub` have no result where the cell is gone.

`Exact` says that the counts are the numbers of holders, whoever they are, and that a cell is there
as long as it has one. A holder more or less keeps this, where the cell is freed when the last one
goes (`Exact.addRef`, `Exact.fetchSub`), and so does a new cell (`Exact.alloc`).
-/

namespace Intent

/-- A cell with the number of its holders. -/
structure CountedCell (α : Type) where
  count : UInt32
  value : α

/-- Counted cells under their addresses. -/
abbrev CountedStore (α : Type) := List (Option (CountedCell α))

namespace CountedStore

variable {α : Type} {s s' : CountedStore α} {x y : ℕ} {c : CountedCell α} {last : Bool}

/-- The cell at an address, if it is not gone. -/
def cell? (s : CountedStore α) (x : ℕ) : Option (CountedCell α) := s[x]?.join

/-- A new cell; its address is the length of the store. -/
def alloc (s : CountedStore α) (count : UInt32) (value : α) : CountedStore α :=
  s ++ [some ⟨count, value⟩]

/-- One holder more. -/
def addRef (s : CountedStore α) (x : ℕ) : Option (CountedStore α) :=
  (s.cell? x).map fun c => s.set x (some { c with count := c.count + 1 })

/-- One holder less, and whether it was the last. -/
def fetchSub (s : CountedStore α) (x : ℕ) : Option (CountedStore α × Bool) :=
  (s.cell? x).map fun c =>
    (s.set x (some { c with count := c.count - 1 }), decide (c.count = 1))

/-- The store without a cell. -/
def free (s : CountedStore α) (x : ℕ) : CountedStore α := s.set x none

/-- The store with another value in a cell. -/
def put (s : CountedStore α) (x : ℕ) (value : α) : Option (CountedStore α) :=
  (s.cell? x).map fun c => s.set x (some { c with value })

/-! ### Cells -/

theorem lt_length_of_cell? (hx : s.cell? x = some c) : x < s.length := by
  by_contra hge
  rw [cell?, List.getElem?_eq_none (Nat.le_of_not_lt hge)] at hx
  cases hx

theorem cell?_set_self (hx : x < s.length) (v : Option (CountedCell α)) :
    cell? (s.set x v) x = v := by
  rw [cell?, List.getElem?_set_self hx]
  rfl

theorem cell?_set_of_ne (hne : y ≠ x) (v : Option (CountedCell α)) :
    cell? (s.set x v) y = s.cell? y := by
  rw [cell?, cell?, List.getElem?_set_ne hne.symm]

theorem cell?_length (s : CountedStore α) : s.cell? s.length = none := by
  rw [cell?, List.getElem?_eq_none (Nat.le_refl _)]
  rfl

theorem cell?_alloc_length (s : CountedStore α) (count : UInt32) (value : α) :
    (s.alloc count value).cell? s.length = some ⟨count, value⟩ := by
  rw [cell?, alloc, List.getElem?_append_right (Nat.le_refl _), Nat.sub_self]
  rfl

theorem cell?_alloc_of_ne (hne : x ≠ s.length) (count : UInt32) (value : α) :
    (s.alloc count value).cell? x = s.cell? x := by
  rw [cell?, cell?, alloc]
  rcases Nat.lt_or_gt_of_ne hne with hlt | hgt
  · rw [List.getElem?_append_left hlt]
  · rw [List.getElem?_eq_none, List.getElem?_eq_none (Nat.le_of_lt hgt)]
    rw [List.length_append, List.length_singleton]
    exact hgt

/-- The value of a cell. -/
def value? (s : CountedStore α) (x : ℕ) : Option α := (s.cell? x).map CountedCell.value

theorem value?_alloc (s : CountedStore α) (count : UInt32) (value : α) (x : ℕ) :
    (s.alloc count value).value? x = if x = s.length then some value else s.value? x := by
  split_ifs with hx
  · rw [hx, value?, cell?_alloc_length, Option.map_some]
  · rw [value?, cell?_alloc_of_ne hx, value?]

theorem lt_length_of_value? {a : α} (hx : s.value? x = some a) : x < s.length := by
  obtain ⟨c, hc, -⟩ := Option.map_eq_some_iff.mp hx
  exact lt_length_of_cell? hc

theorem isSome_cell?_of_value? {a : α} (hx : s.value? x = some a) : (s.cell? x).isSome = true := by
  rw [← Option.isSome_map (f := CountedCell.value), ← value?, hx, Option.isSome_some]

theorem value?_addRef (h : s.addRef x = some s') (y : ℕ) : s'.value? y = s.value? y := by
  obtain ⟨c, hc, rfl⟩ := Option.map_eq_some_iff.mp h
  rcases eq_or_ne y x with rfl | hne
  · rw [value?, cell?_set_self (lt_length_of_cell? hc), value?, hc]
    rfl
  · rw [value?, cell?_set_of_ne hne, value?]

theorem value?_fetchSub (h : s.fetchSub x = some (s', last)) (y : ℕ) :
    s'.value? y = s.value? y := by
  obtain ⟨c, hc, heq⟩ := Option.map_eq_some_iff.mp h
  obtain ⟨rfl, -⟩ := Prod.mk.inj heq
  rcases eq_or_ne y x with rfl | hne
  · rw [value?, cell?_set_self (lt_length_of_cell? hc), value?, hc]
    rfl
  · rw [value?, cell?_set_of_ne hne, value?]

theorem value?_free_self (s : CountedStore α) (x : ℕ) : (s.free x).value? x = none := by
  rcases Nat.lt_or_ge x s.length with hlt | hge
  · rw [value?, free, cell?_set_self hlt, Option.map_none]
  · rw [value?, free, cell?, List.getElem?_eq_none (by rwa [List.length_set])]
    rfl

theorem value?_free_of_ne (hne : y ≠ x) : (s.free x).value? y = s.value? y := by
  rw [value?, free, cell?_set_of_ne hne, value?]

theorem value?_put_self {a : α} (h : s.put x a = some s') : s'.value? x = some a := by
  obtain ⟨c, hc, rfl⟩ := Option.map_eq_some_iff.mp h
  rw [value?, cell?_set_self (lt_length_of_cell? hc)]
  rfl

theorem value?_put_of_ne {a : α} (h : s.put x a = some s') (hne : y ≠ x) :
    s'.value? y = s.value? y := by
  obtain ⟨c, hc, rfl⟩ := Option.map_eq_some_iff.mp h
  rw [value?, cell?_set_of_ne hne, value?]

theorem value?_release_of_ne (h : s.fetchSub x = some (s', last)) (hne : y ≠ x) :
    (if last then s'.free x else s').value? y = s.value? y := by
  cases last with
  | false => exact value?_fetchSub h y
  | true =>
    rw [if_pos rfl, value?_free_of_ne hne]
    exact value?_fetchSub h y

/-- A holder of a cell is gone: the values of the others stay. -/
theorem value?_release (h : s.fetchSub x = some (s', last)) (y : ℕ) :
    (if last then s'.free x else s').value? y = s.value? y ∨
      (if last then s'.free x else s').value? y = none := by
  rcases eq_or_ne y x with rfl | hne
  · cases last with
    | false => exact .inl (value?_fetchSub h y)
    | true => exact .inr (value?_free_self s' y)
  · exact .inl (value?_release_of_ne h hne)

/-- What is in a cell, after another value is put into one and a holder of it is gone. -/
theorem value?_put_release {a b : α} {s₁ s₂ : CountedStore α} (hput : s.put x a = some s₁)
    (hsub : s₁.fetchSub x = some (s₂, last))
    (hy : (if last then s₂.free x else s₂).value? y = some b) :
    y = x ∧ b = a ∨ y ≠ x ∧ s.value? y = some b := by
  have hbefore : s₂.value? y = some b := by
    cases last with
    | false => exact hy
    | true =>
      rw [if_pos rfl] at hy
      rcases eq_or_ne y x with rfl | hne
      · rw [value?_free_self] at hy
        cases hy
      · rwa [value?_free_of_ne hne] at hy
  rw [value?_fetchSub hsub] at hbefore
  rcases eq_or_ne y x with rfl | hne
  · rw [value?_put_self hput] at hbefore
    exact .inl ⟨rfl, (Option.some.inj hbefore).symm⟩
  · rw [value?_put_of_ne hput hne] at hbefore
    exact .inr ⟨hne, hbefore⟩

theorem length_addRef (h : s.addRef x = some s') : s'.length = s.length := by
  obtain ⟨c, -, rfl⟩ := Option.map_eq_some_iff.mp h
  exact List.length_set

theorem length_fetchSub (h : s.fetchSub x = some (s', last)) : s'.length = s.length := by
  obtain ⟨c, -, heq⟩ := Option.map_eq_some_iff.mp h
  obtain ⟨rfl, -⟩ := Prod.mk.inj heq
  exact List.length_set

theorem length_put {a : α} (h : s.put x a = some s') : s'.length = s.length := by
  obtain ⟨c, -, rfl⟩ := Option.map_eq_some_iff.mp h
  exact List.length_set

theorem length_release (h : s.fetchSub x = some (s', last)) :
    (if last then s'.free x else s').length = s.length := by
  cases last with
  | false => exact length_fetchSub h
  | true =>
    rw [if_pos rfl, CountedStore.free, List.length_set]
    exact length_fetchSub h

/-! ### Exact counts -/

/-- Every count is the number of holders, and the cells that are there are those with holders. -/
def Exact (s : CountedStore α) (holders : ℕ → ℕ) : Prop :=
  ∀ x, ((s.cell? x).isSome = true ↔ 0 < holders x) ∧
    ∀ c, s.cell? x = some c → c.count.toNat = holders x

variable {holders g : ℕ → ℕ}

theorem Exact.exists_cell (hs : s.Exact holders) (hx : 0 < holders x) : ∃ c, s.cell? x = some c :=
  Option.isSome_iff_exists.mp ((hs x).1.mpr hx)

theorem Exact.exists_value (hs : s.Exact holders) (hx : 0 < holders x) :
    ∃ a, s.value? x = some a := by
  obtain ⟨c, hc⟩ := hs.exists_cell hx
  exact ⟨c.value, by rw [value?, hc, Option.map_some]⟩

/-- Nobody holds what was not allocated. -/
theorem Exact.holders_length (hs : s.Exact holders) : holders s.length = 0 := by
  by_contra hne
  have hsome := (hs s.length).1.mpr (Nat.pos_of_ne_zero hne)
  rw [cell?_length] at hsome
  cases hsome

/-- A cell with another count. -/
theorem Exact.setCount (hs : s.Exact holders) (hx : s.cell? x = some c) {d : CountedCell α}
    (hpos : 0 < g x) (hd : d.count.toNat = g x)
    (hother : ∀ y, y ≠ x → g y = holders y) :
    Exact (s.set x (some d)) g := by
  intro y
  rcases eq_or_ne y x with rfl | hne
  · rw [cell?_set_self (lt_length_of_cell? hx)]
    refine ⟨iff_of_true rfl hpos, fun c' hc' => ?_⟩
    obtain rfl := Option.some.inj hc'
    exact hd
  · rw [cell?_set_of_ne hne, hother y hne]
    exact hs y

/-- A cell that nobody holds any more is freed. -/
theorem Exact.setNone (hs : s.Exact holders) (hx : s.cell? x = some c) (hzero : g x = 0)
    (hother : ∀ y, y ≠ x → g y = holders y) :
    Exact (s.set x none) g := by
  intro y
  rcases eq_or_ne y x with rfl | hne
  · rw [cell?_set_self (lt_length_of_cell? hx), hzero]
    exact ⟨iff_of_false Bool.false_ne_true (Nat.lt_irrefl 0), fun c' hc' => by cases hc'⟩
  · rw [cell?_set_of_ne hne, hother y hne]
    exact hs y

/-- **A new cell** and its holders. -/
theorem Exact.alloc (hs : s.Exact holders) {count : UInt32} {value : α}
    (hpos : 0 < g s.length) (hcount : count.toNat = g s.length)
    (hother : ∀ y, y ≠ s.length → g y = holders y) :
    (s.alloc count value).Exact g := by
  intro y
  rcases eq_or_ne y s.length with rfl | hne
  · rw [cell?_alloc_length]
    refine ⟨iff_of_true rfl hpos, fun c' hc' => ?_⟩
    obtain rfl := Option.some.inj hc'
    exact hcount
  · rw [cell?_alloc_of_ne hne, hother y hne]
    exact hs y

/-- **A holder more**, while the count does not overflow. -/
theorem Exact.addRef (hs : s.Exact holders) (hpos : 0 < holders x)
    (hlt : holders x + 1 < 2 ^ 32) (hx : g x = holders x + 1)
    (hother : ∀ y, y ≠ x → g y = holders y) :
    ∃ s', s.addRef x = some s' ∧ s'.Exact g := by
  obtain ⟨c, hc⟩ := hs.exists_cell hpos
  have hcount := (hs x).2 c hc
  refine ⟨_, by rw [CountedStore.addRef, hc, Option.map_some], ?_⟩
  refine hs.setCount hc (by omega) ?_ hother
  have hone : (1 : UInt32).toNat = 1 := rfl
  rw [hx, UInt32.toNat_add, hone, hcount]
  exact Nat.mod_eq_of_lt hlt

/-- **A holder less.** The cell is freed with the last one. -/
theorem Exact.fetchSub (hs : s.Exact holders) (hx : g x + 1 = holders x)
    (hother : ∀ y, y ≠ x → g y = holders y) :
    ∃ s' last, s.fetchSub x = some (s', last) ∧ (last = true ↔ g x = 0) ∧
      Exact (if last then s'.free x else s') g := by
  obtain ⟨c, hc⟩ := hs.exists_cell (by omega : 0 < holders x)
  have hcount := (hs x).2 c hc
  have hlast : c.count = 1 ↔ g x = 0 := by
    have hone : (1 : UInt32).toNat = 1 := rfl
    rw [← UInt32.toNat_inj, hone, hcount]
    omega
  refine ⟨_, _, by rw [CountedStore.fetchSub, hc, Option.map_some], ?_, ?_⟩
  · rw [decide_eq_true_iff]
    exact hlast
  · by_cases heq : c.count = 1
    · rw [decide_eq_true heq, if_pos rfl, free, List.set_set]
      exact hs.setNone hc (hlast.mp heq) hother
    · rw [decide_eq_false heq, if_neg Bool.false_ne_true]
      have hpos : g x ≠ 0 := fun hzero => heq (hlast.mpr hzero)
      refine hs.setCount hc (Nat.pos_of_ne_zero hpos) ?_ hother
      have hone : (1 : UInt32).toNat = 1 := rfl
      have hle : (1 : UInt32) ≤ c.count := by
        rw [UInt32.le_iff_toNat_le, hone, hcount]
        omega
      rw [UInt32.toNat_sub_of_le _ _ hle, hone, hcount]
      omega

/-- Another value. -/
theorem Exact.put (hs : s.Exact holders) (hpos : 0 < holders x) (a : α) :
    ∃ s', s.put x a = some s' ∧ s'.Exact holders := by
  obtain ⟨c, hc⟩ := hs.exists_cell hpos
  refine ⟨_, by rw [CountedStore.put, hc, Option.map_some], ?_⟩
  exact hs.setCount hc hpos ((hs x).2 c hc) fun _ _ => rfl

end CountedStore

end Intent
