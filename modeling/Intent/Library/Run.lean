import Mathlib.Data.List.Count

/-!
# Runs of a transition system

A system with states `σ` and actions `α` has a transition relation: an action that is not
enabled in a state, or does not return there, leads nowhere. `Reaches step allowed s t` says
that a run from `s`, every step of which is an allowed one, ends in `t`. A statement about all
runs has `allowed` true everywhere, one about well-behaved runs says in it what they refrain
from.

The parties of a system, or the cells of its store, are often a list in the state, and a step
replaces one entry. An invariant that counts the entries with some property then changes by that
entry (`countP_set_add`, `count_set_add`); the equations are without a subtraction, for `omega`.
-/

namespace Intent

section Reachable

variable {σ α : Type} (step : σ → α → σ → Prop) (allowed : σ → α → Prop)

/-- A run from `s` whose steps are all allowed can end in this state. -/
inductive Reaches (s : σ) : σ → Prop
  | refl : Reaches s s
  | tail {t u : σ} (a : α) : Reaches s t → allowed t a → step t a u → Reaches s u

variable {step allowed} {s t : σ} {P : σ → Prop}

/-- **Invariants.** What holds at first and is kept by every allowed step holds in every state
reached. -/
theorem Reaches.invariant (h : Reaches step allowed s t) (hs : P s)
    (hstep : ∀ {t u : σ} {a : α}, P t → allowed t a → step t a u → P u) : P t := by
  induction h with
  | refl => exact hs
  | tail _ _ hallowed hu ih => exact hstep ih hallowed hu

/-- More may be allowed. -/
theorem Reaches.mono {allowed' : σ → α → Prop} (h : Reaches step allowed s t)
    (hmono : ∀ s a, allowed s a → allowed' s a) : Reaches step allowed' s t := by
  induction h with
  | refl => exact .refl
  | tail a _ hallowed hu ih => exact .tail a ih (hmono _ a hallowed) hu

end Reachable

/-! ### Counting with one entry replaced -/

variable {α : Type} {l : List α} {i : ℕ} {x : α}

/-- The entries with a property, after one entry is replaced. -/
theorem countP_set_add (h : l[i]? = some x) (y : α) (p : α → Bool) :
    (l.set i y).countP p + (if p x then 1 else 0) = l.countP p + if p y then 1 else 0 := by
  obtain ⟨hi, hget⟩ := List.getElem?_eq_some_iff.mp h
  have hle : (if p x then 1 else 0) ≤ l.countP p := by
    split_ifs with hp
    · exact List.countP_pos_iff.mpr ⟨x, hget ▸ List.getElem_mem hi, hp⟩
    · exact Nat.zero_le _
  rw [List.countP_set hi, hget]
  omega

/-- The entries equal to a value, after one entry is replaced. -/
theorem count_set_add [DecidableEq α] (h : l[i]? = some x) (y z : α) :
    (l.set i y).count z + (if x = z then 1 else 0) = l.count z + if y = z then 1 else 0 := by
  simpa only [List.count_eq_countP, beq_iff_eq] using countP_set_add h y (· == z)

end Intent
