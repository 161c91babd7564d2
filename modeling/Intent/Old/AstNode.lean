import Mathlib.Algebra.Group.Nat.Defs
import Mathlib.Tactic.Common

/-!
# Ancestors of AST nodes

The queries of `lang/ast/node.cpp` along the parents of a node. The nodes are of any type, and
`parent` is the member of all of them.

`has_ancestor` stops in front of the last generation that it is asked for, and `has_descendant` does
not pass its limit on. `queries_exact_iff` says for which nodes and limits this makes a difference.
-/

namespace Intent.Old.Ast

variable {ν : Type}

/-! ### The queries -/

section Queries

variable [DecidableEq ν] (parent : ν → Option ν)

/-- `in_any_generation`. -/
def inAnyGeneration : UInt32 := 0xFFFFFFFF

/-- The loop of `has_ancestor`, from `which` on. Its counter stays below the limit, and so does
what is returned. -/
def ancestorLoop (candidate : ν) (withinNGenerations : ℕ) (which : ν) (i : ℕ) : ℕ :=
  if i < withinNGenerations then
    match parent which with
    | none => 0
    | some next =>
      if next = candidate then i else ancestorLoop candidate withinNGenerations next (i + 1)
  else 0
termination_by withinNGenerations - i

/-- `node::has_ancestor`. -/
def hasAncestor (this : ν) (candidate : Option ν) (withinNGenerations : UInt32) : ℕ :=
  match candidate with
  | none => 0
  | some candidate =>
    if candidate ≠ this then ancestorLoop parent candidate withinNGenerations.toNat this 1 else 0

/-- `node::has_descendant`. -/
def hasDescendant (this : ν) (candidate : Option ν) (_withinNGenerations : UInt32) : ℕ :=
  match candidate with
  | none => 0
  | some candidate => hasAncestor parent candidate (some this) inAnyGeneration

end Queries

/-! ### Generations -/

/-- The ancestor `k` generations back. -/
def ancestor (parent : ν → Option ν) : ℕ → ν → Option ν
  | 0, x => some x
  | k + 1, x => (parent x).bind (ancestor parent k)

/-- No node is its own ancestor. -/
def Acyclic (parent : ν → Option ν) : Prop := ∀ x k, ancestor parent (k + 1) x ≠ some x

section Generations

variable {parent : ν → Option ν} {x c : ν} {j k : ℕ}

theorem ancestor_add (parent : ν → Option ν) (j k : ℕ) (x : ν) :
    ancestor parent (j + k) x = (ancestor parent j x).bind (ancestor parent k) := by
  induction j generalizing x with
  | zero => rw [Nat.zero_add, ancestor, Option.bind_some]
  | succ j ih =>
    rw [Nat.add_right_comm, ancestor, ancestor]
    cases parent x with
    | none => rfl
    | some y => exact ih y

/-- An ancestor is one number of generations back. -/
theorem Acyclic.unique (h : Acyclic parent) (hj : ancestor parent j x = some c)
    (hk : ancestor parent k x = some c) : j = k := by
  have hle : ∀ {j k}, ancestor parent j x = some c → ancestor parent k x = some c → j ≤ k →
      j = k := by
    intro j k hj hk hjk
    obtain ⟨d, rfl⟩ := Nat.exists_eq_add_of_le hjk
    cases d with
    | zero => rfl
    | succ d =>
      rw [ancestor_add, hj, Option.bind_some] at hk
      exact absurd hk (h c d)
  rcases Nat.le_total j k with hjk | hkj
  · exact hle hj hk hjk
  · exact (hle hk hj hkj).symm

end Generations

/-! ### What the queries answer -/

section Answers

variable [DecidableEq ν] {parent : ν → Option ν} {x c which : ν} {n : UInt32} {i k m : ℕ}

/-- The loop returns 0 where the candidate is not among the generations that are left. -/
theorem ancestorLoop_eq_zero
    (hno : ∀ k, ancestor parent (k + 1) which = some c → m ≤ i + k) :
    ancestorLoop parent c m which i = 0 := by
  fun_induction ancestorLoop parent c m which i with
  | case1 which i hi hnone => rfl
  | case2 which i hi hnext =>
    -- the candidate is one generation back
    have hle := hno 0 (by rw [ancestor, hnext, Option.bind_some, ancestor])
    exact absurd hi (Nat.not_lt.mpr hle)
  | case3 which i hi next hnext hne ih =>
    refine ih fun k hk => ?_
    have hle := hno (k + 1) (by rw [ancestor, hnext, Option.bind_some, hk])
    omega
  | case4 which i hi => rfl

/-- The loop returns its counter at the candidate. -/
theorem ancestorLoop_eq (h : Acyclic parent) (hk : ancestor parent (k + 1) which = some c)
    (hlt : i + k < m) : ancestorLoop parent c m which i = i + k := by
  induction k generalizing which i with
  | zero =>
    rw [ancestor] at hk
    obtain ⟨next, hnext, rfl⟩ : ∃ next, parent which = some next ∧ next = c := by
      obtain ⟨next, hnext, heq⟩ := Option.bind_eq_some_iff.mp hk
      exact ⟨next, hnext, Option.some.inj heq⟩
    rw [ancestorLoop, if_pos (by omega), hnext]
    exact if_pos rfl
  | succ k ih =>
    rw [ancestor] at hk
    obtain ⟨next, hnext, hk⟩ := Option.bind_eq_some_iff.mp hk
    have hne : next ≠ c := by
      rintro rfl
      exact h next k hk
    rw [ancestorLoop, if_pos (by omega), hnext]
    dsimp only
    rw [if_neg hne, ih hk (by omega)]
    omega

/-- **`has_ancestor`** finds an ancestor that is fewer generations back than its limit. -/
theorem hasAncestor_of_lt (h : Acyclic parent) (hne : c ≠ x) (hk : ancestor parent k x = some c)
    (hlt : k < n.toNat) : hasAncestor parent x (some c) n = k := by
  cases k with
  | zero => exact absurd (Option.some.inj hk).symm hne
  | succ k =>
    rw [hasAncestor, if_pos hne, ancestorLoop_eq h hk (by omega), Nat.add_comm]

theorem hasAncestor_eq_zero (hno : ∀ k < n.toNat, ancestor parent k x ≠ some c) :
    hasAncestor parent x (some c) n = 0 := by
  rw [hasAncestor]
  split_ifs with hne
  · refine ancestorLoop_eq_zero fun k hk => ?_
    by_contra hlt
    exact hno (k + 1) (by omega) hk
  · rfl

theorem toNat_inAnyGeneration : inAnyGeneration.toNat = 2 ^ 32 - 1 := rfl

/-- The two queries answer what they are asked for. -/
structure QueriesExact (parent : ν → Option ν) (x c : ν) (n : UInt32) : Prop where
  within : ∀ k, ancestor parent k x = some c → k ≤ n.toNat → hasAncestor parent x (some c) n = k
  beyond : (∀ k ≤ n.toNat, ancestor parent k x ≠ some c) → hasAncestor parent x (some c) n = 0
  descendant : hasDescendant parent c (some x) n = hasAncestor parent x (some c) n

/-- **Bounded queries.** They are exact if and only if the candidate is no ancestor, or one that is
fewer generations back than the limit, or so many that it is out of reach without one as well. -/
theorem queries_exact_iff (h : Acyclic parent) (hne : c ≠ x) :
    QueriesExact parent x c n ↔
      ∀ k, ancestor parent k x = some c →
        k < n.toNat ∨ inAnyGeneration.toNat ≤ k ∧ k ≠ n.toNat := by
  have hlt := n.toNat_lt
  have hany := toNat_inAnyGeneration
  constructor
  · rintro ⟨hwithin, -, hdescendant⟩ k hk
    by_contra hnot
    -- `has_ancestor` does not see the candidate
    have hzero : hasAncestor parent x (some c) n = 0 := by
      refine hasAncestor_eq_zero fun j hj heq => ?_
      obtain rfl := h.unique heq hk
      omega
    have hpos : k ≠ 0 := by
      rintro rfl
      exact hne (Option.some.inj hk).symm
    rcases Nat.lt_or_ge k inAnyGeneration.toNat with hreach | hfar
    · rw [hasDescendant, hasAncestor_of_lt h hne hk hreach, hzero] at hdescendant
      exact hpos hdescendant
    · have hlast := hwithin k hk (by omega)
      rw [hzero] at hlast
      exact hpos hlast.symm
  · intro hall
    by_cases hc : ∃ k, ancestor parent k x = some c
    · obtain ⟨k, hk⟩ := hc
      have hother : ∀ j, ancestor parent j x = some c → j = k := fun j hj => h.unique hj hk
      rcases hall k hk with hnear | ⟨hfar, hk'⟩
      · have heq := hasAncestor_of_lt h hne hk hnear
        refine ⟨fun j hj _ => hother j hj ▸ heq, fun hno => ?_, ?_⟩
        · exact absurd hk (hno k (Nat.le_of_lt hnear))
        · rw [hasDescendant, heq, hasAncestor_of_lt h hne hk (by omega)]
      · -- the candidate is behind the limit, and behind every limit
        have hzero : ∀ {m : UInt32}, m.toNat ≤ k → hasAncestor parent x (some c) m = 0 :=
          fun hm => hasAncestor_eq_zero fun j hj heq => by
            have hjk := hother j heq
            omega
        refine ⟨fun j hj hle => ?_, fun _ => hzero (by omega), ?_⟩
        · have hjk := hother j hj
          omega
        · rw [hasDescendant, hzero (by omega), hzero (by omega)]
    · have hno : ∀ k, ancestor parent k x ≠ some c := fun k hk => hc ⟨k, hk⟩
      have hzero : ∀ m : UInt32, hasAncestor parent x (some c) m = 0 := fun m =>
        hasAncestor_eq_zero fun k _ => hno k
      refine ⟨fun k hk _ => absurd hk (hno k), fun _ => hzero n, ?_⟩
      rw [hasDescendant, hzero, hzero]

/-- The parents along the numbers: each has the one before it. -/
def precedingParent : ℕ → Option ℕ
  | 0 => none
  | x + 1 => some x

theorem acyclic_precedingParent : Acyclic precedingParent := by
  have hlt : ∀ k x y, ancestor precedingParent k x = some y → y + k = x := by
    intro k
    induction k with
    | zero => exact fun x y h => (Option.some.inj h).symm
    | succ k ih =>
      intro x y h
      cases x with
      | zero => cases h
      | succ x => exact congrArg Nat.succ (ih x y h)
  intro x k h
  have heq := hlt (k + 1) x x h
  omega

/-- The parent of a node, within two generations. -/
theorem queries_exact_parent : QueriesExact precedingParent 1 0 2 :=
  (queries_exact_iff acyclic_precedingParent (by decide)).mpr fun k hk => by
    have hparent : ancestor precedingParent 1 1 = some 0 := rfl
    obtain rfl := acyclic_precedingParent.unique hk hparent
    exact .inl (by decide)

/-- The parent of a node is not found within one generation. -/
theorem not_queries_exact_parent :
    Acyclic precedingParent ∧ ¬ QueriesExact precedingParent 1 0 1 := by
  refine ⟨acyclic_precedingParent, fun h => ?_⟩
  have hone := h.within 1 rfl (by decide)
  rw [hasAncestor, if_pos (by decide), ancestorLoop, if_neg (by decide)] at hone
  exact absurd hone (by decide)

end Answers

end Intent.Old.Ast
