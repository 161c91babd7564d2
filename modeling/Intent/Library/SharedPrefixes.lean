import Mathlib.Data.List.Basic
import Mathlib.Data.List.Dedup
import Mathlib.Data.List.Infix
import Mathlib.Data.List.Nodup
import Mathlib.Data.List.Perm.Lattice

/-!
# Prefixes that words share

A list of words as a tree. Its inner nodes are the empty prefix and the prefixes that two words
share; `branchesFrom` lists them depth first, the letters below a node in the order of their first
appearance. `sharing` counts the words that begin with a prefix.

`mem_branchesFrom` says which prefixes are listed, `nodup_branchesFrom` that each is listed once,
and `length_branchesFrom` how many there are.
-/

namespace Intent

variable {α : Type} [DecidableEq α]

/-- How many of the words begin with `q`. -/
def sharing (words : List (List α)) (q : List α) : ℕ := words.countP fun w => q <+: w

/-- The letter behind `p` in a word that begins with `p`. -/
def following (p w : List α) : Option α := if p <+: w then w[p.length]? else none

/-- The letters behind `p` in the words, at their first appearance and without those of `done`. -/
def nextLetters (p : List α) : List (List α) → List α → List α
  | [], _ => []
  | w :: ws, done =>
    match following p w with
    | some c => if c ∈ done then nextLetters p ws done else c :: nextLetters p ws (c :: done)
    | none => nextLetters p ws done

/-- `p`, and the prefixes of two words with up to `n` letters behind `p`, depth first. -/
def branchesFrom (words : List (List α)) : ℕ → List α → List (List α)
  | 0, p => [p]
  | n + 1, p =>
    p :: (nextLetters p words []).flatMap fun c =>
      if 2 ≤ sharing words (p ++ [c]) then branchesFrom words n (p ++ [c]) else []

/-- The prefixes below `p` that begin with one of the letters. -/
def branchesBelow (words : List (List α)) (n : ℕ) (p letters : List α) : List (List α) :=
  letters.flatMap fun c =>
    if 2 ≤ sharing words (p ++ [c]) then branchesFrom words n (p ++ [c]) else []

/-- The prefixes of two words, without the empty one. -/
def sharedPrefixes (words : List (List α)) : List (List α) :=
  (words.flatMap List.inits).dedup.filter fun q => q ≠ [] ∧ 2 ≤ sharing words q

variable {words ws : List (List α)} {p q w done letters : List α} {c : α} {n : ℕ}

theorem sharing_pos_iff : 0 < sharing words q ↔ ∃ w ∈ words, q <+: w := by
  rw [sharing, List.countP_pos_iff]
  simp only [decide_eq_true_eq]

/-- Longer prefixes are shared by fewer words. -/
theorem sharing_anti (h : p <+: q) : sharing words q ≤ sharing words p :=
  List.countP_mono_left fun w _ hw => by
    rw [decide_eq_true_eq] at hw ⊢
    exact h.trans hw

/-- Words of the list that begin with `q` are one and the same if `q` is not shared. -/
theorem eq_of_sharing_le_one {β : Type} {l : List β} {f : β → List α}
    (h : sharing (l.map f) q ≤ 1) {i j : ℕ} {a b : β} (ha : l[i]? = some a)
    (hb : l[j]? = some b) (hqa : q <+: f a) (hqb : q <+: f b) : i = j := by
  by_contra hne
  wlog hlt : i < j generalizing i j a b
  · exact this hb ha hqb hqa (Ne.symm hne) (by omega)
  -- one of them is before `j`, the other one is not
  have hj := (List.getElem?_eq_some_iff.mp hb).1
  have hleft : 0 < sharing ((l.take j).map f) q :=
    sharing_pos_iff.mpr ⟨f a, List.mem_map_of_mem (List.mem_of_getElem? (i := i)
      (by rw [List.getElem?_take_of_lt hlt, ha])), hqa⟩
  have hright : 0 < sharing ((l.drop j).map f) q :=
    sharing_pos_iff.mpr ⟨f b, List.mem_map_of_mem (List.mem_of_getElem? (i := 0)
      (by rw [List.getElem?_drop, Nat.add_zero, hb])), hqb⟩
  have hsum : sharing (l.map f) q =
      sharing ((l.take j).map f) q + sharing ((l.drop j).map f) q := by
    rw [sharing, sharing, sharing, ← List.countP_append, ← List.map_append, List.take_append_drop]
  omega

/-- No word is a prefix of another one, so that they are different. -/
def PrefixFree (words : List (List α)) : Prop := words.Pairwise fun v w => ¬ v <+: w ∧ ¬ w <+: v

instance : Decidable (PrefixFree words) := inferInstanceAs (Decidable (words.Pairwise _))

/-- Such words are not shared. -/
theorem PrefixFree.sharing_le_one (h : PrefixFree words) (hq : q ∈ words) :
    sharing words q ≤ 1 := by
  induction words with
  | nil => cases hq
  | cons w words ih =>
    obtain ⟨hw, hrest⟩ := List.pairwise_cons.mp h
    rw [sharing, List.countP_cons]
    rcases List.mem_cons.mp hq with rfl | hmem
    · have hzero : (words.countP fun w => q <+: w) = 0 := List.countP_eq_zero.mpr fun v hv => by
        rw [decide_eq_true_eq]
        exact (hw v hv).1
      rw [hzero]
      split_ifs
      · exact le_rfl
      · exact Nat.zero_le 1
    · rw [if_neg (by simpa using (hw q hmem).2)]
      exact ih hrest hmem

/-! ### The next letters -/

theorem following_eq_some : following p w = some c ↔ p ++ [c] <+: w := by
  rw [following]
  constructor
  · intro h
    split_ifs at h with hp
    obtain ⟨t, rfl⟩ := hp
    rw [List.getElem?_append_right le_rfl, Nat.sub_self] at h
    obtain ⟨d, r, rfl⟩ := List.exists_cons_of_ne_nil (l := t) (by rintro rfl; cases h)
    rw [List.getElem?_cons_zero, Option.some.injEq] at h
    exact ⟨r, by rw [← h, List.append_assoc]; rfl⟩
  · rintro ⟨r, rfl⟩
    rw [List.append_assoc, if_pos (List.prefix_append _ _),
      List.getElem?_append_right le_rfl, Nat.sub_self]
    rfl

theorem mem_nextLetters :
    c ∈ nextLetters p ws done ↔ c ∉ done ∧ ∃ w ∈ ws, p ++ [c] <+: w := by
  induction ws generalizing done with
  | nil => simp [nextLetters]
  | cons w ws ih =>
    rw [nextLetters]
    cases hfollowing : following p w with
    | none =>
      have hnot : ¬ p ++ [c] <+: w := fun h => by
        rw [← following_eq_some, hfollowing] at h
        cases h
      simp only [ih, List.exists_mem_cons_iff, hnot, false_or]
    | some d =>
      have hiff : (∃ w' ∈ w :: ws, p ++ [c] <+: w') ↔ c = d ∨ ∃ w' ∈ ws, p ++ [c] <+: w' := by
        rw [List.exists_mem_cons_iff, ← following_eq_some, hfollowing, Option.some.injEq, eq_comm]
      rw [hiff]
      by_cases hmem : d ∈ done
      · simp only [if_pos hmem, ih]
        refine and_congr_right fun hc => ⟨.inr, fun h => h.resolve_left ?_⟩
        rintro rfl
        exact hc hmem
      · simp only [if_neg hmem, List.mem_cons, ih, not_or]
        by_cases hcd : c = d
        · simp [hcd, hmem]
        · simp [hcd]

theorem nodup_nextLetters : (nextLetters p ws done).Nodup := by
  induction ws generalizing done with
  | nil => exact List.nodup_nil
  | cons w ws ih =>
    rw [nextLetters]
    cases following p w with
    | none => exact ih
    | some d =>
      show (if d ∈ done then _ else _ : List α).Nodup
      split_ifs
      · exact ih
      · refine List.nodup_cons.mpr ⟨fun hmem => ?_, ih⟩
        exact (mem_nextLetters.mp hmem).1 List.mem_cons_self

/-! ### The branches -/

theorem branchesFrom_succ :
    branchesFrom words (n + 1) p = p :: branchesBelow words n p (nextLetters p words []) := rfl

theorem branchesFrom_eq_cons (words : List (List α)) (n : ℕ) (p : List α) :
    ∃ more, branchesFrom words n p = p :: more := by
  cases n with
  | zero => exact ⟨[], rfl⟩
  | succ n => exact ⟨_, branchesFrom_succ⟩

theorem mem_branchesBelow :
    q ∈ branchesBelow words n p letters ↔
      ∃ c ∈ letters, 2 ≤ sharing words (p ++ [c]) ∧ q ∈ branchesFrom words n (p ++ [c]) := by
  rw [branchesBelow, List.mem_flatMap]
  refine exists_congr fun c => and_congr_right fun _ => ?_
  split_ifs with h
  · exact (and_iff_right h).symm
  · simp [h]

theorem isPrefix_of_mem_branchesFrom (h : q ∈ branchesFrom words n p) : p <+: q := by
  induction n generalizing p with
  | zero =>
    rw [List.mem_singleton.mp h]
  | succ n ih =>
    rw [branchesFrom_succ] at h
    rcases List.mem_cons.mp h with rfl | hbelow
    · exact List.prefix_refl q
    · obtain ⟨c, -, -, hq⟩ := mem_branchesBelow.mp hbelow
      exact (List.prefix_append p [c]).trans (ih hq)

/-- **The branches.** Below `p`, the prefixes of two words are listed, down to the depth. -/
theorem mem_branchesFrom :
    q ∈ branchesFrom words n p ↔
      q = p ∨ p <+: q ∧ q.length ≤ p.length + n ∧ p ≠ q ∧ 2 ≤ sharing words q := by
  induction n generalizing p with
  | zero =>
    rw [branchesFrom, List.mem_singleton]
    refine ⟨.inl, ?_⟩
    rintro (h | ⟨hp, hlength, hne, -⟩)
    · exact h
    · exact absurd (hp.eq_of_length_le hlength) hne
  | succ n ih =>
    rw [branchesFrom_succ, List.mem_cons, mem_branchesBelow]
    refine or_congr_right ?_
    constructor
    · rintro ⟨c, -, hshared, hq⟩
      have hp : p ++ [c] <+: q := isPrefix_of_mem_branchesFrom hq
      have hlt : p.length < q.length := by
        have := hp.length_le
        rw [List.length_append, List.length_singleton] at this
        omega
      refine ⟨(List.prefix_append p [c]).trans hp, ?_, fun h => ?_, ?_⟩
      · rcases ih.mp hq with rfl | ⟨-, hlength, -, -⟩
        · rw [List.length_append, List.length_singleton]
          omega
        · rw [List.length_append, List.length_singleton] at hlength
          omega
      · rw [h] at hlt
        exact lt_irrefl _ hlt
      · rcases ih.mp hq with rfl | ⟨-, -, -, hshared'⟩
        · exact hshared
        · exact hshared'
    · rintro ⟨⟨t, rfl⟩, hlength, hne, hshared⟩
      -- the branch is below the letter that follows `p` in it
      obtain ⟨c, r, rfl⟩ := List.exists_cons_of_ne_nil (l := t) (by
        rintro rfl
        exact hne (List.append_nil p).symm)
      have hq : p ++ [c] <+: p ++ c :: r := ⟨r, by rw [List.append_assoc]; rfl⟩
      have hshared' := hshared.trans (sharing_anti hq)
      obtain ⟨w, hw, hcw⟩ := sharing_pos_iff.mp (lt_of_lt_of_le Nat.two_pos hshared')
      refine ⟨c, mem_nextLetters.mpr ⟨List.not_mem_nil, w, hw, hcw⟩, hshared', ih.mpr ?_⟩
      by_cases hr : p ++ c :: r = p ++ [c]
      · exact .inl hr
      · refine .inr ⟨hq, ?_, fun h => hr h.symm, hshared⟩
        simp only [List.length_append, List.length_cons, List.length_nil] at hlength ⊢
        omega

theorem nodup_branchesFrom : (branchesFrom words n p).Nodup := by
  induction n generalizing p with
  | zero => exact List.nodup_singleton p
  | succ n ih =>
    rw [branchesFrom_succ]
    refine List.nodup_cons.mpr ⟨fun hmem => ?_, ?_⟩
    · -- everything below is longer
      obtain ⟨c, -, -, hp⟩ := mem_branchesBelow.mp hmem
      have := (isPrefix_of_mem_branchesFrom hp).length_le
      rw [List.length_append, List.length_singleton] at this
      omega
    · rw [branchesBelow, List.nodup_flatMap]
      refine ⟨fun c _ => ?_, nodup_nextLetters.imp fun {c d} hne => ?_⟩
      · split_ifs
        · exact ih
        · exact List.nodup_nil
      · intro q hc hd
        beta_reduce at hc hd
        split_ifs at hc hd
        · -- two letters at one place
          have hpc := isPrefix_of_mem_branchesFrom hc
          have hpd := isPrefix_of_mem_branchesFrom hd
          have heq := List.prefix_of_prefix_length_le hpc hpd (by simp)
          exact hne (by simpa using heq.eq_of_length (by simp))
        all_goals simp at hc hd

/-- **Their number.** There is the root, and there are the shared prefixes. -/
theorem length_branchesFrom (h : ∀ w ∈ words, w.length ≤ n) :
    (branchesFrom words n []).length = (sharedPrefixes words).length + 1 := by
  have hnodup : ([] :: sharedPrefixes words).Nodup := by
    refine List.nodup_cons.mpr ⟨fun hmem => ?_, (List.nodup_dedup _).filter _⟩
    have := (List.mem_filter.mp hmem).2
    simp at this
  refine ((List.perm_ext_iff_of_nodup nodup_branchesFrom hnodup).mpr fun q => ?_).length_eq
  rw [mem_branchesFrom, List.mem_cons, sharedPrefixes, List.mem_filter, List.mem_dedup,
    List.mem_flatMap]
  refine or_congr_right ?_
  simp only [List.mem_inits, decide_eq_true_eq]
  constructor
  · rintro ⟨-, -, hne, hshared⟩
    obtain ⟨w, hw, hq⟩ := sharing_pos_iff.mp (lt_of_lt_of_le Nat.two_pos hshared)
    exact ⟨⟨w, hw, hq⟩, Ne.symm hne, hshared⟩
  · rintro ⟨⟨w, hw, hq⟩, hne, hshared⟩
    refine ⟨List.nil_prefix, ?_, Ne.symm hne, hshared⟩
    rw [List.length_nil, Nat.zero_add]
    exact hq.length_le.trans (h w hw)

end Intent
