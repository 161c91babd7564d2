import Mathlib.Data.List.Perm.Lattice
import Mathlib.Data.List.Nodup
import Mathlib.Logic.Function.Basic
import Mathlib.Logic.Relation

/-!
# Forests, and stores in which cells own others

A `Forest` is a list of ordered trees: its first tree has a root and the forest `below` it, and
`rest` has the other trees. A tree is taken out of it, or grafted below one of its nodes.

A store has cells under their names, and a cell owns others, by their names (`owns`). A forest is
kept in the store (`Forest.Kept`) if the cells own each other as it says, and it fills the store
(`Forest.Fills`) if there are no other cells and no name twice.

`release` takes a cell out of the store after all that it owns, and what a cell owns first to last.
`release_eq_some_iff` says for which stores this ends without a look at a cell that is gone: those
in which a tree with this root and no name twice is kept. The tree is what is released. A store that
a forest fills stays such a store when a cell is new (`Forest.Fills.alloc`), gets a root that it is
not below (`Forest.Fills.give`), or is a root that is released (`Forest.Fills.release`).
-/

namespace Intent

/-- An ordered forest: the first tree, and the rest of the trees. -/
inductive Forest (ν : Type) where
  | nil
  | cons (x : ν) (below rest : Forest ν)

namespace Forest

variable {ν : Type}

/-- The roots, first to last. -/
def roots : Forest ν → List ν
  | nil => []
  | cons x _ rest => x :: rest.roots

/-- The nodes, each after all below it. -/
def nodes : Forest ν → List ν
  | nil => []
  | cons x below rest => below.nodes ++ x :: rest.nodes

/-- The trees of `f`, then the trees of `g`. -/
def append : Forest ν → Forest ν → Forest ν
  | nil, g => g
  | cons x below rest, g => cons x below (rest.append g)

variable {f g t : Forest ν} {x y : ν}

theorem roots_append (f g : Forest ν) : (f.append g).roots = f.roots ++ g.roots := by
  induction f with
  | nil => rfl
  | cons x below rest _ ih => rw [append, roots, ih, roots, List.cons_append]

theorem nodes_append (f g : Forest ν) : (f.append g).nodes = f.nodes ++ g.nodes := by
  induction f with
  | nil => rfl
  | cons x below rest _ ih => rw [append, nodes, ih, nodes, List.append_assoc, List.cons_append]

theorem mem_nodes_of_mem_roots (h : x ∈ f.roots) : x ∈ f.nodes := by
  induction f with
  | nil => cases h
  | cons y below rest _ ih =>
    rw [nodes, List.mem_append, List.mem_cons]
    rcases List.mem_cons.mp h with rfl | h
    · exact .inr (.inl rfl)
    · exact .inr (.inr (ih h))

/-! ### Taking trees out, and grafting -/

section Surgery

variable [DecidableEq ν]

/-- The tree with this root. -/
def tree (x : ν) : Forest ν → Forest ν
  | nil => nil
  | cons y below rest => if y = x then cons y below nil else rest.tree x

/-- The other trees. -/
def without (x : ν) : Forest ν → Forest ν
  | nil => nil
  | cons y below rest => if y = x then rest else cons y below (rest.without x)

/-- The forest with the trees of `t` below `x`, behind what is there. -/
def graft (x : ν) : Forest ν → Forest ν → Forest ν
  | nil, _ => nil
  | cons y below rest, t =>
    if y = x then cons y (below.append t) rest
    else cons y (below.graft x t) (rest.graft x t)

theorem roots_tree (h : x ∈ f.roots) : (f.tree x).roots = [x] := by
  induction f with
  | nil => cases h
  | cons y below rest _ ih =>
    rw [tree]
    split_ifs with hy
    · rw [hy, roots, roots]
    · exact ih ((List.mem_cons.mp h).resolve_left (Ne.symm hy))

/-- The nodes of a tree and of the others. -/
theorem nodes_tree_append_without (h : x ∈ f.roots) :
    ((f.tree x).nodes ++ (f.without x).nodes).Perm f.nodes := by
  induction f with
  | nil => cases h
  | cons y below rest _ ih =>
    rw [tree, without]
    split_ifs with hy
    · rw [nodes, nodes, nodes, List.append_assoc, List.singleton_append]
    · have hrest := ih ((List.mem_cons.mp h).resolve_left (Ne.symm hy))
      rw [nodes, nodes]
      refine (List.perm_append_comm_assoc _ _ _).trans (List.Perm.append_left _ ?_)
      exact List.perm_middle.trans (hrest.cons y)

theorem mem_roots_without_of_ne (h : y ∈ f.roots) (hne : y ≠ x) : y ∈ (f.without x).roots := by
  induction f with
  | nil => cases h
  | cons z below rest _ ih =>
    rw [without]
    rcases List.mem_cons.mp h with rfl | h
    · rw [if_neg hne]
      exact List.mem_cons_self
    · split_ifs with hz
      · exact h
      · exact List.mem_cons_of_mem z (ih h)

theorem roots_graft (x : ν) (t f : Forest ν) : (f.graft x t).roots = f.roots := by
  induction f with
  | nil => rfl
  | cons y below rest _ ih =>
    rw [graft]
    split_ifs
    · rfl
    · rw [roots, ih, roots]

theorem graft_of_notMem (h : x ∉ f.nodes) : f.graft x t = f := by
  induction f with
  | nil => rfl
  | cons y below rest ihBelow ihRest =>
    rw [nodes, List.mem_append, List.mem_cons, not_or, not_or] at h
    obtain ⟨hbelow, hy, hrest⟩ := h
    rw [graft, if_neg (Ne.symm hy), ihBelow hbelow, ihRest hrest]

/-- A graft adds the nodes of what is grafted. -/
theorem nodes_graft (hx : x ∈ f.nodes) (hnodup : f.nodes.Nodup) :
    (f.graft x t).nodes.Perm (t.nodes ++ f.nodes) := by
  induction f with
  | nil => cases hx
  | cons y below rest ihBelow ihRest =>
    rw [nodes] at hx hnodup ⊢
    obtain ⟨hbelow, hrest, hdisjoint⟩ := List.nodup_append'.mp hnodup
    rw [graft]
    split_ifs with hy
    · rw [nodes, nodes_append, List.append_assoc]
      exact List.perm_append_comm_assoc _ _ _
    · rw [nodes]
      rcases List.mem_append.mp hx with hx | hx
      · have hnot : x ∉ rest.nodes := fun hmem =>
          List.disjoint_left.mp hdisjoint hx (List.mem_cons_of_mem y hmem)
        rw [graft_of_notMem hnot, ← List.append_assoc]
        exact (ihBelow hx hbelow).append_right _
      · have hx' := (List.mem_cons.mp hx).resolve_left (Ne.symm hy)
        have hnot : x ∉ below.nodes := fun hmem => List.disjoint_left.mp hdisjoint hmem hx
        rw [graft_of_notMem hnot]
        refine List.perm_iff_count.mpr fun a => ?_
        have hcount := List.perm_iff_count.mp (ihRest hx' (List.nodup_cons.mp hrest).2) a
        simp only [List.count_append, List.count_cons] at hcount ⊢
        omega

end Surgery

/-! ### Stores that keep a forest -/

section Stores

variable {α : Type} {owns : α → List ν} {h h' : ν → Option α}

/-- The cells own each other as the forest says. -/
def Kept (owns : α → List ν) (h : ν → Option α) : Forest ν → Prop
  | nil => True
  | cons x below rest =>
    (h x).map owns = some below.roots ∧ Kept owns h below ∧ Kept owns h rest

theorem kept_append : (f.append g).Kept owns h ↔ f.Kept owns h ∧ g.Kept owns h := by
  induction f with
  | nil => exact (and_iff_right trivial).symm
  | cons x below rest _ ih => rw [append, Kept, ih, Kept, and_assoc, and_assoc]

/-- Only what the nodes own matters. -/
theorem Kept.congr (hf : f.Kept owns h) (heq : ∀ y ∈ f.nodes, (h' y).map owns = (h y).map owns) :
    f.Kept owns h' := by
  induction f with
  | nil => trivial
  | cons x below rest ihBelow ihRest =>
    obtain ⟨hx, hbelow, hrest⟩ := hf
    rw [nodes] at heq
    refine ⟨?_, ihBelow hbelow fun y hy => heq y ?_, ihRest hrest fun y hy => heq y ?_⟩
    · rw [heq x (List.mem_append_right _ List.mem_cons_self), hx]
    · exact List.mem_append_left _ hy
    · exact List.mem_append_right _ (List.mem_cons_of_mem x hy)

/-- The nodes are cells of the store, and each has a smaller forest below it. -/
theorem Kept.exists_below (hf : f.Kept owns h) (hy : y ∈ f.nodes) :
    ∃ b : Forest ν, b.Kept owns h ∧ (h y).map owns = some b.roots ∧
      b.nodes.length < f.nodes.length ∧ ∀ z ∈ b.nodes, z ∈ f.nodes := by
  induction f with
  | nil => cases hy
  | cons x below rest ihBelow ihRest =>
    obtain ⟨hx, hbelow, hrest⟩ := hf
    rw [nodes, List.length_append, List.length_cons]
    rcases List.mem_append.mp hy with hy | hy
    · obtain ⟨b, hb, hroots, hlt, hmem⟩ := ihBelow hbelow hy
      exact ⟨b, hb, hroots, by omega, fun z hz => List.mem_append_left _ (hmem z hz)⟩
    · rcases List.mem_cons.mp hy with rfl | hy
      · exact ⟨below, hbelow, hx, by omega, fun z hz => List.mem_append_left _ hz⟩
      · obtain ⟨b, hb, hroots, hlt, hmem⟩ := ihRest hrest hy
        exact ⟨b, hb, hroots, by omega, fun z hz =>
          List.mem_append_right _ (List.mem_cons_of_mem x (hmem z hz))⟩

theorem Kept.isSome (hf : f.Kept owns h) (hy : y ∈ f.nodes) : (h y).isSome = true := by
  obtain ⟨b, -, hroots, -⟩ := hf.exists_below hy
  rw [← Option.isSome_map, hroots, Option.isSome_some]

/-- The roots determine the forest. -/
theorem Kept.unique (hf : f.Kept owns h) (hg : g.Kept owns h) (hroots : f.roots = g.roots) :
    f = g := by
  induction f generalizing g with
  | nil =>
    cases g with
    | nil => rfl
    | cons y below rest => cases hroots
  | cons x below rest ihBelow ihRest =>
    cases g with
    | nil => cases hroots
    | cons y below' rest' =>
      obtain ⟨rfl, hroots'⟩ := List.cons.inj hroots
      obtain ⟨hx, hbelow, hrest⟩ := hf
      obtain ⟨hx', hbelow', hrest'⟩ := hg
      rw [ihBelow hbelow hbelow' (Option.some.inj (hx.symm.trans hx')), ihRest hrest hrest' hroots']

/-- No cell is below itself. -/
theorem Kept.notMem_nodes (hf : f.Kept owns h) (hx : (h x).map owns = some f.roots) :
    x ∉ f.nodes := by
  intro hmem
  obtain ⟨b, hb, hroots, hlt, -⟩ := hf.exists_below hmem
  rw [hf.unique hb (Option.some.inj (hx.symm.trans hroots))] at hlt
  exact Nat.lt_irrefl _ hlt

section Surgery

variable [DecidableEq ν]

theorem Kept.tree (hf : f.Kept owns h) (x : ν) : (f.tree x).Kept owns h := by
  induction f with
  | nil => trivial
  | cons y below rest _ ih =>
    obtain ⟨hy, hbelow, hrest⟩ := hf
    rw [Forest.tree]
    split_ifs
    · exact ⟨hy, hbelow, trivial⟩
    · exact ih hrest

theorem Kept.without (hf : f.Kept owns h) (x : ν) : (f.without x).Kept owns h := by
  induction f with
  | nil => trivial
  | cons y below rest _ ih =>
    obtain ⟨hy, hbelow, hrest⟩ := hf
    rw [Forest.without]
    split_ifs
    · exact hrest
    · exact ⟨hy, hbelow, ih hrest⟩

/-- A cell that owns the roots of `t` as well. -/
theorem Kept.graft {xs : List ν} (hf : f.Kept owns h) (ht : t.Kept owns h')
    (hx : (h x).map owns = some xs) (hx' : (h' x).map owns = some (xs ++ t.roots))
    (hother : ∀ y ∈ f.nodes, y ≠ x → (h' y).map owns = (h y).map owns) (hnodup : f.nodes.Nodup) :
    (f.graft x t).Kept owns h' := by
  induction f with
  | nil => trivial
  | cons y below rest ihBelow ihRest =>
    obtain ⟨hy, hbelow, hrest⟩ := hf
    rw [nodes] at hother hnodup
    obtain ⟨hbelow', hrest', hdisjoint⟩ := List.nodup_append'.mp hnodup
    have hleft : ∀ z ∈ below.nodes, z ≠ x → (h' z).map owns = (h z).map owns :=
      fun z hz => hother z (List.mem_append_left _ hz)
    have hright : ∀ z ∈ rest.nodes, z ≠ x → (h' z).map owns = (h z).map owns :=
      fun z hz => hother z (List.mem_append_right _ (List.mem_cons_of_mem y hz))
    rw [Forest.graft]
    split_ifs with hyx
    · subst hyx
      -- `y` is neither below itself nor in another tree
      have hnotBelow : ∀ z ∈ below.nodes, z ≠ y := fun z hz hzy =>
        List.disjoint_left.mp hdisjoint hz (hzy ▸ List.mem_cons_self)
      have hnotRest : ∀ z ∈ rest.nodes, z ≠ y := fun z hz hzy =>
        (List.nodup_cons.mp hrest').1 (hzy ▸ hz)
      refine ⟨?_, kept_append.mpr ⟨?_, ht⟩, ?_⟩
      · rw [hx', roots_append, Option.some.inj (hx.symm.trans hy)]
      · exact hbelow.congr fun z hz => hleft z hz (hnotBelow z hz)
      · exact hrest.congr fun z hz => hright z hz (hnotRest z hz)
    · refine ⟨?_, ihBelow hbelow hleft hbelow', ihRest hrest hright (List.nodup_cons.mp hrest').2⟩
      rw [hother y (List.mem_append_right _ List.mem_cons_self) hyx, hy, roots_graft]

end Surgery

end Stores

end Forest

/-! ### Stores that are a forest -/

section Ownership

variable {ν α : Type} {owns : α → List ν} {h h' : ν → Option α} {f : Forest ν} {x y : ν}

/-- Cell `x` owns cell `y`. -/
def OwnsCell (owns : α → List ν) (h : ν → Option α) (x y : ν) : Prop :=
  ∃ xs, (h x).map owns = some xs ∧ y ∈ xs

theorem OwnsCell.isSome (hxy : OwnsCell owns h x y) : (h x).isSome = true := by
  obtain ⟨xs, hxs, -⟩ := hxy
  rw [← Option.isSome_map, hxs, Option.isSome_some]

/-- The store is this forest: the cells are its nodes, and it has no name twice. -/
structure Forest.Fills (owns : α → List ν) (h : ν → Option α) (f : Forest ν) : Prop where
  kept : f.Kept owns h
  nodup : f.nodes.Nodup
  mem : ∀ y, (h y).isSome = true → y ∈ f.nodes

namespace Forest

/-- What is below the nodes are nodes. -/
theorem Kept.mem_of_ownsCell (hf : f.Kept owns h) (hx : x ∈ f.nodes) (hxy : OwnsCell owns h x y) :
    y ∈ f.nodes := by
  obtain ⟨xs, hxs, hy⟩ := hxy
  obtain ⟨b, -, hroots, -, hsub⟩ := hf.exists_below hx
  obtain rfl := Option.some.inj (hxs.symm.trans hroots)
  exact hsub y (mem_nodes_of_mem_roots hy)

theorem Kept.mem_of_reachable (hf : f.Kept owns h) (hx : x ∈ f.nodes)
    (hxy : Relation.ReflTransGen (OwnsCell owns h) x y) : y ∈ f.nodes := by
  induction hxy with
  | refl => exact hx
  | tail _ hyz ih => exact hf.mem_of_ownsCell ih hyz

/-- Every node is a root or has an owner. -/
theorem Kept.exists_owner (hf : f.Kept owns h) (hy : y ∈ f.nodes) :
    y ∈ f.roots ∨ ∃ x, OwnsCell owns h x y := by
  induction f with
  | nil => cases hy
  | cons x below rest ihBelow ihRest =>
    obtain ⟨hx, hbelow, hrest⟩ := hf
    rcases List.mem_append.mp hy with hy | hy
    · rcases ihBelow hbelow hy with hy | howner
      · exact .inr ⟨x, below.roots, hx, hy⟩
      · exact .inr howner
    · rcases List.mem_cons.mp hy with rfl | hy
      · exact .inl List.mem_cons_self
      · exact (ihRest hrest hy).imp_left (List.mem_cons_of_mem x)

/-- Every node is below a root. -/
theorem Kept.exists_root (hf : f.Kept owns h) (hy : y ∈ f.nodes) :
    ∃ r ∈ f.roots, Relation.ReflTransGen (OwnsCell owns h) r y := by
  induction f with
  | nil => cases hy
  | cons x below rest ihBelow ihRest =>
    obtain ⟨hx, hbelow, hrest⟩ := hf
    rcases List.mem_append.mp hy with hy | hy
    · obtain ⟨r, hr, hreach⟩ := ihBelow hbelow hy
      exact ⟨x, List.mem_cons_self, .head ⟨below.roots, hx, hr⟩ hreach⟩
    · rcases List.mem_cons.mp hy with rfl | hy
      · exact ⟨y, List.mem_cons_self, .refl⟩
      · obtain ⟨r, hr, hreach⟩ := ihRest hrest hy
        exact ⟨r, List.mem_cons_of_mem x hr, hreach⟩

/-- Nothing owns a root. -/
theorem Kept.not_ownsCell_root (hf : f.Kept owns h) (hnodup : f.nodes.Nodup) (hr : y ∈ f.roots)
    (hx : x ∈ f.nodes) : ¬ OwnsCell owns h x y := by
  induction f with
  | nil => cases hr
  | cons z below rest ihBelow ihRest =>
    obtain ⟨hz, hbelow, hrest⟩ := hf
    rw [nodes] at hnodup hx
    obtain ⟨hbelow', hrest', hdisjoint⟩ := List.nodup_append'.mp hnodup
    have hright : y ∈ z :: rest.nodes := by
      rcases List.mem_cons.mp hr with rfl | hr
      · exact List.mem_cons_self
      · exact List.mem_cons_of_mem z (mem_nodes_of_mem_roots hr)
    intro hxy
    rcases List.mem_append.mp hx with hx | hx
    · -- what is below the first root is owned there
      exact List.disjoint_left.mp hdisjoint (hbelow.mem_of_ownsCell hx hxy) hright
    · rcases List.mem_cons.mp hx with rfl | hx
      · obtain ⟨xs, hxs, hy⟩ := hxy
        obtain rfl := Option.some.inj (hxs.symm.trans hz)
        exact List.disjoint_left.mp hdisjoint (mem_nodes_of_mem_roots hy) hright
      · have hyRest := hrest.mem_of_ownsCell hx hxy
        rcases List.mem_cons.mp hr with rfl | hr
        · exact (List.nodup_cons.mp hrest').1 hyRest
        · exact ihRest hrest (List.nodup_cons.mp hrest').2 hr hx hxy

/-- What is owned is in the store. -/
theorem Fills.isSome_of_ownsCell (hf : f.Fills owns h) (hxy : OwnsCell owns h x y) :
    (h y).isSome = true :=
  hf.kept.isSome (hf.kept.mem_of_ownsCell (hf.mem x hxy.isSome) hxy)

/-- The roots are the cells without an owner. -/
theorem Fills.mem_roots_iff (hf : f.Fills owns h) :
    y ∈ f.roots ↔ (h y).isSome = true ∧ ∀ x, ¬ OwnsCell owns h x y := by
  constructor
  · intro hr
    refine ⟨hf.kept.isSome (mem_nodes_of_mem_roots hr), fun x hxy => ?_⟩
    exact hf.kept.not_ownsCell_root hf.nodup hr (hf.mem x hxy.isSome) hxy
  · rintro ⟨hy, hno⟩
    refine (hf.kept.exists_owner (hf.mem y hy)).resolve_right ?_
    rintro ⟨x, hxy⟩
    exact hno x hxy

/-- No cell is below itself. -/
theorem Fills.irrefl (hf : f.Fills owns h) : ¬ Relation.TransGen (OwnsCell owns h) x x := by
  intro hcycle
  obtain ⟨y, hxy, hyx⟩ := Relation.TransGen.head'_iff.mp hcycle
  obtain ⟨b, hb, hroots, -⟩ := hf.kept.exists_below (hf.mem x hxy.isSome)
  obtain ⟨xs, hxs, hy⟩ := hxy
  obtain rfl := Option.some.inj (hxs.symm.trans hroots)
  exact hb.notMem_nodes hroots (hb.mem_of_reachable (mem_nodes_of_mem_roots hy) hyx)

/-- Only what the cells own matters. -/
theorem Fills.congr (hf : f.Fills owns h) (heq : ∀ y, (h' y).map owns = (h y).map owns) :
    f.Fills owns h' := by
  refine ⟨hf.kept.congr fun y _ => heq y, hf.nodup, fun y hy => hf.mem y ?_⟩
  rw [← Option.isSome_map, ← heq, Option.isSome_map]
  exact hy

end Forest

end Ownership

/-! ### Releasing -/

section Release

variable {ν α : Type} [DecidableEq ν] {owns : α → List ν} {h h' : ν → Option α} {f : Forest ν}
  {x y : ν} {xs l m : List ν} {n : ℕ}

/-- Take a cell out of the store after the cells that it owns. There is no result where a cell is
looked at that is not in the store, nor where `n` levels are not enough. -/
def release (owns : α → List ν) : ℕ → (ν → Option α) → ν → Option (ν → Option α)
  | 0, _, _ => none
  | n + 1, h, x =>
    match h x with
    | none => none
    | some a => ((owns a).foldlM (release owns n) h).map fun h' => Function.update h' x none

/-- The store without these cells. -/
def eraseAll (h : ν → Option α) (l : List ν) : ν → Option α := fun y => if y ∈ l then none else h y

theorem eraseAll_nil (h : ν → Option α) : eraseAll h [] = h := by
  funext y
  exact if_neg List.not_mem_nil

theorem eraseAll_append (h : ν → Option α) (l m : List ν) :
    eraseAll h (l ++ m) = eraseAll (eraseAll h l) m := by
  funext y
  by_cases hm : y ∈ m
  · exact (if_pos (List.mem_append_right l hm)).trans (if_pos hm).symm
  · simp only [eraseAll, List.mem_append, hm, or_false, if_false]

theorem eraseAll_singleton (h : ν → Option α) (x : ν) :
    eraseAll h [x] = Function.update h x none := by
  funext y
  simp only [eraseAll, Function.update_apply, List.mem_singleton]

theorem eraseAll_of_notMem (hy : y ∉ l) : eraseAll h l y = h y := if_neg hy

theorem notMem_of_isSome_eraseAll (hy : (eraseAll h l y).isSome = true) : y ∉ l := by
  intro hmem
  rw [eraseAll, if_pos hmem] at hy
  cases hy

theorem release_succ {a : α} (hx : h x = some a) :
    release owns (n + 1) h x =
      ((owns a).foldlM (release owns n) h).map fun h' => eraseAll h' [x] := by
  rw [release, hx]
  simp only [eraseAll_singleton]

/-- The cells of a forest are released, tree by tree. -/
theorem Forest.Kept.foldlM_release (hf : f.Kept owns h) (hnodup : f.nodes.Nodup)
    (hn : f.nodes.length ≤ n) :
    f.roots.foldlM (release owns n) h = some (eraseAll h f.nodes) := by
  induction f generalizing h n with
  | nil => rw [roots, nodes, eraseAll_nil]; rfl
  | cons x below rest ihBelow ihRest =>
    obtain ⟨hx, hbelow, hrest⟩ := hf
    obtain ⟨a, ha, howns⟩ := Option.map_eq_some_iff.mp hx
    rw [nodes] at hnodup hn ⊢
    rw [List.length_append, List.length_cons] at hn
    obtain ⟨hbelow', hrest', hdisjoint⟩ := List.nodup_append'.mp hnodup
    obtain ⟨n, rfl⟩ : ∃ k, n = k + 1 := ⟨n - 1, by omega⟩
    have hfirst : release owns (n + 1) h x = some (eraseAll h (below.nodes ++ [x])) := by
      rw [release_succ ha, howns, ihBelow hbelow hbelow' (by omega), Option.map_some,
        eraseAll_append]
    -- the other trees are untouched
    have hkept : rest.Kept owns (eraseAll h (below.nodes ++ [x])) := hrest.congr fun y hy => by
      have hne : y ∉ below.nodes ++ [x] := by
        rw [List.mem_append, List.mem_singleton, not_or]
        exact ⟨fun hmem => List.disjoint_left.mp hdisjoint hmem (List.mem_cons_of_mem x hy),
          fun heq => (List.nodup_cons.mp hrest').1 (heq ▸ hy)⟩
      rw [eraseAll_of_notMem hne]
    rw [roots, List.foldlM_cons, hfirst]
    refine (ihRest hkept (List.nodup_cons.mp hrest').2 (by omega)).trans ?_
    rw [← eraseAll_append, List.append_assoc, List.singleton_append]

/-- What was released was a forest. -/
theorem exists_kept_of_foldlM_release (hh' : xs.foldlM (release owns n) h = some h') :
    ∃ f : Forest ν, f.roots = xs ∧ f.Kept owns h ∧ f.nodes.Nodup ∧ h' = eraseAll h f.nodes := by
  induction n generalizing xs h h' with
  | zero =>
    cases xs with
    | nil =>
      obtain rfl := Option.some.inj hh'
      exact ⟨.nil, rfl, trivial, List.nodup_nil, (eraseAll_nil h).symm⟩
    | cons x xs => cases hh'
  | succ n ihn =>
    induction xs generalizing h with
    | nil =>
      obtain rfl := Option.some.inj hh'
      exact ⟨.nil, rfl, trivial, List.nodup_nil, (eraseAll_nil h).symm⟩
    | cons x xs ih =>
      rw [List.foldlM_cons] at hh'
      obtain ⟨h₁, hfirst, hrest⟩ := Option.bind_eq_some_iff.mp hh'
      obtain ⟨a, ha⟩ : ∃ a, h x = some a := by
        cases hx : h x with
        | none => rw [release, hx] at hfirst; cases hfirst
        | some a => exact ⟨a, rfl⟩
      rw [release_succ ha] at hfirst
      obtain ⟨h₀, hbelow, rfl⟩ := Option.map_eq_some_iff.mp hfirst
      obtain ⟨below, hroots, hkept, hnodup, rfl⟩ := ihn hbelow
      obtain ⟨rest, rfl, hkept', hnodup', rfl⟩ := ih hrest
      have hx : (h x).map owns = some below.roots := by rw [ha, hroots, Option.map_some]
      rw [← eraseAll_append] at hkept' ⊢
      -- what is left in the store was there before
      have hleft : ∀ y ∈ rest.nodes, y ∉ below.nodes ++ [x] := fun y hy =>
        notMem_of_isSome_eraseAll (hkept'.isSome hy)
      refine ⟨.cons x below rest, rfl, ⟨hx, hkept, ?_⟩, ?_, ?_⟩
      · exact hkept'.congr fun y hy => by rw [eraseAll_of_notMem (hleft y hy)]
      · rw [Forest.nodes, ← List.singleton_append, ← List.append_assoc]
        refine List.nodup_append'.mpr ⟨?_, hnodup', ?_⟩
        · refine List.nodup_append'.mpr ⟨hnodup, List.nodup_singleton x, ?_⟩
          exact List.disjoint_singleton.mpr (hkept.notMem_nodes hx)
        · exact List.disjoint_right.mpr hleft
      · rw [Forest.nodes, ← eraseAll_append, List.cons_append, List.nil_append]

/-- **Releasing a cell** ends without a look at a cell that is gone if and only if the store keeps a
tree with this root and no name twice. The nodes of the tree are what is released. -/
theorem release_eq_some_iff : (∃ n, release owns n h x = some h') ↔
    ∃ f : Forest ν, f.roots = [x] ∧ f.Kept owns h ∧ f.nodes.Nodup ∧
      h' = eraseAll h f.nodes := by
  have hsingle : ∀ n, [x].foldlM (release owns n) h = release owns n h x := fun n => by
    rw [List.foldlM_cons]
    exact bind_pure _
  constructor
  · rintro ⟨n, hn⟩
    exact exists_kept_of_foldlM_release ((hsingle n).trans hn)
  · rintro ⟨f, hroots, hkept, hnodup, rfl⟩
    refine ⟨f.nodes.length, ?_⟩
    rw [← hsingle, ← hroots, hkept.foldlM_release hnodup (Nat.le_refl _)]

namespace Forest

/-- A new cell, which owns nothing. -/
theorem Fills.alloc {a : α} (hf : f.Fills owns h) (hx : h x = none) (ha : owns a = []) :
    (cons x nil f).Fills owns (Function.update h x (some a)) := by
  have hnot : x ∉ f.nodes := fun hmem => by
    have hsome := hf.kept.isSome hmem
    rw [hx] at hsome
    cases hsome
  refine ⟨⟨?_, trivial, hf.kept.congr fun y hy => ?_⟩, List.nodup_cons.mpr ⟨hnot, hf.nodup⟩, ?_⟩
  · rw [Function.update_self, Option.map_some, ha]
    rfl
  · have hne : y ≠ x := fun heq => hnot (heq ▸ hy)
    rw [Function.update_of_ne hne]
  · intro y hy
    rcases eq_or_ne y x with rfl | hne
    · exact List.mem_cons_self
    · rw [Function.update_of_ne hne] at hy
      exact List.mem_cons_of_mem x (hf.mem y hy)

theorem Fills.nodup_surgery (hf : f.Fills owns h) (hy : y ∈ f.roots) :
    (f.tree y).nodes.Nodup ∧ (f.without y).nodes.Nodup ∧
      List.Disjoint (f.tree y).nodes (f.without y).nodes :=
  List.nodup_append'.mp ((nodes_tree_append_without hy).nodup_iff.mpr hf.nodup)

/-- A cell is below one root only. -/
theorem Fills.root_unique (hf : f.Fills owns h) {r s : ν} (hr : r ∈ f.roots) (hs : s ∈ f.roots)
    (hrx : Relation.ReflTransGen (OwnsCell owns h) r x)
    (hsx : Relation.ReflTransGen (OwnsCell owns h) s x) : r = s := by
  by_contra hne
  have hr' : r ∈ (f.tree r).roots := roots_tree hr ▸ List.mem_singleton_self r
  have hs' : s ∈ (f.without r).roots := mem_roots_without_of_ne hs (Ne.symm hne)
  exact List.disjoint_left.mp (hf.nodup_surgery hr).2.2
    ((hf.kept.tree r).mem_of_reachable (mem_nodes_of_mem_roots hr') hrx)
    ((hf.kept.without r).mem_of_reachable (mem_nodes_of_mem_roots hs') hsx)

/-- A cell is given a root, which it is not below. -/
theorem Fills.give (hf : f.Fills owns h) (hy : y ∈ f.roots) (hx : (h x).map owns = some xs)
    (hnot : ¬ Relation.ReflTransGen (OwnsCell owns h) y x)
    (hx' : (h' x).map owns = some (xs ++ [y]))
    (hother : ∀ z, z ≠ x → (h' z).map owns = (h z).map owns) :
    ((f.without y).graft x (f.tree y)).Fills owns h' := by
  have hroots := roots_tree hy
  obtain ⟨htree, hwithout, hdisjoint⟩ := hf.nodup_surgery hy
  have hsome : (h x).isSome = true := by rw [← Option.isSome_map, hx, Option.isSome_some]
  -- `x` is in another tree
  have hxTree : x ∉ (f.tree y).nodes := by
    intro hmem
    obtain ⟨r, hr, hreach⟩ := (hf.kept.tree y).exists_root hmem
    rw [hroots, List.mem_singleton] at hr
    exact hnot (hr ▸ hreach)
  have hxWithout : x ∈ (f.without y).nodes := by
    have hmem := (nodes_tree_append_without hy).mem_iff.mpr (hf.mem x hsome)
    exact (List.mem_append.mp hmem).resolve_left hxTree
  have hperm : ((f.without y).graft x (f.tree y)).nodes.Perm f.nodes :=
    (nodes_graft hxWithout hwithout).trans (nodes_tree_append_without hy)
  refine ⟨?_, hperm.nodup_iff.mpr hf.nodup, fun z hz => ?_⟩
  · refine (hf.kept.without y).graft ?_ hx ?_ (fun z _ hne => hother z hne) hwithout
    · exact (hf.kept.tree y).congr fun z hz => hother z fun heq => hxTree (heq ▸ hz)
    · rw [hroots, hx']
  · refine hperm.mem_iff.mpr (hf.mem z ?_)
    rcases eq_or_ne z x with rfl | hne
    · exact hsome
    · rw [← Option.isSome_map, ← hother z hne, Option.isSome_map]
      exact hz

/-- A root is released: its tree is gone, and the others are as they were. -/
theorem Fills.release (hf : f.Fills owns h) (hy : y ∈ f.roots) :
    (∃ n, release owns n h y = some (eraseAll h (f.tree y).nodes)) ∧
      (f.without y).Fills owns (eraseAll h (f.tree y).nodes) := by
  obtain ⟨htree, hwithout, hdisjoint⟩ := hf.nodup_surgery hy
  refine ⟨release_eq_some_iff.mpr ⟨f.tree y, roots_tree hy, hf.kept.tree y, htree, rfl⟩, ?_⟩
  refine ⟨(hf.kept.without y).congr fun z hz => ?_, hwithout, fun z hz => ?_⟩
  · rw [eraseAll_of_notMem (List.disjoint_right.mp hdisjoint hz)]
  · have hnot := notMem_of_isSome_eraseAll hz
    rw [eraseAll_of_notMem hnot] at hz
    have hmem := (nodes_tree_append_without hy).mem_iff.mpr (hf.mem z hz)
    exact (List.mem_append.mp hmem).resolve_left hnot

end Forest

end Release

end Intent
