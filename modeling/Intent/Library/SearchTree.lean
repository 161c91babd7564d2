import Intent.Library.Layers
import Mathlib.Data.Tree.Basic

/-!
# Search trees

A search descends from the root: to the right of an element that comes before the key, to the left
of any other. What it can compare is given by a test `before`, so that nothing is assumed of an
order. `lowerBound` is the last element that the search left to the left, `insertAt` puts a new
element where the search ends.

If the elements before the key come first in the tree, `lowerBound` is the first one that does not
come before it (`lowerBound_eq`), and a new element comes between the two parts
(`exists_inorder_insertAt`). Neither depends on how the tree is balanced.

A map is a tree of entries. `treeFind` and `treeAssign` compare keys by any function `less`;
`treeFind_eq` says when a search comes to the entry that a look at all of them would find.
-/

namespace Intent

variable {α : Type}

/-- The elements from the left to the right. -/
def inorder : BinaryTree α → List α
  | .nil => []
  | .node x left right => inorder left ++ x :: inorder right

/-- The last element that the search left to the left, or `found` if there is none. -/
def lowerBound (before : α → Bool) : BinaryTree α → Option α → Option α
  | .nil, found => found
  | .node x left right, found =>
    if before x then lowerBound before right found else lowerBound before left (some x)

/-- A new element where the search ends. -/
def insertAt (before : α → Bool) (y : α) : BinaryTree α → BinaryTree α
  | .nil => .node y .nil .nil
  | .node x left right =>
    if before x then .node x left (insertAt before y right)
    else .node x (insertAt before y left) right

/-- The elements before the key come first. -/
def Partitioned (before : α → Bool) (l : List α) : Prop :=
  l.Pairwise fun x y => before y = true → before x = true

variable {before : α → Bool} {t left right : BinaryTree α} {x y : α} {found : Option α}

/-- A change of the elements keeps their places. -/
theorem inorder_map (f : α → α) (t : BinaryTree α) : inorder (t.map f) = (inorder t).map f := by
  induction t with
  | nil => rfl
  | node x left right ihl ihr =>
    rw [BinaryTree.map, inorder, ihl, ihr, inorder, List.map_append, List.map_cons]

/-- What a search finds does not come before the key, in any tree. -/
theorem mem_of_lowerBound (h : lowerBound before t found = some x) :
    x ∈ inorder t ∧ before x = false ∨ found = some x := by
  induction t generalizing found with
  | nil => exact .inr h
  | node y left right ihl ihr =>
    rw [lowerBound] at h
    rw [inorder, List.mem_append, List.mem_cons]
    split_ifs at h with hy
    · rcases ihr h with ⟨hmem, hx⟩ | hfound
      · exact .inl ⟨.inr (.inr hmem), hx⟩
      · exact .inr hfound
    · rcases ihl h with ⟨hmem, hx⟩ | hfound
      · exact .inl ⟨.inl hmem, hx⟩
      · obtain rfl := Option.some.inj hfound
        exact .inl ⟨.inr (.inl rfl), Bool.not_eq_true _ ▸ hy⟩

/-- The three parts of a partitioned tree. -/
theorem Partitioned.of_node (h : Partitioned before (inorder (.node x left right))) :
    Partitioned before (inorder left) ∧ Partitioned before (inorder right) ∧
      (before x = true → ∀ y ∈ inorder left, before y = true) ∧
      (before x = false → ∀ y ∈ inorder right, before y = false) := by
  obtain ⟨hleft, hrest, hcross⟩ := List.pairwise_append.mp h
  obtain ⟨hx, hright⟩ := List.pairwise_cons.mp hrest
  refine ⟨hleft, hright, fun hbefore y hy => hcross y hy x List.mem_cons_self hbefore,
    fun hbefore y hy => ?_⟩
  by_contra hne
  rw [hx y hy (Bool.not_eq_false _ ▸ hne)] at hbefore
  cases hbefore

/-- **A search** finds the first element that does not come before the key. -/
theorem lowerBound_eq (h : Partitioned before (inorder t)) :
    lowerBound before t found = ((inorder t).find? fun x => !before x).or found := by
  induction t generalizing found with
  | nil => rfl
  | node x left right ihl ihr =>
    obtain ⟨hleft, hright, hbefore, -⟩ := h.of_node
    rw [lowerBound, inorder, List.find?_append]
    cases hx : before x with
    | true =>
      have hnone : (inorder left).find? (fun x => !before x) = none :=
        List.find?_eq_none.mpr fun y hy => by rw [hbefore hx y hy]; decide
      rw [if_pos rfl, ihr hright, hnone, Option.none_or, List.find?_cons, hx]
      rfl
    | false =>
      rw [if_neg Bool.false_ne_true, ihl hleft, List.find?_cons, hx, Option.or_assoc]
      rfl

/-- **A new element** comes between those before the key and the others. -/
theorem exists_inorder_insertAt (h : Partitioned before (inorder t)) (y : α) :
    ∃ l r, inorder t = l ++ r ∧ inorder (insertAt before y t) = l ++ y :: r ∧
      (∀ x ∈ l, before x = true) ∧ ∀ x ∈ r, before x = false := by
  induction t with
  | nil => exact ⟨[], [], rfl, rfl, List.forall_mem_nil _, List.forall_mem_nil _⟩
  | node x left right ihl ihr =>
    obtain ⟨hleft, hright, hbefore, hafter⟩ := h.of_node
    rw [insertAt, inorder]
    cases hx : before x with
    | true =>
      obtain ⟨l, r, hsplit, hnew, hl, hr⟩ := ihr hright
      refine ⟨inorder left ++ x :: l, r, ?_, ?_, ?_, hr⟩
      · rw [hsplit, List.append_assoc, List.cons_append]
      · rw [if_pos rfl, inorder, hnew, List.append_assoc, List.cons_append]
      · exact List.forall_mem_append.mpr ⟨hbefore hx, List.forall_mem_cons.mpr ⟨hx, hl⟩⟩
    | false =>
      obtain ⟨l, r, hsplit, hnew, hl, hr⟩ := ihl hleft
      refine ⟨l, r ++ x :: inorder right, ?_, ?_, hl, ?_⟩
      · rw [hsplit, List.append_assoc]
      · rw [if_neg Bool.false_ne_true, inorder, hnew, List.append_assoc, List.cons_append]
      · exact List.forall_mem_append.mpr ⟨hr, List.forall_mem_cons.mpr ⟨hx, hafter hx⟩⟩

/-! ### Maps -/

section Maps

variable {κ ν : Type} (less : κ → κ → Bool)

/-- Neither of two keys comes before the other. -/
def sameKey (k l : κ) : Bool := !less k l && !less l k

/-- The value of a key: that of the lower bound, if the key does not come before it. -/
def treeFind (t : BinaryTree (κ × ν)) (k : κ) : Option ν :=
  ((lowerBound (fun e => less e.1 k) t none).filter fun e => !less k e.1).map (·.2)

/-- A new value of a key, in its entry or in a new one. -/
def treeAssign (t : BinaryTree (κ × ν)) (k : κ) (v : ν) : BinaryTree (κ × ν) :=
  if (treeFind less t k).isSome then t.map fun e => if sameKey less e.1 k then (e.1, v) else e
  else insertAt (fun e => less e.1 k) (k, v) t

/-- A key has its place among the entries: those before it come first, and those after it last. -/
structure Located (k : κ) (l : List (κ × ν)) : Prop where
  before : Partitioned (fun e => less e.1 k) l
  after : l.Pairwise fun e e' => less k e.1 = true → less k e'.1 = true

variable {less} {t : BinaryTree (κ × ν)} {l : List (κ × ν)} {k : κ}

/-- The first entry that does not come before a key is the entry of the key. -/
theorem Located.find?_eq (h : Located less k l) (hk : ∃ e ∈ l, sameKey less e.1 k = true) :
    (l.find? fun e => !less e.1 k) = l.find? fun e => sameKey less e.1 k := by
  induction l with
  | nil => rfl
  | cons e l ih =>
    obtain ⟨-, hbefore⟩ := List.pairwise_cons.mp h.before
    obtain ⟨hlast, hafter⟩ := List.pairwise_cons.mp h.after
    obtain ⟨e', he', hsame⟩ := hk
    have hsame' := hsame
    rw [sameKey, Bool.and_eq_true, Bool.not_eq_true', Bool.not_eq_true'] at hsame'
    rw [List.find?_cons, List.find?_cons, sameKey]
    rcases List.mem_cons.mp he' with rfl | hmem
    · rw [hsame'.1, hsame'.2]
      rfl
    · -- the entry itself does not come after the key, for then all others would
      have hkey : less k e.1 = false := by
        by_contra hne
        rw [hlast e' hmem (Bool.not_eq_false _ ▸ hne)] at hsame'
        cases hsame'.2
      rw [hkey, Bool.not_false, Bool.and_true]
      cases less e.1 k with
      | true => exact ih ⟨hbefore, hafter⟩ ⟨e', hmem, hsame⟩
      | false => rfl

/-- **The lookup in a tree** is the one among all entries, if the keys of the tree that are the
same as another one have their places. -/
theorem treeFind_eq
    (h : (∃ e ∈ inorder t, sameKey less e.1 k = true) → Located less k (inorder t)) :
    treeFind less t k = assocFind (sameKey less) (inorder t) k := by
  by_cases hk : ∃ e ∈ inorder t, sameKey less e.1 k = true
  · rw [treeFind, lowerBound_eq (h hk).before, Option.or_none, (h hk).find?_eq hk, assocFind]
    cases hfind : (inorder t).find? fun e => sameKey less e.1 k with
    | none => rfl
    | some e =>
      have hsame := List.find?_some hfind
      rw [sameKey, Bool.and_eq_true] at hsame
      rw [Option.filter_some, hsame.2]
      rfl
  · -- whatever the search comes to, it is not the key
    have hnone : ¬ (assocFind (sameKey less) (inorder t) k).isSome = true :=
      mt isSome_assocFind_iff.mp hk
    rw [Option.not_isSome_iff_eq_none] at hnone
    rw [hnone, treeFind, Option.map_eq_none_iff, Option.filter_eq_none_iff]
    intro e he hkey
    rcases mem_of_lowerBound he with ⟨hmem, hbefore⟩ | hfound
    · refine hk ⟨e, hmem, ?_⟩
      rw [sameKey, hbefore, hkey]
      rfl
    · cases hfound

end Maps

end Intent
