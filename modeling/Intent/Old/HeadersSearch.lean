import Intent.Library.SearchTree
import Intent.Old.HeadersIndex
import Mathlib.Data.List.Pairwise

/-!
# The search for a header

The map of an `impl_t` is a `std::map`, which takes from its comparator that it is a strict weak
order. `header_is_less` is one on names that are pairwise `Comparable` (`header_order_iff`), and
not on `a`, `A` and `_`: a search tree that has them may miss a name or store it twice.

Here is the tree. If the names that are set into a map are comparable, then whatever the shape of
the tree, a lookup finds what `HeadersMap.find` does (`treeFind_of_stores`), and an assignment
stores what `HeadersMap.assign` gives (`stores_treeAssign`). `orderly_of_reaches` says that the
maps of every state that such a run reaches are of this kind.
-/

namespace Intent.Old.Headers

/-! ### Names -/

/-- Two names, in any spelling, do not first differ in a letter and a character between the
cases. -/
def Comparable (a b : CString) : Prop :=
  ¬ Interleaved (a.chars.map toLower) (b.chars.map toLower) ∧
    ¬ Interleaved (b.chars.map toLower) (a.chars.map toLower)

/-- A name is comparable with all names of a map. -/
def HeadersMap.Admits (map : HeadersMap) (header : CString) : Prop :=
  ∀ entry ∈ map, Comparable entry.1 header

/-- The names of a map are comparable. -/
def HeadersMap.Orderly (map : HeadersMap) : Prop := ∀ entry ∈ map, map.Admits entry.1

/-- An operation that sets no name into a map that does not admit it. -/
def State.Admits (s : State) : Op → Prop
  | .set o header _ =>
    ∀ i x, s.objects[o]? = some i → s.heap.at? i = some x → x.map.Admits header
  | _ => True

section Names

variable {a b c : CString}

theorem not_interleaved_self (l : List Int8) : ¬ Interleaved l l := by
  induction l with
  | nil => exact id
  | cons x l ih => rwa [Interleaved, if_pos rfl]

theorem Comparable.refl (a : CString) : Comparable a a :=
  ⟨not_interleaved_self _, not_interleaved_self _⟩

theorem Comparable.symm (h : Comparable a b) : Comparable b a := ⟨h.2, h.1⟩

/-- The spelling is of no account. -/
theorem Comparable.congr (h : Comparable a b) (hsame : sameHeader b c = true) :
    Comparable a c := by
  rw [Comparable, ← sameHeader_iff.mp hsame]
  exact h

/-- The second of two interleaved names has a character between the cases. -/
theorem not_interleaved {l l' : List Int8} (h : ∀ c ∈ l', ¬ IsBetween c) :
    ¬ Interleaved l l' := by
  induction l generalizing l' with
  | nil => exact id
  | cons x l ih =>
    cases l' with
    | nil => exact id
    | cons y l' =>
      obtain ⟨hy, hrest⟩ := List.forall_mem_cons.mp h
      rw [Interleaved]
      split_ifs
      · exact ih hrest
      · exact fun hboth => hy hboth.2

/-- **Names without the six characters** between the cases are comparable, as those of letters,
digits and `-`. -/
theorem comparable_of_not_isBetween (ha : ∀ c ∈ a.chars, ¬ IsBetween c)
    (hb : ∀ c ∈ b.chars, ¬ IsBetween c) : Comparable a b := by
  have hfold : ∀ {c : CString}, (∀ x ∈ c.chars, ¬ IsBetween x) →
      ∀ x ∈ c.chars.map toLower, ¬ IsBetween x := by
    intro c hc x hx
    obtain ⟨y, hy, rfl⟩ := List.mem_map.mp hx
    have hbetween := hc y hy
    rw [isBetween_iff] at hbetween ⊢
    rw [toInt_toLower]
    split_ifs <;> omega
  exact ⟨not_interleaved (hfold hb), not_interleaved (hfold ha)⟩

/-- Comparable names are compared by their keys. -/
theorem headerIsLess_iff (h : Comparable a b) :
    headerIsLess a b = true ↔ headerKey a.chars < headerKey b.chars := by
  rw [headerIsLess, compareStrAsciiCaseInsensitive, decide_eq_true_iff,
    compareFrom_eq_of_not_interleaved a.nonzero b.nonzero h.1 h.2, compareKeys_neg]

theorem sameHeader_of_headerKey_eq (h : Comparable a b)
    (hkey : headerKey a.chars = headerKey b.chars) : sameHeader a b = true := by
  rw [sameHeader_iff, ← compareFrom_eq_zero a.nonzero b.nonzero,
    compareFrom_eq_of_not_interleaved a.nonzero b.nonzero h.1 h.2, compareKeys_eq_zero]
  exact hkey

end Names

/-! ### The entries in their order -/

section Entries

variable {map : HeadersMap} {header : CString} {l : List (CString × CString)}

/-- The entries are in the order of their keys. -/
abbrev Sorted (l : List (CString × CString)) : Prop :=
  l.Pairwise fun entry entry' => headerKey entry.1.chars ≤ headerKey entry'.1.chars

theorem sorted_entries (hmap : map.Orderly) : Sorted map.entries := by
  have hmapped : map.entries.map (fun entry => headerKey entry.1.chars) =
      List.insertionSort (· ≤ ·) (List.map (fun entry => headerKey entry.1.chars) map) := by
    refine List.map_insertionSort _ _ _ map fun entry he entry' he' => ?_
    rw [← Bool.not_eq_true, headerIsLess_iff (hmap entry he entry' he'), not_lt]
  have hsorted := List.pairwise_insertionSort (· ≤ ·)
    (List.map (fun entry => headerKey entry.1.chars) map)
  rw [← hmapped] at hsorted
  exact List.pairwise_map.mp hsorted

/-- A new entry between those with smaller keys and those with larger ones. -/
theorem sorted_insert {r : List (CString × CString)} {entry : CString × CString}
    (h : Sorted (l ++ r))
    (hl : ∀ entry' ∈ l, headerKey entry'.1.chars ≤ headerKey entry.1.chars)
    (hr : ∀ entry' ∈ r, headerKey entry.1.chars ≤ headerKey entry'.1.chars) :
    Sorted (l ++ entry :: r) := by
  obtain ⟨hleft, hright, hcross⟩ := List.pairwise_append.mp h
  refine List.pairwise_append.mpr ⟨hleft, List.pairwise_cons.mpr ⟨hr, hright⟩, ?_⟩
  exact fun entry' he' => List.forall_mem_cons.mpr ⟨hl entry' he', hcross entry' he'⟩

/-- A name that is comparable with all others has its place among them. -/
theorem located_of_sorted (hl : Sorted l) (hadmits : ∀ entry ∈ l, Comparable entry.1 header) :
    Located headerIsLess header l where
  before := by
    refine hl.imp_of_mem fun {entry entry'} he he' hle hless => ?_
    rw [headerIsLess_iff (hadmits entry' he')] at hless
    exact (headerIsLess_iff (hadmits entry he)).mpr (hle.trans_lt hless)
  after := by
    refine hl.imp_of_mem fun {entry entry'} he he' hle hless => ?_
    rw [headerIsLess_iff (hadmits entry he).symm] at hless
    exact (headerIsLess_iff (hadmits entry' he').symm).mpr (hless.trans_le hle)

end Entries

/-! ### The tree -/

/-- A search tree has the entries of a map. -/
def Stores (t : BinaryTree (CString × CString)) (map : HeadersMap) : Prop :=
  inorder t = map.entries

section Tree

variable {t : BinaryTree (CString × CString)} {map : HeadersMap} {header : CString}

/-- **A lookup in the tree**, for any name. -/
theorem treeFind_of_stores (hmap : map.Orderly) (hdistinct : DistinctKeys sameHeader map)
    (h : Stores t map) (header : CString) : treeFind headerIsLess t header = map.find header := by
  have hmem : ∀ entry ∈ map.entries, entry ∈ map := fun entry he =>
    (Heap.perm_entries map).mem_iff.mp he
  rw [treeFind_eq, h]
  · exact Heap.find_entries hdistinct header
  · rw [h]
    rintro ⟨entry, he, hsame⟩
    exact located_of_sorted (sorted_entries hmap) fun entry' he' =>
      (hmap entry (hmem entry he) entry' (hmem entry' he')).congr hsame

/-- An assignment keeps the names comparable. -/
theorem orderly_assign (hmap : map.Orderly) (hadmits : map.Admits header) (value : CString) :
    (map.assign header value).Orderly := by
  rw [HeadersMap.assign]
  split_ifs with hfound
  · intro entry he entry' he'
    obtain ⟨old, hold, rfl⟩ := List.mem_map.mp he
    obtain ⟨old', hold', rfl⟩ := List.mem_map.mp he'
    split_ifs <;> exact hmap old hold old' hold'
  · refine List.forall_mem_cons.mpr ⟨?_, fun entry he => ?_⟩
    · exact List.forall_mem_cons.mpr ⟨.refl header, hadmits⟩
    · exact List.forall_mem_cons.mpr ⟨(hadmits entry he).symm, hmap entry he⟩

/-- Entries with distinct names in the order of their keys are in one order only. -/
theorem eq_of_sorted {l l' : List (CString × CString)} (hmap : map.Orderly)
    (hdistinct : DistinctKeys sameHeader map) (hl : l.Perm map) (hl' : l'.Perm map)
    (hsorted : Sorted l) (hsorted' : Sorted l') : l = l' := by
  have : Std.Symm fun e e' : CString × CString => sameHeader e.1 e'.1 = false := by
    refine ⟨fun e e' hne => ?_⟩
    rw [← Bool.not_eq_true] at hne ⊢
    exact fun heq => hne (sameHeader_equivalence.symm heq)
  refine (hl.trans hl'.symm).eq_of_pairwise (fun e e' he he' hle hle' => ?_) hsorted hsorted'
  have hmem := hl.mem_iff.mp he
  have hmem' := hl'.mem_iff.mp he'
  by_contra hne
  have hsame := sameHeader_of_headerKey_eq (hmap e' hmem' e hmem) (le_antisymm hle hle')
  have hother := hdistinct.forall hmem hmem' hne
  rw [hsame] at hother
  cases hother

/-- **An assignment in the tree.** -/
theorem stores_treeAssign (hmap : map.Orderly) (hdistinct : DistinctKeys sameHeader map)
    (hadmits : map.Admits header) (h : Stores t map) (value : CString) :
    Stores (treeAssign headerIsLess t header value) (map.assign header value) := by
  have horderly := orderly_assign hmap hadmits value
  have hassign := distinctKeys_assign hdistinct header value
  rw [treeAssign, treeFind_of_stores hmap hdistinct h]
  rw [HeadersMap.assign] at horderly hassign ⊢
  split_ifs at horderly hassign ⊢ with hfound
  · rw [Stores, inorder_map, h]
    -- the names of the entries, and with them their order, are the same
    refine List.map_insertionSort _ _ _ map fun entry _ entry' _ => ?_
    split_ifs <;> rfl
  · have hlocated := located_of_sorted (sorted_entries hmap) fun entry he =>
      hadmits entry ((Heap.perm_entries map).mem_iff.mp he)
    rw [← h] at hlocated
    obtain ⟨l, r, hsplit, hnew, hl, hr⟩ := exists_inorder_insertAt hlocated.before (header, value)
    have hentries : (l ++ r).Perm map := by
      rw [← hsplit, h]
      exact Heap.perm_entries map
    have hmem : ∀ entry ∈ l ++ r, entry ∈ map := fun entry => hentries.mem_iff.mp
    have hperm : (l ++ (header, value) :: r).Perm ((header, value) :: map) :=
      List.perm_middle.trans (hentries.cons _)
    have hsorted := sorted_entries hmap
    rw [← h, hsplit] at hsorted
    refine hnew.trans (eq_of_sorted horderly hassign hperm (Heap.perm_entries _) ?_
      (sorted_entries horderly))
    refine sorted_insert hsorted (fun entry he => ?_) fun entry he => ?_
    · have hentry := hmem entry (List.mem_append_left r he)
      exact ((headerIsLess_iff (hadmits entry hentry)).mp (hl entry he)).le
    · have hentry := hmem entry (List.mem_append_right l he)
      have hless := hr entry he
      rwa [← Bool.not_eq_true, headerIsLess_iff (hadmits entry hentry), not_lt] at hless

end Tree

/-! ### Runs -/

/-- **The maps of every state** that a run of comparable names reaches: what is stored in a search
tree is found in it as in the map. -/
theorem orderly_of_reaches {s : State} (h : Reaches State.Step State.Admits .initial s) {i : ℕ}
    {x : Impl} (hx : s.heap.at? i = some x) :
    x.map.Orderly ∧ DistinctKeys sameHeader x.map := by
  have hmaps := h.invariant (P := fun s => ∀ i x, s.heap.at? i = some x →
      x.map.Orderly ∧ DistinctKeys sameHeader x.map) (fun i x hx => by cases hx) ?_
  · exact hmaps i x hx
  · intro s s' op hmaps hadmits hstep
    refine maps_step (P := fun map => map.Orderly ∧ DistinctKeys sameHeader map) hmaps
      ⟨List.forall_mem_nil _, List.Pairwise.nil⟩ ?_ hstep
    rintro o header value i x rfl ho hx -
    obtain ⟨hmap, hdistinct⟩ := hmaps i x hx
    exact ⟨orderly_assign hmap (hadmits i x ho hx) value,
      distinctKeys_assign hdistinct header value⟩

end Intent.Old.Headers
