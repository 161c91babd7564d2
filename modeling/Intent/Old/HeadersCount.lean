import Intent.Old.HeadersSearch
import Mathlib.Data.Set.Card

/-!
# Counting headers

`get_header_count` makes the walk of `get_header_by_index`, but its inner loop has a variable of
the same name as the counter: `++i` moves the iterator, and the counter stays. So the result is
the number of headers of the object itself, if there is one at all, for an iterator that moves
beyond the end of a map is undefined. `getHeaderCount_eq_iff` says that this is the number of
visible headers exactly where no header is inherited. It is about runs with comparable names, where
the maps are those of the code (`treeFind_of_stores`, `stores_treeAssign`).
-/

namespace Intent.Old.Headers

/-! ### The walk -/

/-- The inner loop of `get_header_count`, from an iterator on, which `++i` in the loop moves as
well: it has no result when the iterator moves beyond `map.end()`. -/
def countEntries (masked : CString → Option Bool) : List (CString × CString) → Option Unit
  | [] => some ()
  | entry :: entries =>
    (masked entry.1).bind fun isMasked =>
      if !isMasked then
        match entries with
        | [] => none
        | _ :: entries => countEntries masked entries
      else countEntries masked entries

namespace Heap

/-- The outer loop of `get_header_count`. -/
def countLayers (h : Heap) (fuel impl : ℕ) : ℕ → Option ℕ → Option Unit
  | _, none => some ()
  | 0, some _ => none
  | n + 1, some ancestor =>
    if ancestor = impl then some ()
    else
      (h.at? ancestor).bind fun x =>
        (countEntries (fun header => h.isMasked header ancestor fuel (some impl))
            x.map.entries).bind fun _ =>
          (h.getAncestorAfter (some ancestor) fuel (some impl)).bind fun next =>
            h.countLayers fuel impl n next

/-- `get_header_count`, an `unsigned`. -/
def getHeaderCount (h : Heap) (fuel impl : ℕ) : Option ℕ :=
  (h.getAncestorAfter none fuel (some impl)).bind fun ancestor =>
    (h.countLayers fuel impl fuel ancestor).bind fun _ =>
      (h.at? impl).map fun x => x.map.length % 2 ^ 32

end Heap

/-- The inner loop of `get_header_count` comes to its end if all entries are masked. -/
theorem countEntries_of_masked (hm : ∀ entry ∈ entries, masked entry.1 = some true) :
    countEntries masked entries = some () := by
  induction entries with
  | nil => rfl
  | cons entry entries ih =>
    obtain ⟨hhead, htail⟩ := List.forall_mem_cons.mp hm
    rw [countEntries.eq_def]
    dsimp only
    rw [hhead]
    exact ih htail

namespace Heap

section Count

variable {h : Heap} {near rest : List ℕ} {a impl fuel n : ℕ}

/-- **The outer loop of `get_header_count`** comes to its end if the object masks all others. -/
theorem countLayers_of_masked (hv : Visits h.next (some impl) (near.reverse ++ a :: rest))
    (hfuel : (near.reverse ++ a :: rest).length ≤ fuel) (hn : near.length < n)
    (hmasked : ∀ b, ∀ entry ∈ h.mapAt b, b ∈ near.reverse ++ a :: rest →
      ((h.mapAt impl).find entry.1).isSome = true) :
    h.countLayers fuel impl n (some a) = some () := by
  induction n generalizing near a rest with
  | zero => exact absurd hn (Nat.not_lt_zero _)
  | succ n ih =>
    obtain ⟨x, hx, hmap⟩ := exists_at?_of_visits hv (by simp : a ∈ near.reverse ++ a :: rest)
    have hlen : (near.reverse ++ a :: rest).length = near.reverse.length + (rest.length + 1) :=
      List.length_append
    rw [countLayers]
    by_cases himpl : a = impl
    · rw [if_pos himpl]
    -- the object is among the nearer layers
    have hmem : impl ∈ near.reverse := by
      cases hnear : near.reverse with
      | nil =>
        rw [hnear] at hv
        cases hv
        exact absurd rfl himpl
      | cons b t =>
        rw [hnear] at hv
        cases hv
        exact List.mem_cons_self
    have hperm := perm_entries (h.mapAt a)
    rw [if_neg himpl, hx, Option.bind_some, ← hmap, countEntries_of_masked, Option.bind_some,
      getAncestorAfter_eq _ hv hfuel, find?_next_eq hv, Option.bind_some, List.getLast?_reverse]
    · cases near with
      | nil => cases hmem
      | cons b near =>
        have hsplit : (b :: near).reverse ++ a :: rest = near.reverse ++ b :: a :: rest := by simp
        rw [hsplit] at hv hfuel hmasked
        exact ih hv hfuel (Nat.lt_of_succ_lt_succ hn) hmasked
    · intro entry he
      rw [isMasked_eq entry.1 hv (by omega), Option.some.injEq, List.any_eq_true]
      exact ⟨impl, hmem, hmasked a entry (hperm.mem_iff.mp he) (by simp)⟩

/-- **`get_header_count`**, if the object masks all other layers. -/
theorem getHeaderCount_of_masked {l : List ℕ} (hv : Visits h.next (some impl) l)
    (hfuel : l.length ≤ fuel) (hfits : (h.mapAt impl).length < 2 ^ 32)
    (hmasked : ∀ b, ∀ entry ∈ h.mapAt b, b ∈ l → ((h.mapAt impl).find entry.1).isSome = true) :
    h.getHeaderCount fuel impl = some (h.mapAt impl).length := by
  rw [getHeaderCount, getAncestorAfter_eq _ hv hfuel, find?_next_null hv, Option.bind_some]
  obtain ⟨x, hx, hmap⟩ : ∃ x, h.at? impl = some x ∧ h.mapAt impl = x.map := by
    cases hv with
    | node hnext hrest => exact exists_at?_of_visits (.node hnext hrest) List.mem_cons_self
  rcases List.eq_nil_or_concat l with rfl | ⟨near, a, rfl⟩
  · cases hv
  · rw [List.concat_eq_append, ← List.reverse_reverse near] at hv hfuel hmasked
    have hlen : near.reverse.length < fuel := by
      rw [List.reverse_reverse, List.length_append, List.length_singleton] at hfuel
      rw [List.length_reverse]
      omega
    rw [List.concat_eq_append, List.getLast?_append, List.getLast?_singleton, Option.some_or,
      countLayers_of_masked hv hfuel hlen hmasked, Option.bind_some, hx, Option.map_some, ← hmap,
      Nat.mod_eq_of_lt hfits]

/-- Whatever `get_header_count` returns is the number of headers of the object itself. -/
theorem getHeaderCount_le {count : ℕ} (h' : h.getHeaderCount fuel impl = some count) :
    count = (h.mapAt impl).length % 2 ^ 32 := by
  obtain ⟨ancestor, -, hrest⟩ := Option.bind_eq_some_iff.mp h'
  obtain ⟨-, -, hmap⟩ := Option.bind_eq_some_iff.mp hrest
  obtain ⟨x, hx, rfl⟩ := Option.map_eq_some_iff.mp hmap
  rw [mapAt_of_at? hx]

end Count

end Heap

/-! ### The number of visible names -/

section Visible

variable {s : State} {i fuel : ℕ} {rest : List ℕ} {names names' : List CString}

/-- There are as many visible names in one list of them as in another. -/
theorem VisibleNames.length_eq (h : VisibleNames s fuel i names)
    (h' : VisibleNames s fuel i names') : names.length = names'.length := by
  have hnodup : ∀ {names : List CString}, VisibleNames s fuel i names →
      (names.map fun a => a.chars.map toLower).Nodup :=
    fun h => List.pairwise_map.mpr h.distinct
  have hsub : ∀ {names names' : List CString}, VisibleNames s fuel i names →
      VisibleNames s fuel i names' → ∀ key ∈ names.map fun a => a.chars.map toLower,
      key ∈ names'.map fun a => a.chars.map toLower := by
    intro names names' h h' key hkey
    obtain ⟨a, ha, rfl⟩ := List.mem_map.mp hkey
    obtain ⟨b, hb, heq⟩ := (h'.complete a).mp ((h.complete a).mpr ⟨a, ha, rfl⟩)
    exact List.mem_map.mpr ⟨b, hb, heq⟩
  have hperm := (List.perm_ext_iff_of_nodup (hnodup h) (hnodup h')).mpr
    fun key => ⟨hsub h h' key, hsub h' h key⟩
  simpa using hperm.length_eq

/-- The entries of the other layers that are visible. -/
def inheritedEntries (h : Heap) (i : ℕ) (rest : List ℕ) : List (CString × CString) :=
  (visible sameHeader (h.layersAt rest.reverse)).filter fun entry =>
    (assocFind sameHeader (h.mapAt i).entries entry.1).isNone

theorem visible_split (h : Heap) (i : ℕ) (rest : List ℕ) :
    visible sameHeader (h.layersAt (i :: rest).reverse) =
      inheritedEntries h i rest ++ (h.mapAt i).entries := by
  rw [Heap.layersAt_reverse_cons, visible_concat]
  rfl

/-- **No header is inherited** if and only if the object masks all others. -/
theorem inheritedEntries_eq_nil_iff (hok : s.heap.MapsOk)
    (hv : Visits s.heap.next (some i) (i :: rest)) (hfuel : (i :: rest).length ≤ fuel) :
    (∀ name, s.contains fuel i name ≠ some .inherited) ↔
      inheritedEntries s.heap i rest = [] := by
  constructor
  · intro hnone
    refine List.filter_eq_nil_iff.mpr fun entry he hown => ?_
    have hfound : (layeredFind sameHeader (s.heap.layersAt (i :: rest).reverse) entry.1).isSome =
        true := by
      rw [Heap.layersAt_reverse_cons, layeredFind_concat, Option.isSome_or, Bool.or_eq_true]
      exact .inr ((isSome_layeredFind_iff sameHeader_equivalence).mpr
        ⟨entry, he, sameHeader_equivalence.refl _⟩)
    have hne := ne_nil_of_layeredFind hok hv hfound
    rw [Option.isNone_iff_eq_none, ← Option.not_isSome_iff_eq_none, Heap.isSome_find_entries]
      at hown
    refine hnone entry.1 ?_
    rw [State.contains, if_neg hne, Heap.contains_eq hv rfl hfuel, if_neg hown, if_pos hfound]
  · intro hnil name hinherited
    rw [State.contains] at hinherited
    split_ifs at hinherited
    · cases hinherited
    rw [Heap.contains_eq hv rfl hfuel] at hinherited
    split_ifs at hinherited with hown hfound
    · cases hinherited
    · -- the name is listed, and not as one of the object itself
      obtain ⟨entry, he, hsame⟩ := (isSome_layeredFind_iff sameHeader_equivalence).mp hfound
      rw [visible_split, hnil, List.nil_append] at he
      refine hown ?_
      rw [← Heap.isSome_find_entries]
      exact isSome_assocFind_iff.mpr ⟨entry, he, hsame⟩
    · cases hinherited

/-- What is visible at all is an entry of the object itself. -/
theorem masked_of_inheritedEntries (hnil : inheritedEntries s.heap i rest = []) {b : ℕ}
    (hb : b ∈ i :: rest) {entry : CString × CString} (he : entry ∈ s.heap.mapAt b) :
    ((s.heap.mapAt i).find entry.1).isSome = true := by
  have hperm := Heap.perm_entries (s.heap.mapAt b)
  have hfound : (layeredFind sameHeader (s.heap.layersAt (i :: rest).reverse) entry.1).isSome =
      true := by
    refine isSome_layeredFind_of_mem (m := (s.heap.mapAt b).entries) ?_ ?_
    · exact List.mem_map.mpr ⟨b, List.mem_reverse.mpr hb, rfl⟩
    · exact isSome_assocFind_iff.mpr
        ⟨entry, hperm.mem_iff.mpr he, sameHeader_equivalence.refl _⟩
  obtain ⟨entry', he', hsame⟩ := (isSome_layeredFind_iff sameHeader_equivalence).mp hfound
  rw [visible_split, hnil, List.nil_append] at he'
  rw [← Heap.isSome_find_entries]
  exact isSome_assocFind_iff.mpr ⟨entry', he', hsame⟩

end Visible

/-- **The header count.** In every state that a run reaches which sets comparable names into a map,
the count of an object whose layers end is the number of the indexes that give a value and of the
visible names if and only if none of its headers is inherited, and the number of its own fits the
result. -/
theorem getHeaderCount_eq_iff {s : State} {i n fuel : ℕ} {names : List CString}
    (hs : Reaches State.Step State.Admits .initial s)
    (hends : EndsIn s.heap.next n (some i)) (hfuel : n ≤ fuel)
    (hnames : VisibleNames s fuel i names) :
    (s.heap.getHeaderCount fuel i = some names.length ∧
      Set.ncard {k | k < 2 ^ 32 ∧ ∃ value, s.heap.getHeaderByIndex fuel i k = some (some value)} =
        names.length) ↔
      (∀ name, s.contains fuel i name ≠ some .inherited) ∧ (s.heap.mapAt i).length < 2 ^ 32 := by
  have hok := mapsOk_of_reaches (hs.mono fun _ _ _ => trivial)
  obtain ⟨l, hv, rfl⟩ := hends.exists_visits
  obtain ⟨rest, rfl⟩ : ∃ rest, l = i :: rest := by
    cases hv with
    | node _ _ => exact ⟨_, rfl⟩
  have hlen := hnames.length_eq (visibleNames_visible hok hv hfuel)
  have hown : (s.heap.mapAt i).entries.length = (s.heap.mapAt i).length :=
    (Heap.perm_entries _).length_eq
  rw [List.length_map, visible_split, List.length_append, hown] at hlen
  -- the visible names are the own ones and those that are inherited
  rw [inheritedEntries_eq_nil_iff hok hv hfuel]
  constructor
  · rintro ⟨hcount, -⟩
    have hmod := Heap.getHeaderCount_le hcount
    have hle := Nat.mod_le (s.heap.mapAt i).length (2 ^ 32)
    refine ⟨List.eq_nil_of_length_eq_zero (by omega), ?_⟩
    have hlt := Nat.mod_lt (s.heap.mapAt i).length (show 2 ^ 32 > 0 by decide)
    omega
  · rintro ⟨hnil, hfits⟩
    rw [hnil, List.length_nil, Nat.zero_add] at hlen
    rw [hlen]
    have hindex : {k | k < 2 ^ 32 ∧
        ∃ value, s.heap.getHeaderByIndex fuel i k = some (some value)} =
        Finset.range (s.heap.mapAt i).length := by
      ext k
      rw [Set.mem_ofPred_eq, Heap.getHeaderByIndex_eq hv hfuel, visible_split, hnil,
        List.nil_append, Finset.coe_range, Set.mem_Iio, ← hown]
      constructor
      · rintro ⟨-, value, hvalue⟩
        by_contra hge
        rw [List.getElem?_eq_none (by omega)] at hvalue
        cases hvalue
      · intro hk
        rw [List.getElem?_eq_getElem hk]
        exact ⟨by omega, _, rfl⟩
    refine ⟨Heap.getHeaderCount_of_masked hv hfuel hfits fun b entry he hb =>
      masked_of_inheritedEntries hnil hb he, ?_⟩
    rw [hindex, Set.ncard_coe_finset, Finset.card_range]

/-- Letters are comparable. -/
theorem comparable_letter {c d : Char} (hc : ¬ IsBetween (schar c)) (hd : ¬ IsBetween (schar d)) :
    Comparable (letter c) (letter d) := by
  have hletter {c : Char} (hc : ¬ IsBetween (schar c)) : ∀ x ∈ (letter c).chars, ¬ IsBetween x :=
    fun x hx => List.mem_singleton.mp (List.mem_filter.mp hx).1 ▸ hc
  exact comparable_of_not_isBetween (hletter hc) (hletter hd)

/-- The headers `a` and `b`, before the header `A`. -/
def ownHeaders : State :=
  layers [(letter 'b', letter 'y'), (letter 'a', letter 'x')] [(letter 'A', letter 'z')]

theorem reaches_ownHeaders : Reaches State.Step State.Admits .initial ownHeaders := by
  refine reaches_layers (.tail (.set 1 (letter 'A') (letter 'z'))
    (.tail (.set 0 (letter 'b') (letter 'y')) (.tail (.set 0 (letter 'a') (letter 'x'))
      (reaches_objects fun _ => trivial) ?_ ⟨0, rfl, rfl⟩) ?_ ⟨0, rfl, rfl⟩) ?_ ⟨1, rfl, rfl⟩)
    fun _ => trivial
  · rintro i x ⟨⟩ ⟨⟩
    exact List.forall_mem_nil _
  · rintro i x ⟨⟩ ⟨⟩
    exact List.forall_mem_singleton.mpr (comparable_letter (by decide) (by decide))
  · rintro i x ⟨⟩ ⟨⟩
    exact List.forall_mem_nil _

/-- Two headers that mask the one of the farther layer. -/
theorem getHeaderCount_ownHeaders :
    ownHeaders.heap.getHeaderCount 2 0 = some 2 ∧
      Set.ncard {k | k < 2 ^ 32 ∧
        ∃ value, ownHeaders.heap.getHeaderByIndex 2 0 k = some (some value)} = 2 :=
  have hok := mapsOk_of_reaches (reaches_ownHeaders.mono fun _ _ _ => trivial)
  have hv : Visits ownHeaders.heap.next (some 0) [0, 1] := .node rfl (.node rfl .null)
  have hnames : VisibleNames ownHeaders 2 0 [letter 'a', letter 'b'] :=
    visibleNames_visible hok hv le_rfl
  (getHeaderCount_eq_iff reaches_ownHeaders (.node rfl (.node rfl .null)) le_rfl hnames).mpr
    ⟨(inheritedEntries_eq_nil_iff hok hv le_rfl).mpr rfl, by decide⟩

/-- An object without headers, and one with two headers. -/
def twoHeaders : State :=
  layers [] [(letter 'b', letter 'y'), (letter 'a', letter 'x')]

theorem reaches_twoHeaders : Reaches State.Step State.Admits .initial twoHeaders := by
  refine reaches_layers (.tail (.set 1 (letter 'b') (letter 'y'))
    (.tail (.set 1 (letter 'a') (letter 'x')) (reaches_objects fun _ => trivial) ?_
      ⟨1, rfl, rfl⟩) ?_ ⟨1, rfl, rfl⟩) fun _ => trivial
  · rintro i x ⟨⟩ ⟨⟩
    exact List.forall_mem_nil _
  · rintro i x ⟨⟩ ⟨⟩
    exact List.forall_mem_singleton.mpr (comparable_letter (by decide) (by decide))

/-- Two headers that are inherited are enumerated, and not counted. -/
theorem getHeaderCount_twoHeaders :
    twoHeaders.heap.getHeaderCount 2 0 = some 0 ∧
      twoHeaders.heap.getHeaderByIndex 2 0 0 = some (some (letter 'x')) ∧
      twoHeaders.heap.getHeaderByIndex 2 0 1 = some (some (letter 'y')) ∧
      twoHeaders.heap.getHeaderByIndex 2 0 2 = some none ∧
      Reaches State.Step State.Admits .initial twoHeaders :=
  ⟨rfl, rfl, rfl, rfl, reaches_twoHeaders⟩

end Intent.Old.Headers
