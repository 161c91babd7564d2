import Intent.Library.Layers
import Intent.Old.HeadersHeap
import Mathlib.Data.List.Sort

/-!
# Enumerating headers

`get_header_by_index` goes through the layers from the most remote one to the object itself. It
finds the next layer by a search along the layers from the object, and skips what a nearer layer
masks. `getHeaderByIndex_eq` says that these walks come to the list of visible entries, in the
terms of `Intent.Library.Layers`, if the layers end.
-/

namespace Intent.Old.Headers

/-! ### The walks -/

/-- The headers from `map.begin()` to `map.end()`. -/
def HeadersMap.entries (map : HeadersMap) : List (CString × CString) :=
  List.insertionSort (fun entry entry' => headerIsLess entry'.1 entry.1 = false) map

/-- The inner loop of `get_header_by_index`, from an iterator on: the value that has the index, or
`j` behind the loop. The first 32 bits of `j` are enough, for they are the index only once before
they repeat. -/
def indexEntries (masked : CString → Option Bool) (i : ℕ) :
    List (CString × CString) → ℕ → Option (CString ⊕ ℕ)
  | [], j => some (.inr j)
  | entry :: entries, j =>
    (masked entry.1).bind fun isMasked =>
      if !isMasked then
        if j = i then some (.inl entry.2) else indexEntries masked i entries (j + 1)
      else indexEntries masked i entries j

namespace Heap

/-- The loop of `is_masked`. -/
def isMasked (h : Heap) (header : CString) (before : ℕ) : ℕ → Option ℕ → Option Bool
  | _, none => some false
  | 0, some _ => none
  | n + 1, some x =>
    if x = before then some false
    else
      (h.at? x).bind fun y =>
        if (y.map.find header).isSome then some true else h.isMasked header before n y.defaults

/-- The loop of `get_ancestor_after`. -/
def getAncestorAfter (h : Heap) (after : Option ℕ) : ℕ → Option ℕ → Option (Option ℕ)
  | _, none => some none
  | 0, some _ => none
  | n + 1, some x =>
    (h.at? x).bind fun y =>
      if y.defaults = after then some (some x) else h.getAncestorAfter after n y.defaults

/-- The outer loop of `get_header_by_index`, for the object with the implementation `impl`. -/
def indexLayers (h : Heap) (fuel impl i : ℕ) : ℕ → Option ℕ → ℕ → Option (Option CString)
  | _, none, _ => some none
  | 0, some _, _ => none
  | n + 1, some ancestor, j =>
    (h.at? ancestor).bind fun x =>
      (indexEntries (fun header => h.isMasked header ancestor fuel (some impl)) i
          x.map.entries j).bind fun
        | .inl value => some (some value)
        | .inr j =>
          (h.getAncestorAfter (some ancestor) fuel (some impl)).bind fun next =>
            h.indexLayers fuel impl i n next j

/-- `get_header_by_index`. -/
def getHeaderByIndex (h : Heap) (fuel impl i : ℕ) : Option (Option CString) :=
  (h.getAncestorAfter none fuel (some impl)).bind fun ancestor =>
    h.indexLayers fuel impl i fuel ancestor 0

end Heap

/-! ### Names -/

/-- Two spellings of one name. -/
theorem sameHeader_iff {a b : CString} :
    sameHeader a b = true ↔ a.chars.map toLower = b.chars.map toLower := by
  rw [← compareFrom_eq_zero a.nonzero b.nonzero]
  have hswap := compareFrom_swap a.nonzero b.nonzero
  have hless : ∀ a b : CString, headerIsLess a b = decide (compareFrom a.chars b.chars < 0) :=
    fun _ _ => rfl
  rw [sameHeader, hless, hless, Bool.and_eq_true, Bool.not_eq_true', Bool.not_eq_true',
    decide_eq_false_iff_not, decide_eq_false_iff_not]
  omega

theorem sameHeader_equivalence : Equivalence fun a b => sameHeader a b = true where
  refl _ := sameHeader_iff.mpr rfl
  symm h := sameHeader_iff.mpr (sameHeader_iff.mp h).symm
  trans h h' := sameHeader_iff.mpr ((sameHeader_iff.mp h).trans (sameHeader_iff.mp h'))

/-! ### The layers of an object -/

namespace Heap

/-- The headers that an implementation has itself. -/
def mapAt (h : Heap) (a : ℕ) : HeadersMap := ((h.at? a).map (·.map)).getD []

/-- The layers of headers at these addresses. -/
def layersAt (h : Heap) (l : List ℕ) : List (List (CString × CString)) :=
  l.map fun a => (h.mapAt a).entries

/-- The iterator of a map goes through its entries. -/
theorem perm_entries (map : HeadersMap) : map.entries.Perm map := List.perm_insertionSort _ _

section Walks

variable {h : Heap} {p : Option ℕ} {l near rest : List ℕ} {a impl fuel : ℕ}

theorem mapAt_of_at? {x : Impl} (hx : h.at? a = some x) : h.mapAt a = x.map := by
  rw [mapAt, hx]
  rfl

theorem exists_at?_of_visits (hv : Visits h.next p l) (ha : a ∈ l) :
    ∃ x, h.at? a = some x ∧ h.mapAt a = x.map := by
  obtain ⟨q, hq⟩ := hv.exists_node ha
  obtain ⟨x, hx, -⟩ := exists_at?_of_next hq
  exact ⟨x, hx, mapAt_of_at? hx⟩

theorem isSome_find_entries (map : HeadersMap) (header : CString) :
    (assocFind sameHeader map.entries header).isSome = (map.find header).isSome := by
  have hperm := perm_entries map
  change _ = (assocFind sameHeader map header).isSome
  rw [Bool.eq_iff_iff, isSome_assocFind_iff, isSome_assocFind_iff]
  simp only [hperm.mem_iff]

/-- **`is_masked`** looks at the layers in front of `before`. -/
theorem isMasked_eq (header : CString) (hv : Visits h.next p (near ++ a :: rest))
    (hfuel : near.length < fuel) : h.isMasked header a fuel p =
      some (near.any fun b => ((h.mapAt b).find header).isSome) := by
  induction near generalizing p fuel with
  | nil =>
    obtain ⟨n, rfl⟩ := Nat.exists_eq_add_one_of_ne_zero (Nat.ne_zero_of_lt hfuel)
    cases hv with
    | node _ _ => rw [isMasked, if_pos rfl, List.any_nil]
  | cons b near ih =>
    obtain ⟨n, rfl⟩ := Nat.exists_eq_add_one_of_ne_zero (Nat.ne_zero_of_lt hfuel)
    have hnodup := hv.nodup
    cases hv with
    | node hnext hrest =>
      obtain ⟨x, hx, rfl⟩ := exists_at?_of_next hnext
      have hne : b ≠ a := by
        rintro rfl
        exact (List.nodup_cons.mp hnodup).1 (by simp)
      rw [isMasked, if_neg hne, hx, Option.bind_some, List.any_cons, mapAt_of_at? hx]
      cases (x.map.find header).isSome with
      | true => rfl
      | false => exact ih hrest (Nat.lt_of_succ_lt_succ hfuel)

/-- **`get_ancestor_after`** finds the layer that points to `after`. -/
theorem getAncestorAfter_eq (after : Option ℕ) (hv : Visits h.next p l) (hfuel : l.length ≤ fuel) :
    h.getAncestorAfter after fuel p = some (l.find? fun b => h.next b = some after) := by
  induction hv generalizing fuel with
  | null =>
    rw [getAncestorAfter]
    rfl
  | @node b q l hnext hrest ih =>
    obtain ⟨n, rfl⟩ := Nat.exists_eq_add_one_of_ne_zero (Nat.ne_zero_of_lt hfuel)
    obtain ⟨x, hx, rfl⟩ := exists_at?_of_next hnext
    rw [getAncestorAfter, hx, Option.bind_some, List.find?_cons, hnext]
    by_cases hafter : x.defaults = after
    · rw [if_pos hafter, hafter, decide_eq_true rfl]
    · rw [if_neg hafter, decide_eq_false (by simpa using hafter)]
      exact ih (Nat.le_of_succ_le_succ hfuel)

theorem next_ne_of_visits (hv : Visits h.next p l) (ha : ∀ s t, l ≠ s ++ a :: t ∨ s = []) {b : ℕ}
    (hb : b ∈ l) : h.next b ≠ some (some a) := by
  intro hnext
  obtain ⟨s, t, rfl⟩ := List.append_of_mem hb
  have hhead := hv.next_eq.symm.trans hnext
  obtain ⟨t, rfl⟩ := List.head?_eq_some_iff.mp (Option.some.inj hhead)
  rcases ha (s ++ [b]) t with hne | hnil
  · exact hne (by simp)
  · simp at hnil

/-- The layer in front of another one. -/
theorem find?_next_eq (hv : Visits h.next p (near ++ a :: rest)) :
    ((near ++ a :: rest).find? fun b => h.next b = some (some a)) = near.getLast? := by
  have hnodup := hv.nodup
  induction near generalizing p with
  | nil =>
    refine List.find?_eq_none.mpr fun b hb hnext => ?_
    refine next_ne_of_visits hv (fun s t => ?_) hb (of_decide_eq_true hnext)
    -- `a` is the first of them, and comes only once
    cases s with
    | nil => exact .inr rfl
    | cons c s =>
      refine .inl fun heq => (List.nodup_cons.mp hnodup).1 ?_
      rw [(List.cons.inj heq).2]
      simp
  | cons b near ih =>
    have hnext := @Visits.next_eq _ _ b p [] _ hv
    have hrest : ∃ q, Visits h.next q (near ++ a :: rest) := by
      cases hv with
      | node _ hrest => exact ⟨_, hrest⟩
    obtain ⟨q, hrest⟩ := hrest
    rw [List.cons_append, List.find?_cons, hnext]
    cases near with
    | nil => simp
    | cons c near =>
      have hne : c ≠ a := by
        rintro rfl
        exact (List.nodup_cons.mp (List.nodup_cons.mp hnodup).2).1 (by simp)
      have hfar := ih hrest (List.nodup_cons.mp hnodup).2
      simpa [hne] using hfar

/-- The most remote layer. -/
theorem find?_next_null (hv : Visits h.next p l) :
    (l.find? fun b => h.next b = some none) = l.getLast? := by
  induction hv with
  | null => rfl
  | @node b q l hnext hrest ih =>
    rw [List.find?_cons, hnext]
    cases hrest with
    | null => simp
    | node _ _ => simpa using ih

end Walks

end Heap

/-! ### The inner loops -/

section Loops

variable {masked : CString → Option Bool} {m : CString → Bool} {i j : ℕ}
  {entries : List (CString × CString)}

/-- The inner loop of `get_header_by_index` goes through the entries that are not masked. -/
theorem indexEntries_eq (hm : ∀ entry ∈ entries, masked entry.1 = some (m entry.1)) (hj : j ≤ i) :
    indexEntries masked i entries j =
      some (match (entries.filter fun entry => !m entry.1)[i - j]? with
        | some entry => .inl entry.2
        | none => .inr (j + (entries.filter fun entry => !m entry.1).length)) := by
  induction entries generalizing j with
  | nil => rfl
  | cons entry entries ih =>
    obtain ⟨hhead, htail⟩ := List.forall_mem_cons.mp hm
    rw [indexEntries, hhead, Option.bind_some, List.filter_cons]
    cases m entry.1 with
    | true => exact ih htail hj
    | false =>
      simp only [Bool.not_false, if_true]
      by_cases heq : j = i
      · rw [if_pos heq, heq, Nat.sub_self]
        rfl
      · rw [if_neg heq, ih htail (by omega), List.length_cons, ← Nat.sub_sub,
          show i - j = (i - j - 1) + 1 by omega, List.getElem?_cons_succ, Nat.add_sub_cancel,
          Nat.add_assoc, Nat.add_comm 1]

end Loops

/-! ### The enumeration -/

namespace Heap

section Index

variable {h : Heap} {l near rest : List ℕ} {a impl fuel n i j : ℕ}

/-- The entries of a layer that `is_masked` lets through. -/
theorem filter_isMasked (near : List ℕ) (a : ℕ) :
    ((h.mapAt a).entries.filter fun entry =>
        !near.reverse.any fun b => ((h.mapAt b).find entry.1).isSome) =
      unmasked sameHeader (h.layersAt near) (h.mapAt a).entries := by
  refine List.filter_congr fun entry _ => ?_
  rw [layersAt, List.all_map, List.any_reverse, List.not_any_eq_all_not]
  congr 1
  funext b
  rw [Function.comp, ← isSome_find_entries, Option.not_isSome]

/-- **The outer loop of `get_header_by_index`**, from a layer on: the layers from the object up to
this one are `near.reverse` and `a`. -/
theorem indexLayers_eq (hv : Visits h.next (some impl) (near.reverse ++ a :: rest))
    (hfuel : (near.reverse ++ a :: rest).length ≤ fuel) (hn : near.length < n) (hj : j ≤ i) :
    h.indexLayers fuel impl i n (some a) j =
      some ((visible sameHeader (h.layersAt (a :: near)))[i - j]?.map (·.2)) := by
  induction n generalizing near a rest j with
  | zero => exact absurd hn (Nat.not_lt_zero _)
  | succ n ih =>
    obtain ⟨x, hx, hmap⟩ := exists_at?_of_visits hv (by simp : a ∈ near.reverse ++ a :: rest)
    have hlen : (near.reverse ++ a :: rest).length = near.reverse.length + (rest.length + 1) :=
      List.length_append
    have hmasked : ∀ entry ∈ x.map.entries, h.isMasked entry.1 a fuel (some impl) =
        some (near.reverse.any fun b => ((h.mapAt b).find entry.1).isSome) := fun entry _ =>
      isMasked_eq entry.1 hv (by omega)
    have hinner := @indexEntries_eq (fun header => h.isMasked header a fuel (some impl))
      (fun header => near.reverse.any fun b => ((h.mapAt b).find header).isSome) i j
      x.map.entries hmasked hj
    have hvisible : visible sameHeader (h.layersAt (a :: near)) =
        unmasked sameHeader (h.layersAt near) (h.mapAt a).entries ++
          visible sameHeader (h.layersAt near) := rfl
    rw [← hmap, filter_isMasked] at hinner
    rw [indexLayers, hx, Option.bind_some, ← hmap, hinner, Option.bind_some, hvisible]
    rcases Nat.lt_or_ge (i - j) (unmasked sameHeader (h.layersAt near) (h.mapAt a).entries).length
      with hhere | hthere
    · rw [List.getElem?_append_left hhere, List.getElem?_eq_getElem hhere]
      rfl
    · rw [List.getElem?_append_right hthere, List.getElem?_eq_none hthere]
      dsimp only
      rw [getAncestorAfter_eq _ hv hfuel, find?_next_eq hv, Option.bind_some,
        List.getLast?_reverse]
      -- the next nearer layer, or the end
      cases near with
      | nil =>
        cases n <;> rfl
      | cons b near =>
        have hsplit : (b :: near).reverse ++ a :: rest = near.reverse ++ b :: a :: rest := by simp
        rw [hsplit] at hv hfuel
        rw [List.head?_cons, ih hv hfuel (Nat.lt_of_succ_lt_succ hn) (by omega), Nat.sub_sub]

/-- **`get_header_by_index`** enumerates the visible entries. -/
theorem getHeaderByIndex_eq (hv : Visits h.next (some impl) l) (hfuel : l.length ≤ fuel) (i : ℕ) :
    h.getHeaderByIndex fuel impl i =
      some ((visible sameHeader (h.layersAt l.reverse))[i]?.map (·.2)) := by
  rw [getHeaderByIndex, getAncestorAfter_eq _ hv hfuel, find?_next_null hv, Option.bind_some]
  rcases List.eq_nil_or_concat l with rfl | ⟨near, a, rfl⟩
  · cases hv
  · rw [List.concat_eq_append] at hv hfuel ⊢
    have hrest : Visits h.next (some impl) (near.reverse.reverse ++ a :: []) := by
      rwa [List.reverse_reverse]
    rw [List.getLast?_append, List.getLast?_singleton, Option.some_or,
      indexLayers_eq hrest (by rwa [List.reverse_reverse]) ?_ (Nat.zero_le i), Nat.sub_zero,
      List.reverse_append, List.reverse_singleton, List.singleton_append]
    rw [List.length_append, List.length_singleton] at hfuel
    rw [List.length_reverse]
    omega

/-! ### Lookups -/

theorem find_entries {map : HeadersMap} (hmap : DistinctKeys sameHeader map) (header : CString) :
    assocFind sameHeader map.entries header = map.find header :=
  assocFind_perm sameHeader_equivalence hmap (perm_entries map).symm header

theorem layersAt_reverse_cons (h : Heap) (a : ℕ) (l : List ℕ) :
    h.layersAt (a :: l).reverse = h.layersAt l.reverse ++ [(h.mapAt a).entries] := by
  rw [layersAt, List.reverse_cons, List.map_append, List.map_singleton]
  rfl

/-- **`get`** is the lookup in the layers. -/
theorem get_eq {p : Option ℕ} (hv : Visits h.next p l) (hp : p = some impl)
    (hfuel : l.length ≤ fuel) (hmaps : ∀ a ∈ l, DistinctKeys sameHeader (h.mapAt a))
    (header : CString) :
    h.get fuel impl header =
      some (layeredFind sameHeader (h.layersAt l.reverse) header) := by
  induction hv generalizing fuel impl with
  | null => cases hp
  | @node a q l hnext hrest ih =>
    obtain rfl := Option.some.inj hp
    obtain ⟨n, rfl⟩ := Nat.exists_eq_add_one_of_ne_zero (Nat.ne_zero_of_lt hfuel)
    obtain ⟨x, hx, rfl⟩ := exists_at?_of_next hnext
    obtain ⟨hhead, htail⟩ := List.forall_mem_cons.mp hmaps
    rw [layersAt_reverse_cons, layeredFind_concat, find_entries hhead, mapAt_of_at? hx, Heap.get,
      hx, Option.bind_some]
    cases x.map.find header with
    | some value => rfl
    | none =>
      rw [Option.none_or]
      cases hdefaults : x.defaults with
      | none =>
        rw [hdefaults] at hrest
        cases hrest
        rfl
      | some d => exact ih hdefaults (Nat.le_of_succ_le_succ hfuel) htail

/-- **`contains`**, by the lookup in the layers. -/
theorem contains_eq {p : Option ℕ} (hv : Visits h.next p l) (hp : p = some impl)
    (hfuel : l.length ≤ fuel) (header : CString) :
    h.contains fuel impl header =
      some (if ((h.mapAt impl).find header).isSome then .explicitlyDefined
        else if (layeredFind sameHeader (h.layersAt l.reverse) header).isSome then .inherited
        else .missing) := by
  induction hv generalizing fuel impl with
  | null => cases hp
  | @node a q l hnext hrest ih =>
    obtain rfl := Option.some.inj hp
    obtain ⟨n, rfl⟩ := Nat.exists_eq_add_one_of_ne_zero (Nat.ne_zero_of_lt hfuel)
    obtain ⟨x, hx, rfl⟩ := exists_at?_of_next hnext
    rw [layersAt_reverse_cons, layeredFind_concat, Option.isSome_or, isSome_find_entries,
      mapAt_of_at? hx, Heap.contains, hx, Option.bind_some]
    cases x.map.find header with
    | some value => rfl
    | none =>
      cases hdefaults : x.defaults with
      | none =>
        rw [hdefaults] at hrest
        cases hrest
        rfl
      | some d =>
        dsimp only
        rw [ih hdefaults (Nat.le_of_succ_le_succ hfuel), Option.map_some]
        -- what the next layer has is among what the layers have
        have hmem : ((h.mapAt d).find header).isSome = true →
            (layeredFind sameHeader (h.layersAt l.reverse) header).isSome = true := by
          intro hsome
          rw [hdefaults] at hrest
          cases hrest with
          | node _ _ =>
            rw [layersAt_reverse_cons, layeredFind_concat, Option.isSome_or, isSome_find_entries,
              hsome, Bool.true_or]
        simp only [Option.isSome_none, Bool.false_eq_true, if_false, Bool.false_or]
        by_cases hfound :
            (layeredFind sameHeader (h.layersAt l.reverse) header).isSome = true
        · by_cases hd : ((h.mapAt d).find header).isSome = true
          · rw [if_pos hfound, if_pos hd]
            rfl
          · rw [if_pos hfound, if_neg hd]
            rfl
        · rw [if_neg hfound, if_neg (mt hmem hfound)]
          rfl

end Index

/-! ### The maps of reachable states -/

/-- The maps are those of another heap. -/
def MapsFrom (h' h : Heap) : Prop :=
  ∀ i x, h'.at? i = some x → ∃ y, h.at? i = some y ∧ y.map = x.map

section MapsFrom

variable {h h' h'' : Heap} {i : ℕ}

theorem MapsFrom.refl (h : Heap) : h.MapsFrom h := fun _ x hx => ⟨x, hx, rfl⟩

theorem MapsFrom.trans (h₂ : h''.MapsFrom h') (h₁ : h'.MapsFrom h) : h''.MapsFrom h := by
  intro i x hx
  obtain ⟨y, hy, hxy⟩ := h₂ i x hx
  obtain ⟨z, hz, hyz⟩ := h₁ i y hy
  exact ⟨z, hz, hyz.trans hxy⟩

theorem mapsFrom_set {x : Impl} {o : Option Impl} (hx : h.at? i = some x)
    (ho : ∀ y ∈ o, y.map = x.map) : MapsFrom (h.set i o) h := by
  intro k y hy
  rw [at?_set hx] at hy
  split_ifs at hy with hk
  · exact ⟨x, hk ▸ hx, (ho y hy).symm⟩
  · exact ⟨y, hy, rfl⟩

theorem mapsFrom_modify (i : ℕ) {f : Impl → Impl} (hf : ∀ x, (f x).map = x.map) :
    (h.modify i f).MapsFrom h := by
  cases hx : h.at? i with
  | none =>
    rw [modify, hx]
    exact .refl h
  | some x =>
    rw [modify_of_at? hx]
    exact mapsFrom_set hx fun y hy => Option.some.inj hy ▸ hf x

theorem mapsFrom_releaseRef (h : Heap) (i : ℕ) : (h.releaseRef i).MapsFrom h := by
  induction h, i using Heap.releaseRef.induct with
  | case1 h i hx =>
    rw [releaseRef_of_none hx]
    exact .refl h
  | case2 h i x hx hcount hd =>
    rw [releaseRef_of_one hx hcount, hd, Option.elim_none]
    exact mapsFrom_set hx fun y hy => by cases hy
  | case3 h i x hx hcount d hd ih =>
    rw [releaseRef_of_one hx hcount, hd, Option.elim_some]
    exact ih.trans (mapsFrom_set hx fun y hy => by cases hy)
  | case4 h i x hx hcount =>
    rw [releaseRef_of_ne_one hx hcount]
    exact mapsFrom_set hx fun y hy => Option.some.inj hy ▸ rfl

theorem mapsFrom_getDefaultsFrom {fuel j : ℕ} (hcall : h.getDefaultsFrom fuel i j = some h') :
    h'.MapsFrom h := by
  have hadd : ∀ (g : Heap) (k : ℕ), (g.addRef k).MapsFrom g :=
    fun g k => mapsFrom_modify k fun _ => rfl
  rw [Heap.getDefaultsFrom] at hcall
  split at hcall
  · cases hcall
  · obtain rfl := Option.some.inj hcall
    exact (mapsFrom_releaseRef _ _).trans (hadd h j)
  · obtain rfl := Option.some.inj hcall
    have hdefaults : ((h.addRef j).releaseDefaults i).MapsFrom (h.addRef j) := by
      rw [releaseDefaults]
      split
      · exact mapsFrom_releaseRef _ _
      · exact .refl _
    have hreleased := hdefaults.trans (hadd h j)
    refine (mapsFrom_releaseRef _ _).trans ((hadd _ _).trans (.trans ?_ hreleased))
    exact mapsFrom_modify i fun _ => rfl

end MapsFrom

/-- What a map is like that only `set` has changed: it has one entry for a name, and no empty
names. -/
def MapsOk (h : Heap) : Prop :=
  ∀ i x, h.at? i = some x →
    DistinctKeys sameHeader x.map ∧ ∀ entry ∈ x.map, entry.1.chars ≠ []

/-- What holds of all maps of one heap holds of those of the other. -/
theorem MapsFrom.forall {P : HeadersMap → Prop} {h h' : Heap} (hfrom : h'.MapsFrom h)
    (hmaps : ∀ i x, h.at? i = some x → P x.map) : ∀ i x, h'.at? i = some x → P x.map := by
  intro i x hx
  obtain ⟨y, hy, hmap⟩ := hfrom i x hx
  exact hmap ▸ hmaps i y hy

end Heap

/-- An assignment keeps one entry for a name. -/
theorem distinctKeys_assign {map : HeadersMap} (hmap : DistinctKeys sameHeader map)
    (header value : CString) : DistinctKeys sameHeader (map.assign header value) := by
  rw [HeadersMap.assign]
  split_ifs with hfound
  · refine List.pairwise_map.mpr (hmap.imp fun {entry entry'} hne => ?_)
    split_ifs <;> exact hne
  · refine List.pairwise_cons.mpr ⟨fun entry he => ?_, hmap⟩
    by_contra hne
    refine hfound (isSome_assocFind_iff.mpr ⟨entry, he, ?_⟩)
    exact sameHeader_equivalence.symm (Bool.not_eq_false _ ▸ hne)

theorem names_assign {map : HeadersMap} {header : CString} (hheader : header.chars ≠ [])
    (hmap : ∀ entry ∈ map, entry.1.chars ≠ []) (value : CString) :
    ∀ entry ∈ map.assign header value, entry.1.chars ≠ [] := by
  rw [HeadersMap.assign]
  split_ifs with hfound
  · intro entry he
    obtain ⟨entry', he', rfl⟩ := List.mem_map.mp he
    split_ifs <;> exact hmap entry' he'
  · exact List.forall_mem_cons.mpr ⟨hheader, hmap⟩

/-- **One operation** keeps what holds of the empty map and what an assignment keeps. -/
theorem maps_step {P : HeadersMap → Prop} {s s' : State} {op : Op}
    (hmaps : ∀ i x, s.heap.at? i = some x → P x.map) (hnil : P [])
    (hassign : ∀ o header value i x, op = .set o header value → s.objects[o]? = some i →
      s.heap.at? i = some x → header.chars ≠ [] → P (x.map.assign header value))
    (hstep : s.Step op s') : ∀ i x, s'.heap.at? i = some x → P x.map := by
  cases op with
  | fresh =>
    obtain rfl := hstep
    intro i x hx
    rw [Heap.at?_push] at hx
    split_ifs at hx
    · obtain rfl := Option.some.inj hx
      exact hnil
    · exact hmaps i x hx
  | set o header value =>
    obtain ⟨i, hi, rfl⟩ := hstep
    rw [State.set]
    split_ifs with hheader
    · exact hmaps
    cases hx : s.heap.at? i with
    | none =>
      rw [Heap.modify, hx]
      exact hmaps
    | some x =>
      rw [Heap.modify_of_at? hx]
      intro k y hy
      rw [Heap.at?_set hx] at hy
      split_ifs at hy
      · obtain rfl := Option.some.inj hy
        exact hassign o header value i x rfl hi hx hheader
      · exact hmaps k y hy
  | getDefaultsFrom o p =>
    obtain ⟨i, j, fuel, h, hi, hj, hcall, rfl⟩ := hstep
    exact (Heap.mapsFrom_getDefaultsFrom hcall).forall hmaps
  | assign o p =>
    obtain ⟨i, j, fuel, hi, hj, hcall⟩ := hstep
    rw [State.assign] at hcall
    split at hcall
    · cases hcall
    · obtain rfl := Option.some.inj hcall
      exact hmaps
    · obtain rfl := Option.some.inj hcall
      refine Heap.MapsFrom.forall (.trans ?_ (Heap.mapsFrom_releaseRef _ i)) hmaps
      exact Heap.mapsFrom_modify j fun _ => rfl

/-- One operation keeps the maps as they are to be. -/
theorem mapsOk_step {s s' : State} {op : Op} (hok : s.heap.MapsOk) (hstep : s.Step op s') :
    s'.heap.MapsOk := by
  refine maps_step (P := fun map => DistinctKeys sameHeader map ∧ ∀ entry ∈ map, entry.1.chars ≠ [])
    hok ⟨List.Pairwise.nil, List.forall_mem_nil _⟩ ?_ hstep
  intro o header value i x _ _ hx hheader
  obtain ⟨hdistinct, hnames⟩ := hok i x hx
  exact ⟨distinctKeys_assign hdistinct header value, names_assign hheader hnames value⟩

/-- The maps of every state that a run reaches. -/
theorem mapsOk_of_reaches {s : State}
    (h : Reaches State.Step (fun _ _ => True) .initial s) : s.heap.MapsOk := by
  refine h.invariant (P := fun s => s.heap.MapsOk) ?_ fun hok _ hstep => mapsOk_step hok hstep
  intro i x hx
  cases hx

/-! ### All headers of an object -/

/-- The names that are visible through an object, each of them once and in some spelling. -/
structure VisibleNames (s : State) (fuel i : ℕ) (names : List CString) : Prop where
  distinct : names.Pairwise fun a b => a.chars.map toLower ≠ b.chars.map toLower
  complete : ∀ name, (∃ status, s.contains fuel i name = some status ∧ status ≠ .missing) ↔
    ∃ a ∈ names, a.chars.map toLower = name.chars.map toLower

section Visible

variable {s : State} {i fuel : ℕ} {l : List ℕ}

theorem mapAt_ok (hok : s.heap.MapsOk) (hv : Visits s.heap.next (some i) l) {a : ℕ} (ha : a ∈ l) :
    DistinctKeys sameHeader (s.heap.mapAt a) ∧
      ∀ entry ∈ s.heap.mapAt a, entry.1.chars ≠ [] := by
  obtain ⟨x, hx, hmap⟩ := Heap.exists_at?_of_visits hv ha
  rw [hmap]
  exact hok a x hx

theorem layersAt_ok (hok : s.heap.MapsOk) (hv : Visits s.heap.next (some i) l) :
    ∀ m ∈ s.heap.layersAt l.reverse,
      DistinctKeys sameHeader m ∧ ∀ entry ∈ m, entry.1.chars ≠ [] := by
  intro m hm
  obtain ⟨a, ha, rfl⟩ := List.mem_map.mp hm
  obtain ⟨hdistinct, hnames⟩ := mapAt_ok hok hv (List.mem_reverse.mp ha)
  have hperm := Heap.perm_entries (s.heap.mapAt a)
  refine ⟨hperm.symm.pairwise hdistinct fun {entry entry'} hne => ?_, fun entry he =>
    hnames entry (hperm.mem_iff.mp he)⟩
  by_contra heq
  rw [sameHeader_equivalence.symm (Bool.not_eq_false _ ▸ heq)] at hne
  exact absurd hne (by decide)

/-- A name that a lookup finds is not empty. -/
theorem ne_nil_of_layeredFind (hok : s.heap.MapsOk) (hv : Visits s.heap.next (some i) l)
    {name : CString}
    (h : (layeredFind sameHeader (s.heap.layersAt l.reverse) name).isSome = true) :
    name.chars ≠ [] := by
  obtain ⟨entry, he, hsame⟩ := (isSome_layeredFind_iff sameHeader_equivalence).mp h
  obtain ⟨m, hm, hentry⟩ := mem_of_mem_visible he
  intro hnil
  have heq := sameHeader_iff.mp hsame
  rw [hnil, List.map_nil, List.map_eq_nil_iff] at heq
  exact (layersAt_ok hok hv m hm).2 entry hentry heq

/-- The names of the visible entries are the visible names. -/
theorem visibleNames_visible (hok : s.heap.MapsOk) (hv : Visits s.heap.next (some i) l)
    (hfuel : l.length ≤ fuel) :
    VisibleNames s fuel i ((visible sameHeader (s.heap.layersAt l.reverse)).map (·.1)) where
  distinct := by
    have hdistinct := visible_distinct sameHeader_equivalence fun m hm =>
      (layersAt_ok hok hv m hm).1
    refine List.pairwise_map.mpr (hdistinct.imp fun {entry entry'} hne heq => ?_)
    rw [sameHeader_iff.mpr heq] at hne
    exact absurd hne (by decide)
  complete name := by
    have hlisted := @isSome_layeredFind_iff _ _ _ (s.heap.layersAt l.reverse) name
      sameHeader_equivalence
    simp only [sameHeader_iff] at hlisted
    have hexists : (∃ a ∈ (visible sameHeader (s.heap.layersAt l.reverse)).map (·.1),
        a.chars.map toLower = name.chars.map toLower) ↔
        (layeredFind sameHeader (s.heap.layersAt l.reverse) name).isSome = true := by
      rw [hlisted]
      simp only [List.mem_map, exists_exists_and_eq_and]
    rw [hexists, State.contains]
    split_ifs with hnil
    · refine iff_of_false ?_ fun h => ne_nil_of_layeredFind hok hv h hnil
      rintro ⟨status, hstatus, hne⟩
      exact hne (Option.some.inj hstatus).symm
    · rw [Heap.contains_eq hv rfl hfuel]
      have hself : ((s.heap.mapAt i).find name).isSome = true →
          (layeredFind sameHeader (s.heap.layersAt l.reverse) name).isSome = true := by
        intro hsome
        cases hv with
        | node _ _ =>
          rw [Heap.layersAt_reverse_cons, layeredFind_concat, Option.isSome_or,
            Heap.isSome_find_entries, hsome, Bool.true_or]
      simp only [Option.some.injEq, exists_eq_left']
      split_ifs with h₁ h₂
      · exact iff_of_true (by decide) (hself h₁)
      · exact iff_of_true (by decide) h₂
      · exact iff_of_false (fun h => h rfl) h₂

end Visible

/-- **Enumerating layered headers.** In every state that a run reaches, the indexes of an object
whose layers end go through the visible names, and give the values that `get` gives; behind them
every index gives null. -/
theorem getHeaderByIndex_enumerates {s : State} {i n fuel : ℕ}
    (hs : Reaches State.Step (fun _ _ => True) .initial s)
    (hends : EndsIn s.heap.next n (some i)) (hfuel : n ≤ fuel) :
    ∃ names, VisibleNames s fuel i names ∧
      (∀ k name, names[k]? = some name → ∃ value, s.get fuel i name = some (some value) ∧
        s.heap.getHeaderByIndex fuel i k = some (some value)) ∧
      ∀ k, names.length ≤ k → s.heap.getHeaderByIndex fuel i k = some none := by
  have hok := mapsOk_of_reaches hs
  obtain ⟨l, hv, rfl⟩ := hends.exists_visits
  refine ⟨_, visibleNames_visible hok hv hfuel, fun k name hname => ?_, fun k hk => ?_⟩
  · rw [List.getElem?_map] at hname
    obtain ⟨entry, hentry, rfl⟩ := Option.map_eq_some_iff.mp hname
    have hfind := layeredFind_of_mem_visible sameHeader_equivalence
      (fun m hm => (layersAt_ok hok hv m hm).1) (List.mem_of_getElem? hentry)
    have hne := ne_nil_of_layeredFind hok hv (Option.isSome_of_eq_some hfind)
    refine ⟨entry.2, ?_, ?_⟩
    · rw [State.get, if_neg hne, Heap.get_eq hv rfl hfuel fun a ha => (mapAt_ok hok hv ha).1,
        hfind]
    · rw [Heap.getHeaderByIndex_eq hv hfuel, hentry, Option.map_some]
  · rw [List.length_map] at hk
    rw [Heap.getHeaderByIndex_eq hv hfuel, List.getElem?_eq_none hk, Option.map_none]

/-- An object with headers of its own, and an object that it has its defaults from. -/
def layers (own defaults : HeadersMap) : State :=
  ⟨[some ⟨1, own, some 1⟩, some ⟨2, defaults, none⟩], [0, 1]⟩

/-- `get_defaults_from` puts one layer behind the other. -/
theorem reaches_layers {allowed : State → Op → Prop} {own defaults : HeadersMap}
    (h : Reaches State.Step allowed .initial
      ⟨[some ⟨1, own, none⟩, some ⟨1, defaults, none⟩], [0, 1]⟩)
    (hallowed : ∀ s, allowed s (.getDefaultsFrom 0 1)) :
    Reaches State.Step allowed .initial (layers own defaults) := by
  refine .tail (.getDefaultsFrom 0 1) h (hallowed _) ⟨0, 1, 1, _, rfl, rfl, ?_, rfl⟩
  exact congrArg some (Heap.releaseRef_addRef (h := (layers own defaults).heap) rfl
    (Nat.succ_pos 1))

/-- A name or a value of one letter. -/
def letter (c : Char) : CString := ⟨[schar c].filter (· ≠ 0), by simp⟩

/-- Two objects without headers. -/
theorem reaches_objects {allowed : State → Op → Prop} (hallowed : ∀ s, allowed s .fresh) :
    Reaches State.Step allowed .initial
      ⟨[some ⟨1, [], none⟩, some ⟨1, [], none⟩], [0, 1]⟩ :=
  .tail .fresh (.tail .fresh .refl (hallowed _) rfl) (hallowed _) rfl

/-- The header `a`, before the headers `A` and `b`. -/
def maskedHeaders : State :=
  layers [(letter 'a', letter 'x')] [(letter 'b', letter 'y'), (letter 'A', letter 'z')]

theorem reaches_maskedHeaders :
    Reaches State.Step (fun _ _ => True) .initial maskedHeaders :=
  reaches_layers
    (.tail (.set 1 (letter 'b') (letter 'y'))
      (.tail (.set 1 (letter 'A') (letter 'z'))
        (.tail (.set 0 (letter 'a') (letter 'x')) (reaches_objects fun _ => trivial) trivial
          ⟨0, rfl, rfl⟩)
        trivial ⟨1, rfl, rfl⟩)
      trivial ⟨1, rfl, rfl⟩)
    fun _ => trivial

/-- The enumeration of two layers. The farther `A` is masked by the nearer `a`. -/
theorem getHeaderByIndex_maskedHeaders :
    maskedHeaders.heap.getHeaderByIndex 2 0 0 = some (some (letter 'y')) ∧
    maskedHeaders.heap.getHeaderByIndex 2 0 1 = some (some (letter 'x')) ∧
    maskedHeaders.heap.getHeaderByIndex 2 0 2 = some none ∧
    ∃ names, VisibleNames maskedHeaders 2 0 names ∧
      (∀ k name, names[k]? = some name → ∃ value,
        maskedHeaders.get 2 0 name = some (some value) ∧
          maskedHeaders.heap.getHeaderByIndex 2 0 k = some (some value)) ∧
      ∀ k, names.length ≤ k → maskedHeaders.heap.getHeaderByIndex 2 0 k = some none :=
  ⟨rfl, rfl, rfl,
    getHeaderByIndex_enumerates reaches_maskedHeaders (.node rfl (.node rfl .null)) le_rfl⟩

end Intent.Old.Headers
