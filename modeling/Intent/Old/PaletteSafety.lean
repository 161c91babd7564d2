import Intent.Old.PaletteWalk

/-!
# Safety of palettes

When a palette and a query stay inside of the tables. `Buildable` is what the names must be like,
`Reads` what the characters of the query must be like, both in terms of the prefixes of names.
`safe_iff` says that a palette is built, a lookup ends, and a query that matches no name is mapped
to 0, exactly under these conditions.
-/

namespace Intent.Old.Palette

variable {entries : List SpecEntry} {mappers : List Mapper} {p chars : Text} {c : UInt8}
  {unmatched : Prop}

/-! ### Names -/

/-- What names must be like: there are no more of them than entries, they have no more beginnings
in common than there is room for tables, and wherever one of them goes on alone it does so with a
letter. -/
structure Buildable (entries : List SpecEntry) : Prop where
  few : entries.length ≤ 240
  tables : (sharedPrefixes (names entries)).length + 1 ≤ capacity
  lettered : ∀ p, p = [] ∨ 2 ≤ sharing (names entries) p → Lettered entries p

/-! ### Queries -/

/-- What the characters of a query must be like behind a prefix that has a table: the next one
leads to the beginning of some name. Where that is the beginning of one name, its value ends the
walk, and is 0 for a query that is unmatched; or it is the number of a table, and the rest must
be so behind the prefix of this table. -/
def Reads (entries : List SpecEntry) (unmatched : Prop) : Text → Text → Prop
  | _, [] => True
  | p, c :: chars =>
    0 < sharing (names entries) (p ++ [c]) ∧
      (2 ≤ sharing (names entries) (p ++ [c]) → Reads entries unmatched (p ++ [c]) chars) ∧
        (sharing (names entries) (p ++ [c]) = 1 → ∀ e ∈ entries, p ++ [c] <+: e.name →
          e.value < 16 ∧ (unmatched → e.value = 0) ∨
            16 ≤ e.value ∧ ∃ q, (branches entries)[e.value.toNat - 16]? = some q ∧
              Reads entries unmatched q chars)

/-- **Documented values.** Where all values are below 16, the characters of a query are as they
should be exactly if none of them leads from the root or a shared beginning to no beginning at
all, and for an unmatched query the value of the name that it leads to alone is 0. -/
theorem reads_iff (hvalues : ∀ e ∈ entries, e.value < 16) :
    Reads entries unmatched p chars ↔
      ∀ i < chars.length, i = 0 ∨ 2 ≤ sharing (names entries) (p ++ chars.take i) →
        0 < sharing (names entries) (p ++ chars.take (i + 1)) ∧
          (sharing (names entries) (p ++ chars.take (i + 1)) = 1 → unmatched →
            ∀ e ∈ entries, p ++ chars.take (i + 1) <+: e.name → e.value = 0) := by
  induction chars generalizing p with
  | nil => exact iff_of_true trivial fun i hi => absurd hi (Nat.not_lt_zero i)
  | cons c chars ih =>
    have hvalue : (∀ e ∈ entries, p ++ [c] <+: e.name →
        e.value < 16 ∧ (unmatched → e.value = 0) ∨
          16 ≤ e.value ∧ ∃ q, (branches entries)[e.value.toNat - 16]? = some q ∧
            Reads entries unmatched q chars) ↔
        (unmatched → ∀ e ∈ entries, p ++ [c] <+: e.name → e.value = 0) := by
      constructor
      · intro h hunmatched e he hce
        rcases h e he hce with ⟨-, hzero⟩ | ⟨hge, -⟩
        · exact hzero hunmatched
        · exact absurd (hvalues e he) (UInt8.not_lt.mpr hge)
      · intro h e he hce
        exact .inl ⟨hvalues e he, fun hunmatched => h hunmatched e he hce⟩
    have happend : ∀ i, p ++ (c :: chars).take (i + 1) = p ++ [c] ++ chars.take i := fun i => by
      rw [List.take_succ_cons, List.append_assoc, List.singleton_append]
    -- the first character is that of `i = 0`, the others are those of the rest
    rw [Reads, hvalue, ih]
    constructor
    · rintro ⟨hpos, htwo, hone⟩ i hi hshared
      cases i with
      | zero =>
        rw [happend, List.take_zero, List.append_nil]
        exact ⟨hpos, hone⟩
      | succ i =>
        have hshared' := hshared.resolve_left (Nat.succ_ne_zero i)
        rw [happend] at hshared' ⊢
        exact htwo (hshared'.trans (sharing_anti (List.prefix_append _ _))) i
          (Nat.lt_of_succ_lt_succ hi) (.inr hshared')
    · intro h
      have hfirst := h 0 (Nat.zero_lt_succ _) (.inl rfl)
      rw [happend, List.take_zero, List.append_nil] at hfirst
      refine ⟨hfirst.1, fun htwo i hi hshared => ?_, hfirst.2⟩
      have hnext := h (i + 1) (Nat.succ_lt_succ hi)
      rw [happend, happend] at hnext
      refine hnext (.inr ?_)
      rcases hshared with rfl | hshared
      · rwa [List.take_zero, List.append_nil]
      · exact hshared

/-- **The walk.** From the table of a prefix, it ends as it should exactly for such characters. -/
theorem walkChars_iff (h : Tables entries mappers) {i : ℕ} {thisMap : Mapper}
    (hp : (branches entries)[i]? = some p) (hm : mappers[i]? = some thisMap) :
    (∃ v, walkChars mappers thisMap chars = .ok v ∧ (unmatched → v = 0)) ↔
      Reads entries unmatched p chars := by
  induction chars generalizing p i thisMap with
  | nil => exact iff_of_true ⟨0, rfl, fun _ => rfl⟩ trivial
  | cons c chars ih =>
    rw [Reads]
    by_cases hzero : sharing (names entries) (p ++ [c]) = 0
    · -- no name
      obtain ⟨f, hf⟩ : ∃ f, walkChars mappers thisMap (c :: chars) = .error f :=
        h.walkChars_none hp hm hzero
      rw [hf]
      refine iff_of_false ?_ fun hreads => ?_
      · rintro ⟨v, hv, -⟩
        cases hv
      · exact absurd hreads.1 (hzero ▸ Nat.lt_irrefl 0)
    · have hpos := Nat.pos_of_ne_zero hzero
      rw [and_iff_right hpos]
      by_cases htwo : 2 ≤ sharing (names entries) (p ++ [c])
      · -- two names
        obtain ⟨k, next, hk, hnext, hwalk⟩ := h.walkChars_two hp hm htwo
        rw [hwalk, ih hk hnext]
        refine ⟨fun hreads => ⟨fun _ => hreads, fun hone => ?_⟩, fun hreads => hreads.1 htwo⟩
        omega
      · -- one name
        have hone : sharing (names entries) (p ++ [c]) = 1 := by omega
        obtain ⟨w, hw, hcw⟩ := sharing_pos_iff.mp hpos
        obtain ⟨e, he, rfl⟩ := List.mem_map.mp hw
        have hall : ∀ {P : SpecEntry → Prop},
            (∀ e' ∈ entries, p ++ [c] <+: e'.name → P e') ↔ P e :=
          ⟨fun h => h e he hcw, fun h e' he' hce' =>
            eq_of_sharing_names hone.le he he' hcw hce' ▸ h⟩
        rw [h.walkChars_one hp hm hone he hcw, and_iff_right fun h => absurd h htwo,
          imp_iff_right hone, hall]
        by_cases hvalue : e.value < 16
        · rw [if_pos hvalue]
          have hnot : ¬ 16 ≤ e.value := UInt8.not_le.mpr hvalue
          constructor
          · rintro ⟨v, hv, hunmatched⟩
            exact .inl ⟨hvalue, Except.ok.inj hv ▸ hunmatched⟩
          · rintro (⟨-, hunmatched⟩ | ⟨hge, -⟩)
            · exact ⟨e.value, rfl, hunmatched⟩
            · exact absurd hge hnot
        · rw [if_neg hvalue]
          have hge : 16 ≤ e.value := UInt8.not_lt.mp hvalue
          rw [or_iff_right fun h => hvalue h.1, and_iff_right hge]
          -- the value is taken for the number of a table
          cases hq : (branches entries)[e.value.toNat - 16]? with
          | none =>
            have hnone : mappers[e.value.toNat - 16]? = none := by
              rw [List.getElem?_eq_none_iff] at hq ⊢
              rwa [h.complete.length_eq]
            rw [hnone]
            refine iff_of_false ?_ ?_
            · rintro ⟨v, hv, -⟩
              cases hv
            · rintro ⟨q, hq', -⟩
              cases hq'
          | some q =>
            obtain ⟨next, hnext, -⟩ := h.getElem? hq
            rw [hnext]
            have hiff := ih hq hnext
            refine hiff.trans ⟨fun hreads => ⟨q, rfl, hreads⟩, ?_⟩
            rintro ⟨q', hq', hreads⟩
            exact Option.some.inj hq' ▸ hreads

/-! ### Palettes -/

/-- No name begins with the query, separators left out and case folded. -/
def Unmatched (pairs : List (Text × UInt8)) (query : Text) : Prop :=
  ∀ pair ∈ pairs, ¬ foldName query <+: foldName pair.1

/-- The constructor ends, and so does the lookup, without an undefined access. A query that
matches no name is mapped to 0. -/
def Safe (spec query : Text) (pairs : List (Text × UInt8)) : Prop :=
  ∃ mappers v, ansiColorPalette spec = .ok mappers ∧ mapName mappers (some query) = .ok v ∧
    (Unmatched pairs query → v = 0)

/-- **Safety of palettes.** A specification that the constructor accepts and a query are safe
exactly if the names are such that the tables can be built, and the characters of the query lead
on from beginning to beginning of names. -/
theorem safe_iff {spec query : Text} {pairs : List (Text × UInt8)}
    (haccepted : ansiColorPalette spec ≠ .error .violation)
    (hpairs : readPairs 241 spec = some pairs) (hquery : query ≠ []) :
    Safe spec query pairs ↔
      Buildable (pairs.map copyName) ∧
        Reads (pairs.map copyName) (Unmatched pairs query) [] (nameChars query) := by
  have hspec : spec ≠ [] := by
    rintro rfl
    exact haccepted rfl
  have hpalette : ansiColorPalette spec =
      if pairs.length > 240 then .error .entryIndex else generateMaps (pairs.map copyName) := by
    rw [ansiColorPalette, if_neg hspec, hpairs]
  -- the lookup, where the tables are built
  have hlookup : ∀ {mappers}, Tables (pairs.map copyName) mappers →
      ((∃ v, mapName mappers (some query) = .ok v ∧ (Unmatched pairs query → v = 0)) ↔
        Reads (pairs.map copyName) (Unmatched pairs query) [] (nameChars query)) := by
    intro mappers htables
    obtain ⟨thisMap, hp, hm, hlookup⟩ := htables.mapName_eq hquery
    rw [hlookup]
    exact walkChars_iff htables hp hm
  rw [Safe, hpalette]
  by_cases hfew : pairs.length ≤ 240
  · rw [if_neg (Nat.not_lt.mpr hfew)]
    rcases generateMaps_spec (pairs.map copyName) with
      ⟨hfits, mappers, hmaps, hcomplete⟩ | ⟨hnot, f, hmaps, -⟩
    · have hbuildable : Buildable (pairs.map copyName) :=
        ⟨by rw [List.length_map]; exact hfew, (fits_iff.mp hfits).1, (fits_iff.mp hfits).2⟩
      rw [and_iff_right hbuildable, ← hlookup ⟨hfits, hcomplete⟩, hmaps]
      constructor
      · rintro ⟨mappers', v, hok, hv⟩
        rw [Except.ok.inj hok]
        exact ⟨v, hv⟩
      · rintro ⟨v, hv⟩
        exact ⟨mappers, v, rfl, hv⟩
    · rw [hmaps]
      refine iff_of_false ?_ fun h => hnot (fits_iff.mpr ⟨h.1.tables, h.1.lettered⟩)
      rintro ⟨mappers, v, hok, -⟩
      cases hok
  · rw [if_pos (Nat.lt_of_not_le hfew)]
    refine iff_of_false ?_ fun h => hfew (List.length_map copyName ▸ h.1.few)
    rintro ⟨mappers, v, hok, -⟩
    cases hok

/-- Two names that begin alike, looked up by the second one. -/
theorem safe_twoNames :
    Safe (bytes ['a', 'b', '=', '1', ',', 'a', 'c', '=', '2']) (bytes ['a', 'c'])
      [(bytes ['a', 'b'], 1), (bytes ['a', 'c'], 2)] := by
  have hok : (ansiColorPalette (bytes ['a', 'b', '=', '1', ',', 'a', 'c', '=', '2'])).isOk =
      true := by decide
  have haccepted : ansiColorPalette (bytes ['a', 'b', '=', '1', ',', 'a', 'c', '=', '2']) ≠
      .error .violation := by
    intro herror
    rw [herror] at hok
    cases hok
  have hbranches : branches ([(bytes ['a', 'b'], 1), (bytes ['a', 'c'], 2)].map copyName) =
      [[], bytes ['a']] := by decide
  refine (safe_iff haccepted (by decide) (by decide)).mpr ⟨⟨by decide, by decide, ?_⟩, ?_⟩
  · intro p hp
    have hmem := mem_branches_iff.mpr hp
    rw [hbranches] at hmem
    rcases List.mem_cons.mp hmem with rfl | hmem
    · exact List.forall_mem_cons.mpr ⟨fun _ => ⟨ch 'a', by decide, by decide⟩,
        List.forall_mem_singleton.mpr fun _ => ⟨ch 'a', by decide, by decide⟩⟩
    · rw [List.mem_singleton.mp hmem]
      exact List.forall_mem_cons.mpr ⟨fun _ => ⟨ch 'b', by decide, by decide⟩,
        List.forall_mem_singleton.mpr fun _ => ⟨ch 'c', by decide, by decide⟩⟩
  · have hmatched : ¬ Unmatched [(bytes ['a', 'b'], 1), (bytes ['a', 'c'], 2)]
        (bytes ['a', 'c']) := fun h =>
      h _ (List.mem_cons_of_mem _ (List.mem_singleton_self _)) (by decide)
    have hvalues : ∀ e ∈ [(bytes ['a', 'b'], 1), (bytes ['a', 'c'], 2)].map copyName,
        e.value < 16 :=
      List.forall_mem_cons.mpr ⟨by decide, List.forall_mem_singleton.mpr (by decide)⟩
    refine (reads_iff hvalues).mpr fun i hi _ => ⟨?_, fun _ h => absurd h hmatched⟩
    obtain rfl | rfl : i = 0 ∨ i = 1 := Nat.le_one_iff_eq_zero_or_eq_one.mp (Nat.lt_succ_iff.mp hi)
    · decide
    · decide

/-- A name of the documented form: a letter, and letters, digits and separators. -/
def DocumentedName (name : Text) : Prop :=
  ∃ c rest, name = c :: rest ∧ isalpha c = true ∧ rest.all continuesName = true

/-- A query whose letter begins no name leads to `noMatch`, which is taken for the number of a
table. -/
theorem not_safe_absent :
    ansiColorPalette (bytes ['a', '=', '1']) ≠ .error .violation ∧
      readPairs 241 (bytes ['a', '=', '1']) = some [(bytes ['a'], 1)] ∧
        DocumentedName (bytes ['a']) ∧
          ¬ Safe (bytes ['a', '=', '1']) (bytes ['b']) [(bytes ['a'], 1)] := by
  refine ⟨fun herror => ?_, by decide, ⟨ch 'a', [], rfl, by decide, rfl⟩, ?_⟩
  · have hok : (ansiColorPalette (bytes ['a', '=', '1'])).isOk = true := by decide
    rw [herror] at hok
    cases hok
  · rintro ⟨mappers, v, hok, hv, -⟩
    have hlookup : ((ansiColorPalette (bytes ['a', '=', '1'])).bind fun mappers =>
        mapName mappers (some (bytes ['b']))).isOk = false := by decide
    rw [hok, Except.bind, hv] at hlookup
    cases hlookup

end Intent.Old.Palette
