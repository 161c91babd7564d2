import Intent.Old.PaletteWalk

/-!
# Lookups by a prefix of one name

A palette of well-formed lines: the pairs are read back from its text, `fill_maps` gets through,
and `mapName_unique` says that the beginning of one name leads to the value of this name.
-/

namespace Intent.Old.Palette

/-! ### Specifications -/

/-- A line of a palette: a name of letters, and a color. -/
structure Line where
  name : Text
  value : Fin 16
  letters : ∀ c ∈ name, isalpha c = true
  ne_nil : name ≠ []
  short : name.length ≤ 14

/-- The digits of a color. -/
def decimal (value : Fin 16) : Text := (Nat.toDigits 10 value).map ch

/-- The text of a line, without its line break. -/
def Line.text (l : Line) : Text := l.name ++ ch '=' :: decimal l.value

/-- The lines one under the other, with an ending. -/
def specOf (lines : List Line) (ending : Text) : Text :=
  List.intercalate [ch '\n'] (lines.map Line.text) ++ ending

/-- What the constructor makes of a line. -/
def Line.pair (l : Line) : Text × UInt8 := (l.name, .ofNat l.value)

section Reading

variable {l : Line} {lines : List Line} {rest ending : Text} {rounds : ℕ}

theorem beginsName_of_isalpha {c : UInt8} (h : isalpha c = true) : beginsName c = true := by
  rw [beginsName, Bool.or_eq_true, Bool.and_eq_true, decide_eq_true_eq, decide_eq_true_eq]
  rcases isalpha_iff.mp h with hupper | hlower
  · obtain ⟨hge, hle⟩ := isupper_iff.mp hupper
    exact .inr ⟨UInt8.le_iff_toNat_le.mpr hge, UInt8.le_iff_toNat_le.mpr (hle.trans (by decide))⟩
  · exact .inl hlower

theorem continuesName_of_isalpha {c : UInt8} (h : isalpha c = true) : continuesName c = true := by
  rw [continuesName, isalnum, h, Bool.true_or, Bool.true_or]

/-- A line break before a name is skipped. -/
theorem findNextName_cons (rest : Text) : findNextName (ch '\n' :: rest) = findNextName rest := by
  rw [findNextName, List.dropWhile_cons_of_pos (by decide)]
  rfl

theorem findNextName_line (l : Line) (rest : Text) :
    findNextName (l.text ++ rest) = some (l.name, ch '=' :: (decimal l.value ++ rest)) := by
  obtain ⟨c, p, hname⟩ := List.exists_cons_of_ne_nil l.ne_nil
  have hc := l.letters c (hname ▸ List.mem_cons_self)
  have htext : l.text ++ rest = l.name ++ ch '=' :: (decimal l.value ++ rest) := by
    rw [Line.text, List.append_assoc, List.cons_append]
  have hall : ∀ c ∈ l.name, continuesName c = true := fun c hc =>
    continuesName_of_isalpha (l.letters c hc)
  have hstop : continuesName (ch '=') = false := by decide
  have htake :
      (l.name ++ ch '=' :: (decimal l.value ++ rest)).takeWhile continuesName = l.name := by
    rw [List.takeWhile_append_of_pos hall, List.takeWhile_cons_of_neg (by simp [hstop]),
      List.append_nil]
  have hdrop : (l.name ++ ch '=' :: (decimal l.value ++ rest)).dropWhile continuesName =
      ch '=' :: (decimal l.value ++ rest) := by
    rw [List.dropWhile_append_of_pos hall, List.dropWhile_cons_of_neg (by simp [hstop])]
  rw [htext, findNextName, hname, List.cons_append,
    List.dropWhile_cons_of_neg (by simp [beginsName_of_isalpha hc])]
  dsimp only
  rw [← List.cons_append, ← hname, hdrop, htake]
  rfl

/-- The digits of a color are those of `find_next_value`: one, or a 1 and another one. -/
theorem decimal_cases (v : Fin 16) :
    (∃ d, decimal v = [d] ∧ isdigit d = true ∧ d ≠ ch '=' ∧ d ≠ ch ' ' ∧
        d - ch '0' = .ofNat v) ∨
      ∃ d d', decimal v = [d, d'] ∧ isdigit d = true ∧ isdigit d' = true ∧ d ≠ ch '=' ∧
        d ≠ ch ' ' ∧ (d - ch '0') * (10 + (d' - ch '0')) = .ofNat v := by
  by_cases hv : v.val < 10
  · refine .inl ⟨ch '0' + .ofNat v, ?_⟩
    revert v
    decide
  · refine .inr ⟨ch '1', ch '0' + .ofNat (v - 10), ?_⟩
    revert v
    decide

theorem findNextValue_line (v : Fin 16) (hrest : ∀ c ∈ rest.head?, isdigit c = false) :
    findNextValue false (ch '=' :: (decimal v ++ rest)) = some (.ofNat v, rest) := by
  rw [findNextValue.eq_def]
  dsimp only
  rw [if_pos rfl, if_neg Bool.false_ne_true]
  rcases decimal_cases v with ⟨d, hd, hdigit, heq, hspace, hvalue⟩ |
    ⟨d, d', hd, hdigit, hdigit', heq, hspace, hvalue⟩
  · rw [hd, List.singleton_append, findNextValue.eq_def]
    dsimp only
    rw [if_neg heq, if_neg hspace, if_neg (by simp [hdigit]), hvalue]
    cases rest with
    | nil => rfl
    | cons c rest =>
      dsimp only
      rw [if_neg (by simp [hrest c rfl])]
  · rw [hd, List.cons_append, List.singleton_append, findNextValue.eq_def]
    dsimp only
    rw [if_neg heq, if_neg hspace, if_neg (by simp [hdigit]), if_pos hdigit', hvalue]

theorem readPairs_cons (rounds : ℕ) (rest : Text) :
    readPairs rounds (ch '\n' :: rest) = readPairs rounds rest := by
  cases rounds with
  | zero => rfl
  | succ rounds => rw [readPairs, readPairs, findNextName_cons]

theorem readPairs_ending (rounds : ℕ) (h : ∀ c ∈ ending, c = ch '\n') :
    readPairs rounds ending = some [] := by
  induction ending with
  | nil =>
    cases rounds with
    | zero => rfl
    | succ rounds => rfl
  | cons c ending ih =>
    obtain ⟨rfl, hrest⟩ := List.forall_mem_cons.mp h
    rw [readPairs_cons, ih hrest]

/-- **The pairs of a specification** are read back. -/
theorem readPairs_specOf (hending : ∀ c ∈ ending, c = ch '\n') (hrounds : lines.length ≤ rounds) :
    readPairs rounds (specOf lines ending) = some (lines.map Line.pair) := by
  induction lines generalizing rounds with
  | nil => exact readPairs_ending rounds hending
  | cons l lines ih =>
    obtain ⟨rounds, rfl⟩ := Nat.exists_eq_succ_of_ne_zero (Nat.ne_zero_of_lt hrounds)
    have hrounds' : lines.length ≤ rounds := Nat.le_of_succ_le_succ hrounds
    -- what is behind the line begins with a line break, or is empty
    obtain ⟨rest, hspec, hhead, hread⟩ : ∃ rest, specOf (l :: lines) ending = l.text ++ rest ∧
        (∀ c ∈ rest.head?, isdigit c = false) ∧
          readPairs rounds rest = some (lines.map Line.pair) := by
      cases lines with
      | nil =>
        refine ⟨ending, by rw [specOf, List.map_singleton, List.intercalate_singleton],
          fun c hc => ?_, readPairs_ending rounds hending⟩
        rw [hending c (List.mem_of_mem_head? hc)]
        decide
      | cons l' lines =>
        refine ⟨ch '\n' :: specOf (l' :: lines) ending, ?_, fun c hc => ?_, ?_⟩
        · rw [specOf, specOf, List.map_cons, List.map_cons, List.intercalate_cons_cons,
            List.append_assoc, List.append_assoc]
          rfl
        · rw [← Option.some.inj hc]
          decide
        · rw [readPairs_cons, ih hrounds']
    rw [hspec, readPairs, findNextName_line]
    dsimp only
    rw [findNextValue_line l.value hhead]
    dsimp only
    rw [hread]
    rfl

end Reading

/-! ### Entries -/

section Entries

variable {l : Line} {lines : List Line}

/-- The names of lines, as comparisons see them. -/
def foldedNames (lines : List Line) : List Text := lines.map fun l => foldName l.name

theorem isLower_of_mem_foldName {c : UInt8} (hc : c ∈ foldName l.name) : isLower c = true := by
  obtain ⟨d, hd, rfl⟩ := List.mem_map.mp hc
  exact isLower_foldChar_iff.mpr (l.letters d (List.mem_of_mem_filter hd))

theorem length_foldName_le (l : Line) : (foldName l.name).length ≤ 14 := by
  rw [foldName, List.length_map]
  exact (List.length_filter_le _ _).trans l.short

theorem foldName_ne_nil (l : Line) : foldName l.name ≠ [] := by
  obtain ⟨c, p, hname⟩ := List.exists_cons_of_ne_nil l.ne_nil
  have hc := l.letters c (hname ▸ List.mem_cons_self)
  have hsep : ¬ isSeparator c = true := by
    rw [isSeparator_iff]
    rcases isalpha_iff.mp hc with hupper | hlower
    · have := isupper_iff.mp hupper
      omega
    · have := isLower_iff.mp hlower
      omega
  rw [foldName, hname, List.filter_cons_of_pos (by simp [hsep]), List.map_cons]
  exact List.cons_ne_nil _ _

/-- A name has room in its entry. -/
theorem name_copyName (l : Line) : (copyName l.pair).name = foldName l.name := by
  have hchars : nameChars l.name = foldName l.name :=
    nameChars_eq fun c hc => .inl (isLower_of_mem_foldName hc)
  show copyChars 14 l.name = foldName l.name
  rw [copyChars_eq, hchars, List.take_of_length_le (length_foldName_le l)]

/-- The entries of the lines. -/
def entriesOf (lines : List Line) : List SpecEntry := (lines.map Line.pair).map copyName

theorem names_entriesOf (lines : List Line) : names (entriesOf lines) = foldedNames lines := by
  rw [names, entriesOf, List.map_map, List.map_map, foldedNames]
  exact List.map_congr_left fun l _ => name_copyName l

/-- **Well-formed lines** meet the condition of `fill_maps`. -/
theorem fits_entriesOf (hfree : PrefixFree (foldedNames lines))
    (htables : (sharedPrefixes (foldedNames lines)).length + 1 ≤ capacity) :
    Fits (entriesOf lines) [] (branches (entriesOf lines)) := by
  rw [fits_iff, names_entriesOf]
  refine ⟨htables, fun q hq e he hqe => ?_⟩
  have hmem : e.name ∈ foldedNames lines := names_entriesOf lines ▸ List.mem_map_of_mem he
  obtain ⟨l, -, hl⟩ := List.mem_map.mp hmem
  obtain ⟨t, ht⟩ := hqe
  -- a name that ended at the branch would be empty, or a prefix of another one
  have hne : t ≠ [] := by
    rintro rfl
    rw [List.append_nil] at ht
    rcases hq with rfl | htwo
    · exact foldName_ne_nil l (hl.trans ht.symm)
    · have hone := hfree.sharing_le_one (ht ▸ hmem)
      omega
  obtain ⟨c, r, rfl⟩ := List.exists_cons_of_ne_nil hne
  have hc : c ∈ foldName l.name := by
    rw [hl, ← ht]
    exact List.mem_append_right q List.mem_cons_self
  exact ⟨c, isLower_of_mem_foldName hc, r, by rw [← ht, List.append_assoc]; rfl⟩

end Entries

/-! ### Lookups -/

/-- **The walk to one name.** Characters that complete a prefix of one name only lead to its
value. -/
theorem Tables.walkChars_unique {entries : List SpecEntry} {mappers : List Mapper}
    (h : Tables entries mappers) {e : SpecEntry} (he : e ∈ entries) (hvalue : e.value < 16)
    {p chars : Text} {i : ℕ} {thisMap : Mapper} (hp : (branches entries)[i]? = some p)
    (hm : mappers[i]? = some thisMap) (hne : chars ≠ []) (hchars : p ++ chars <+: e.name)
    (hone : sharing (names entries) (p ++ chars) = 1) :
    walkChars mappers thisMap chars = .ok e.value := by
  induction chars generalizing p i thisMap with
  | nil => exact absurd rfl hne
  | cons c chars ih =>
    have happend : p ++ c :: chars = p ++ [c] ++ chars := by
      rw [List.append_assoc, List.singleton_append]
    rw [happend] at hchars hone
    have hc : p ++ [c] <+: e.name := (List.prefix_append _ _).trans hchars
    have hpos : 0 < sharing (names entries) (p ++ [c]) :=
      sharing_pos_iff.mpr ⟨e.name, List.mem_map_of_mem he, hc⟩
    by_cases htwo : 2 ≤ sharing (names entries) (p ++ [c])
    · obtain ⟨k, next, hk, hnext, hwalk⟩ := h.walkChars_two hp hm htwo
      rw [hwalk]
      refine ih hk hnext ?_ hchars hone
      rintro rfl
      rw [List.append_nil] at hone
      omega
    · rw [h.walkChars_one hp hm (by omega) he hc, if_pos hvalue]

/-- **Lookup by a prefix of one name.** The palette of up to 240 lines, whose names are different
and no prefixes of each other, is built if there is room for its tables. A query that is the
beginning of one of the names only is mapped to the value of this name. -/
theorem mapName_unique (lines : List Line) (ending : Text) (hending : ∀ c ∈ ending, c = ch '\n')
    (hfree : PrefixFree (foldedNames lines)) (hcount : lines.length ≤ 240)
    (htables : (sharedPrefixes (foldedNames lines)).length + 1 ≤ capacity) (q : Text) (l : Line)
    (hq : foldName q ≠ [])
    (hl : (lines.filter fun l' => foldName q <+: foldName l'.name) = [l]) :
    ∃ mappers, ansiColorPalette (specOf lines ending) = .ok mappers ∧
      mapName mappers (some q) = .ok (.ofNat l.value) := by
  have hmem : l ∈ lines.filter fun l' => foldName q <+: foldName l'.name :=
    hl ▸ List.mem_singleton_self l
  obtain ⟨hline, hql⟩ := List.mem_filter.mp hmem
  rw [decide_eq_true_eq] at hql
  have hread := readPairs_specOf hending (hcount.trans (Nat.le_succ 240))
  have hspec : specOf lines ending ≠ [] := by
    intro hnil
    rw [hnil] at hread
    rw [List.map_eq_nil_iff.mp (Option.some.inj hread).symm] at hline
    cases hline
  -- the tables
  rcases generateMaps_spec (entriesOf lines) with ⟨hfits, mappers, hmaps, hcomplete⟩ | ⟨hnot, -⟩
  · have htab : Tables (entriesOf lines) mappers := ⟨hfits, hcomplete⟩
    refine ⟨mappers, ?_, ?_⟩
    · rw [ansiColorPalette, if_neg hspec, hread]
      dsimp only
      rw [List.length_map, if_neg (Nat.not_lt.mpr hcount)]
      exact hmaps
    · -- the walk
      have hchars : nameChars q = foldName q :=
        nameChars_eq fun c hc => .inl (isLower_of_mem_foldName (hql.subset hc))
      have hne : q ≠ [] := by
        rintro rfl
        exact hq rfl
      have hone : sharing (names (entriesOf lines)) ([] ++ foldName q) = 1 := by
        rw [names_entriesOf, foldedNames, sharing, List.countP_map, List.countP_eq_length_filter]
        exact congrArg List.length hl
      have hvalue : (copyName l.pair).value < 16 := by
        have hlt := l.value.isLt
        show UInt8.ofNat l.value < 16
        rw [UInt8.lt_iff_toNat_lt, UInt8.toNat_ofNat']
        exact lt_of_le_of_lt (Nat.mod_le _ _) hlt
      obtain ⟨thisMap, hp, hm, hwalk⟩ := htab.mapName_eq hne
      rw [hwalk, hchars]
      exact htab.walkChars_unique (List.mem_map_of_mem (List.mem_map_of_mem hline)) hvalue hp hm hq
        (by rw [name_copyName]; exact hql) hone
  · exact absurd (fits_entriesOf hfree htables) hnot

/-- The lines of two names with a common beginning. -/
def sampleLines : List Line :=
  [⟨bytes ['n', 'o', 'r', 'm', 'a', 'l'], 8, List.all_eq_true.mp (by decide), by decide,
      by decide⟩,
    ⟨bytes ['N', 'o', 't', 'e'], 13, List.all_eq_true.mp (by decide), by decide,
      by decide⟩]

/-- `no-T` is the beginning of one of the names. -/
theorem mapName_sampleLines :
    ∃ mappers, ansiColorPalette (bytes ['n', 'o', 'r', 'm', 'a', 'l', '=', '8', '\n',
        'N', 'o', 't', 'e', '=', '1', '3']) = .ok mappers ∧
      mapName mappers (some (bytes ['n', 'o', '-', 'T'])) = .ok 13 :=
  mapName_unique sampleLines [] (List.forall_mem_nil _) (by decide) (by decide) (by decide)
    (bytes ['n', 'o', '-', 'T']) (sampleLines.get ⟨1, by decide⟩) (by decide) rfl

end Intent.Old.Palette
