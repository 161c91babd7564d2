import Intent.Old.PaletteFill

/-!
# Walks through the tables

`next_name_char` and the loop of `map_name`. The loop depends only on the characters that
`next_name_char` returns (`mapName_eq`); `walkChars_none`, `walkChars_one` and `walkChars_two` say
what it does with a letter at the table of a prefix, by how many names begin with the two.
-/

namespace Intent.Old.Palette

/-! ### Characters of names -/

section Characters

variable {c : UInt8} {p : Text}

/-- `A` to `Z` folded to `a` to `z`. -/
def foldChar (c : UInt8) : UInt8 := if isupper c then c + 32 else c

/-- What comparisons of names see of a text: separators left out, and case folded. -/
def foldName (txt : Text) : Text := (txt.filter fun c => !isSeparator c).map foldChar

theorem isupper_iff : isupper c = true ↔ 65 ≤ c.toNat ∧ c.toNat ≤ 90 := by
  rw [isupper, Bool.and_eq_true, decide_eq_true_eq, decide_eq_true_eq, UInt8.le_iff_toNat_le,
    UInt8.le_iff_toNat_le]
  rfl

theorem isdigit_iff : isdigit c = true ↔ 48 ≤ c.toNat ∧ c.toNat ≤ 57 := by
  rw [isdigit, Bool.and_eq_true, decide_eq_true_eq, decide_eq_true_eq, UInt8.le_iff_toNat_le,
    UInt8.le_iff_toNat_le]
  rfl

theorem isSeparator_iff : isSeparator c = true ↔ c.toNat = 46 ∨ c.toNat = 45 ∨ c.toNat = 95 := by
  rw [isSeparator, Bool.or_eq_true, Bool.or_eq_true, beq_iff_eq, beq_iff_eq, beq_iff_eq,
    ← UInt8.toNat_inj, ← UInt8.toNat_inj, ← UInt8.toNat_inj, or_assoc]
  rfl

theorem isalpha_iff : isalpha c = true ↔ isupper c = true ∨ isLower c = true := by
  rw [isalpha, isLower, Bool.or_eq_true]

theorem isLower_foldChar_iff : isLower (foldChar c) = true ↔ isalpha c = true := by
  rw [isalpha_iff, foldChar]
  split_ifs with h
  · refine iff_of_true ?_ (.inl h)
    obtain ⟨hge, hle⟩ := isupper_iff.mp h
    rw [isLower_iff, UInt8.toNat_add]
    have h32 : (32 : UInt8).toNat = 32 := rfl
    omega
  · exact (or_iff_right h).symm

/-- The next character, where there is one; its case is folded. -/
theorem nextNameChar_cases (p : Text) :
    (nameChars p = [] ∧ (nextNameChar p).1 = 0) ∨
      (nextNameChar p).1 ≠ 0 ∧ (nextNameChar p).2.length < p.length ∧
        nameChars p = (nextNameChar p).1 :: nameChars (nextNameChar p).2 := by
  induction p with
  | nil => exact .inl ⟨rfl, rfl⟩
  | cons c p ih =>
    have hne : ∀ {d : UInt8}, 0 < d.toNat → d ≠ 0 := by
      rintro d hd rfl
      exact Nat.lt_irrefl 0 hd
    by_cases hlower : isLower c = true
    · rw [nextNameChar, nameChars, if_pos hlower, if_pos hlower]
      obtain ⟨hge, -⟩ := isLower_iff.mp hlower
      exact .inr ⟨hne (Nat.zero_lt_of_lt hge), Nat.lt_succ_self _, rfl⟩
    · by_cases hupper : isupper c = true
      · rw [nextNameChar, nameChars, if_neg hlower, if_neg hlower, if_pos hupper, if_pos hupper]
        obtain ⟨hge, hle⟩ := isupper_iff.mp hupper
        have h32 : (32 : UInt8).toNat = 32 := rfl
        refine .inr ⟨hne ?_, Nat.lt_succ_self _, rfl⟩
        rw [UInt8.toNat_add]
        omega
      · by_cases hdigit : isdigit c = true
        · rw [nextNameChar, nameChars, if_neg hlower, if_neg hlower, if_neg hupper,
            if_neg hupper, if_pos hdigit, if_pos hdigit]
          obtain ⟨hge, -⟩ := isdigit_iff.mp hdigit
          exact .inr ⟨hne (Nat.zero_lt_of_lt hge), Nat.lt_succ_self _, rfl⟩
        · rw [nextNameChar, nameChars, if_neg hlower, if_neg hlower, if_neg hupper,
            if_neg hupper, if_neg hdigit, if_neg hdigit]
          by_cases hsep : (!isSeparator c) = true
          · rw [if_pos hsep, if_pos hsep]
            exact .inl ⟨rfl, rfl⟩
          · rw [if_neg hsep, if_neg hsep, List.length_cons]
            exact ih.imp_right fun ⟨hc, hlt, heq⟩ => ⟨hc, Nat.lt_succ_of_lt hlt, heq⟩

/-- A name is copied as far as there is room. -/
theorem copyChars_eq (room : ℕ) (p : Text) : copyChars room p = (nameChars p).take room := by
  induction room generalizing p with
  | zero => rfl
  | succ room ih =>
    rw [copyChars]
    rcases nextNameChar_cases p with ⟨hnil, hzero⟩ | ⟨hne, -, heq⟩
    · simp only [if_pos hzero, hnil, List.take_nil]
    · simp only [if_neg hne, heq, List.take_succ_cons, ih]

/-- Of a text with letters, digits and separators, all characters are read. -/
theorem nameChars_eq (h : ∀ c ∈ foldName p, isLower c = true ∨ isdigit c = true) :
    nameChars p = foldName p := by
  induction p with
  | nil => rfl
  | cons c p ih =>
    rw [foldName] at h ⊢
    by_cases hsep : isSeparator c = true
    · have hsep' := isSeparator_iff.mp hsep
      have hnot : ¬ isLower c = true ∧ ¬ isupper c = true ∧ ¬ isdigit c = true := by
        rw [isLower_iff, isupper_iff, isdigit_iff]
        omega
      rw [List.filter_cons_of_neg (by simp [hsep])] at h ⊢
      rw [nameChars, if_neg hnot.1, if_neg hnot.2.1, if_neg hnot.2.2, if_neg (by simp [hsep])]
      exact ih h
    · rw [List.filter_cons_of_pos (by simp [hsep]), List.map_cons] at h ⊢
      obtain ⟨hc, hrest⟩ := List.forall_mem_cons.mp h
      rw [← foldName, ← ih hrest, nameChars]
      by_cases hupper : isupper c = true
      · have hnot : ¬ isLower c = true := by
          have := isupper_iff.mp hupper
          rw [isLower_iff]
          omega
        rw [if_neg hnot, if_pos hupper, foldChar, if_pos hupper]
      · have hfold : foldChar c = c := if_neg hupper
        rw [hfold] at hc ⊢
        rcases hc with hlower | hdigit
        · rw [if_pos hlower]
        · have hnot : ¬ isLower c = true := by
            have := isdigit_iff.mp hdigit
            rw [isLower_iff]
            omega
          rw [if_neg hnot, if_neg hupper, if_pos hdigit]

end Characters

/-! ### The loop of `map_name` -/

section Walk

variable {mappers : List Mapper}

/-- The loop of `map_name` over the characters that `next_name_char` returns. -/
def walkChars (mappers : List Mapper) : Mapper → Text → Except Failure UInt8
  | _, [] => .ok 0
  | thisMap, c :: chars => do
    let n ← thisMap.read (getMapperIdxForChar c)
    if n < 16 then return n
    else
      match mappers[n.toNat - 16]? with
      | some thisMap => walkChars mappers thisMap chars
      | none => throw .mapperNumber

theorem walk_eq {rounds : ℕ} {thisMap : Mapper} {p : Text} (h : p.length ≤ rounds) :
    walk mappers rounds thisMap p = walkChars mappers thisMap (nameChars p) := by
  induction rounds generalizing thisMap p with
  | zero =>
    rw [List.length_eq_zero_iff.mp (Nat.le_zero.mp h)]
    rfl
  | succ rounds ih =>
    cases p with
    | nil => rfl
    | cons c p =>
      rw [walk]
      rcases nextNameChar_cases (c :: p) with ⟨hnil, hzero⟩ | ⟨hne, hlt, heq⟩
      · simp only [if_pos hzero, hnil]
        rfl
      · simp only [if_neg hne, heq, walkChars]
        refine congrArg (thisMap.read _ >>= ·) (funext fun n => ?_)
        by_cases hn : n < 16
        · rw [if_pos hn, if_pos hn]
        · rw [if_neg hn, if_neg hn]
          cases mappers[n.toNat - 16]? with
          | none => rfl
          | some next => exact ih (by omega)

/-- **`map_name`** walks from the first table, by the characters of the query. -/
theorem mapName_eq {thisMap : Mapper} {q : Text} (hq : q ≠ []) (h : mappers[0]? = some thisMap) :
    mapName mappers (some q) = walkChars mappers thisMap (nameChars q) := by
  obtain ⟨c, p, rfl⟩ := List.exists_cons_of_ne_nil hq
  simp only [mapName, h]
  exact walk_eq le_rfl

variable {entries : List SpecEntry} {p chars : Text} {c v : UInt8} {thisMap : Mapper} {i : ℕ}

/-- A prefix of one name has one entry. -/
theorem eq_of_sharing_names {q : Text} (h : sharing (names entries) q ≤ 1) {e e' : SpecEntry}
    (he : e ∈ entries) (he' : e' ∈ entries) (hq : q <+: e.name) (hq' : q <+: e'.name) : e = e' := by
  obtain ⟨i, hi⟩ := List.getElem?_of_mem he
  obtain ⟨j, hj⟩ := List.getElem?_of_mem he'
  have hij := eq_of_sharing_le_one h hi hj hq hq'
  rw [hij, hj] at hi
  exact (Option.some.inj hi).symm

/-- The tables of a palette that was built. -/
structure Tables (entries : List SpecEntry) (mappers : List Mapper) : Prop where
  fits : Fits entries [] (branches entries)
  complete : List.Forall₂ (Complete entries (branches entries)) mappers (branches entries)

/-- The table with a number is that of the prefix with this number. -/
theorem Tables.getElem? (h : Tables entries mappers) (hp : (branches entries)[i]? = some p) :
    ∃ m, mappers[i]? = some m ∧ Complete entries (branches entries) m p := by
  obtain ⟨hlt, rfl⟩ := List.getElem?_eq_some_iff.mp hp
  have hlt' : i < mappers.length := h.complete.length_eq ▸ hlt
  exact ⟨mappers[i], List.getElem?_eq_getElem hlt', h.complete.get hlt' hlt⟩

theorem Tables.lettered (h : Tables entries mappers) (hp : (branches entries)[i]? = some p) :
    Lettered entries p := h.fits.lettered p (List.mem_of_getElem? hp)

theorem Tables.length_le (h : Tables entries mappers) : mappers.length ≤ capacity :=
  h.complete.length_eq ▸ h.fits.room

/-- `map_name` walks from the table of the empty prefix. -/
theorem Tables.mapName_eq (h : Tables entries mappers) {q : Text} (hq : q ≠ []) :
    ∃ thisMap, (branches entries)[0]? = some [] ∧ mappers[0]? = some thisMap ∧
      mapName mappers (some q) = walkChars mappers thisMap (nameChars q) := by
  obtain ⟨more, hroot⟩ := branchesFrom_eq_cons (names entries) 15 []
  have hp : (branches entries)[0]? = some [] := by
    rw [branches, hroot, List.getElem?_cons_zero]
  obtain ⟨thisMap, hm, -⟩ := h.getElem? hp
  exact ⟨thisMap, hp, hm, Palette.mapName_eq hq hm⟩

theorem isLower_of_sharing_pos (h : Lettered entries p)
    (hpos : 0 < sharing (names entries) (p ++ [c])) : isLower c = true := by
  obtain ⟨w, hw, hcw⟩ := sharing_pos_iff.mp hpos
  obtain ⟨e, he, rfl⟩ := List.mem_map.mp hw
  obtain ⟨d, hd, hde⟩ := h e he ((List.prefix_append p [c]).trans hcw)
  rwa [← (char_of_isPrefix hcw).symm.trans (char_of_isPrefix hde)] at hd

theorem walkChars_cons (thisMap : Mapper) (hread : thisMap.read (getMapperIdxForChar c) = .ok v) :
    walkChars mappers thisMap (c :: chars) =
      if v < 16 then .ok v
      else
        match mappers[v.toNat - 16]? with
        | some thisMap => walkChars mappers thisMap chars
        | none => .error .mapperNumber := by
  rw [walkChars, hread]
  rfl

section Branch

variable (h : Tables entries mappers) (hp : (branches entries)[i]? = some p)
  (hm : mappers[i]? = some thisMap)

include h hp hm

/-- What the table of a prefix has for a letter behind it. -/
theorem Tables.cell (hc : isLower c = true) :
    ∃ v, thisMap.read (getMapperIdxForChar c) = .ok v ∧
      Cell entries (branches entries) (p ++ [c]) v := by
  obtain ⟨m, hm', hcomplete⟩ := h.getElem? hp
  rw [hm'] at hm
  exact Option.some.inj hm ▸ hcomplete c hc

/-- No name begins with the prefix and the character: the walk makes an undefined access, of the
table that `noMatch` would be the number of, or outside of this one. -/
theorem Tables.walkChars_none (hnone : sharing (names entries) (p ++ [c]) = 0) :
    ∃ f, walkChars mappers thisMap (c :: chars) = .error f := by
  by_cases hc : isLower c = true
  · obtain ⟨v, hread, ⟨-, rfl⟩ | ⟨hone, -⟩ | ⟨htwo, -⟩⟩ := h.cell hp hm hc
    · have hget : mappers[noMatch.toNat - 16]? = none :=
        List.getElem?_eq_none (h.length_le.trans (by decide))
      refine ⟨.mapperNumber, ?_⟩
      rw [walkChars_cons thisMap hread, if_neg (by decide), hget]
    · omega
    · omega
  · refine ⟨.mapperIndex, ?_⟩
    rw [walkChars, read_of_not_isLower thisMap hc]
    rfl

/-- One name does: the walk ends with its value. A value from 16 on is taken for a number. -/
theorem Tables.walkChars_one (hone : sharing (names entries) (p ++ [c]) = 1) {e : SpecEntry}
    (he : e ∈ entries) (hce : p ++ [c] <+: e.name) :
    walkChars mappers thisMap (c :: chars) =
      if e.value < 16 then .ok e.value
      else
        match mappers[e.value.toNat - 16]? with
        | some thisMap => walkChars mappers thisMap chars
        | none => .error .mapperNumber := by
  have hc := isLower_of_sharing_pos (h.lettered hp) (Nat.lt_of_lt_of_eq Nat.one_pos hone.symm)
  obtain ⟨v, hread, ⟨hzero, -⟩ | ⟨-, e', he', hce', rfl⟩ | ⟨htwo, -⟩⟩ := h.cell hp hm hc
  · omega
  · rw [walkChars_cons thisMap hread, eq_of_sharing_names hone.le he' he hce' hce]
  · omega

/-- Two names do: the walk goes on at the table of the longer prefix. -/
theorem Tables.walkChars_two (htwo : 2 ≤ sharing (names entries) (p ++ [c])) :
    ∃ (k : ℕ) (next : Mapper), (branches entries)[k]? = some (p ++ [c]) ∧ mappers[k]? = some next ∧
      walkChars mappers thisMap (c :: chars) = walkChars mappers next chars := by
  have hc := isLower_of_sharing_pos (h.lettered hp) (Nat.lt_of_lt_of_le Nat.two_pos htwo)
  obtain ⟨v, hread, ⟨hzero, -⟩ | ⟨hone, -⟩ | ⟨-, k, hk, hget, rfl⟩⟩ := h.cell hp hm hc
  · omega
  · omega
  · obtain ⟨next, hnext, -⟩ := h.getElem? hget
    have hk' : k < 8 := hk
    have hnumber : (UInt8.ofNat (16 + k)).toNat = 16 + k := by
      rw [UInt8.toNat_ofNat']
      omega
    have hnot : ¬ UInt8.ofNat (16 + k) < 16 := by
      rw [UInt8.lt_iff_toNat_lt, hnumber]
      exact Nat.not_lt.mpr (Nat.le_add_right 16 k)
    refine ⟨k, next, hget, hnext, ?_⟩
    rw [walkChars_cons thisMap hread, if_neg hnot, hnumber, Nat.add_sub_cancel_left, hnext]

end Branch

end Walk

end Intent.Old.Palette
