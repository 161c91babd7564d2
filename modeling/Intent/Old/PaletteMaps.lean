import Intent.Library.SharedPrefixes
import Intent.Old.AnsiColorPalette

/-!
# The tables of a palette

What `fill_maps` builds. A table stands for a prefix of names: the empty one, or one that two names
share. `Complete` says what a finished table holds, `Filled` what it holds while the loop is at
work, for the letters that came already. One step of the loop, at each kind of letter, and a table
that the loop is done with are read off these two.
-/

namespace Intent.Old.Palette

variable {entries : List SpecEntry} {mapped : List Text} {m : Mapper} {p q : Text} {c : UInt8}
  {done : List UInt8}

/-! ### Letters and indexes -/

theorem isLower_iff : isLower c = true ↔ 97 ≤ c.toNat ∧ c.toNat ≤ 122 := by
  rw [isLower, Bool.and_eq_true, decide_eq_true_eq, decide_eq_true_eq, UInt8.le_iff_toNat_le,
    UInt8.le_iff_toNat_le]
  rfl

theorem toNat_getMapperIdxForChar (h : isLower c = true) :
    (getMapperIdxForChar c).toNat = c.toNat - 97 := by
  obtain ⟨hge, hle⟩ := isLower_iff.mp h
  have hz : c ≤ ch 'z' := UInt8.le_iff_toNat_le.mpr hle
  rw [getMapperIdxForChar, if_pos hz, UInt8.toNat_sub_of_le]
  · rfl
  · exact UInt8.le_iff_toNat_le.mpr hge

/-- **Indexes.** Only a letter has an index inside of a table. -/
theorem index_lt_iff : (getMapperIdxForChar c).toNat < 36 ↔ isLower c = true := by
  refine ⟨fun h => ?_, fun h => ?_⟩
  · rw [isLower_iff]
    have hc := c.toNat_lt
    rw [getMapperIdxForChar] at h
    split_ifs at h with hz
    · have hz' : c.toNat ≤ 122 := UInt8.le_iff_toNat_le.mp hz
      have hsub : (c - ch 'a').toNat = (256 - 97 + c.toNat) % 256 := UInt8.toNat_sub c (ch 'a')
      omega
    · have hz' : 122 < c.toNat := UInt8.lt_iff_toNat_lt.mp (UInt8.not_le.mp hz)
      have hsub : (c - ch '0').toNat = (256 - 48 + c.toNat) % 256 := UInt8.toNat_sub c (ch '0')
      omega
  · rw [toNat_getMapperIdxForChar h]
    have := isLower_iff.mp h
    omega

theorem read_of_not_isLower (m : Mapper) (h : ¬ isLower c = true) :
    m.read (getMapperIdxForChar c) = .error .mapperIndex := dif_neg (mt index_lt_iff.mp h)

/-- Letters have different places. -/
theorem read_set {d v : UInt8} (hc : isLower c = true) (hd : isLower d = true) :
    Mapper.read (m.set (getMapperIdxForChar c).toNat v (index_lt_iff.mpr hc))
        (getMapperIdxForChar d) =
      if d = c then .ok v else m.read (getMapperIdxForChar d) := by
  rw [Mapper.read, Mapper.read, dif_pos (index_lt_iff.mpr hd), dif_pos (index_lt_iff.mpr hd),
    Vector.getElem_set]
  have hiff : (getMapperIdxForChar c).toNat = (getMapperIdxForChar d).toNat ↔ d = c := by
    rw [toNat_getMapperIdxForChar hc, toNat_getMapperIdxForChar hd, ← UInt8.toNat_inj]
    have := isLower_iff.mp hc
    have := isLower_iff.mp hd
    omega
  split_ifs with h h' h'
  · rfl
  · exact absurd (hiff.mp h) h'
  · exact absurd (hiff.mpr h') h
  · rfl

theorem writeMapper_append (before after : List Mapper) {v : UInt8} (hc : isLower c = true) :
    writeMapper (before ++ m :: after) before.length (getMapperIdxForChar c) v =
      .ok (before ++ m.set (getMapperIdxForChar c).toNat v (index_lt_iff.mpr hc) :: after) := by
  rw [writeMapper, dif_pos (index_lt_iff.mpr hc)]
  congr 1
  induction before with
  | nil => rfl
  | cons a before ih => rw [List.cons_append, List.length_cons, List.modify_succ_cons, ih]; rfl

theorem writeMapper_of_not_isLower (mappers : List Mapper) (thisMap : ℕ) (v : UInt8)
    (hc : ¬ isLower c = true) :
    writeMapper mappers thisMap (getMapperIdxForChar c) v = .error .mapperIndex :=
  dif_neg (mt index_lt_iff.mp hc)

/-! ### Names -/

/-- The names of entries. -/
def names (entries : List SpecEntry) : List Text := entries.map (·.name)

/-- A letter follows in every name that begins with `p`. -/
def Lettered (entries : List SpecEntry) (p : Text) : Prop :=
  ∀ e ∈ entries, p <+: e.name → ∃ c, isLower c = true ∧ p ++ [c] <+: e.name

/-- The byte behind a prefix. -/
theorem char_of_isPrefix {e : SpecEntry} (h : p ++ [c] <+: e.name) :
    e.char (p.length + 1) = c := by
  have hget := following_eq_some.mpr h
  rw [following, if_pos ((List.prefix_append p [c]).trans h)] at hget
  rw [SpecEntry.char, Nat.add_sub_cancel, hget, Option.getD_some]

theorem isPrefix_of_char {e : SpecEntry} (hp : p <+: e.name)
    (h : isLower (e.char (p.length + 1)) = true) : p ++ [e.char (p.length + 1)] <+: e.name := by
  rw [← following_eq_some, following, if_pos hp]
  rw [SpecEntry.char, Nat.add_sub_cancel] at h ⊢
  -- the terminator is no letter
  cases hget : e.name[p.length]? with
  | none =>
    rw [hget] at h
    exact absurd h (by decide)
  | some c => rfl

/-- `count` is the number of the names with the prefix. -/
theorem countP_finRange (entries : List SpecEntry) (q : Text) :
    (List.finRange entries.length).countP (fun k => decide (q <+: (entries.get k).name)) =
      sharing (names entries) q := by
  rw [sharing, names, List.countP_map]
  conv_rhs => rw [← List.map_get_finRange entries, List.countP_map]
  rfl

/-! ### What a table holds -/

/-- The byte for a prefix: of no name, of one, or of two or more. -/
def Cell (entries : List SpecEntry) (mapped : List Text) (q : Text) (v : UInt8) : Prop :=
  (sharing (names entries) q = 0 ∧ v = noMatch) ∨
    (sharing (names entries) q = 1 ∧ ∃ e ∈ entries, q <+: e.name ∧ v = e.value) ∨
      2 ≤ sharing (names entries) q ∧
        ∃ n, n < capacity ∧ mapped[n]? = some q ∧ v = .ofNat (16 + n)

/-- The table of a prefix, where all letters came. -/
def Complete (entries : List SpecEntry) (mapped : List Text) (m : Mapper) (p : Text) : Prop :=
  ∀ c, isLower c = true → ∃ v, m.read (getMapperIdxForChar c) = .ok v ∧
    Cell entries mapped (p ++ [c]) v

/-- The table of a prefix, where the letters of `done` came. -/
def Filled (entries : List SpecEntry) (mapped : List Text) (m : Mapper) (p : Text)
    (done : List UInt8) : Prop :=
  ∀ c, isLower c = true → ∃ v, m.read (getMapperIdxForChar c) = .ok v ∧
    (c ∈ done → Cell entries mapped (p ++ [c]) v) ∧ (c ∉ done → v = noMatch)

theorem Cell.append {v : UInt8} (more : List Text) (h : Cell entries mapped q v) :
    Cell entries (mapped ++ more) q v := by
  refine h.imp_right fun h => h.imp_right fun ⟨hshared, n, hn, hget, hv⟩ => ?_
  have hlt := (List.getElem?_eq_some_iff.mp hget).1
  exact ⟨hshared, n, hn, (List.getElem?_append_left hlt).trans hget, hv⟩

theorem Complete.append (more : List Text) (h : Complete entries mapped m p) :
    Complete entries (mapped ++ more) m p := fun c hc =>
  (h c hc).imp fun _ hv => ⟨hv.1, hv.2.append more⟩

theorem filled_new : Filled entries mapped (Vector.replicate 36 noMatch) p [] := fun c hc =>
  ⟨noMatch, by rw [Mapper.read, dif_pos (index_lt_iff.mpr hc), Vector.getElem_replicate],
    fun h => absurd h List.not_mem_nil, fun _ => rfl⟩

/-- One more letter came. -/
theorem Filled.set {v : UInt8} (more : List Text) (h : Filled entries mapped m p done)
    (hc : isLower c = true) (hcell : Cell entries (mapped ++ more) (p ++ [c]) v) :
    Filled entries (mapped ++ more)
      (m.set (getMapperIdxForChar c).toNat v (index_lt_iff.mpr hc)) p (c :: done) := by
  intro d hd
  rw [read_set hc hd]
  by_cases hdc : d = c
  · refine ⟨v, if_pos hdc, fun _ => hdc ▸ hcell, fun hnot => absurd ?_ hnot⟩
    exact List.mem_cons.mpr (.inl hdc)
  · obtain ⟨w, hread, hdone, hnew⟩ := h d hd
    refine ⟨w, by rw [if_neg hdc, hread], fun hmem => ?_, fun hnot => ?_⟩
    · exact (hdone ((List.mem_cons.mp hmem).resolve_left hdc)).append more
    · exact hnew fun hmem => hnot (List.mem_cons_of_mem c hmem)

/-- At the end of the loop, no name has another letter. -/
theorem Filled.complete (h : Filled entries mapped m p done)
    (hall : ∀ c ∉ done, sharing (names entries) (p ++ [c]) = 0) : Complete entries mapped m p := by
  intro c hc
  obtain ⟨v, hread, hdone, hnew⟩ := h c hc
  refine ⟨v, hread, ?_⟩
  by_cases hmem : c ∈ done
  · exact hdone hmem
  · exact .inl ⟨hall c hmem, hnew hmem⟩

end Intent.Old.Palette
