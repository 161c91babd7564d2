import Intent.Old.PaletteMaps

/-!
# Filling the tables

`fill_maps` by induction on its depth, and its loop by induction on the entries to come. The state
of the loop is that of `Looping`: the tables of the calls around it, the table it fills, and the
finished ones of the prefixes below it. `Built` says how a call ends: it fills the tables of all
branches, or it makes an undefined access, where there is no room for all of them or a character
that is looked at is no letter.
-/

namespace Intent.Old.Palette

variable {entries : List SpecEntry}

/-- There is room for the tables of the branches, and letters follow on all of them. -/
structure Fits (entries : List SpecEntry) (around branches : List Text) : Prop where
  room : (around ++ branches).length ≤ capacity
  lettered : ∀ q ∈ branches, Lettered entries q

/-- There is room for the branches below then. -/
theorem Fits.below {around below more rest : List Text} {p : Text}
    (h : Fits entries around (p :: (below ++ (more ++ rest)))) :
    Fits entries (around ++ p :: below) more := by
  refine ⟨?_, fun q hq => h.lettered q ?_⟩
  · have hroom := h.room
    simp only [List.length_append, List.length_cons] at hroom ⊢
    omega
  · exact List.mem_cons_of_mem p (List.mem_append_right _ (List.mem_append_left _ hq))

/-- How a call ends that fills the tables of the branches, where `before` are the tables of the
prefixes `around` it. -/
def Built (entries : List SpecEntry) (before : List Mapper) (around branches : List Text)
    (unfinished : ℕ) (r : Except Failure Filling) : Prop :=
  (Fits entries around branches ∧ ∃ mappers, r = .ok ⟨before ++ mappers, unfinished⟩ ∧
      List.Forall₂ (Complete entries (around ++ branches)) mappers branches) ∨
    ¬ Fits entries around branches ∧ ∃ f, r = .error f ∧ f ≠ .violation ∧ f ≠ .depth

/-- The entries that a mask leaves. -/
def remaining (entriesToConsider : SpecEntryBitmask entries) : ℕ :=
  (List.finRange entries.length).countP entriesToConsider

/-! ### One round -/

section Round

variable {fill : Filling → SpecEntryBitmask entries → Except Failure Filling}
  {before after : List Mapper} {m : Mapper} {thisMap nameIdx u : ℕ} {j : Fin entries.length}
  {js : List (Fin entries.length)} {s : Filling} {mask : SpecEntryBitmask entries}

/-- Where no entry is left, the loop does nothing. -/
theorem fillEntries_idle (h : ∀ k, mask k = false) :
    fillEntries entries fill thisMap nameIdx js s mask = .ok s := by
  induction js with
  | nil => rfl
  | cons j js ih => rw [fillEntries, h j, if_neg Bool.false_ne_true, ih]

/-- The way out early is none, where no entry is left then. -/
theorem fillEntries_return (h : s.unfinishedEntryCount = 0 → ∀ k, mask k = false) :
    (if s.unfinishedEntryCount = 0 then .ok s
      else fillEntries entries fill thisMap nameIdx js s mask) =
      fillEntries entries fill thisMap nameIdx js s mask := by
  split_ifs with hzero
  · exact (fillEntries_idle (h hzero)).symm
  · rfl

/-- A character that is no letter is no index. -/
theorem fillEntries_error (hj : mask j = true)
    (hc : ¬ isLower ((entries.get j).char nameIdx) = true) :
    ∃ f, fillEntries entries fill thisMap nameIdx (j :: js) s mask = .error f ∧
      f ≠ .violation ∧ f ≠ .depth := by
  rw [fillEntries, if_pos hj]
  dsimp only
  rw [writeMapper_of_not_isLower _ _ _ hc, writeMapper_of_not_isLower _ _ _ hc]
  by_cases hcount : (List.finRange entries.length).countP (sameChar entries mask nameIdx j) = 1
  · rw [if_pos hcount]
    exact ⟨.mapperIndex, rfl, by decide, by decide⟩
  · rw [if_neg hcount]
    by_cases hfull : (allocMapper s.mappers).length > capacity
    · rw [if_pos hfull]
      exact ⟨.staleMapper, rfl, by decide, by decide⟩
    · rw [if_neg hfull]
      exact ⟨.mapperIndex, rfl, by decide, by decide⟩

/-- A letter of one entry: its value is written. -/
theorem fillEntries_unique (hj : mask j = true) (hc : isLower ((entries.get j).char nameIdx) = true)
    (hcount : remaining (sameChar entries mask nameIdx j) = 1)
    (hreturn : u - 1 = 0 → ∀ k, otherChar entries mask nameIdx j k = false) :
    fillEntries entries fill before.length nameIdx (j :: js) ⟨before ++ m :: after, u⟩ mask =
      fillEntries entries fill before.length nameIdx js
        ⟨before ++ m.set (getMapperIdxForChar ((entries.get j).char nameIdx)).toNat
          (entries.get j).value (index_lt_iff.mpr hc) :: after, u - 1⟩
        (otherChar entries mask nameIdx j) := by
  rw [fillEntries, if_pos hj]
  dsimp only
  rw [remaining] at hcount
  rw [if_pos hcount, writeMapper_append before after hc]
  exact fillEntries_return (s := ⟨_, u - 1⟩) hreturn

/-- A letter of two entries, and no room for another table. -/
theorem fillEntries_full (hj : mask j = true)
    (hcount : remaining (sameChar entries mask nameIdx j) ≠ 1)
    (hfull : capacity ≤ (before ++ m :: after).length) :
    fillEntries entries fill before.length nameIdx (j :: js) ⟨before ++ m :: after, u⟩ mask =
      .error .staleMapper := by
  rw [fillEntries, if_pos hj]
  dsimp only
  rw [remaining] at hcount
  rw [if_neg hcount, if_pos]
  · rfl
  · rw [allocMapper, List.length_append]
    exact Nat.lt_succ_of_le hfull

/-- A letter of two entries: the number of a new table is written, and the table is filled. -/
theorem fillEntries_shared (hj : mask j = true)
    (hc : isLower ((entries.get j).char nameIdx) = true)
    (hcount : remaining (sameChar entries mask nameIdx j) ≠ 1)
    (hroom : (before ++ m :: after).length < capacity) :
    fillEntries entries fill before.length nameIdx (j :: js) ⟨before ++ m :: after, u⟩ mask =
      (fill ⟨(before ++ m.set (getMapperIdxForChar ((entries.get j).char nameIdx)).toNat
          (.ofNat (16 + (before ++ m :: after).length)) (index_lt_iff.mpr hc) :: after) ++
            [Vector.replicate 36 noMatch], u⟩ (sameChar entries mask nameIdx j)).bind fun s =>
        if s.unfinishedEntryCount = 0 then .ok s
        else fillEntries entries fill before.length nameIdx js s
          (otherChar entries mask nameIdx j) := by
  have hlength :
      (allocMapper (before ++ m :: after)).length = (before ++ m :: after).length + 1 := by
    rw [allocMapper, List.length_append, List.length_singleton]
  rw [fillEntries, if_pos hj]
  dsimp only
  rw [remaining] at hcount
  rw [if_neg hcount, hlength, if_neg (Nat.not_lt.mpr hroom), Nat.add_sub_cancel, allocMapper,
    List.append_assoc, List.cons_append, writeMapper_append before _ hc]
  simp only [List.append_assoc, List.cons_append]
  rfl

end Round

/-! ### Entries to consider -/

section Masks

variable {p : Text} {done : List UInt8} {mask : SpecEntryBitmask entries} {j k : Fin entries.length}

/-- The mask of the loop: the names with the prefix, but for the letters that came. -/
def Considers (entries : List SpecEntry) (mask : SpecEntryBitmask entries) (p : Text)
    (done : List UInt8) : Prop :=
  ∀ k, mask k = true ↔ p <+: (entries.get k).name ∧ ∀ c ∈ done, ¬ p ++ [c] <+: (entries.get k).name

variable (h : Considers entries mask p done) (hj : mask j = true)
  (hc : isLower ((entries.get j).char (p.length + 1)) = true)

include h hj

theorem Considers.isPrefix : p <+: (entries.get j).name := ((h j).mp hj).1

include hc

theorem Considers.isPrefix_char :
    p ++ [(entries.get j).char (p.length + 1)] <+: (entries.get j).name :=
  isPrefix_of_char (h.isPrefix hj) hc

theorem Considers.char_notMem : (entries.get j).char (p.length + 1) ∉ done := fun hmem =>
  ((h j).mp hj).2 _ hmem (h.isPrefix_char hj hc)

theorem Considers.sameChar_iff :
    sameChar entries mask (p.length + 1) j k = true ↔
      p ++ [(entries.get j).char (p.length + 1)] <+: (entries.get k).name := by
  rw [sameChar, Bool.or_eq_true, Bool.and_eq_true, beq_iff_eq, beq_iff_eq]
  constructor
  · rintro (rfl | ⟨hk, hchar⟩)
    · exact h.isPrefix_char hj hc
    · rw [← hchar] at hc ⊢
      exact h.isPrefix_char hk hc
  · intro hk
    refine .inr ⟨(h k).mpr ⟨(List.prefix_append _ _).trans hk, fun d hd hdk => ?_⟩,
      char_of_isPrefix hk⟩
    -- it is the letter of `j`, which is new
    have hdc := (char_of_isPrefix hdk).symm.trans (char_of_isPrefix hk)
    exact h.char_notMem hj hc (hdc ▸ hd)

theorem Considers.next :
    Considers entries (otherChar entries mask (p.length + 1) j) p
      ((entries.get j).char (p.length + 1) :: done) := by
  intro k
  have hchar : (entries.get k).char (p.length + 1) = (entries.get j).char (p.length + 1) →
      p <+: (entries.get k).name →
        p ++ [(entries.get j).char (p.length + 1)] <+: (entries.get k).name := by
    intro hchar hp
    rw [← hchar] at hc ⊢
    exact isPrefix_of_char hp hc
  rw [otherChar, Bool.and_eq_true, Bool.and_eq_true, Bool.or_eq_true, bne_iff_ne,
    bne_iff_ne, beq_iff_eq, h k, List.forall_mem_cons]
  constructor
  · rintro ⟨⟨⟨hp, hdone⟩, hother⟩, hne⟩
    exact ⟨hp, fun hk => hother.resolve_left hne (char_of_isPrefix hk), hdone⟩
  · rintro ⟨hp, hnot, hdone⟩
    refine ⟨⟨⟨hp, hdone⟩, .inr fun heq => hnot (hchar heq hp)⟩, ?_⟩
    rintro rfl
    exact hnot (h.isPrefix_char hj hc)

theorem Considers.remaining_sameChar :
    remaining (sameChar entries mask (p.length + 1) j) =
      sharing (names entries) (p ++ [(entries.get j).char (p.length + 1)]) := by
  rw [← countP_finRange, remaining]
  refine List.countP_congr fun k _ => ?_
  rw [decide_eq_true_eq, h.sameChar_iff hj hc]

/-- Every entry to consider has the character, or is left for later. -/
theorem Considers.remaining_eq :
    remaining mask = remaining (sameChar entries mask (p.length + 1) j) +
      remaining (otherChar entries mask (p.length + 1) j) := by
  have hsum : ∀ l : List (Fin entries.length), l.countP mask =
      l.countP (sameChar entries mask (p.length + 1) j) +
        l.countP (otherChar entries mask (p.length + 1) j) := by
    intro l
    induction l with
    | nil => rfl
    | cons k l ih =>
      rw [List.countP_cons, List.countP_cons, List.countP_cons, ih]
      have hsame := h.sameChar_iff (k := k) hj hc
      have hother := h.next hj hc k
      rw [List.forall_mem_cons] at hother
      have hmask := h k
      by_cases hk : p ++ [(entries.get j).char (p.length + 1)] <+: (entries.get k).name
      · have hkmask : mask k = true := by
          rw [sameChar, Bool.or_eq_true, Bool.and_eq_true, beq_iff_eq] at hsame
          rcases hsame.mpr hk with rfl | ⟨hkm, -⟩
          · exact hj
          · exact hkm
        have hkother : otherChar entries mask (p.length + 1) j k = false := by
          rw [Bool.eq_false_iff, Ne, hother]
          exact fun hnot => hnot.2.1 hk
        rw [if_pos hkmask, if_pos (hsame.mpr hk), hkother, if_neg Bool.false_ne_true]
        omega
      · have hksame : sameChar entries mask (p.length + 1) j k = false := by
          rw [Bool.eq_false_iff, Ne, hsame]
          exact hk
        have hiff : otherChar entries mask (p.length + 1) j k = mask k := by
          rw [Bool.eq_iff_iff, hother, hmask]
          exact and_congr_right fun _ => and_iff_right hk
        rw [hksame, hiff, if_neg Bool.false_ne_true]
        omega
  exact hsum _

end Masks

/-! ### The loop -/

section Loop

variable {fill : Filling → SpecEntryBitmask entries → Except Failure Filling} {n : ℕ}
  {before : List Mapper} {around : List Text} {p : Text} {js : List (Fin entries.length)}
  {m : Mapper} {after : List Mapper} {below : List Text} {done : List UInt8} {u : ℕ}
  {mask : SpecEntryBitmask entries} {j : Fin entries.length}

/-- The state of the loop for the prefix `p`: its table `m` after those of the prefixes `around`,
and the tables `after` it of the prefixes `below` that are finished. -/
structure Looping (entries : List SpecEntry) (before : List Mapper) (around : List Text) (p : Text)
    (js : List (Fin entries.length)) (m : Mapper) (after : List Mapper) (below : List Text)
    (done : List UInt8) (u : ℕ) (mask : SpecEntryBitmask entries) : Prop where
  room : (around ++ p :: below).length ≤ capacity
  length : before.length = around.length
  filled : Filled entries (around ++ p :: below) m p done
  finished : List.Forall₂ (Complete entries (around ++ p :: below)) after below
  lower : ∀ c ∈ done, isLower c = true
  lettered : ∀ q ∈ below, Lettered entries q
  considers : Considers entries mask p done
  to_come : ∀ k, mask k = true → k ∈ js
  enough : remaining mask ≤ u

/-- The tables so far are as many as the prefixes. -/
theorem Looping.length_eq (h : Looping entries before around p js m after below done u mask) :
    (before ++ m :: after).length = (around ++ p :: below).length := by
  rw [List.length_append, List.length_append, List.length_cons, List.length_cons, h.length,
    h.finished.length_eq]

/-- No entry is to come: the table is finished. -/
theorem Looping.built (h : Looping entries before around p [] m after below done u mask) :
    Built entries before around (p :: below) (u - remaining mask)
      (.ok ⟨before ++ m :: after, u⟩) := by
  have hmask : ∀ k, mask k = false := fun k =>
    Bool.eq_false_iff.mpr fun hk => List.not_mem_nil (h.to_come k hk)
  have hzero : remaining mask = 0 := List.countP_eq_zero.mpr fun k _ => by
    rw [hmask k]
    exact Bool.false_ne_true
  -- every name with the prefix has a letter that came
  have hcame : ∀ e ∈ entries, p <+: e.name → ∃ c ∈ done, p ++ [c] <+: e.name := by
    intro e he hp
    obtain ⟨k, hk, rfl⟩ := List.getElem_of_mem he
    by_contra hnone
    push Not at hnone
    have := (h.considers ⟨k, hk⟩).mpr ⟨hp, hnone⟩
    rw [hmask] at this
    exact Bool.false_ne_true this
  have hcomplete := h.filled.complete fun c hc => by
    by_contra hpos
    obtain ⟨w, hw, hcw⟩ := sharing_pos_iff.mp (Nat.pos_of_ne_zero hpos)
    obtain ⟨e, he, rfl⟩ := List.mem_map.mp hw
    obtain ⟨d, hd, hde⟩ := hcame e he ((List.prefix_append p [c]).trans hcw)
    have hcd := (char_of_isPrefix hcw).symm.trans (char_of_isPrefix hde)
    exact hc (hcd ▸ hd)
  rw [hzero, Nat.sub_zero]
  refine .inl ⟨⟨h.room, List.forall_mem_cons.mpr ⟨fun e he hp => ?_, h.lettered⟩⟩, m :: after, rfl,
    .cons hcomplete h.finished⟩
  obtain ⟨c, hc, hce⟩ := hcame e he hp
  exact ⟨c, h.lower c hc, hce⟩

/-- An entry that is not considered has no new letter. -/
theorem Looping.skip (h : Looping entries before around p (j :: js) m after below done u mask)
    (hj : ¬ mask j = true) :
    Looping entries before around p js m after below done u mask ∧
      nextLetters p ((j :: js).map fun k => (entries.get k).name) done =
        nextLetters p (js.map fun k => (entries.get k).name) done := by
  refine ⟨{ h with to_come := fun k hk => (List.mem_cons.mp (h.to_come k hk)).resolve_left ?_ }, ?_⟩
  · rintro rfl
    exact hj hk
  · rw [List.map_cons, nextLetters]
    cases hfollowing : following p (entries.get j).name with
    | none => rfl
    | some c =>
      have hcj := following_eq_some.mp hfollowing
      have hmem : c ∈ done := by
        by_contra hc
        have hp : p <+: (entries.get j).name := (List.prefix_append p [c]).trans hcj
        refine hj ((h.considers j).mpr ⟨hp, fun d hd hdj => hc ?_⟩)
        rwa [← char_of_isPrefix hcj, char_of_isPrefix hdj]
      exact if_pos hmem

/-- The letter of an entry that is considered is the next one. -/
theorem Looping.nextLetters_eq
    (h : Looping entries before around p (j :: js) m after below done u mask) (hj : mask j = true)
    (hc : isLower ((entries.get j).char (p.length + 1)) = true) :
    nextLetters p ((j :: js).map fun k => (entries.get k).name) done =
      (entries.get j).char (p.length + 1) :: nextLetters p (js.map fun k => (entries.get k).name)
        ((entries.get j).char (p.length + 1) :: done) := by
  rw [List.map_cons, nextLetters, following_eq_some.mpr (h.considers.isPrefix_char hj hc)]
  exact if_neg (h.considers.char_notMem hj hc)

/-- The loop goes on, with the tables of the prefixes `more` behind the others. -/
theorem Looping.next (h : Looping entries before around p (j :: js) m after below done u mask)
    (hj : mask j = true) (hc : isLower ((entries.get j).char (p.length + 1)) = true) {v : UInt8}
    {added : List Mapper} {more : List Text}
    (hroom : (around ++ p :: below ++ more).length ≤ capacity)
    (hcell : Cell entries (around ++ p :: below ++ more)
      (p ++ [(entries.get j).char (p.length + 1)]) v)
    (hadded : List.Forall₂ (Complete entries (around ++ p :: below ++ more)) added more)
    (hlettered : ∀ q ∈ more, Lettered entries q) :
    Looping entries before around p js
      (m.set (getMapperIdxForChar ((entries.get j).char (p.length + 1))).toNat v
        (index_lt_iff.mpr hc))
      (after ++ added) (below ++ more) ((entries.get j).char (p.length + 1) :: done)
      (u - remaining (sameChar entries mask (p.length + 1) j))
      (otherChar entries mask (p.length + 1) j) := by
  have hmapped : around ++ p :: (below ++ more) = around ++ p :: below ++ more := by
    rw [List.append_assoc, List.cons_append]
  have hremaining := h.considers.remaining_eq hj hc
  have henough := h.enough
  exact {
    room := hmapped ▸ hroom
    length := h.length
    filled := hmapped ▸ h.filled.set more hc hcell
    finished := by
      rw [hmapped]
      exact List.rel_append (h.finished.imp fun _ _ hm => hm.append more) hadded
    lower := List.forall_mem_cons.mpr ⟨hc, h.lower⟩
    lettered := List.forall_mem_append.mpr ⟨h.lettered, hlettered⟩
    considers := h.considers.next hj hc
    to_come := fun k hk => by
      rw [otherChar, Bool.and_eq_true, Bool.and_eq_true, bne_iff_ne] at hk
      exact (List.mem_cons.mp (h.to_come k hk.1.1)).resolve_left hk.2
    enough := by omega }

/-- Where all entries have found their places, none is left. -/
theorem Looping.nothing_left
    (h : Looping entries before around p (j :: js) m after below done u mask) (hj : mask j = true)
    (hc : isLower ((entries.get j).char (p.length + 1)) = true)
    (hzero : u - remaining (sameChar entries mask (p.length + 1) j) = 0) (k : Fin entries.length) :
    otherChar entries mask (p.length + 1) j k = false := by
  have hremaining := h.considers.remaining_eq hj hc
  have henough := h.enough
  have hnone : remaining (otherChar entries mask (p.length + 1) j) = 0 := by omega
  exact Bool.eq_false_iff.mpr (List.countP_eq_zero.mp hnone k (List.mem_finRange k))

/-- What the recursive call does for the prefixes that are one letter longer. -/
def Fills (entries : List SpecEntry) (n : ℕ) (p : Text)
    (fill : Filling → SpecEntryBitmask entries → Except Failure Filling) : Prop :=
  ∀ ⦃c before around u mask⦄, 2 ≤ sharing (names entries) (p ++ [c]) →
    before.length = around.length → around.length < capacity →
    Considers entries mask (p ++ [c]) [] → remaining mask ≤ u →
    Built entries before around (branchesFrom (names entries) n (p ++ [c])) (u - remaining mask)
      (fill ⟨before ++ [Vector.replicate 36 noMatch], u⟩ mask)

/-- A round whose letter is that of one entry. -/
theorem Looping.unique (fill : Filling → SpecEntryBitmask entries → Except Failure Filling)
    (h : Looping entries before around p (j :: js) m after below done u mask) (hj : mask j = true)
    (hc : isLower ((entries.get j).char (p.length + 1)) = true)
    (hone : sharing (names entries) (p ++ [(entries.get j).char (p.length + 1)]) = 1) :
    ∃ m', Looping entries before around p js m' after below
        ((entries.get j).char (p.length + 1) :: done) (u - 1)
        (otherChar entries mask (p.length + 1) j) ∧
      fillEntries entries fill before.length (p.length + 1) (j :: js) ⟨before ++ m :: after, u⟩
          mask =
        fillEntries entries fill before.length (p.length + 1) js ⟨before ++ m' :: after, u - 1⟩
          (otherChar entries mask (p.length + 1) j) := by
  have hsame := (h.considers.remaining_sameChar hj hc).trans hone
  have hcell : Cell entries (around ++ p :: below ++ [])
      (p ++ [(entries.get j).char (p.length + 1)]) (entries.get j).value :=
    .inr (.inl ⟨hone, _, List.get_mem entries j, h.considers.isPrefix_char hj hc, rfl⟩)
  have hnext := h.next hj hc (by rw [List.append_nil]; exact h.room) hcell .nil
    (List.forall_mem_nil _)
  rw [List.append_nil, List.append_nil, hsame] at hnext
  exact ⟨_, hnext, fillEntries_unique hj hc hsame fun hzero =>
    h.nothing_left hj hc (by rw [hsame]; exact hzero)⟩

/-- A round whose letter is that of two entries, where there is room for another table. -/
theorem Looping.shared (hfill : Fills entries n p fill)
    (h : Looping entries before around p (j :: js) m after below done u mask) (hj : mask j = true)
    (hc : isLower ((entries.get j).char (p.length + 1)) = true)
    (htwo : 2 ≤ sharing (names entries) (p ++ [(entries.get j).char (p.length + 1)]))
    (hroom : (around ++ p :: below).length < capacity) :
    (∃ m' added, Looping entries before around p js m' (after ++ added)
        (below ++ branchesFrom (names entries) n (p ++ [(entries.get j).char (p.length + 1)]))
        ((entries.get j).char (p.length + 1) :: done)
        (u - remaining (sameChar entries mask (p.length + 1) j))
        (otherChar entries mask (p.length + 1) j) ∧
      fillEntries entries fill before.length (p.length + 1) (j :: js) ⟨before ++ m :: after, u⟩
          mask =
        fillEntries entries fill before.length (p.length + 1) js
          ⟨before ++ m' :: (after ++ added),
            u - remaining (sameChar entries mask (p.length + 1) j)⟩
          (otherChar entries mask (p.length + 1) j)) ∨
      ¬ Fits entries (around ++ p :: below)
          (branchesFrom (names entries) n (p ++ [(entries.get j).char (p.length + 1)])) ∧
        ∃ f, fillEntries entries fill before.length (p.length + 1) (j :: js)
            ⟨before ++ m :: after, u⟩ mask = .error f ∧ f ≠ .violation ∧ f ≠ .depth := by
  have hremaining := h.considers.remaining_eq hj hc
  have henough := h.enough
  have hsame := h.considers.remaining_sameChar hj hc
  have hlength := h.length_eq
  rw [fillEntries_shared hj hc (by omega) (hlength ▸ hroom)]
  generalize hm' : m.set (getMapperIdxForChar ((entries.get j).char (p.length + 1))).toNat
    (.ofNat (16 + (before ++ m :: after).length)) (index_lt_iff.mpr hc) = m'
  have hconsiders : Considers entries (sameChar entries mask (p.length + 1) j)
      (p ++ [(entries.get j).char (p.length + 1)]) [] := fun k => by
    rw [h.considers.sameChar_iff hj hc]
    exact ⟨fun hk => ⟨hk, List.forall_mem_nil _⟩, fun hk => hk.1⟩
  have hlength' : (before ++ m' :: after).length = (around ++ p :: below).length := by
    rw [← hlength, List.length_append, List.length_append, List.length_cons, List.length_cons]
  have hless : remaining (sameChar entries mask (p.length + 1) j) ≤ u := by omega
  -- the call for the entries that have the letter as well
  rcases hfill htwo hlength' hroom hconsiders hless with
    ⟨hfits, added, hr, hadded⟩ | ⟨hnot, f, hr, hf⟩
  · refine .inl ⟨m', added, ?_, ?_⟩
    · subst hm'
      refine h.next hj hc hfits.room (.inr (.inr ⟨htwo, _, hlength.trans_lt hroom, ?_, rfl⟩)) hadded
        hfits.lettered
      -- the new table is that of the prefix
      obtain ⟨more, hmore⟩ := branchesFrom_eq_cons (names entries) n
        (p ++ [(entries.get j).char (p.length + 1)])
      rw [hlength, hmore, List.getElem?_append_right le_rfl, Nat.sub_self, List.getElem?_cons_zero]
    · rw [hr, Except.bind, fillEntries_return fun hzero => h.nothing_left hj hc hzero,
        List.append_assoc, List.cons_append]
  · exact .inr ⟨hnot, f, by rw [hr, Except.bind], hf⟩

/-- **The loop.** It fills the table of the prefix, and those of the prefixes below it with the
letters to come. -/
theorem fillEntries_spec (hfill : Fills entries n p fill)
    (h : Looping entries before around p js m after below done u mask) :
    Built entries before around
      (p :: (below ++ branchesBelow (names entries) n p
        (nextLetters p (js.map fun k => (entries.get k).name) done)))
      (u - remaining mask)
      (fillEntries entries fill before.length (p.length + 1) js ⟨before ++ m :: after, u⟩
        mask) := by
  induction js generalizing m after below done u mask with
  | nil =>
    rw [List.map_nil, nextLetters, branchesBelow, List.flatMap_nil, List.append_nil, fillEntries]
    exact h.built
  | cons j js ih =>
    by_cases hj : mask j = true
    · by_cases hc : isLower ((entries.get j).char (p.length + 1)) = true
      · have hremaining := h.considers.remaining_eq hj hc
        have hsame := h.considers.remaining_sameChar hj hc
        have hpos := sharing_pos_iff.mpr ⟨(entries.get j).name,
          List.mem_map_of_mem (List.get_mem entries j), h.considers.isPrefix_char hj hc⟩
        rw [h.nextLetters_eq hj hc, branchesBelow, List.flatMap_cons, ← branchesBelow]
        by_cases htwo : 2 ≤ sharing (names entries) (p ++ [(entries.get j).char (p.length + 1)])
        · -- another table
          rw [if_pos htwo]
          by_cases hroom : (around ++ p :: below).length < capacity
          · rcases h.shared hfill hj hc htwo hroom with ⟨m', added, hnext, hr⟩ | ⟨hnot, hr⟩
            · rw [hr, ← List.append_assoc, show u - remaining mask =
                u - remaining (sameChar entries mask (p.length + 1) j) -
                  remaining (otherChar entries mask (p.length + 1) j) by omega]
              exact ih hnext
            · exact .inr ⟨fun hfits => hnot hfits.below, hr⟩
          · -- the table of the letter has no room
            refine .inr ⟨fun hfits => hroom ?_, .staleMapper, ?_, by decide, by decide⟩
            · obtain ⟨more, hmore⟩ := branchesFrom_eq_cons (names entries) n
                (p ++ [(entries.get j).char (p.length + 1)])
              have hlength := hfits.below.room
              rw [hmore, List.length_append, List.length_cons] at hlength
              omega
            · exact fillEntries_full hj (by omega) (h.length_eq ▸ Nat.not_lt.mp hroom)
        · -- the value of the only name
          have hone : sharing (names entries) (p ++ [(entries.get j).char (p.length + 1)]) = 1 := by
            rw [names] at htwo ⊢
            exact le_antisymm (by omega) hpos
          obtain ⟨m', hnext, hr⟩ := h.unique fill hj hc hone
          rw [if_neg htwo, List.nil_append, hr,
            show u - remaining mask = u - 1 - remaining (otherChar entries mask (p.length + 1) j) by
              omega]
          exact ih hnext
      · -- no letter
        refine .inr ⟨fun hfits => hc ?_, fillEntries_error hj hc⟩
        obtain ⟨c, hclower, hcj⟩ := hfits.lettered p List.mem_cons_self _ (List.get_mem entries j)
          (h.considers.isPrefix hj)
        exact char_of_isPrefix hcj ▸ hclower
    · -- an entry that the call does not look at
      obtain ⟨hskip, hletters⟩ := h.skip hj
      rw [hletters, fillEntries, if_neg hj]
      exact ih hskip

end Loop

/-! ### The recursion -/

/-- **One call of `fill_maps`.** Names are short, so that it never goes down to its bound. -/
theorem fillMaps_spec {n : ℕ} {p : Text} {before : List Mapper} {around : List Text} {u : ℕ}
    {mask : SpecEntryBitmask entries} (hdepth : 15 ≤ p.length + n) (hp : p.length ≤ 14)
    (hlength : before.length = around.length) (hroom : around.length < capacity)
    (hmask : Considers entries mask p []) (henough : remaining mask ≤ u) :
    Built entries before around (branchesFrom (names entries) n p) (u - remaining mask)
      (fillMaps entries (n + 1) ⟨before ++ [Vector.replicate 36 noMatch], u⟩ mask
        (p.length + 1)) := by
  induction n generalizing p before around u mask with
  | zero => omega
  | succ n ih =>
    have hfill : Fills entries n p fun s same =>
        fillMaps entries (n + 1) s same (p.length + 1 + 1) := by
      intro c before around u mask htwo hlength hroom hmask henough
      -- two names have the longer prefix, and are no longer than 14 letters
      obtain ⟨w, hw, hcw⟩ := sharing_pos_iff.mp (lt_of_lt_of_le Nat.two_pos htwo)
      obtain ⟨e, -, rfl⟩ := List.mem_map.mp hw
      have hlengths := hcw.length_le.trans e.short
      have hcall := ih (p := p ++ [c]) (by simp; omega) hlengths hlength hroom hmask henough
      rwa [List.length_append, List.length_singleton] at hcall
    have hstart : Looping entries before around p (List.finRange entries.length)
        (Vector.replicate 36 noMatch) [] [] [] u mask :=
      { room := by
          rw [List.length_append, List.length_singleton]
          exact hroom
        length := hlength
        filled := filled_new
        finished := .nil
        lower := List.forall_mem_nil _
        lettered := List.forall_mem_nil _
        considers := hmask
        to_come := fun k _ => List.mem_finRange k
        enough := henough }
    have hloop := fillEntries_spec hfill hstart
    have hnames :
        ((List.finRange entries.length).map fun k => (entries.get k).name) = names entries := by
      conv_rhs => rw [names, ← List.map_get_finRange entries, List.map_map]
      rfl
    rw [hnames, List.nil_append] at hloop
    rw [branchesFrom_succ, fillMaps, List.length_append, List.length_singleton, Nat.add_sub_cancel]
    exact hloop

/-- The prefixes of the tables of a palette, by their numbers from 16 on. -/
def branches (entries : List SpecEntry) : List Text := branchesFrom (names entries) 15 []

/-- They are the empty one, and the shared ones. -/
theorem mem_branches_iff {p : Text} :
    p ∈ branches entries ↔ p = [] ∨ 2 ≤ sharing (names entries) p := by
  rw [branches, mem_branchesFrom]
  by_cases hp : p = []
  · exact iff_of_true (.inl hp) (.inl hp)
  · refine or_congr_right ⟨fun h => h.2.2.2, fun h => ⟨List.nil_prefix, ?_, Ne.symm hp, h⟩⟩
    obtain ⟨w, hw, hpw⟩ := sharing_pos_iff.mp (lt_of_lt_of_le Nat.two_pos h)
    obtain ⟨e, -, rfl⟩ := List.mem_map.mp hw
    have := hpw.length_le.trans e.short
    rw [List.length_nil]
    omega

/-- Whether the tables can be built is seen from the names alone. -/
theorem fits_iff :
    Fits entries [] (branches entries) ↔
      (sharedPrefixes (names entries)).length + 1 ≤ capacity ∧
        ∀ p, p = [] ∨ 2 ≤ sharing (names entries) p → Lettered entries p := by
  have hshort : ∀ w ∈ names entries, w.length ≤ 15 := by
    intro w hw
    obtain ⟨e, -, rfl⟩ := List.mem_map.mp hw
    exact e.short.trans (Nat.le_succ 14)
  have hlength := length_branchesFrom hshort
  rw [← hlength]
  exact ⟨fun h => ⟨h.room, fun p hp => h.lettered p (mem_branches_iff.mpr hp)⟩,
    fun h => ⟨h.1, fun p hp => h.2 p (mem_branches_iff.mp hp)⟩⟩

/-- **The tables of a palette.** They are built exactly if there are no more than there is room
for, and every character that is looked at is a letter. Else the code makes an undefined access. -/
theorem generateMaps_spec (entries : List SpecEntry) :
    (Fits entries [] (branches entries) ∧ ∃ mappers, generateMaps entries = .ok mappers ∧
        List.Forall₂ (Complete entries (branches entries)) mappers (branches entries)) ∨
      ¬ Fits entries [] (branches entries) ∧
        ∃ f, generateMaps entries = .error f ∧ f ≠ .violation ∧ f ≠ .depth := by
  have hremaining : remaining (fun _ : Fin entries.length => true) = entries.length := by
    rw [remaining, List.countP_true, List.length_finRange]
  have hmask : Considers entries (fun _ => true) [] [] := fun k =>
    iff_of_true rfl ⟨List.nil_prefix, List.forall_mem_nil _⟩
  have hcall : Built entries [] [] (branchesFrom (names entries) 15 []) _ _ :=
    fillMaps_spec (by simp) (Nat.zero_le _) rfl (by decide) hmask hremaining.le
  rcases hcall with ⟨hfits, mappers, hr, hcomplete⟩ | ⟨hnot, f, hr, hf⟩
  · refine .inl ⟨hfits, mappers, ?_, hcomplete⟩
    rw [generateMaps]
    exact congrArg (fun r => r >>= fun s : Filling => pure s.mappers) hr
  · refine .inr ⟨hnot, f, ?_, hf⟩
    rw [generateMaps]
    exact congrArg (fun r => r >>= fun s : Filling => pure s.mappers) hr

end Intent.Old.Palette
