import Mathlib.Data.List.Basic
import Mathlib.Data.List.InsertIdx
import Mathlib.Tactic.Ring

/-!
# Bootstrings

A bootstring encoding of a list starts from the entries with small keys, in their order, and adds
the others one at a time: by rising keys, and from left to right among those with one key. The
decoder goes through all pairs of a key `n` and a position `i` in the list so far, in this order,
and what is transmitted of an insertion is the number of pairs that it skips.

The list determines these numbers (`Inserted.unique`): the last insertion is that of the rightmost
entry with the greatest key. The encoder goes through the whole list once for each key. `handled`
is the part of the list that it has transmitted when it stands between `seen` and `rest` in the
pass of `n`, and its lemmas say how one step of the encoder changes it.

A number is written with digits, the least one first. Each place has a threshold, and a digit below
it is the last one, so that numbers follow each other without separators (`Spells`). There is one
way to write a number (`Spells.unique`).
-/

namespace Intent

/-! ### Variable-length integers -/

/-- The thresholds of the places of an integer. A digit below the one of its place is the last
one. -/
structure Thresholds (base : ℕ) where
  /-- The threshold of a place. -/
  threshold : ℕ → ℕ
  pos : ∀ k, 0 < threshold k
  lt_base : ∀ k, threshold k < base

/-- The digits, the first of them at the place `k`, spell the number. -/
inductive Thresholds.Spells {base : ℕ} (t : Thresholds base) : ℕ → List ℕ → ℕ → Prop
  | last {k d : ℕ} : d < t.threshold k → Spells t k [d] d
  | more {k d q : ℕ} {ds : List ℕ} : t.threshold k ≤ d → d < base → Spells t (k + 1) ds q →
      Spells t k (d :: ds) (d + (base - t.threshold k) * q)

namespace Thresholds

variable {base k d q q' : ℕ} {t : Thresholds base} {ds ds' : List ℕ}

/-- The step of the writer: the first digit of a number that is not below the threshold, and what
is left of the number. -/
theorem Spells.cons (hq : t.threshold k ≤ q)
    (h : t.Spells (k + 1) ds ((q - t.threshold k) / (base - t.threshold k))) :
    t.Spells k ((t.threshold k + (q - t.threshold k) % (base - t.threshold k)) :: ds) q := by
  have hbase := t.lt_base k
  have hmod : (q - t.threshold k) % (base - t.threshold k) < base - t.threshold k :=
    Nat.mod_lt _ (by omega)
  have hspell := Spells.more (Nat.le_add_right _ _) (by omega : t.threshold k +
    (q - t.threshold k) % (base - t.threshold k) < base) h
  have hq' : t.threshold k + (q - t.threshold k) % (base - t.threshold k) +
      (base - t.threshold k) * ((q - t.threshold k) / (base - t.threshold k)) = q := by
    have := Nat.mod_add_div (q - t.threshold k) (base - t.threshold k)
    omega
  rwa [hq'] at hspell

theorem Spells.lt_base (h : t.Spells k ds q) : ∀ d ∈ ds, d < base := by
  induction h with
  | last hd =>
    rename_i k d
    intro e he
    rw [List.mem_singleton.mp he]
    exact hd.trans (t.lt_base k)
  | more _ hd _ ih => exact List.forall_mem_cons.mpr ⟨hd, ih⟩

theorem Spells.ne_nil (h : t.Spells k ds q) : ds ≠ [] := by
  cases h with
  | last => exact List.cons_ne_nil _ _
  | more => exact List.cons_ne_nil _ _

/-- What is not below the threshold needs another digit. -/
theorem le_more (hd : t.threshold k ≤ d) : t.threshold k ≤ d + (base - t.threshold k) * q :=
  hd.trans (Nat.le_add_right _ _)

/-- **One way to write a number.** -/
theorem Spells.unique (h : t.Spells k ds q) (h' : t.Spells k ds' q) : ds = ds' := by
  induction h generalizing ds' with
  | last hd =>
    cases h' with
    | last => rfl
    | more hd' => exact absurd (le_more hd') (Nat.not_le.mpr hd)
  | more hd hlt hrest ih =>
    rename_i k d q ds
    generalize hq : d + (base - t.threshold k) * q = p at h'
    cases h' with
    | last hd' => exact absurd (hq ▸ le_more hd) (Nat.not_le.mpr hd')
    | more hd' hlt' hrest' =>
      rename_i d' q' ds'
      have hbase := t.lt_base k
      -- above the threshold the digit is a rest, and what follows it is the quotient
      have hsub : d - t.threshold k + (base - t.threshold k) * q =
          d' - t.threshold k + (base - t.threshold k) * q' := by omega
      have hmod := congrArg (· % (base - t.threshold k)) hsub
      have hdiv := congrArg (· / (base - t.threshold k)) hsub
      simp only [Nat.add_mul_mod_self_left] at hmod
      simp only [Nat.add_mul_div_left _ _ (by omega : 0 < base - t.threshold k)] at hdiv
      rw [Nat.mod_eq_of_lt (by omega), Nat.mod_eq_of_lt (by omega)] at hmod
      rw [Nat.div_eq_of_lt (by omega), Nat.div_eq_of_lt (by omega), Nat.zero_add,
        Nat.zero_add] at hdiv
      obtain rfl : d = d' := by omega
      subst hdiv
      rw [ih hrest']

end Thresholds

/-! ### Insertions -/

section Insertions

variable {α : Type} (key : α → ℕ)

/-- A list with insertions to come, the next one not before position `i` with the key `n`. -/
structure Slots (α : Type) where
  /-- The least key of the insertions to come. -/
  n : ℕ
  /-- The least position of those with this key. -/
  i : ℕ
  /-- The list so far. -/
  entries : List α

/-- After the insertion of an entry. -/
def Slots.insert (u : Slots α) (i : ℕ) (a : α) : Slots α :=
  ⟨key a, i + 1, u.entries.insertIdx i a⟩

/-- `skips` pairs of a key and a position lie between the state and the pair. -/
def Slots.Skips (u : Slots α) (n i skips : ℕ) : Prop :=
  u.n ≤ n ∧ u.i + skips = (n - u.n) * (u.entries.length + 1) + i

/-- Insertions, with the pairs that each of them skips. -/
inductive Inserted (s : Slots α) : List ℕ → Slots α → Prop
  | nil : Inserted s [] s
  | snoc {u : Slots α} {skips : List ℕ} {a : α} {i skip : ℕ} : Inserted s skips u →
      i ≤ u.entries.length → u.Skips (key a) i skip →
      Inserted s (skips ++ [skip]) (u.insert key i a)

variable {key} {s u u' : Slots α} {skips skips' : List ℕ} {n m i : ℕ}

/-- The number of skipped pairs tells where an entry goes. -/
theorem Slots.Skips.eq_of_skip {skip : ℕ} (hi : i ≤ u.entries.length) (h : u.Skips n i skip) :
    n = u.n + (u.i + skip) / (u.entries.length + 1) ∧
      i = (u.i + skip) % (u.entries.length + 1) := by
  obtain ⟨hn, h⟩ := h
  rw [h, Nat.mul_comm, Nat.mul_add_div (Nat.succ_pos _), Nat.mul_add_mod,
    Nat.div_eq_of_lt (by omega), Nat.mod_eq_of_lt (by omega)]
  omega

theorem Slots.skips_div_mod (u : Slots α) (skip : ℕ) :
    u.Skips (u.n + (u.i + skip) / (u.entries.length + 1))
      ((u.i + skip) % (u.entries.length + 1)) skip := by
  refine ⟨Nat.le_add_right _ _, ?_⟩
  rw [Nat.add_sub_cancel_left, Nat.mul_comm]
  exact (Nat.div_add_mod _ _).symm

theorem Slots.Skips.unique {skip skip' : ℕ} (h : u.Skips n i skip) (h' : u.Skips n i skip') :
    skip = skip' := by
  have := h.2
  have := h'.2
  omega

/-- The pairs up to an insertion are less than those with its key or a smaller one. -/
theorem Slots.Skips.lt {skip : ℕ} (h : u.Skips n i skip) (hi : i ≤ u.entries.length) :
    u.i + skip < (n + 1 - u.n) * (u.entries.length + 1) := by
  obtain ⟨hn, h⟩ := h
  rw [h, Nat.succ_sub hn, Nat.succ_mul]
  omega

/-- No entry lies at or after the place where the insertions to come start. -/
structure Slots.Ordered (key : α → ℕ) (u : Slots α) : Prop where
  key_le : ∀ a ∈ u.entries, key a ≤ u.n
  key_lt : ∀ a ∈ u.entries.drop u.i, key a < u.n
  le_length : u.i ≤ u.entries.length

theorem drop_succ_insertIdx (l : List α) (i : ℕ) (a : α) :
    (l.insertIdx i a).drop (i + 1) = l.drop i := by
  induction i generalizing l with
  | zero => rfl
  | succ i ih =>
    cases l with
    | nil => rfl
    | cons b l => exact ih l

theorem Slots.Ordered.insert (h : u.Ordered key) {a : α} {skip : ℕ} (hi : i ≤ u.entries.length)
    (hskip : u.Skips (key a) i skip) : (u.insert key i a).Ordered key := by
  obtain ⟨hn, hskip⟩ := hskip
  refine ⟨?_, ?_, ?_⟩
  · intro b hb
    rcases List.eq_or_mem_of_mem_insertIdx hb with rfl | hb
    · exact le_rfl
    · exact (h.key_le b hb).trans hn
  · intro b hb
    change b ∈ (u.entries.insertIdx i a).drop (i + 1) at hb
    rw [drop_succ_insertIdx] at hb
    rcases hn.eq_or_lt with heq | hlt
    · -- with the same key the position is not before the last one
      rw [← heq, Nat.sub_self, Nat.zero_mul, Nat.zero_add] at hskip
      have hle : u.i ≤ i := by omega
      have hmem : b ∈ u.entries.drop u.i := by
        rw [← Nat.sub_add_cancel hle, Nat.add_comm, ← List.drop_drop] at hb
        exact List.mem_of_mem_drop hb
      exact (h.key_lt b hmem).trans_eq heq
    · exact (h.key_le b (List.mem_of_mem_drop hb)).trans_lt hlt
  · change i + 1 ≤ (u.entries.insertIdx i a).length
    rw [List.length_insertIdx_of_le_length hi]
    omega

theorem Inserted.ordered (h : Inserted key s skips u) (hs : s.Ordered key) : u.Ordered key := by
  induction h with
  | nil => exact hs
  | snoc _ hi hskip ih => exact ih.insert hi hskip

theorem Inserted.length (h : Inserted key s skips u) :
    u.entries.length = s.entries.length + skips.length := by
  induction h with
  | nil => rfl
  | snoc _ hi _ ih =>
    rw [Slots.insert, List.length_insertIdx_of_le_length hi, ih, List.length_append,
      List.length_singleton, Nat.add_assoc]

/-- The insertions of a list whose entries are looked at through a function that keeps the keys. -/
theorem Inserted.map {β : Type} {key' : β → ℕ} (f : α → β) (hf : ∀ a, key' (f a) = key a)
    (h : Inserted key s skips u) :
    Inserted key' ⟨s.n, s.i, s.entries.map f⟩ skips ⟨u.n, u.i, u.entries.map f⟩ := by
  induction h with
  | nil => exact .nil
  | @snoc u skips a i skip _ hi hskip ih =>
    have hsnoc := @Inserted.snoc _ key' _ _ skips (f a) i skip ih (by rwa [List.length_map])
      (by rw [Slots.Skips, List.length_map, hf]; exact hskip)
    rw [Slots.insert, hf] at hsnoc
    rw [Slots.insert, List.map_insertIdx]
    exact hsnoc

/-- What an insertion leaves behind: its entry is the rightmost one with the greatest key. -/
theorem insertIdx_inj_of_last {l l' : List α} {i i' : ℕ} {a a' : α}
    (heq : l.insertIdx i a = l'.insertIdx i' a') (hi : i ≤ l.length) (hi' : i' ≤ l'.length)
    (hkey : key a = key a') (hlast : ∀ b ∈ l.drop i, key b < key a)
    (hlast' : ∀ b ∈ l'.drop i', key b < key a') : i = i' ∧ l = l' ∧ a = a' := by
  have hget : (l.insertIdx i a)[i]? = some a := by
    rw [List.getElem?_insertIdx_self, if_pos hi]
  have hget' : (l'.insertIdx i' a')[i']? = some a' := by
    rw [List.getElem?_insertIdx_self, if_pos hi']
  have hle : i' ≤ i := by
    by_contra hlt
    have hmem : a' ∈ (l.insertIdx i a).drop (i + 1) := by
      refine List.mem_of_getElem? (i := i' - (i + 1)) ?_
      rw [List.getElem?_drop, heq, ← hget']
      congr 1
      omega
    rw [drop_succ_insertIdx] at hmem
    exact absurd (hlast a' hmem) (by omega)
  have hge : i ≤ i' := by
    by_contra hlt
    have hmem : a ∈ (l'.insertIdx i' a').drop (i' + 1) := by
      refine List.mem_of_getElem? (i := i - (i' + 1)) ?_
      rw [List.getElem?_drop, ← heq, ← hget]
      congr 1
      omega
    rw [drop_succ_insertIdx] at hmem
    exact absurd (hlast' a hmem) (by omega)
  obtain rfl : i = i' := Nat.le_antisymm hge hle
  refine ⟨rfl, ?_, ?_⟩
  · have := congrArg (List.eraseIdx · i) heq
    simpa only [List.eraseIdx_insertIdx_self] using this
  · rw [heq, hget'] at hget
    exact (Option.some.inj hget).symm

/-- **The list determines the insertions.** -/
theorem Inserted.unique (hs : ∀ a ∈ s.entries, key a < s.n) (hi : s.i = 0)
    (h : Inserted key s skips u) (h' : Inserted key s skips' u') (heq : u.entries = u'.entries) :
    skips = skips' ∧ u = u' := by
  have hord : s.Ordered key :=
    ⟨fun a ha => (hs a ha).le, fun a ha => hs a (List.mem_of_mem_drop ha), by omega⟩
  have hlen : skips.length = skips'.length := by
    have := h.length
    have := h'.length
    have := congrArg List.length heq
    omega
  induction h generalizing skips' u' with
  | nil =>
    cases h' with
    | nil => exact ⟨rfl, rfl⟩
    | snoc => simp at hlen
  | snoc hrun hle hskip ih =>
    rename_i u skips a i skip
    cases h' with
    | nil => simp at hlen
    | snoc hrun' hle' hskip' =>
      rename_i v skips' a' i' skip'
      have hins := (hrun.ordered hord).insert hle hskip
      have hins' := (hrun'.ordered hord).insert hle' hskip'
      have hlast : ∀ b ∈ u.entries.drop i, key b < key a := by
        rw [← drop_succ_insertIdx u.entries i a]
        exact hins.key_lt
      have hlast' : ∀ b ∈ v.entries.drop i', key b < key a' := by
        rw [← drop_succ_insertIdx v.entries i' a']
        exact hins'.key_lt
      have hmem : a' ∈ (u.insert key i a).entries :=
        heq ▸ (List.mem_insertIdx hle').mpr (Or.inl rfl)
      have hmem' : a ∈ (v.insert key i' a').entries :=
        heq ▸ (List.mem_insertIdx hle).mpr (Or.inl rfl)
      have hkey : key a = key a' :=
        Nat.le_antisymm (hins'.key_le a hmem') (hins.key_le a' hmem)
      obtain ⟨rfl, hentries, rfl⟩ :=
        insertIdx_inj_of_last heq hle hle' hkey hlast hlast'
      obtain ⟨rfl, rfl⟩ := ih hrun' hentries (by simpa using hlen)
      rw [hskip.unique hskip']
      exact ⟨rfl, rfl⟩

/-- Insertions follow each other. -/
theorem Inserted.trans (h : Inserted key s skips u) (h' : Inserted key u skips' u') :
    Inserted key s (skips ++ skips') u' := by
  induction h' with
  | nil => rwa [List.append_nil]
  | snoc _ hi hskip ih =>
    rw [← List.append_assoc]
    exact ih.snoc hi hskip

/-! ### The passes of the encoder -/

variable (key) in
/-- What is transmitted when the encoder stands between `seen` and `rest` in the pass of `n`. -/
def handled (n : ℕ) (seen rest : List α) : List α :=
  seen.filter (key · ≤ n) ++ rest.filter (key · < n)

variable (key) in
/-- The position that an entry would get there. -/
def place (n : ℕ) (seen : List α) : ℕ :=
  (seen.filter (key · ≤ n)).length

variable (key) in
/-- The decoder is in the state `u`, and has to skip `delta` pairs up to the place of the
encoder. -/
structure Standing (u : Slots α) (n delta : ℕ) (seen rest : List α) : Prop where
  entries : u.entries = handled key n seen rest
  skips : u.Skips n (place key n seen) delta

variable {delta : ℕ} {seen rest l : List α} {a : α}

theorem Standing.place_le (h : Standing key u n delta seen rest) :
    place key n seen ≤ u.entries.length := by
  rw [h.entries, handled, List.length_append, place]
  exact Nat.le_add_right _ _

theorem handled_sublist (n : ℕ) (seen rest : List α) :
    (handled key n seen rest).Sublist (seen ++ rest) :=
  List.filter_sublist.append List.filter_sublist

/-- An entry with a smaller key is in the list already. -/
theorem Standing.step_lt (h : Standing key u n delta seen (a :: rest)) (ha : key a < n) :
    Standing key u n (delta + 1) (seen ++ [a]) rest := by
  refine ⟨?_, h.skips.1, ?_⟩
  · rw [h.entries, handled, handled, List.filter_append, List.append_assoc,
      List.filter_cons_of_pos (by simpa using ha), List.filter_cons_of_pos (by simpa using ha.le)]
    rfl
  · have hplace : place key n (seen ++ [a]) = place key n seen + 1 := by
      rw [place, place, List.filter_append, List.filter_cons_of_pos (by simpa using ha.le),
        List.length_append]
      rfl
    rw [hplace, ← Nat.add_assoc, h.skips.2, Nat.add_assoc]

/-- An entry with a greater key is left to a later pass. -/
theorem Standing.step_gt (h : Standing key u n delta seen (a :: rest)) (ha : n < key a) :
    Standing key u n delta (seen ++ [a]) rest := by
  have hseen : (seen ++ [a]).filter (key · ≤ n) = seen.filter (key · ≤ n) := by
    rw [List.filter_append, List.filter_cons_of_neg (by simpa using ha), List.filter_nil,
      List.append_nil]
  refine ⟨?_, ?_⟩
  · rw [h.entries, handled, handled, hseen, List.filter_cons_of_neg (by simpa using ha.le)]
  · rw [place, hseen]
    exact h.skips

/-- An entry of this pass is inserted. -/
theorem Standing.step_eq (h : Standing key u n delta seen (a :: rest)) (ha : key a = n) :
    Standing key (u.insert key (place key n seen) a) n 0 (seen ++ [a]) rest := by
  have hseen : (seen ++ [a]).filter (key · ≤ n) = seen.filter (key · ≤ n) ++ [a] := by
    rw [List.filter_append, List.filter_cons_of_pos (by simpa using ha.le), List.filter_nil]
  refine ⟨?_, ?_⟩
  · have hins : ∀ l l' : List α, (l ++ l').insertIdx l.length a = l ++ a :: l' := by
      intro l l'
      induction l with
      | nil => rfl
      | cons b l ih => exact congrArg (b :: ·) ih
    rw [Slots.insert, h.entries, handled, handled, hseen, place,
      List.filter_cons_of_neg (by simp [ha]), hins, List.append_assoc]
    rfl
  · refine ⟨ha.le, ?_⟩
    have hplace : place key n (seen ++ [a]) = place key n seen + 1 := by
      rw [place, hseen, List.length_append, place, List.length_singleton]
    rw [hplace, Slots.insert, ha, Nat.sub_self, Nat.zero_mul, Nat.zero_add, Nat.add_zero]

theorem Standing.inserted (hrun : Inserted key s skips u)
    (h : Standing key u n delta seen (a :: rest)) (ha : key a = n) :
    Inserted key s (skips ++ [delta]) (u.insert key (place key n seen) a) :=
  hrun.snoc h.place_le (ha ▸ h.skips)

/-- At the end of the list the encoder goes back to its start, for the next key. -/
theorem Standing.next_pass (h : Standing key u n delta l []) :
    Standing key u (n + 1) (delta + 1) [] l := by
  have hentries : u.entries = l.filter (key · ≤ n) := by
    rw [h.entries, handled, List.filter_nil, List.append_nil]
  refine ⟨?_, h.skips.1.trans (Nat.le_succ n), ?_⟩
  · rw [hentries, handled, List.filter_nil, List.nil_append]
    exact List.filter_congr fun a _ => by simp only [Nat.lt_succ_iff]
  · have hplace : place key n l = u.entries.length := by
      rw [place, hentries]
    have hskip := h.skips.2
    rw [hplace] at hskip
    rw [← Nat.add_assoc, hskip, Nat.succ_sub h.skips.1, place, List.filter_nil, List.length_nil,
      Nat.succ_mul]
    rfl

/-- Passes in which there is nothing to insert are left out. -/
theorem Standing.advance (h : Standing key u n delta [] l) (hnm : n ≤ m)
    (hnone : ∀ a ∈ l, n ≤ key a → m ≤ key a) :
    Standing key u m (delta + (m - n) * (u.entries.length + 1)) [] l := by
  refine ⟨?_, h.skips.1.trans hnm, ?_⟩
  · rw [h.entries, handled, handled, List.filter_nil, List.nil_append, List.filter_nil,
      List.nil_append]
    refine List.filter_congr fun a ha => ?_
    have := hnone a ha
    simp only [decide_eq_decide]
    omega
  · have hskip := h.skips.2
    have hn := h.skips.1
    obtain ⟨c, rfl⟩ := Nat.exists_eq_add_of_le hn
    obtain ⟨d, rfl⟩ := Nat.exists_eq_add_of_le hnm
    have hplace : ∀ n, place key n [] = 0 := fun _ => rfl
    have hm : u.n + c + d - u.n = c + d := by omega
    rw [hplace, Nat.add_sub_cancel_left] at hskip
    rw [hplace, Nat.add_sub_cancel_left, hm, ← Nat.add_assoc, hskip]
    ring

/-- What is transmitted is the whole list when nothing is missing. -/
theorem Standing.entries_eq (h : Standing key u n delta seen rest)
    (hlen : (seen ++ rest).length ≤ u.entries.length) : u.entries = seen ++ rest := by
  rw [h.entries] at hlen ⊢
  exact (handled_sublist n seen rest).eq_of_length_le hlen

/-- A pass with an entry of its own makes the list longer. -/
theorem Standing.length_lt {delta' : ℕ} (h : Standing key u n delta [] l)
    (h' : Standing key u' n delta' l []) (ha : a ∈ l) (hkey : key a = n) :
    u.entries.length < u'.entries.length := by
  have hsub : (l.filter (key · < n)).Sublist (l.filter (key · ≤ n)) :=
    List.monotone_filter_right l fun b hb => by
      simp only [decide_eq_true_eq] at hb ⊢
      exact hb.le
  rw [h.entries, h'.entries, handled, handled, List.filter_nil, List.nil_append, List.filter_nil,
    List.append_nil]
  refine lt_of_le_of_ne hsub.length_le fun hlen => ?_
  have hmem : a ∈ l.filter (key · ≤ n) := List.mem_filter.mpr ⟨ha, decide_eq_true hkey.le⟩
  rw [← hsub.eq_of_length hlen] at hmem
  exact absurd (of_decide_eq_true (List.mem_filter.mp hmem).2) (by omega)

/-- After a pass with an entry of its own, less than the length of the list has been counted. -/
theorem Standing.delta_le (h : Standing key u n delta l []) (hu : u.n = n) :
    delta ≤ u.entries.length := by
  have hskip := h.skips.2
  have hplace := h.place_le
  rw [hu, Nat.sub_self, Nat.zero_mul, Nat.zero_add] at hskip
  omega

/-- As long as an entry is missing at the end of a pass, its key is above that of the pass. -/
theorem Standing.exists_gt (h : Standing key u n delta l [])
    (hlen : u.entries.length < l.length) : ∃ a ∈ l, n < key a := by
  by_contra hno
  rw [h.entries, handled, List.filter_nil, List.append_nil, List.filter_eq_self.mpr] at hlen
  · exact lt_irrefl _ hlen
  · exact fun a ha => decide_eq_true (Nat.not_lt.mp fun hlt => hno ⟨a, ha, hlt⟩)

/-! ### The insertions to come -/

/-- The next insertion of this pass. -/
theorem Standing.exists_in_pass (h : Standing key u n delta seen rest)
    (hex : ∃ a ∈ rest, key a = n) :
    ∃ seen' a rest' delta', seen' ++ a :: rest' = seen ++ rest ∧ delta ≤ delta' ∧
      Standing key u (key a) delta' seen' (a :: rest') := by
  induction rest generalizing seen delta with
  | nil =>
    obtain ⟨a, ha, -⟩ := hex
    cases ha
  | cons b rest ih =>
    rcases lt_trichotomy (key b) n with hlt | heq | hgt
    · obtain ⟨seen', a, rest', delta', hl, hle, hstand⟩ := ih (h.step_lt hlt) (by
        obtain ⟨a, ha, rfl⟩ := hex
        rcases List.mem_cons.mp ha with rfl | ha
        · exact absurd hlt (lt_irrefl _)
        · exact ⟨a, ha, rfl⟩)
      exact ⟨seen', a, rest', delta', by rw [hl, List.append_assoc]; rfl, by omega, hstand⟩
    · exact ⟨seen, b, rest, delta, rfl, le_rfl, heq ▸ h⟩
    · obtain ⟨seen', a, rest', delta', hl, hle, hstand⟩ := ih (h.step_gt hgt) (by
        obtain ⟨a, ha, rfl⟩ := hex
        rcases List.mem_cons.mp ha with rfl | ha
        · exact absurd hgt (lt_irrefl _)
        · exact ⟨a, ha, rfl⟩)
      exact ⟨seen', a, rest', delta', by rw [hl, List.append_assoc]; rfl, hle, hstand⟩

/-- Without one the pass comes to its end. -/
theorem Standing.exists_end (h : Standing key u n delta seen rest)
    (hnone : ∀ a ∈ rest, key a ≠ n) :
    ∃ delta', delta ≤ delta' ∧ Standing key u n delta' (seen ++ rest) [] := by
  induction rest generalizing seen delta with
  | nil => exact ⟨delta, le_rfl, by rwa [List.append_nil]⟩
  | cons b rest ih =>
    have hrest := fun a ha => hnone a (List.mem_cons_of_mem b ha)
    rw [← List.singleton_append, ← List.append_assoc]
    rcases Nat.lt_or_gt_of_ne (hnone b List.mem_cons_self) with hlt | hgt
    · obtain ⟨delta', hle, hstand⟩ := ih (h.step_lt hlt) hrest
      exact ⟨delta', by omega, hstand⟩
    · exact ih (h.step_gt hgt) hrest

/-- The next insertion, as long as some entry is missing. -/
theorem Standing.exists_next (h : Standing key u n delta seen rest)
    (hlen : u.entries.length < (seen ++ rest).length) :
    ∃ seen' a rest' delta', seen' ++ a :: rest' = seen ++ rest ∧ delta ≤ delta' ∧
      Standing key u (key a) delta' seen' (a :: rest') := by
  by_cases hex : ∃ a ∈ rest, key a = n
  · exact h.exists_in_pass hex
  · obtain ⟨delta', hle, hend⟩ := h.exists_end fun a ha heq => hex ⟨a, ha, heq⟩
    -- some entry has a key above `n`, and the least such key is that of the next pass
    have hbig : ∃ m, ∃ a ∈ seen ++ rest, n < key a ∧ key a = m := by
      obtain ⟨a, ha, hna⟩ := hend.exists_gt hlen
      exact ⟨key a, a, ha, hna, rfl⟩
    obtain ⟨a, ha, hna, hkey⟩ := Nat.find_spec hbig
    have hnext := hend.next_pass.advance (m := key a) hna fun b hb hnb =>
      hkey ▸ Nat.find_min' hbig ⟨b, hb, hnb, rfl⟩
    obtain ⟨seen', b, rest', delta'', hl, hle', hstand⟩ := hnext.exists_in_pass ⟨a, ha, rfl⟩
    exact ⟨seen', b, rest', delta'', hl, by omega, hstand⟩

/-- **The insertions to come.** They complete the list, and the first of them skips at least what
the encoder has counted so far. -/
theorem Standing.exists_rest (h : Standing key u n delta seen rest)
    (hlen : u.entries.length < (seen ++ rest).length) :
    ∃ skip skips u', Inserted key u (skip :: skips) u' ∧ u'.entries = seen ++ rest ∧
      delta ≤ skip := by
  obtain ⟨k, hk⟩ : ∃ k, (seen ++ rest).length - u.entries.length = k + 1 :=
    ⟨(seen ++ rest).length - u.entries.length - 1, by omega⟩
  induction k generalizing u n delta seen rest with
  | zero =>
    obtain ⟨seen', a, rest', delta', hl, hle, hstand⟩ := h.exists_next hlen
    have hins := hstand.step_eq rfl
    have hcount : (u.insert key (place key (key a) seen') a).entries.length =
        u.entries.length + 1 := List.length_insertIdx_of_le_length hstand.place_le a
    refine ⟨delta', [], _, Standing.inserted .nil hstand rfl, ?_, hle⟩
    rw [hins.entries_eq, List.append_assoc, List.singleton_append, hl]
    rw [hcount, List.append_assoc, List.singleton_append, hl]
    omega
  | succ k ih =>
    obtain ⟨seen', a, rest', delta', hl, hle, hstand⟩ := h.exists_next hlen
    have hins := hstand.step_eq rfl
    have hcount : (u.insert key (place key (key a) seen') a).entries.length =
        u.entries.length + 1 := List.length_insertIdx_of_le_length hstand.place_le a
    have hl' : seen' ++ [a] ++ rest' = seen ++ rest := by
      rw [List.append_assoc, List.singleton_append, hl]
    obtain ⟨skip, skips, u', hrun, hentries, -⟩ :=
      ih hins (by rw [hcount, hl']; omega) (by rw [hcount, hl']; omega)
    refine ⟨delta', skip :: skips, u', ?_, by rw [hentries, hl'], hle⟩
    exact (Standing.inserted .nil hstand rfl).trans hrun

end Insertions

end Intent
