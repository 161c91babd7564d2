import Intent.Old.PunycodeDigits

/-!
# The insertions of punycode

`Transmits` is what the encoder and the decoder share: a text that stands for a sequence of
insertions into the list of the basic code points, with the bias after it. The insertions determine
the text up to the case of its letters (`Transmits.unique`). The main loop of the decoder carries
out the insertions of such a text (`decodeRounds_of_transmits`), and a text that it accepts is one
(`transmits_of_decodeRounds`).
-/

namespace Intent.Old.Punycode

/-- A code point and its flag. -/
abbrev Point := PunycodeUint × Bool

/-- What the code points are sorted by. -/
def key (p : Point) : ℕ := p.1.toNat

theorem key_lt (p : Point) : key p < 2 ^ 32 := p.1.toNat_lt

/-- The list of the basic code points, before the first insertion. -/
def start (l : List Point) : Slots Point := ⟨0x80, 0, l⟩

theorem start_n_lt (l : List Point) : (start l).n < 2 ^ 32 := by
  change 0x80 < 2 ^ 32
  decide

/-- The text stands for the insertions. If the relation is strict, then the decoder's variable `i`
can hold all pairs up to the insertion, and not only those that are skipped. -/
inductive Transmits (strict : Prop) (s : Slots Point) :
    Text → List ℕ → Slots Point → PunycodeUint → Prop
  | nil : Transmits strict s [] [] s initialBias
  | snoc {y cs : Text} {c : UInt8} {skips : List ℕ} {u : Slots Point} {bias : PunycodeUint}
      {i skip : ℕ} {p : Point} : Transmits strict s y skips u bias →
      i ≤ u.entries.length → u.Skips (key p) i skip →
      (thresholds bias.toNat).Spells 0 ((cs ++ [c]).map digitOf) skip →
      flagged (charUint c) = p.2 → skip < 2 ^ 32 → (strict → u.i + skip < 2 ^ 32) →
      Transmits strict s (y ++ (cs ++ [c])) (skips ++ [skip]) (u.insert key i p)
        (adapt (UInt32.ofNat skip) (UInt32.ofNat (u.entries.length + 1)) (decide (skips = [])))

section Transmits

variable {strict : Prop} {s u u' : Slots Point} {y y' : Text} {skips skips' : List ℕ}
  {bias bias' : PunycodeUint}

theorem Transmits.inserted (h : Transmits strict s y skips u bias) : Inserted key s skips u := by
  induction h with
  | nil => exact .nil
  | snoc _ hi hskips _ _ _ _ ih => exact ih.snoc hi hskips

theorem Transmits.bias_le (h : Transmits strict s y skips u bias) : bias.toNat ≤ 213 := by
  cases h with
  | nil => decide
  | snoc => exact adapt_le _ _ _

/-- Only before the first insertion the next position can be 0. -/
theorem Transmits.i_eq_zero_iff (h : Transmits strict s y skips u bias) (hs : s.i = 0) :
    u.i = 0 ↔ skips = [] := by
  cases h with
  | nil => simp [hs]
  | snoc => simp [Slots.insert]

theorem Transmits.n_lt (h : Transmits strict s y skips u bias) (hs : s.n < 2 ^ 32) :
    u.n < 2 ^ 32 := by
  cases h with
  | nil => exact hs
  | snoc => exact key_lt _

/-- **The insertions determine the text**, up to the case of its letters. -/
theorem Transmits.unique {strict' : Prop} (h : Transmits strict s y skips u bias)
    (h' : Transmits strict' s y' skips u' bias') :
    bias = bias' ∧ u.entries.length = u'.entries.length ∧ y.map digitOf = y'.map digitOf := by
  induction h generalizing y' u' bias' with
  | nil =>
    generalize hnil : ([] : List ℕ) = skips at h'
    cases h' with
    | nil => exact ⟨rfl, rfl, rfl⟩
    | snoc => simp at hnil
  | @snoc y cs c skips u bias i skip p hprev hi hskips hspell hflag hlt hstrict ih =>
    generalize hsnoc : skips ++ [skip] = skips' at h'
    cases h' with
    | nil => simp at hsnoc
    | snoc hprev' hi' _ hspell' _ _ _ =>
      obtain ⟨rfl, hskip⟩ := List.append_inj' hsnoc rfl
      obtain ⟨rfl⟩ := List.singleton_inj.mp hskip
      obtain ⟨rfl, hlen, hdigits⟩ := ih hprev'
      refine ⟨by rw [hlen], ?_, ?_⟩
      · rw [Slots.insert, Slots.insert, List.length_insertIdx_of_le_length hi,
          List.length_insertIdx_of_le_length hi', hlen]
      · rw [List.map_append, hdigits, hspell.unique hspell', ← List.map_append]

/-- There are no more insertions than characters. -/
theorem Transmits.length_le (h : Transmits strict s y skips u bias) :
    skips.length ≤ y.length := by
  induction h with
  | nil => exact le_rfl
  | snoc _ _ _ _ _ _ _ ih =>
    simp only [List.length_append, List.length_singleton]
    omega

theorem Transmits.digitOf_lt (h : Transmits strict s y skips u bias) :
    ∀ c ∈ y, digitOf c < 36 := by
  induction h with
  | nil => exact fun c hc => absurd hc List.not_mem_nil
  | snoc _ _ _ hspell _ _ _ ih =>
    intro c hc
    rcases List.mem_append.mp hc with hc | hc
    · exact ih c hc
    · exact hspell.lt_base _ (List.mem_map_of_mem hc)

theorem Transmits.skip_lt (h : Transmits strict s y skips u bias) : ∀ skip ∈ skips,
    skip < 2 ^ 32 := by
  induction h with
  | nil => exact fun c hc => absurd hc List.not_mem_nil
  | snoc _ _ _ _ _ hlt _ ih =>
    intro skip hskip
    rcases List.mem_append.mp hskip with hskip | hskip
    · exact ih skip hskip
    · rwa [List.mem_singleton.mp hskip]

/-- The insertions do not touch the entries with small keys. -/
theorem filter_of_inserted (h : Inserted key s skips u) (hs : ∀ p ∈ s.entries, key p < s.n) :
    s.n ≤ u.n ∧ u.entries.filter (key · < s.n) = s.entries := by
  induction h with
  | nil => exact ⟨le_rfl, List.filter_eq_self.mpr fun p hp => by simpa using hs p hp⟩
  | @snoc u skips p i skip hprev hi hskip ih =>
    obtain ⟨hn, hfilter⟩ := ih
    have hkey : s.n ≤ key p := hn.trans hskip.1
    refine ⟨hkey, ?_⟩
    have hins : ∀ (l : List Point) (i : ℕ), (l.insertIdx i p).filter (key · < s.n) =
        l.filter (key · < s.n) := by
      intro l
      induction l with
      | nil =>
        intro i
        cases i with
        | zero => exact List.filter_cons_of_neg (by simpa using hkey)
        | succ i => rfl
      | cons a l ih =>
        intro i
        cases i with
        | zero => exact List.filter_cons_of_neg (by simpa using hkey)
        | succ i => rw [List.insertIdx_succ_cons, List.filter_cons, List.filter_cons, ih]
    exact (hins u.entries i).trans hfilter

end Transmits

/-! ### The decoder -/

/-- The variables of the decoder in a state of the insertions. -/
def decodeState (useFlags : Bool) (u : Slots Point) (bias : PunycodeUint) : DecodeState where
  n := UInt32.ofNat u.n
  i := UInt32.ofNat u.i
  bias := bias
  output := u.entries.map Prod.fst
  caseFlags := if useFlags then some (u.entries.map Prod.snd) else none

theorem decodeState_insert (useFlags : Bool) (u : Slots Point) (i : ℕ) (p : Point)
    (bias : PunycodeUint) :
    decodeState useFlags (u.insert key i p) bias =
      { n := p.1
        i := UInt32.ofNat i + 1
        bias := bias
        output := (u.entries.map Prod.fst).insertIdx i p.1
        caseFlags := (if useFlags then some (u.entries.map Prod.snd) else none).map
          (·.insertIdx i p.2) } := by
  unfold decodeState Slots.insert key
  rw [UInt32.ofNat_toNat, UInt32.ofNat_add, List.map_insertIdx, List.map_insertIdx]
  cases useFlags <;> rfl

/-- A round of the decoder that reads a number. -/
theorem decodeRound_eq (useFlags : Bool) (maxOut : ℕ) (input : Text) {u : Slots Point}
    {cs : Text} {c : UInt8} {bias : PunycodeUint} {skip : ℕ} (hbias : bias.toNat ≤ 213)
    (hn : u.n < 2 ^ 32)
    (hi : u.i ≤ u.entries.length) (hlen : u.entries.length + 1 < 2 ^ 32)
    (hspell : (thresholds bias.toNat).Spells 0 ((cs ++ [c]).map digitOf) skip) :
    decodeRound maxOut (cs ++ c :: input) (decodeState useFlags u bias) =
      if u.i + skip < 2 ^ 32 then
        if u.n + (u.i + skip) / (u.entries.length + 1) < 2 ^ 32 then
          if u.entries.length < maxOut then
            .ok (input, decodeState useFlags
              (u.insert key ((u.i + skip) % (u.entries.length + 1))
                (UInt32.ofNat (u.n + (u.i + skip) / (u.entries.length + 1)),
                  flagged (charUint c)))
              (adapt (UInt32.ofNat skip) (UInt32.ofNat (u.entries.length + 1))
                (decide (u.i = 0))))
          else .error .bigOutput
        else .error .overflow
      else .error .overflow := by
  have htoNat : (UInt32.ofNat u.i).toNat = u.i := by
    rw [UInt32.toNat_ofNat', Nat.mod_eq_of_lt (by omega)]
  have hn' : (UInt32.ofNat u.n).toNat = u.n := by
    rw [UInt32.toNat_ofNat', Nat.mod_eq_of_lt hn]
  have hout : (UInt32.ofNat (u.entries.length + 1)).toNat = u.entries.length + 1 := by
    rw [UInt32.toNat_ofNat', Nat.mod_eq_of_lt hlen]
  have hone : (1 : PunycodeUint).toNat = 1 := rfl
  have hfirst : decide (UInt32.ofNat u.i = 0) = decide (u.i = 0) := by
    rw [decide_eq_decide, ← UInt32.toNat_inj, htoNat]
    rfl
  unfold decodeRound
  rw [decodeState, decodeInt_eq hbias rfl weight_one hspell, htoNat, hone, Nat.mul_one]
  by_cases hfits : u.i + skip < 2 ^ 32
  · have hquot : (u.i + skip) / (u.entries.length + 1) < 2 ^ 32 :=
      (Nat.div_le_self _ _).trans_lt hfits
    have hskip : UInt32.ofNat (u.i + skip) - UInt32.ofNat u.i = UInt32.ofNat skip := by
      rw [← UInt32.ofNat_sub (Nat.le_add_right _ _), Nat.add_sub_cancel_left]
    have hsucc : UInt32.ofNat u.entries.length + 1 = UInt32.ofNat (u.entries.length + 1) :=
      (UInt32.ofNat_add _ 1).symm
    have hguard : UInt32.ofNat ((u.i + skip) / (u.entries.length + 1)) >
        maxint - UInt32.ofNat u.n ↔
          ¬ u.n + (u.i + skip) / (u.entries.length + 1) < 2 ^ 32 := by
      rw [gt_maxint_sub, hn', UInt32.toNat_ofNat', Nat.mod_eq_of_lt hquot]
    have hpos : (UInt32.ofNat ((u.i + skip) % (u.entries.length + 1))).toNat =
        (u.i + skip) % (u.entries.length + 1) := by
      rw [UInt32.toNat_ofNat', Nat.mod_eq_of_lt]
      exact (Nat.mod_lt _ (Nat.succ_pos _)).trans hlen
    rw [if_pos hfits, if_pos hfits]
    dsimp only
    rw [List.length_map, hsucc, ← UInt32.ofNat_div hfits hlen, ← UInt32.ofNat_mod hfits hlen,
      hskip, hpos, hfirst]
    by_cases hnext : u.n + (u.i + skip) / (u.entries.length + 1) < 2 ^ 32
    · rw [if_pos hnext, if_neg (fun h => hguard.mp h hnext)]
      by_cases hroom : u.entries.length < maxOut
      · rw [if_pos hroom, if_neg (Nat.not_le.mpr hroom)]
        rw [decodeState_insert, UInt32.ofNat_add u.n]
      · rw [if_neg hroom, if_pos (Nat.not_lt.mp hroom)]
    · rw [if_neg hnext, if_pos (hguard.mpr hnext)]
  · rw [if_neg hfits, if_neg hfits]

section Decoder

variable {strict : Prop} {useFlags : Bool} {l : List Point} {s u u' : Slots Point}
  {d d' : DecodeState} {y cs input input' rest : Text} {c : UInt8} {skips : List ℕ}
  {bias : PunycodeUint} {maxOut : ℕ}

theorem decodeRounds_of_round (h : decodeRound maxOut input d = .ok (input', d')) :
    decodeRounds maxOut input d = decodeRounds maxOut input' d' := by
  have hne : input ≠ [] := by
    rintro rfl
    cases h
  rw [decodeRounds, if_neg hne]
  split
  · rename_i e he
    rw [h] at he
    cases he
  · rename_i a b he
    rw [h] at he
    cases he
    rfl

theorem decodeRounds_of_error {e : PunycodeStatus} (hne : input ≠ [])
    (h : decodeRound maxOut input d = .error e) : decodeRounds maxOut input d = .error e := by
  rw [decodeRounds, if_neg hne]
  split
  · rename_i e' he
    rw [h] at he
    cases he
    rfl
  · rename_i a b he
    rw [h] at he
    cases he

theorem decodeRounds_nil (maxOut : ℕ) (d : DecodeState) : decodeRounds maxOut [] d = .ok d := by
  rw [decodeRounds, if_pos rfl]

theorem start_ordered (hl : ∀ p ∈ l, key p < 0x80) : (start l).Ordered key :=
  ⟨fun p hp => (hl p hp).le, fun p hp => hl p (List.mem_of_mem_drop hp), Nat.zero_le _⟩

/-- **The decoder carries out the insertions** that a text stands for, or reports an overflow. -/
theorem decodeRounds_of_transmits (useFlags : Bool) (hl : ∀ p ∈ l, key p < 0x80)
    (h : Transmits strict (start l) y skips u bias) (hlen : u.entries.length < 2 ^ 32)
    (hroom : u.entries.length ≤ maxOut) (rest : Text) :
    decodeRounds maxOut (y ++ rest) (decodeState useFlags (start l) initialBias) =
        decodeRounds maxOut rest (decodeState useFlags u bias) ∨
      ¬ strict ∧ decodeRounds maxOut (y ++ rest) (decodeState useFlags (start l) initialBias) =
        .error .overflow := by
  induction h generalizing rest with
  | nil => exact Or.inl rfl
  | @snoc y cs c skips u bias i skip p hprev hi hskips hspell hflag hlt hstrict ih =>
    have hcount : (u.insert key i p).entries.length = u.entries.length + 1 :=
      List.length_insertIdx_of_le_length hi p
    have hord := hprev.inserted.ordered (start_ordered hl)
    rw [List.append_assoc, List.append_assoc, List.singleton_append]
    rcases ih (by omega) (by omega) (cs ++ c :: rest) with hrun | hover
    · rw [hrun]
      have hround := decodeRound_eq useFlags maxOut rest hprev.bias_le
        (hprev.n_lt (start_n_lt l)) hord.le_length (by omega) hspell
      obtain ⟨hkey, hpos⟩ := hskips.eq_of_skip hi
      rw [← hkey, ← hpos, if_pos (key_lt p), if_pos (by omega : u.entries.length < maxOut), hflag,
        key, UInt32.ofNat_toNat,
        decide_eq_decide.mpr (hprev.i_eq_zero_iff rfl)] at hround
      by_cases hfits : u.i + skip < 2 ^ 32
      · rw [if_pos hfits] at hround
        exact Or.inl (decodeRounds_of_round hround)
      · rw [if_neg hfits] at hround
        refine Or.inr ⟨fun h => hfits (hstrict h), decodeRounds_of_error ?_ hround⟩
        exact List.append_ne_nil_of_right_ne_nil _ (List.cons_ne_nil _ _)
    · exact Or.inr hover

/-- **The decoder accepts nothing else.** -/
theorem transmits_of_decodeRounds (hl : ∀ p ∈ l, key p < 0x80)
    (h : Transmits True (start l) y skips u bias)
    (hlen : u.entries.length + input.length < 2 ^ 32)
    (hrun : decodeRounds maxOut input (decodeState useFlags u bias) = .ok d) :
    ∃ skips' u' bias', Transmits True (start l) (y ++ input) skips' u' bias' ∧
      u'.entries.length ≤ max u.entries.length maxOut ∧ d = decodeState useFlags u' bias' := by
  induction hn : input.length using Nat.strong_induction_on
    generalizing y skips u bias input with
  | _ n ih =>
    subst hn
    by_cases hnil : input = []
    · subst hnil
      rw [decodeRounds_nil] at hrun
      rw [List.append_nil]
      exact ⟨skips, u, bias, h, le_max_left _ _, (Except.ok.inj hrun).symm⟩
    · cases hround : decodeRound maxOut input (decodeState useFlags u bias) with
      | error e =>
        rw [decodeRounds_of_error hnil hround] at hrun
        cases hrun
      | ok r =>
        obtain ⟨input', d'⟩ := r
        rw [decodeRounds_of_round hround] at hrun
        have hlength := length_of_decodeRound hround
        have hord := h.inserted.ordered (start_ordered hl)
        -- the number that the round has read
        obtain ⟨cs, c, skip, hinput, hspell⟩ : ∃ cs c skip, input = cs ++ c :: input' ∧
            (thresholds bias.toNat).Spells 0 ((cs ++ [c]).map digitOf) skip := by
          unfold decodeRound at hround
          split at hround
          · cases hround
          · rename_i i c rest hint
            obtain ⟨cs, skip, hinput, hspell⟩ :=
              spelled_of_decodeInt h.bias_le rfl weight_one hint
            dsimp only at hround
            split at hround
            · cases hround
            · split at hround
              · cases hround
              · cases hround
                exact ⟨cs, c, skip, hinput, hspell⟩
        subst hinput
        rw [decodeRound_eq _ _ _ h.bias_le (h.n_lt (start_n_lt l)) hord.le_length (by
          simp only [List.length_append, List.length_cons] at hlen
          omega) hspell] at hround
        split_ifs at hround with hfits hnext hroom
        cases hround
        have hle : (u.i + skip) % (u.entries.length + 1) ≤ u.entries.length :=
          Nat.le_of_lt_succ (Nat.mod_lt _ (Nat.succ_pos _))
        have hkey : key (UInt32.ofNat (u.n + (u.i + skip) / (u.entries.length + 1)),
            flagged (charUint c)) = u.n + (u.i + skip) / (u.entries.length + 1) := by
          rw [key, UInt32.toNat_ofNat', Nat.mod_eq_of_lt hnext]
        have hsnoc := h.snoc hle (hkey ▸ u.skips_div_mod skip) hspell rfl (by omega)
          (fun _ => hfits)
        have hcount : (u.insert key ((u.i + skip) % (u.entries.length + 1))
            (UInt32.ofNat (u.n + (u.i + skip) / (u.entries.length + 1)),
              flagged (charUint c))).entries.length = u.entries.length + 1 :=
          List.length_insertIdx_of_le_length hle _
        rw [decide_eq_decide.mpr (h.i_eq_zero_iff rfl)] at hrun
        obtain ⟨skips', u', bias', htrans, hmax, hd⟩ :=
          ih _ hlength hsnoc (by rw [hcount]; omega) hrun rfl
        refine ⟨skips', u', bias', ?_, by omega, hd⟩
        rw [List.append_assoc, List.append_assoc, List.singleton_append] at htrans
        exact htrans

end Decoder

end Intent.Old.Punycode
