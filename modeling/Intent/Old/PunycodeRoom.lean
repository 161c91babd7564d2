import Intent.Old.PunycodeRound

/-!
# The room and the errors of punycode

The documentation of the two functions says what they need and what they return. The encoder never
reports bad input, and it writes ASCII characters, with a zero only for a zero
(`punycodeEncode_output`). The decoder does not need more room than its input has characters, and
with less room than the result has code points it says so (`punycodeDecode_room`).
-/

namespace Intent.Old.Punycode

/-! ### The encoder -/

theorem lt_of_basic_charUint {c : UInt8} (h : basic (charUint c)) : c < 0x80 := by
  by_contra hge
  have hle : 0x80 ≤ c.toNat := Nat.not_lt.mp fun hlt => hge (UInt8.lt_iff_toNat_lt.mpr hlt)
  have hlt := basic_iff.mp h
  rw [charUint, if_neg hge, UInt32.toNat_sub, UInt8.toNat_toUInt32] at hlt
  have := c.toNat_lt
  change (2 ^ 32 - 256 + c.toNat) % 2 ^ 32 < 0x80 at hlt
  omega

/-- The only basic code point that is written as a zero is zero. -/
theorem basicChar_eq_zero_iff {useFlags : Bool} {p : Point} (h : basic p.1) :
    basicChar useFlags p = 0 ↔ p.1 = 0 := by
  have hall : ∀ e : Fin 128, ∀ f g : Bool, basicChar g (UInt32.ofNat e, f) = 0 ↔
      UInt32.ofNat e = 0 := by decide +kernel
  have := hall ⟨p.1.toNat, basic_iff.mp h⟩ p.2 useFlags
  rwa [UInt32.ofNat_toNat] at this

theorem map_fst_points (x : EncodeInput) : x.points.map Prod.fst = x.input := by
  obtain ⟨input, caseFlags, hlt, hflags⟩ := x
  cases caseFlags with
  | none => exact (List.map_map).trans (List.map_id _)
  | some flags =>
    refine List.map_fst_zip ?_
    rw [List.length_map, hflags flags rfl]

theorem zero_mem_basics_iff (x : EncodeInput) : 0 ∈ x.basics ↔ 0 ∈ x.input := by
  rw [← map_fst_points x]
  constructor
  · intro h
    obtain ⟨p, hp, hzero⟩ := List.mem_map.mp h
    obtain ⟨hp, hbasic⟩ := List.mem_filter.mp hp
    exact List.mem_map.mpr ⟨p, hp, (basicChar_eq_zero_iff hbasic).mp hzero⟩
  · intro h
    obtain ⟨p, hp, hzero⟩ := List.mem_map.mp h
    have hbasic : basic p.1 := by rw [hzero]; decide
    exact List.mem_map.mpr
      ⟨p, List.mem_filter.mpr ⟨hp, hbasic⟩, (basicChar_eq_zero_iff hbasic).mpr hzero⟩

/-- **The output of the encoder.** -/
theorem punycodeEncode_output (x : EncodeInput) (fuel maxOut : ℕ) :
    (x.input.length ≤ fuel → punycodeEncode fuel x maxOut ≠ none) ∧
      punycodeEncode fuel x maxOut ≠ some (.error .badInput) ∧
      ∀ y, punycodeEncode fuel x maxOut = some (.ok y) →
        y.length ≤ maxOut ∧ (∀ c ∈ y, c < 0x80) ∧ (0 ∈ y ↔ 0 ∈ x.input) := by
  rcases punycodeEncode_cases x fuel maxOut with
    ⟨y, skips, u, bias, hrun, htrans, -, hroom, -⟩ | ⟨hrun, -⟩ | ⟨hrun, -⟩ | ⟨hrun, hfuel⟩
  · rw [hrun]
    refine ⟨fun _ => Option.some_ne_none _, nofun, ?_⟩
    rintro _ ⟨rfl⟩
    have hpart : ∀ c, c ∈ basicPart x.basics ↔
        c ∈ x.basics ∨ x.basics ≠ [] ∧ c = delimiter := fun c => by
      unfold basicPart
      split_ifs with hnil
      · simp [hnil]
      · simp [hnil]
    refine ⟨hroom, fun c hc => ?_, ?_⟩
    · rcases List.mem_append.mp hc with hc | hc
      · rcases (hpart c).mp hc with hc | ⟨-, rfl⟩
        · exact lt_of_basic_charUint (basic_of_mem_basics c hc)
        · decide
      · exact (of_digitOf_lt (htrans.digitOf_lt c hc)).2
    · have hzero : (0 : UInt8) ∉ y := fun hmem => by
        have := htrans.digitOf_lt 0 hmem
        revert this
        decide
      rw [List.mem_append, hpart, ← zero_mem_basics_iff x]
      refine ⟨fun h => ?_, fun h => Or.inl (Or.inl h)⟩
      rcases h with (h | ⟨-, h⟩) | h
      · exact h
      · cases h
      · exact absurd h hzero
  · rw [hrun]
    exact ⟨fun _ => Option.some_ne_none _, nofun, nofun⟩
  · rw [hrun]
    exact ⟨fun _ => Option.some_ne_none _, nofun, nofun⟩
  · rw [hrun]
    exact ⟨fun h => absurd h (Nat.not_le.mpr hfuel), nofun, nofun⟩

/-! ### The decoder -/

section Decoder

variable {room : ℕ} {input rest : Text} {s s' : DecodeState}

/-- A round adds one code point, if there is room. -/
theorem decodeRound_room (room' : ℕ) (hlen : s.output.length + 1 < 2 ^ 32)
    (h : decodeRound room input s = .ok (rest, s')) :
    s'.output.length = s.output.length + 1 ∧ decodeRound room' input s =
      if s.output.length < room' then .ok (rest, s') else .error .bigOutput := by
  have hout : (UInt32.ofNat s.output.length + 1).toNat = s.output.length + 1 := by
    rw [← UInt32.ofNat_one, ← UInt32.ofNat_add, UInt32.toNat_ofNat', Nat.mod_eq_of_lt hlen]
  unfold decodeRound at h ⊢
  split at h
  · cases h
  · dsimp only at h ⊢
    split at h
    · cases h
    · rename_i hnext
      split at h
      · cases h
      · obtain ⟨rfl, rfl⟩ := Prod.mk.inj (Except.ok.inj h)
        rw [if_neg hnext]
        refine ⟨List.length_insertIdx_of_le_length ?_ _, ?_⟩
        · rw [UInt32.toNat_mod, hout]
          exact Nat.le_of_lt_succ (Nat.mod_lt _ (Nat.succ_pos _))
        · by_cases hroom : s.output.length < room'
          · rw [if_pos hroom, if_neg (Nat.not_le.mpr hroom)]
          · rw [if_neg hroom, if_pos (Nat.not_lt.mp hroom)]

theorem decodeInt_ne_bigOutput {bias : PunycodeUint} (i w k : PunycodeUint) :
    decodeInt bias input i w k ≠ .error .bigOutput := by
  induction input generalizing i w k with
  | nil =>
    intro h
    cases h
  | cons c input ih =>
    intro h
    rw [decodeInt] at h
    dsimp only at h
    split_ifs at h
    · cases h
    · cases h
    · cases h
    · exact ih _ _ _ h

theorem le_of_decodeRound_bigOutput (h : decodeRound room input s = .error .bigOutput) :
    room ≤ s.output.length := by
  unfold decodeRound at h
  split at h
  · rename_i e hint
    cases h
    exact absurd hint (decodeInt_ne_bigOutput _ _ _)
  · dsimp only at h
    split at h
    · cases h
    · split at h
      · assumption
      · cases h

theorem length_of_decodeRounds (hlen : s.output.length + input.length < 2 ^ 32)
    (h : decodeRounds room input s = .ok s') :
    s.output.length ≤ s'.output.length ∧
      s'.output.length ≤ s.output.length + input.length := by
  induction hn : input.length using Nat.strong_induction_on generalizing s input with
  | _ n ih =>
    subst hn
    by_cases hnil : input = []
    · subst hnil
      rw [decodeRounds_nil] at h
      cases h
      exact ⟨le_rfl, Nat.le_add_right _ _⟩
    · cases hround : decodeRound room input s with
      | error e =>
        rw [decodeRounds_of_error hnil hround] at h
        cases h
      | ok r =>
        obtain ⟨rest, s₁⟩ := r
        rw [decodeRounds_of_round hround] at h
        have hlength := length_of_decodeRound hround
        obtain ⟨hout, -⟩ := decodeRound_room room (by omega) hround
        have := ih _ hlength (by omega) h rfl
        omega

theorem decodeRounds_room (room' : ℕ) (hlen : s.output.length + input.length < 2 ^ 32)
    (hroom : s.output.length ≤ room') (h : decodeRounds room input s = .ok s') :
    decodeRounds room' input s =
      if s'.output.length ≤ room' then .ok s' else .error .bigOutput := by
  induction hn : input.length using Nat.strong_induction_on generalizing s input with
  | _ n ih =>
    subst hn
    by_cases hnil : input = []
    · subst hnil
      rw [decodeRounds_nil] at h ⊢
      cases h
      exact (if_pos hroom).symm
    · cases hround : decodeRound room input s with
      | error e =>
        rw [decodeRounds_of_error hnil hround] at h
        cases h
      | ok r =>
        obtain ⟨rest, s₁⟩ := r
        rw [decodeRounds_of_round hround] at h
        have hlength := length_of_decodeRound hround
        obtain ⟨hout, hround'⟩ := decodeRound_room room' (by omega) hround
        by_cases hlt : s.output.length < room'
        · rw [if_pos hlt] at hround'
          rw [decodeRounds_of_round hround']
          exact ih _ hlength (by omega) (by omega) h rfl
        · -- the room is used up, and there is at least one code point more
          rw [if_neg hlt] at hround'
          obtain ⟨hle, -⟩ := length_of_decodeRounds (by omega) h
          rw [decodeRounds_of_error hnil hround', if_neg (by omega)]

theorem decodeRounds_ne_bigOutput (hlen : s.output.length + input.length < 2 ^ 32)
    (hroom : s.output.length + input.length ≤ room) :
    decodeRounds room input s ≠ .error .bigOutput := by
  induction hn : input.length using Nat.strong_induction_on generalizing s input with
  | _ n ih =>
    subst hn
    by_cases hnil : input = []
    · subst hnil
      rw [decodeRounds_nil]
      exact nofun
    · cases hround : decodeRound room input s with
      | error e =>
        rw [decodeRounds_of_error hnil hround]
        rintro ⟨rfl⟩
        have hle := le_of_decodeRound_bigOutput hround
        have hpos := List.length_pos_iff.mpr hnil
        omega
      | ok r =>
        obtain ⟨rest, s₁⟩ := r
        rw [decodeRounds_of_round hround]
        have hlength := length_of_decodeRound hround
        obtain ⟨hout, -⟩ := decodeRound_room room (by omega) hround
        exact ih _ hlength (by omega) (by omega) rfl

end Decoder

theorem length_of_takeBasic {t : Text} {s s' : DecodeState} (h : takeBasic t s = .ok s') :
    s'.output.length = s.output.length + t.length := by
  rw [takeBasic_eq s (basic_of_takeBasic h)] at h
  cases h
  rw [List.length_append, List.length_map]

theorem takeBasic_ne_bigOutput {t : Text} (s : DecodeState) :
    takeBasic t s ≠ .error .bigOutput := by
  induction t generalizing s with
  | nil =>
    intro h
    cases h
  | cons c t ih =>
    intro h
    rw [takeBasic] at h
    split_ifs at h
    · exact ih _ h
    · cases h

theorem lastDelim_lt (input : Text) : lastDelim input 0 0 = 0 ∨
    lastDelim input 0 0 < input.length := by
  rcases exists_lastDelim input with h | ⟨t, y, rfl, h⟩
  · exact Or.inl (lastDelim_of_not_mem h 0 0)
  · rw [lastDelim_append h, List.length_append, List.length_cons]
    omega

/-- With as much room as the input has characters the decoder does not run out of it. -/
theorem punycodeDecode_ne_bigOutput {input : Text} {room : ℕ} (hinput : input.length < 2 ^ 32)
    (hroom : input.length ≤ room) (useFlags : Bool) :
    punycodeDecode input room useFlags ≠ .error .bigOutput := by
  have hb := lastDelim_lt input
  unfold punycodeDecode
  generalize lastDelim input 0 0 = b at hb ⊢
  dsimp only
  rw [if_neg (by omega : ¬ b > room)]
  split
  · rename_i e he
    rintro ⟨rfl⟩
    exact takeBasic_ne_bigOutput _ he
  · rename_i s hs
    have hlength := length_of_takeBasic hs
    rw [List.length_take, List.length_nil] at hlength
    have hdrop : (input.drop (if b > 0 then b + 1 else 0)).length ≤ input.length - b := by
      rw [List.length_drop]
      split_ifs <;> omega
    have hne := decodeRounds_ne_bigOutput (by omega :
      s.output.length + (input.drop (if b > 0 then b + 1 else 0)).length < 2 ^ 32)
      (by omega : _ ≤ room)
    generalize decodeRounds room _ s = r at hne ⊢
    cases r with
    | error e =>
      rintro ⟨rfl⟩
      exact hne rfl
    | ok d => exact nofun

/-- **The room for the decoder.** It never needs more room than its input has characters, and
whether there is enough depends on the length of the result alone. -/
theorem punycodeDecode_room {input : Text} (hinput : input.length < 2 ^ 32) (useFlags : Bool) :
    (∀ room, input.length ≤ room → punycodeDecode input room useFlags ≠ .error .bigOutput) ∧
      ∀ room r, punycodeDecode input room useFlags = .ok r →
        r.1.length ≤ input.length ∧ (∀ flags ∈ r.2, flags.length = r.1.length) ∧
          ∀ room', punycodeDecode input room' useFlags =
            if r.1.length ≤ room' then .ok r else .error .bigOutput := by
  refine ⟨fun room hroom => punycodeDecode_ne_bigOutput hinput hroom useFlags, fun room r h => ?_⟩
  obtain ⟨t, y, rfl, ht, hroom, hrun⟩ := exists_parts h
  have hpart := length_le_basicPart t
  have hstart : (decodeState useFlags (start (t.map asPoint)) initialBias).output.length =
      t.length := by
    rw [decodeState, start, List.length_map, List.length_map]
  rw [List.length_append] at hinput
  have hlen : (decodeState useFlags (start (t.map asPoint)) initialBias).output.length +
      y.length < 2 ^ 32 := by omega
  cases hrounds : decodeRounds room y
      (decodeState useFlags (start (t.map asPoint)) initialBias) with
  | error e =>
    rw [hrounds] at hrun
    cases hrun
  | ok d =>
    rw [hrounds] at hrun
    obtain rfl : (d.output, d.caseFlags) = r := Except.ok.inj hrun
    obtain ⟨skips, u, bias, htrans, -, rfl⟩ :=
      transmits_of_decodeRounds (key_lt_of_basic ht) .nil
        (by rw [start, List.length_map]; omega) hrounds
    obtain ⟨hge, hle⟩ := length_of_decodeRounds hlen hrounds
    rw [hstart] at hge hle
    have hdelim : delimiter ∉ y := fun hmem => (of_digitOf_lt (htrans.digitOf_lt _ hmem)).1 rfl
    refine ⟨?_, ?_, fun room' => ?_⟩
    · rw [List.length_append]
      exact hle.trans (Nat.add_le_add_right hpart _)
    · intro flags hflags
      cases useFlags with
      | false => cases hflags
      | true =>
        cases hflags
        rw [decodeState, List.length_map, List.length_map]
    · by_cases hroom' : t.length ≤ room'
      · rw [punycodeDecode_eq useFlags ht hdelim hroom',
          decodeRounds_room room' hlen (hstart ▸ hroom') hrounds]
        split_ifs <;> rfl
      · rw [if_neg fun hle => hroom' (hge.trans hle)]
        unfold punycodeDecode
        rw [lastDelim_basicPart hdelim]
        exact if_pos (Nat.not_le.mp hroom')

theorem punycodeDecode_room_bucher :
    let input := bytes ['b', 'c', 'h', 'e', 'r', '-', 'k', 'v', 'a']
    input.length < 2 ^ 32 ∧
      (∀ room, input.length ≤ room → punycodeDecode input room false ≠ .error .bigOutput) ∧
      ∀ room r, punycodeDecode input room false = .ok r →
        r.1.length ≤ input.length ∧ (∀ flags ∈ r.2, flags.length = r.1.length) ∧
          ∀ room', punycodeDecode input room' false =
            if r.1.length ≤ room' then .ok r else .error .bigOutput :=
  ⟨by decide, punycodeDecode_room (by decide) false⟩

end Intent.Old.Punycode
