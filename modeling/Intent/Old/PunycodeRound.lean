import Intent.Old.PunycodeEncode

/-!
# Punycode, there and back

What the encoder returns is decoded to the code points that were encoded, with the letters among
the basic ones in the case of their flags, or not at all: the variable `i` of the decoder starts
where the last insertion was, and can overflow where `delta` of the encoder does not
(`punycodeDecode_punycodeEncode`). Neither overflows as long as the product of the length of a text
and its code points fits into 32 bits (`punycodeDecode_punycodeEncode_of_fits`).

A text that is decoded is the encoding of the result, up to the case of its digits
(`punycodeEncode_punycodeDecode`). So there is one encoding of every text.
-/

namespace Intent.Old.Punycode

/-! ### The parts of an encoding -/

theorem lastDelim_of_not_mem {t : Text} (h : delimiter ∉ t) (j b : ℕ) : lastDelim t j b = b := by
  induction t generalizing j b with
  | nil => rfl
  | cons c t ih =>
    rw [List.mem_cons, not_or] at h
    rw [lastDelim, if_neg (Ne.symm h.1), ih h.2]

theorem lastDelim_append {t y : Text} (h : delimiter ∉ y) (j b : ℕ) :
    lastDelim (t ++ delimiter :: y) j b = j + t.length := by
  induction t generalizing j b with
  | nil =>
    rw [List.nil_append, lastDelim, if_pos rfl, lastDelim_of_not_mem h]
    rfl
  | cons c t ih =>
    rw [List.cons_append, lastDelim, ih, List.length_cons]
    omega

theorem exists_lastDelim (t : Text) : delimiter ∉ t ∨
    ∃ t₁ t₂, t = t₁ ++ delimiter :: t₂ ∧ delimiter ∉ t₂ := by
  induction t with
  | nil => exact Or.inl List.not_mem_nil
  | cons c t ih =>
    rcases ih with h | ⟨t₁, t₂, rfl, h⟩
    · by_cases hc : c = delimiter
      · exact Or.inr ⟨[], t, by rw [hc]; rfl, h⟩
      · exact Or.inl fun hmem => (List.mem_cons.mp hmem).elim (fun he => hc he.symm) h
    · exact Or.inr ⟨c :: t₁, t₂, rfl, h⟩

/-- The list that a basic part is decoded to. -/
theorem takeBasic_eq {t : Text} (s : DecodeState) (h : ∀ c ∈ t, basic (charUint c)) :
    takeBasic t s = .ok
      { s with
        output := s.output ++ t.map charUint
        caseFlags := s.caseFlags.map (· ++ t.map fun c => flagged (charUint c)) } := by
  induction t generalizing s with
  | nil =>
    obtain ⟨n, i, bias, output, caseFlags⟩ := s
    cases caseFlags <;> simp [takeBasic]
  | cons c t ih =>
    obtain ⟨hc, ht⟩ := List.forall_mem_cons.mp h
    obtain ⟨n, i, bias, output, caseFlags⟩ := s
    rw [takeBasic]
    dsimp only
    rw [if_neg (not_not_intro hc), ih _ ht]
    cases caseFlags <;> simp

theorem basic_of_takeBasic {t : Text} {s s' : DecodeState} (h : takeBasic t s = .ok s') :
    ∀ c ∈ t, basic (charUint c) := by
  induction t generalizing s with
  | nil => exact fun c hc => absurd hc List.not_mem_nil
  | cons c t ih =>
    rw [takeBasic] at h
    split_ifs at h with hc
    exact List.forall_mem_cons.mpr ⟨hc, ih h⟩

theorem takeBasic_start {t : Text} (useFlags : Bool) (h : ∀ c ∈ t, basic (charUint c)) :
    takeBasic t ⟨initialN, 0, initialBias, [], if useFlags then some [] else none⟩ =
      .ok (decodeState useFlags (start (t.map asPoint)) initialBias) := by
  rw [takeBasic_eq _ h, decodeState, start]
  dsimp only
  rw [List.map_map, List.map_map, List.nil_append]
  cases useFlags <;> rfl

theorem lastDelim_basicPart {t y : Text} (hy : delimiter ∉ y) :
    lastDelim (basicPart t ++ y) 0 0 = t.length := by
  unfold basicPart
  split_ifs with hnil
  · rw [hnil, List.nil_append, lastDelim_of_not_mem hy, List.length_nil]
  · rw [List.append_assoc, List.singleton_append, lastDelim_append hy, Nat.zero_add]

/-- The decoder, on a text with its parts known. -/
theorem punycodeDecode_eq {t y : Text} {maxOut : ℕ} (useFlags : Bool)
    (ht : ∀ c ∈ t, basic (charUint c)) (hy : delimiter ∉ y) (hroom : t.length ≤ maxOut) :
    punycodeDecode (basicPart t ++ y) maxOut useFlags =
      (decodeRounds maxOut y (decodeState useFlags (start (t.map asPoint)) initialBias)).map
        fun s => (s.output, s.caseFlags) := by
  unfold punycodeDecode basicPart
  by_cases hnil : t = []
  · subst hnil
    rw [if_pos rfl, List.nil_append, lastDelim_of_not_mem hy]
    dsimp only
    rw [if_neg (Nat.not_lt_zero _), List.take_zero, takeBasic_start useFlags ht]
    rfl
  · have hpos : t.length > 0 := List.length_pos_iff.mpr hnil
    rw [if_neg hnil, List.append_assoc, List.singleton_append, lastDelim_append hy, Nat.zero_add]
    dsimp only
    rw [if_neg (Nat.not_lt.mpr hroom), List.take_left, takeBasic_start useFlags ht]
    dsimp only
    rw [if_pos hpos, ← List.drop_drop, List.drop_left, List.drop_one, List.tail_cons]

/-- The parts of a text that is decoded. -/
theorem exists_parts {input : Text} {maxOut : ℕ} {useFlags : Bool}
    {r : List PunycodeUint × Option (List Bool)}
    (h : punycodeDecode input maxOut useFlags = .ok r) :
    ∃ t y, input = basicPart t ++ y ∧ (∀ c ∈ t, basic (charUint c)) ∧ t.length ≤ maxOut ∧
      (decodeRounds maxOut y (decodeState useFlags (start (t.map asPoint)) initialBias)).map
        (fun s => (s.output, s.caseFlags)) = .ok r := by
  -- a delimiter in front does not end a basic part
  have hempty : lastDelim input 0 0 = 0 → ∃ t y, input = basicPart t ++ y ∧
      (∀ c ∈ t, basic (charUint c)) ∧ t.length ≤ maxOut ∧
      (decodeRounds maxOut y (decodeState useFlags (start (t.map asPoint)) initialBias)).map
        (fun s => (s.output, s.caseFlags)) = .ok r := fun hzero => by
    have hno : ∀ c ∈ ([] : Text), basic (charUint c) := fun c hc => absurd hc List.not_mem_nil
    refine ⟨[], input, rfl, hno, Nat.zero_le _, ?_⟩
    unfold punycodeDecode at h
    rw [hzero] at h
    dsimp only at h
    rw [if_neg (Nat.not_lt_zero _), List.take_zero, takeBasic_start useFlags hno] at h
    exact h
  rcases exists_lastDelim input with hno | ⟨t, y, rfl, hy⟩
  · exact hempty (lastDelim_of_not_mem hno 0 0)
  · have hb := @lastDelim_append t y hy 0 0
    rw [Nat.zero_add] at hb
    by_cases hnil : t = []
    · subst hnil
      exact hempty hb
    · have hpos : t.length > 0 := List.length_pos_iff.mpr hnil
      have hinput : t ++ delimiter :: y = basicPart t ++ y := by
        rw [basicPart, if_neg hnil, List.append_assoc, List.singleton_append]
      have hroom : t.length ≤ maxOut := by
        by_contra hgt
        unfold punycodeDecode at h
        rw [hb] at h
        dsimp only at h
        rw [if_pos (Nat.not_le.mp hgt)] at h
        cases h
      have ht : ∀ c ∈ t, basic (charUint c) := by
        unfold punycodeDecode at h
        rw [hb] at h
        dsimp only at h
        rw [if_neg (Nat.not_lt.mpr hroom), List.take_left] at h
        split at h
        · cases h
        · rename_i s hs
          exact basic_of_takeBasic hs
      refine ⟨t, y, hinput, ht, hroom, ?_⟩
      rw [hinput, punycodeDecode_eq useFlags ht hy hroom] at h
      exact h

/-! ### There and back -/

theorem basic_of_mem_basics {x : EncodeInput} : ∀ c ∈ x.basics, basic (charUint c) := by
  intro c hc
  obtain ⟨p, hp, rfl⟩ := List.mem_map.mp hc
  exact basic_charUint_basicChar _ (List.mem_filter.mp hp).2

theorem key_lt_of_basic {t : Text} (h : ∀ c ∈ t, basic (charUint c)) :
    ∀ p ∈ t.map asPoint, key p < 0x80 := by
  intro p hp
  obtain ⟨c, hc, rfl⟩ := List.mem_map.mp hp
  exact basic_iff.mp (h c hc)

theorem length_restored (x : EncodeInput) : x.restored.length = x.input.length := by
  rw [EncodeInput.restored, List.length_map, x.length_points]

theorem basic_of_letter {c : PunycodeUint} (h : c - 65 < 26 ∨ c - 97 < 26) : basic c := by
  rw [basic_iff]
  have hlt := c.toNat_lt
  simp only [UInt32.lt_iff_toNat_lt, UInt32.toNat_sub, UInt32.reduceToNat] at h
  omega

/-- A code point as it should come back with flags: a letter in the case of its flag, any other
basic code point without a flag, and the others as they are. -/
def inCaseOfFlag (p : Point) : Point :=
  if p.1 - 65 < 26 then (if p.2 then p.1 else p.1 + 32, p.2)
  else if p.1 - 97 < 26 then (if p.2 then p.1 - 32 else p.1, p.2)
  else if basic p.1 then (p.1, false)
  else p

theorem restore_true (p : Point) : restore true p = inCaseOfFlag p := by
  obtain ⟨c, flag⟩ := p
  by_cases hbasic : basic c
  · have hall : ∀ e : Fin 128, ∀ f : Bool, restore true (UInt32.ofNat e, f) =
        inCaseOfFlag (UInt32.ofNat e, f) := by decide +kernel
    have := hall ⟨c.toNat, basic_iff.mp hbasic⟩ flag
    rwa [UInt32.ofNat_toNat] at this
  · have hupper : ¬ c - 65 < 26 := fun h => hbasic (basic_of_letter (.inl h))
    have hlower : ¬ c - 97 < 26 := fun h => hbasic (basic_of_letter (.inr h))
    rw [restore, if_neg hbasic, inCaseOfFlag, if_neg hupper, if_neg hlower, if_neg hbasic]

theorem restore_false (c : PunycodeUint) : restore false (c, false) = (c, flagged c) := by
  unfold restore
  split_ifs with hbasic
  · exact congrArg (fun c => (c, flagged c)) (charUint_toUInt8 hbasic)
  · have hupper : ¬ c - 65 < 26 := fun h => hbasic (basic_of_letter (.inl h))
    rw [flagged, decide_eq_false hupper]

/-- **Letters** come back in the case of their flags, and no other code point is changed. -/
theorem restored_of_flags {x : EncodeInput} (h : x.caseFlags ≠ none) :
    x.restored = x.points.map inCaseOfFlag := by
  rw [EncodeInput.restored, Option.isSome_iff_ne_none.mpr h]
  exact List.map_congr_left fun p _ => restore_true p

/-- Without flags the code points come back as they were, with the flags of their cases. -/
theorem restored_of_no_flags {x : EncodeInput} (h : x.caseFlags = none) :
    x.restored = x.input.map fun c => (c, flagged c) := by
  have hpoints : x.points = x.input.map fun c => (c, false) := by
    unfold EncodeInput.points
    rw [h]
  rw [EncodeInput.restored, hpoints, List.map_map, h]
  exact List.map_congr_left fun c _ => restore_false c

theorem map_fst_restored {x : EncodeInput} (h : x.caseFlags = none) :
    x.restored.map Prod.fst = x.input := by
  rw [restored_of_no_flags h, List.map_map]
  exact List.map_id'' (fun _ => rfl) _

/-- What the decoder does with the text that stands for the insertions of a list. -/
theorem decode_of_transmits {strict : Prop} {t y : Text} {skips : List ℕ} {u : Slots Point}
    {bias : PunycodeUint} {room : ℕ} (useFlags : Bool) (ht : ∀ c ∈ t, basic (charUint c))
    (h : Transmits strict (start (t.map asPoint)) y skips u bias)
    (hlen : u.entries.length < 2 ^ 32) (hroom : u.entries.length ≤ room) :
    punycodeDecode (basicPart t ++ y) room useFlags =
        .ok (u.entries.map Prod.fst, if useFlags then some (u.entries.map Prod.snd) else none) ∨
      ¬ strict ∧ punycodeDecode (basicPart t ++ y) room useFlags = .error .overflow := by
  have hdelim : delimiter ∉ y := fun hmem => (of_digitOf_lt (h.digitOf_lt _ hmem)).1 rfl
  have hle : t.length ≤ u.entries.length := by
    have := h.inserted.length
    rw [start, List.length_map] at this
    omega
  have hrun := decodeRounds_of_transmits useFlags (key_lt_of_basic ht) h hlen hroom []
  rw [List.append_nil, decodeRounds_nil] at hrun
  rw [punycodeDecode_eq useFlags ht hdelim (hle.trans hroom)]
  rcases hrun with hrun | ⟨hno, hrun⟩
  · rw [hrun]
    exact Or.inl rfl
  · rw [hrun]
    exact Or.inr ⟨hno, rfl⟩

/-- **Round trip.** What the encoder returns is decoded to the code points that were encoded, or
the decoder reports an overflow. -/
theorem punycodeDecode_punycodeEncode (x : EncodeInput) {fuel maxOut room : ℕ} {y : Text}
    (h : punycodeEncode fuel x maxOut = some (.ok y)) (hroom : x.input.length ≤ room)
    (useFlags : Bool) :
    punycodeDecode y room useFlags =
        .ok (x.restored.map Prod.fst,
          if useFlags then some (x.restored.map Prod.snd) else none) ∨
      punycodeDecode y room useFlags = .error .overflow := by
  rcases punycodeEncode_cases x fuel maxOut with
    ⟨y', skips, u, bias, hok, htrans, hu, -, -⟩ | ⟨he, -⟩ | ⟨he, -⟩ | ⟨he, -⟩
  · rw [h] at hok
    obtain rfl : y = _ := Except.ok.inj (Option.some.inj hok)
    have hlength : u.entries.length = x.input.length := by rw [hu, length_restored]
    have hroom' : u.entries.length ≤ room := hlength ▸ hroom
    have hdec := decode_of_transmits useFlags basic_of_mem_basics htrans
      (hlength ▸ x.length_lt) hroom'
    rw [hu] at hdec
    exact hdec.imp_right And.right
  · rw [h] at he
    cases Option.some.inj he
  · rw [h] at he
    cases Option.some.inj he
  · rw [h] at he
    cases he

/-- A text with one code point that is not basic. -/
def bucher : EncodeInput where
  input := [98, 0xFC, 99, 104, 101, 114]
  caseFlags := none
  length_lt := by decide
  length_caseFlags := nofun

theorem punycodeDecode_punycodeEncode_bucher :
    let y := bytes ['b', 'c', 'h', 'e', 'r', '-', 'k', 'v', 'a']
    punycodeEncode 6 bucher 9 = some (.ok y) ∧
      (punycodeDecode y 6 true =
          .ok (bucher.restored.map Prod.fst, some (bucher.restored.map Prod.snd)) ∨
        punycodeDecode y 6 true = .error .overflow) := by
  have hrun : punycodeEncode 6 bucher 9 =
      some (.ok (bytes ['b', 'c', 'h', 'e', 'r', '-', 'k', 'v', 'a'])) := by decide +kernel
  exact ⟨hrun, punycodeDecode_punycodeEncode bucher hrun (by decide) true⟩

/-- The second case is there: the encoder's `delta` can be all of 32 bits, and the decoder's `i`
starts behind the last insertion. -/
example :
    punycodeDecode (bytes ['a', '9', '0', '4', '8', '7', '0', '6', '0', '4', 'b']) 2 false =
      .error .overflow ∧
    punycodeEncode 2 ⟨[0x80000080, 0x80], none, by decide, nofun⟩ 11 =
      some (.ok (bytes ['a', '9', '0', '4', '8', '7', '0', '6', '0', '4', 'b'])) := by
  decide +kernel

/-! ### When everything fits -/

/-- The product of the length and the distance of each code point from the basic ones fits into
32 bits. -/
def Fits (all : List Point) : Prop := ∀ p ∈ all, (key p + 1 - 0x80) * all.length ≤ 2 ^ 32

/-- Then the pairs up to each insertion fit. -/
theorem skips_fit {l all : List Point} {u : Slots Point} {skips : List ℕ} {p : Point}
    {i skip : ℕ} (hfits : Fits all) (hrun : Inserted key (start l) skips u)
    (hl : ∀ p ∈ l, key p < 0x80) (hi : i ≤ u.entries.length)
    (hskip : u.Skips (key p) i skip) (hp : p ∈ all) (hlen : u.entries.length < all.length) :
    u.i + skip < 2 ^ 32 := by
  have hn : 0x80 ≤ u.n := (filter_of_inserted hrun hl).1
  calc u.i + skip < (key p + 1 - u.n) * (u.entries.length + 1) := hskip.lt hi
    _ ≤ (key p + 1 - 0x80) * all.length := Nat.mul_le_mul (by omega) hlen
    _ ≤ 2 ^ 32 := hfits p hp

theorem skip_lt_of_fits {l all : List Point} {u : Slots Point} {skips : List ℕ}
    (hfits : Fits all) (hl : ∀ p ∈ l, key p < 0x80) (hrun : Inserted key (start l) skips u)
    (hsub : ∀ p ∈ u.entries, p ∈ all) (hlen : u.entries.length ≤ all.length) :
    ∀ skip ∈ skips, skip < 2 ^ 32 := by
  induction hrun with
  | nil => exact fun c hc => absurd hc List.not_mem_nil
  | @snoc u skips p i skip hrun hi hskip ih =>
    have hcount : (u.insert key i p).entries.length = u.entries.length + 1 :=
      List.length_insertIdx_of_le_length hi p
    have hmem : ∀ q ∈ u.entries, q ∈ all := fun q hq =>
      hsub q ((List.mem_insertIdx hi).mpr (Or.inr hq))
    have hp : p ∈ all := hsub p ((List.mem_insertIdx hi).mpr (Or.inl rfl))
    intro k hk
    rcases List.mem_append.mp hk with hk | hk
    · exact ih hmem (by omega) k hk
    · have := skips_fit hfits hrun hl hi hskip hp (by omega)
      rw [List.mem_singleton.mp hk]
      omega

theorem Transmits.strict_of_fits {strict : Prop} {l all : List Point} {y : Text}
    {u : Slots Point} {skips : List ℕ} {bias : PunycodeUint} (hfits : Fits all)
    (hl : ∀ p ∈ l, key p < 0x80) (h : Transmits strict (start l) y skips u bias)
    (hsub : ∀ p ∈ u.entries, p ∈ all) (hlen : u.entries.length ≤ all.length) :
    Transmits True (start l) y skips u bias := by
  induction h with
  | nil => exact .nil
  | @snoc y cs c skips u bias i skip p hprev hi hskips hspell hflag hlt _ ih =>
    have hcount : (u.insert key i p).entries.length = u.entries.length + 1 :=
      List.length_insertIdx_of_le_length hi p
    have hmem : ∀ q ∈ u.entries, q ∈ all := fun q hq =>
      hsub q ((List.mem_insertIdx hi).mpr (Or.inr hq))
    have hp : p ∈ all := hsub p ((List.mem_insertIdx hi).mpr (Or.inl rfl))
    exact (ih hmem (by omega)).snoc hi hskips hspell hflag hlt fun _ =>
      skips_fit hfits hprev.inserted hl hi hskips hp (by omega)

theorem EncodeInput.fst_mem_of_mem_points {x : EncodeInput} {p : Point} (h : p ∈ x.points) :
    p.1 ∈ x.input := by
  unfold EncodeInput.points at h
  split at h
  · obtain ⟨c, hc, rfl⟩ := List.mem_map.mp h
    exact hc
  · exact (List.of_mem_zip h).1

/-- **Everything fits.** If the product of the length of a text and of the number of code points
from the first one that is not basic to each of its own is at most the number of values of a
`punycode_uint`, then it is encoded and decoded. -/
theorem punycodeDecode_punycodeEncode_of_fits (x : EncodeInput)
    (hfits : ∀ c ∈ x.input, (c.toNat - 0x7F) * x.input.length ≤ 2 ^ 32) {fuel maxOut room : ℕ}
    (hfuel : x.input.length ≤ fuel) (hmax : 12 * x.input.length + 1 ≤ maxOut)
    (hroom : x.input.length ≤ room) (useFlags : Bool) :
    ∃ y, punycodeEncode fuel x maxOut = some (.ok y) ∧
      punycodeDecode y room useFlags = .ok (x.restored.map Prod.fst,
        if useFlags then some (x.restored.map Prod.snd) else none) := by
  have hlength := length_restored x
  have hfits' : Fits x.restored := by
    intro p hp
    obtain ⟨q, hq, rfl⟩ := List.mem_map.mp hp
    rw [hlength]
    by_cases hbasic : key (restore x.caseFlags.isSome q) < 0x80
    · rw [Nat.sub_eq_zero_of_le hbasic, Nat.zero_mul]
      exact Nat.zero_le _
    · have hq' : restore x.caseFlags.isSome q = q := restore_of_le (by
        rw [key_restore_lt_iff le_rfl] at hbasic
        exact Nat.not_lt.mp hbasic)
      rw [hq']
      exact hfits q.1 (EncodeInput.fst_mem_of_mem_points hq)
  have hl := key_lt_of_basic (basic_of_mem_basics (x := x))
  rcases punycodeEncode_cases x fuel maxOut with
    ⟨y, skips, u, bias, hok, htrans, hu, -, -⟩ | ⟨-, hstuck⟩ | ⟨-, hbig⟩ | ⟨-, hhang⟩
  · refine ⟨_, hok, ?_⟩
    have hlen : u.entries.length = x.input.length := by rw [hu, hlength]
    have hroom' : u.entries.length ≤ room := hlen ▸ hroom
    have hstrict := htrans.strict_of_fits hfits' hl (fun p hp => hu ▸ hp) (by rw [hu])
    have hdec := decode_of_transmits useFlags basic_of_mem_basics hstrict
      (hlen ▸ x.length_lt) hroom'
    rw [hu] at hdec
    exact hdec.resolve_right fun h => h.1 trivial
  · obtain ⟨skips, u, hrun, hu, skip, hskip, hle⟩ := hstuck.exists_skip
    have := skip_lt_of_fits hfits' hl hrun (fun p hp => hu ▸ hp) (by rw [hu]) skip hskip
    omega
  · omega
  · omega

theorem punycodeDecode_punycodeEncode_of_fits_bucher :
    (∀ c ∈ bucher.input, (c.toNat - 0x7F) * bucher.input.length ≤ 2 ^ 32) ∧
      ∃ y, punycodeEncode 6 bucher 73 = some (.ok y) ∧
        punycodeDecode y 6 true =
          .ok (bucher.restored.map Prod.fst, some (bucher.restored.map Prod.snd)) := by
  have hfits : ∀ c ∈ bucher.input, (c.toNat - 0x7F) * bucher.input.length ≤ 2 ^ 32 :=
    List.forall_iff_forall_mem.mp (by
      change List.Forall _ [98, 0xFC, 99, 104, 101, 114]
      simp only [List.forall_cons]
      decide)
  exact ⟨hfits, punycodeDecode_punycodeEncode_of_fits bucher hfits le_rfl le_rfl le_rfl true⟩

/-! ### The other way round -/

/-- A text with the part after the last delimiter in lower case. -/
def lowerDigits (input : Text) : Text :=
  let b := lastDelim input 0 0
  let start := if b > 0 then b + 1 else 0
  input.take start ++ (input.drop start).map fun c => encodeBasic (charUint c) false

theorem lowerDigits_eq {t y : Text} (hy : delimiter ∉ y) :
    lowerDigits (basicPart t ++ y) =
      basicPart t ++ y.map fun c => encodeBasic (charUint c) false := by
  unfold lowerDigits basicPart
  by_cases hnil : t = []
  · subst hnil
    rw [if_pos rfl, List.nil_append, lastDelim_of_not_mem hy]
    rfl
  · have hpos : t.length > 0 := List.length_pos_iff.mpr hnil
    have hlast : lastDelim (t ++ [delimiter] ++ y) 0 0 = t.length := by
      rw [List.append_assoc, List.singleton_append, lastDelim_append hy, Nat.zero_add]
    have hlen : (t ++ [delimiter]).length = t.length + 1 := by
      rw [List.length_append, List.length_singleton]
    rw [if_neg hnil, hlast]
    dsimp only
    rw [if_pos hpos, List.take_left' hlen, List.drop_left' hlen]

theorem length_le_basicPart (t : Text) : t.length ≤ (basicPart t).length := by
  unfold basicPart
  split_ifs with hnil
  · rw [hnil]
  · rw [List.length_append]
    exact Nat.le_add_right _ _

theorem charUint_inj {c d : UInt8} (h : charUint c = charUint d) : c = d := by
  have hall : ∀ e : Fin 256, (charUint (UInt8.ofNat e)).toUInt8 = UInt8.ofNat e := by
    decide +kernel
  have hinv : ∀ c : UInt8, (charUint c).toUInt8 = c := fun c => by
    have := hall ⟨c.toNat, c.toNat_lt⟩
    rwa [UInt8.ofNat_toNat] at this
  rw [← hinv c, h, hinv d]

/-- The entries of a list without their flags. -/
theorem forget_flags {l : List Point} {skips : List ℕ} {u : Slots Point}
    (h : Inserted key (start l) skips u) :
    Inserted UInt32.toNat ⟨0x80, 0, l.map Prod.fst⟩ skips ⟨u.n, u.i, u.entries.map Prod.fst⟩ :=
  h.map Prod.fst fun _ => rfl

/-- **One encoding of a text.** A text that is decoded is what the encoder returns for the result,
up to the case of its digits. -/
theorem punycodeEncode_punycodeDecode {input : Text} {room : ℕ} {useFlags : Bool}
    {r : List PunycodeUint × Option (List Bool)}
    (h : punycodeDecode input room useFlags = .ok r) (hinput : input.length < 2 ^ 32)
    {x : EncodeInput} (hx : x.input = r.1) (hflags : x.caseFlags = none) {fuel maxOut : ℕ}
    (hfuel : x.input.length ≤ fuel) (hmax : input.length ≤ maxOut) :
    punycodeEncode fuel x maxOut = some (.ok (lowerDigits input)) := by
  obtain ⟨t, y, rfl, ht, hroom, hrun⟩ := exists_parts h
  have hl := key_lt_of_basic ht
  have hlen : (start (t.map asPoint)).entries.length + y.length < 2 ^ 32 := by
    have := length_le_basicPart t
    rw [List.length_append] at hinput
    rw [start, List.length_map]
    omega
  cases hrounds : decodeRounds room y
      (decodeState useFlags (start (t.map asPoint)) initialBias) with
  | error e =>
    rw [hrounds] at hrun
    cases hrun
  | ok d =>
    rw [hrounds] at hrun
    obtain ⟨skips, u, bias, htrans, -, rfl⟩ :=
      transmits_of_decodeRounds hl .nil hlen hrounds
    rw [List.nil_append] at htrans
    have hr : r.1 = u.entries.map Prod.fst := (congrArg Prod.fst (Except.ok.inj hrun)).symm
    have hrestored : x.restored.map Prod.fst = u.entries.map Prod.fst := by
      rw [map_fst_restored hflags, hx, hr]
    -- both lists of insertions start from the same basic code points
    have hbasics : t = x.basics := by
      have hfst : ∀ t : Text, (t.map asPoint).map Prod.fst = t.map charUint := fun t =>
        List.map_map
      have hfilter : ∀ l : List Point, (l.filter (key · < 0x80)).map Prod.fst =
          (l.map Prod.fst).filter (·.toNat < 0x80) := fun l => by
        rw [List.filter_map]
        rfl
      have hdec := (filter_of_inserted htrans.inserted hl).2
      have henc : x.basics.map asPoint = x.restored.filter (key · < 0x80) :=
        basics_map_asPoint x.caseFlags.isSome x.points
      have hmap : t.map charUint = x.basics.map charUint := by
        rw [← hfst, ← hfst, henc, hfilter, hrestored, ← hfilter]
        exact congrArg (List.map Prod.fst) hdec.symm
      exact List.map_injective_iff.mpr (fun c d => charUint_inj) hmap
    subst hbasics
    have hunique : ∀ {skips' : List ℕ} {u' : Slots Point},
        Inserted key (start (x.basics.map asPoint)) skips' u' → u'.entries = x.restored →
          skips' = skips := fun hrun' hu' => by
      refine ((forget_flags hrun').unique ?_ rfl (forget_flags htrans.inserted) ?_).1
      · intro c hc
        obtain ⟨p, hp, rfl⟩ := List.mem_map.mp hc
        exact hl p hp
      · change _ = u.entries.map Prod.fst
        rw [← hrestored, ← hu']
    -- with enough room the encoder returns a text that stands for the same insertions
    obtain ⟨y', hok, hdigits, hlower⟩ : ∃ y',
        punycodeEncode fuel x (12 * x.input.length + 1) =
          some (.ok (basicPart x.basics ++ y')) ∧ y'.map digitOf = y.map digitOf ∧ Lower y' := by
      rcases punycodeEncode_cases x fuel (12 * x.input.length + 1) with
        ⟨y', skips', u', bias', hok, htrans', hu', -, hlower⟩ | ⟨-, hstuck⟩ | ⟨-, hbig⟩ | ⟨-, hhang⟩
      · obtain rfl := hunique htrans'.inserted hu'
        exact ⟨y', hok, (htrans'.unique htrans).2.2, hlower hflags⟩
      · obtain ⟨skips', u', hrun', hu', skip, hskip, hle⟩ := hstuck.exists_skip
        obtain rfl := hunique hrun' hu'
        have := htrans.skip_lt skip hskip
        omega
      · exact absurd hbig (Nat.lt_irrefl _)
      · omega
    have hy' : y' = y.map fun c => encodeBasic (charUint c) false := by
      have hlt := htrans.digitOf_lt
      have hlt' : ∀ c ∈ y', digitOf c < 36 := fun c hc => by
        have hmem : digitOf c ∈ y.map digitOf := hdigits ▸ List.mem_map_of_mem hc
        obtain ⟨d, hd, he⟩ := List.mem_map.mp hmem
        exact he ▸ hlt d hd
      calc y' = y'.map fun c => encodeDigit (UInt32.ofNat (digitOf c)) false := by
            conv_lhs => rw [← List.map_id y']
            exact List.map_congr_left fun c hc =>
              (encodeDigit_digitOf (hlt' c hc)).trans (hlower c hc) |>.symm
        _ = (y'.map digitOf).map fun d => encodeDigit (UInt32.ofNat d) false := by
            rw [List.map_map]
            rfl
        _ = (y.map digitOf).map fun d => encodeDigit (UInt32.ofNat d) false := by rw [hdigits]
        _ = y.map fun c => encodeDigit (UInt32.ofNat (digitOf c)) false := List.map_map
        _ = y.map fun c => encodeBasic (charUint c) false :=
            List.map_congr_left fun c hc => encodeDigit_digitOf (hlt c hc)
    have hdelim : delimiter ∉ y := fun hmem => (of_digitOf_lt (htrans.digitOf_lt _ hmem)).1 rfl
    rw [lowerDigits_eq hdelim, ← hy']
    refine punycodeEncode_room hok ?_
    have hlen' := congrArg List.length hdigits
    rw [List.length_map, List.length_map] at hlen'
    rw [List.length_append, hlen', ← List.length_append]
    exact hmax

theorem punycodeEncode_punycodeDecode_bucher :
    let input := bytes ['b', 'c', 'h', 'e', 'r', '-', 'K', 'V', 'a']
    punycodeDecode input 6 false = .ok (bucher.input, none) ∧
      punycodeEncode 6 bucher 9 = some (.ok (lowerDigits input)) := by
  have hrun : punycodeDecode (bytes ['b', 'c', 'h', 'e', 'r', '-', 'K', 'V', 'a']) 6 false =
      .ok (bucher.input, none) := by decide +kernel
  exact ⟨hrun, punycodeEncode_punycodeDecode hrun (by decide) rfl rfl le_rfl (by decide)⟩

end Intent.Old.Punycode
