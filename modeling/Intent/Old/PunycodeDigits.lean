import Intent.Old.Punycode

/-!
# The numbers of punycode

The encoder writes a number with the digits that the thresholds of the bias ask for
(`encodeInt_eq`), and the decoder reads a number that is written so (`decodeInt_eq`), and no other
(`spelled_of_decodeInt`). No variable of the loops wraps around: the bias is at most 213
(`adapt_le`), so that the weight of a place is too big for 32 bits only where a digit other than
the last one would make the number too big.
-/

namespace Intent.Old.Punycode

variable {c : UInt8} {bias i i' w k q : PunycodeUint} {j d n : ℕ} {cs input : Text}

/-! ### Arithmetic that does not wrap around -/

theorem toNat_add_of_lt {a b : PunycodeUint} (h : a.toNat + b.toNat < 2 ^ 32) :
    (a + b).toNat = a.toNat + b.toNat := by
  rw [UInt32.toNat_add, Nat.mod_eq_of_lt h]

theorem toNat_mul_of_lt {a b : PunycodeUint} (h : a.toNat * b.toNat < 2 ^ 32) :
    (a * b).toNat = a.toNat * b.toNat := by
  rw [UInt32.toNat_mul, Nat.mod_eq_of_lt h]

theorem toNat_maxint : maxint.toNat = 2 ^ 32 - 1 := rfl

/-- The guard of a sum. -/
theorem gt_maxint_sub_div {a b w : PunycodeUint} (hw : 0 < w.toNat) :
    a > (maxint - b) / w ↔ ¬ b.toNat + a.toNat * w.toNat < 2 ^ 32 := by
  have hb : b.toNat ≤ maxint.toNat := Nat.le_of_lt_succ b.toNat_lt
  rw [gt_iff_lt, UInt32.lt_iff_toNat_lt, UInt32.toNat_div, UInt32.toNat_sub_of_le _ _ hb,
    Nat.div_lt_iff_lt_mul hw, toNat_maxint]
  rw [toNat_maxint] at hb
  omega

theorem gt_maxint_sub {a b : PunycodeUint} :
    a > maxint - b ↔ ¬ b.toNat + a.toNat < 2 ^ 32 := by
  have hb : b.toNat ≤ maxint.toNat := Nat.le_of_lt_succ b.toNat_lt
  rw [gt_iff_lt, UInt32.lt_iff_toNat_lt, UInt32.toNat_sub_of_le _ _ hb, toNat_maxint]
  rw [toNat_maxint] at hb
  omega

/-- The guard of a product. -/
theorem gt_maxint_div {a w : PunycodeUint} (ha : 0 < a.toNat) :
    w > maxint / a ↔ ¬ w.toNat * a.toNat < 2 ^ 32 := by
  rw [gt_iff_lt, UInt32.lt_iff_toNat_lt, UInt32.toNat_div, Nat.div_lt_iff_lt_mul ha, toNat_maxint]
  omega

/-! ### The bias -/

theorem adaptLoop_le {r : ℕ} {k delta : PunycodeUint} (hk : k.toNat + 36 * r + 33 < 2 ^ 32)
    (hdelta : delta.toNat ≤ 455 * 35 ^ r) : (adaptLoop k delta).toNat ≤ k.toNat + 36 * r + 33 := by
  induction r generalizing k delta with
  | zero =>
    have hle : delta.toNat ≤ 455 := hdelta
    have hgt : ¬ delta > ((base - tmin) * tmax) / 2 := Nat.not_lt.mpr hle
    rw [adaptLoop, if_neg hgt]
    have hmul : ((base - tmin + 1) * delta).toNat = 36 * delta.toNat :=
      toNat_mul_of_lt (a := base - tmin + 1) (by
        change 36 * delta.toNat < 2 ^ 32
        omega)
    have hadd : (delta + skew).toNat = delta.toNat + 38 :=
      toNat_add_of_lt (b := skew) (by
        change delta.toNat + 38 < 2 ^ 32
        omega)
    have hdiv : ((base - tmin + 1) * delta / (delta + skew)).toNat ≤ 33 := by
      rw [UInt32.toNat_div, hmul, hadd]
      refine Nat.le_of_lt_succ ?_
      rw [Nat.div_lt_iff_lt_mul (Nat.succ_pos _)]
      omega
    rw [toNat_add_of_lt (by omega)]
    omega
  | succ r ih =>
    rw [adaptLoop]
    split_ifs with hgt
    · have hkbase : (k + base).toNat = k.toNat + 36 := toNat_add_of_lt (b := base) (by
        change k.toNat + 36 < 2 ^ 32
        omega)
      have hdiv : (delta / (base - tmin)).toNat ≤ 455 * 35 ^ r := by
        rw [UInt32.toNat_div]
        change delta.toNat / 35 ≤ _
        rw [Nat.div_le_iff_le_mul_add_pred (by decide)]
        rw [Nat.pow_succ] at hdelta
        omega
      have := ih (by omega : (k + base).toNat + 36 * r + 33 < 2 ^ 32) hdiv
      omega
    · have hsmall : delta.toNat ≤ 455 := Nat.not_lt.mp hgt
      have hle := ih (by omega : k.toNat + 36 * r + 33 < 2 ^ 32)
        (hsmall.trans (Nat.le_mul_of_pos_right _ (Nat.pow_pos (by decide))))
      rw [adaptLoop, if_neg hgt] at hle
      omega

/-- **The bias.** -/
theorem adapt_le (delta numpoints : PunycodeUint) (firsttime : Bool) :
    (adapt delta numpoints firsttime).toNat ≤ 213 := by
  refine adaptLoop_le (r := 5) (by decide) ?_
  have := UInt32.toNat_lt (((if firsttime then delta / damp else delta >>> 1) +
    (if firsttime then delta / damp else delta >>> 1) / numpoints))
  omega

/-! ### The thresholds -/

/-- The thresholds of a bias, as numbers. -/
def thresholds (bias : ℕ) : Thresholds 36 where
  threshold j :=
    if 36 * (j + 1) ≤ bias then 1 else if bias + 26 ≤ 36 * (j + 1) then 26 else 36 * (j + 1) - bias
  pos j := by split_ifs <;> omega
  lt_base j := by split_ifs <;> omega

theorem thresholds_le (bias j : ℕ) : (thresholds bias).threshold j ≤ 26 := by
  dsimp only [thresholds]
  split_ifs <;> omega

/-- A threshold is small only at the places that the bias covers, and a little beyond. -/
theorem le_of_thresholds_lt {b : ℕ} (hb : b ≤ 213) (h : (thresholds b).threshold j < 18) :
    j ≤ 5 := by
  dsimp only [thresholds] at h
  split_ifs at h <;> omega

theorem toNat_threshold (hbias : bias.toNat ≤ 213) (hk : k.toNat = 36 * (j + 1)) :
    (threshold k bias).toNat = (thresholds bias.toNat).threshold j := by
  have hmax : (bias + tmax).toNat = bias.toNat + 26 := toNat_add_of_lt (b := tmax) (by
    change bias.toNat + 26 < 2 ^ 32
    omega)
  dsimp only [threshold, thresholds]
  rw [← hk]
  by_cases hle : k.toNat ≤ bias.toNat
  · rw [if_pos hle, if_pos (UInt32.le_iff_toNat_le.mpr hle)]
    rfl
  · rw [if_neg hle, if_neg (fun h => hle (UInt32.le_iff_toNat_le.mp h))]
    by_cases hge : bias.toNat + 26 ≤ k.toNat
    · rw [if_pos hge, if_pos (UInt32.le_iff_toNat_le.mpr (hmax ▸ hge))]
      rfl
    · rw [if_neg hge, if_neg (fun h => hge (hmax ▸ UInt32.le_iff_toNat_le.mp h)),
        UInt32.toNat_sub_of_le _ _ (UInt32.le_iff_toNat_le.mpr (Nat.le_of_not_le hle))]

theorem toNat_base_sub_threshold (hbias : bias.toNat ≤ 213) (hk : k.toNat = 36 * (j + 1)) :
    (base - threshold k bias).toNat = 36 - (thresholds bias.toNat).threshold j := by
  have hle := thresholds_le bias.toNat j
  rw [UInt32.toNat_sub_of_le _ _ (UInt32.le_iff_toNat_le.mpr (by
    rw [toNat_threshold hbias hk]
    change _ ≤ 36
    omega)), toNat_threshold hbias hk]
  rfl

theorem toNat_add_base (hk : k.toNat = 36 * (j + 1)) (hj : j ≤ 100) :
    (k + base).toNat = 36 * (j + 1 + 1) := by
  rw [toNat_add_of_lt (b := base) (by
    change k.toNat + 36 < 2 ^ 32
    omega)]
  change k.toNat + 36 = _
  omega

/-! ### Digits -/

/-- The value of a character as a digit. It is 36 if the character is not a digit. -/
def digitOf (c : UInt8) : ℕ := (decodeDigit (charUint c)).toNat

theorem digitOf_encodeDigit {flag : Bool} (hd : d < 36) (hflag : flag → d < 26) :
    digitOf (encodeDigit (UInt32.ofNat d) flag) = d := by
  have hall : ∀ e : Fin 36, ∀ f : Bool, (f → e.val < 26) →
      (decodeDigit (charUint (encodeDigit (UInt32.ofNat e) f))).toNat = e := by decide
  exact hall ⟨d, hd⟩ flag hflag

/-- The flag of a number is the case of its last digit. -/
theorem flagged_encodeDigit {flag : Bool} (hd : d < 26) :
    flagged (charUint (encodeDigit (UInt32.ofNat d) flag)) = flag := by
  have hall : ∀ e : Fin 26, ∀ f : Bool,
      flagged (charUint (encodeDigit (UInt32.ofNat e) f)) = f := by decide
  exact hall ⟨d, hd⟩ flag

theorem digitOf_lt_iff : digitOf c < 36 ↔ ¬ decodeDigit (charUint c) ≥ base := by
  rw [ge_iff_le, UInt32.le_iff_toNat_le, Nat.not_le]
  rfl

/-- What `encode_digit` writes for a digit read is its lower-case form. -/
theorem encodeDigit_digitOf (h : digitOf c < 36) :
    encodeDigit (UInt32.ofNat (digitOf c)) false = encodeBasic (charUint c) false := by
  have hall : ∀ e : Fin 256, (decodeDigit (charUint (UInt8.ofNat e))).toNat < 36 →
      encodeDigit (UInt32.ofNat (decodeDigit (charUint (UInt8.ofNat e))).toNat) false =
        encodeBasic (charUint (UInt8.ofNat e)) false := by decide +kernel
  have := hall ⟨c.toNat, c.toNat_lt⟩
  rw [UInt8.ofNat_toNat] at this
  exact this h

/-- A digit is no delimiter, and an ASCII character. -/
theorem of_digitOf_lt (h : digitOf c < 36) : c ≠ delimiter ∧ c < 0x80 := by
  have hall : ∀ e : Fin 256, (decodeDigit (charUint (UInt8.ofNat e))).toNat < 36 →
      UInt8.ofNat e ≠ delimiter ∧ UInt8.ofNat e < 0x80 := by decide +kernel
  have := hall ⟨c.toNat, c.toNat_lt⟩
  rw [UInt8.ofNat_toNat] at this
  exact this h

/-- The characters of a number, with the flag in the last one. -/
def writeDigits (flag : Bool) : List ℕ → Text
  | [] => []
  | [d] => [encodeDigit (UInt32.ofNat d) flag]
  | d :: ds => encodeDigit (UInt32.ofNat d) false :: writeDigits flag ds

theorem writeDigits_cons {flag : Bool} {ds : List ℕ} (h : ds ≠ []) :
    writeDigits flag (d :: ds) = encodeDigit (UInt32.ofNat d) false :: writeDigits flag ds := by
  cases ds with
  | nil => exact absurd rfl h
  | cons e ds => rfl

theorem length_writeDigits (flag : Bool) (ds : List ℕ) :
    (writeDigits flag ds).length = ds.length := by
  fun_induction writeDigits flag ds with
  | case1 => rfl
  | case2 => rfl
  | case3 d ds hds ih => rw [List.length_cons, List.length_cons, ih]

theorem map_digitOf_writeDigits {flag : Bool} {b : ℕ} {ds : List ℕ}
    (h : (thresholds b).Spells j ds n) : (writeDigits flag ds).map digitOf = ds := by
  induction h with
  | last hd =>
    rename_i j d
    have hle := thresholds_le b j
    rw [writeDigits, List.map_singleton, digitOf_encodeDigit (by omega) fun _ => by omega]
  | more hd hlt hrest ih =>
    rename_i j d n ds
    rw [writeDigits_cons hrest.ne_nil, List.map_cons, ih,
      digitOf_encodeDigit hlt fun h => by cases h]

/-- The last of them has the flag. -/
theorem flagged_of_getLast? {flag : Bool} {b : ℕ} {ds : List ℕ}
    (h : (thresholds b).Spells j ds n) :
    ∀ c ∈ (writeDigits flag ds).getLast?, flagged (charUint c) = flag := by
  induction h with
  | last hd =>
    rename_i j d
    have hle := thresholds_le b j
    intro c hc
    obtain rfl := Option.some.inj hc
    exact flagged_encodeDigit (by omega)
  | more hd hlt hrest ih =>
    rename_i j d n ds
    intro c hc
    rw [writeDigits_cons hrest.ne_nil, List.getLast?_cons_of_ne_nil] at hc
    · exact ih c hc
    · intro hnil
      have hlen := length_writeDigits flag ds
      rw [hnil] at hlen
      exact hrest.ne_nil (List.eq_nil_of_length_eq_zero hlen.symm)

/-! ### Writing a number -/

theorem quotient_mul_le {t : ℕ} (ht : t ≤ 26) (n : ℕ) : (n - t) / (36 - t) * 10 ≤ n :=
  calc (n - t) / (36 - t) * 10 ≤ (n - t) / (36 - t) * (36 - t) :=
        Nat.mul_le_mul_left _ (by omega)
    _ ≤ n - t := Nat.div_mul_le_self _ _
    _ ≤ n := Nat.sub_le _ _

/-- A number that needs another digit is at one of the first ten places. -/
theorem le_nine_of_pos (hq : n * 10 ^ j < 2 ^ 32) (hn : 0 < n) : j ≤ 9 := by
  by_contra hgt
  have hpow : 10 ^ 10 ≤ 10 ^ j := Nat.pow_le_pow_right (by decide) (by omega)
  have hmul : 1 * 10 ^ j ≤ n * 10 ^ j := Nat.mul_le_mul_right _ hn
  omega

/-- **The encoder spells the number**, if there is room. -/
theorem encodeInt_eq (hbias : bias.toNat ≤ 213) (hk : k.toNat = 36 * (j + 1))
    (hq : q.toNat * 10 ^ j < 2 ^ 32) (hj : j ≤ 10) (flag : Bool) :
    ∃ ds, (thresholds bias.toNat).Spells j ds q.toNat ∧ ds.length + j ≤ 11 ∧
      ∀ maxOut output, encodeInt maxOut bias flag q k output =
        if output.length + ds.length ≤ maxOut then .ok (output ++ writeDigits flag ds)
        else .error .bigOutput := by
  induction hm : q.toNat using Nat.strong_induction_on generalizing q j k with
  | _ m ih =>
    subst hm
    have ht := toNat_threshold hbias hk
    have hsub := toNat_base_sub_threshold hbias hk
    have hle := thresholds_le bias.toNat j
    have hpos := (thresholds bias.toNat).pos j
    by_cases hlt : q < threshold k bias
    · refine ⟨[q.toNat], .last (ht ▸ UInt32.lt_iff_toNat_lt.mp hlt), ?_, fun maxOut output => ?_⟩
      · rw [List.length_singleton]
        omega
      · rw [encodeInt]
        dsimp only
        rw [if_pos hlt, writeDigits, UInt32.ofNat_toNat, List.length_singleton]
        split_ifs with h₁ h₂ h₂
        · omega
        · rfl
        · rfl
        · omega
    · have hge : threshold k bias ≤ q := Nat.not_lt.mp fun h => hlt h
      have hge' : (thresholds bias.toNat).threshold j ≤ q.toNat := ht ▸ hge
      have hj' := le_nine_of_pos hq (by omega)
      have hquot : ((q - threshold k bias) / (base - threshold k bias)).toNat =
          (q.toNat - (thresholds bias.toNat).threshold j) /
            (36 - (thresholds bias.toNat).threshold j) := by
        rw [UInt32.toNat_div, UInt32.toNat_sub_of_le _ _ hge, ht, hsub]
      have hmod : ((q - threshold k bias) % (base - threshold k bias)).toNat =
          (q.toNat - (thresholds bias.toNat).threshold j) %
            (36 - (thresholds bias.toNat).threshold j) := by
        rw [UInt32.toNat_mod, UInt32.toNat_sub_of_le _ _ hge, ht, hsub]
      have hsmall := quotient_mul_le hle q.toNat
      have hnext : ((q - threshold k bias) / (base - threshold k bias)).toNat * 10 ^ (j + 1) <
          2 ^ 32 :=
        calc _ = (q.toNat - (thresholds bias.toNat).threshold j) /
              (36 - (thresholds bias.toNat).threshold j) * 10 * 10 ^ j := by
                rw [hquot, Nat.pow_succ, Nat.mul_assoc, Nat.mul_comm 10]
          _ ≤ q.toNat * 10 ^ j := Nat.mul_le_mul_right _ hsmall
          _ < 2 ^ 32 := hq
      obtain ⟨ds, hspell, hlen, hwrite⟩ := ih _ (by rw [hquot]; omega)
        (toNat_add_base hk (by omega)) hnext (by omega) rfl
      rw [hquot] at hspell
      have hcons := hspell.cons hge'
      have hdigit : threshold k bias + (q - threshold k bias) % (base - threshold k bias) =
          UInt32.ofNat ((thresholds bias.toNat).threshold j +
            (q.toNat - (thresholds bias.toNat).threshold j) %
              (36 - (thresholds bias.toNat).threshold j)) := by
        rw [← hmod, ← ht, UInt32.ofNat_add, UInt32.ofNat_toNat, UInt32.ofNat_toNat]
      refine ⟨_, hcons, by rw [List.length_cons]; omega, fun maxOut output => ?_⟩
      rw [encodeInt]
      dsimp only
      rw [if_neg hlt, hwrite, hdigit, writeDigits_cons hspell.ne_nil, List.length_append,
        List.length_singleton, List.length_cons, List.append_assoc, List.singleton_append]
      split_ifs with h₁ h₂ h₂ h₂
      · omega
      · rfl
      · rfl
      · omega
      · omega
      · rfl

/-! ### Reading a number -/

/-- What the weight of the place `j` is at least, and at most. -/
def Weight (w : PunycodeUint) (j : ℕ) : Prop := 10 ^ j ≤ w.toNat ∧ w.toNat ≤ 35 ^ j

theorem weight_one : Weight 1 0 := ⟨le_rfl, le_rfl⟩

theorem Weight.pos (h : Weight w j) : 0 < w.toNat := (Nat.pow_pos (by decide)).trans_le h.1

theorem Weight.le_nine (h : Weight w j) : j ≤ 9 :=
  le_nine_of_pos (by
    rw [Nat.one_mul]
    exact h.1.trans_lt w.toNat_lt) Nat.one_pos

/-- The weight of the next place, if it fits. -/
theorem Weight.next (h : Weight w j) (hbias : bias.toNat ≤ 213) (hk : k.toNat = 36 * (j + 1))
    (hfits : w.toNat * (36 - (thresholds bias.toNat).threshold j) < 2 ^ 32) :
    (w * (base - threshold k bias)).toNat =
        w.toNat * (36 - (thresholds bias.toNat).threshold j) ∧
      Weight (w * (base - threshold k bias)) (j + 1) := by
  have hsub := toNat_base_sub_threshold hbias hk
  have hle := thresholds_le bias.toNat j
  have hpos := (thresholds bias.toNat).pos j
  have hmul : (w * (base - threshold k bias)).toNat =
      w.toNat * (36 - (thresholds bias.toNat).threshold j) := by
    rw [toNat_mul_of_lt (by rwa [hsub]), hsub]
  refine ⟨hmul, ?_⟩
  rw [Weight, hmul, Nat.pow_succ, Nat.pow_succ]
  exact ⟨Nat.mul_le_mul h.1 (by omega), Nat.mul_le_mul h.2 (by omega)⟩

/-- The weight of the next place fits if the number does, with a digit that is not the last one.
Where the threshold is small, this is due to the places at which it can be. -/
theorem Weight.next_lt (h : Weight w j) (hbias : bias.toNat ≤ 213)
    (hd : (thresholds bias.toNat).threshold j ≤ d) (hfits : d * w.toNat < 2 ^ 32) :
    w.toNat * (36 - (thresholds bias.toNat).threshold j) < 2 ^ 32 := by
  have hpos := (thresholds bias.toNat).pos j
  by_cases hsmall : (thresholds bias.toNat).threshold j < 18
  · have hj := le_of_thresholds_lt hbias hsmall
    have hpow : 35 ^ j ≤ 35 ^ 5 := Nat.pow_le_pow_right (by decide) hj
    calc w.toNat * (36 - (thresholds bias.toNat).threshold j) ≤ 35 ^ 5 * 35 :=
          Nat.mul_le_mul (h.2.trans hpow) (by omega)
      _ < 2 ^ 32 := by decide
  · calc w.toNat * (36 - (thresholds bias.toNat).threshold j) ≤ w.toNat * d :=
          Nat.mul_le_mul_left _ (by omega)
      _ = d * w.toNat := Nat.mul_comm _ _
      _ < 2 ^ 32 := hfits

/-- One character of a number. -/
theorem decodeInt_cons (hw : 0 < w.toNat) :
    decodeInt bias (c :: input) i w k =
      if digitOf c < 36 then
        if i.toNat + digitOf c * w.toNat < 2 ^ 32 then
          if digitOf c < (threshold k bias).toNat then
            .ok (UInt32.ofNat (i.toNat + digitOf c * w.toNat), c, input)
          else if w.toNat * (base - threshold k bias).toNat < 2 ^ 32 then
            decodeInt bias input (UInt32.ofNat (i.toNat + digitOf c * w.toNat))
              (w * (base - threshold k bias)) (k + base)
          else .error .overflow
        else .error .overflow
      else .error .badInput := by
  have hi : i + decodeDigit (charUint c) * w = UInt32.ofNat (i.toNat + digitOf c * w.toNat) := by
    rw [UInt32.ofNat_add, UInt32.ofNat_mul, UInt32.ofNat_toNat, UInt32.ofNat_toNat, digitOf,
      UInt32.ofNat_toNat]
  have hbounds := threshold_bounds k bias
  have hpos : 0 < (base - threshold k bias).toNat := by
    have : (threshold k bias).toNat ≤ 26 := hbounds.2
    have hle : threshold k bias ≤ base := this.trans (by decide)
    rw [UInt32.toNat_sub_of_le _ _ hle]
    change 0 < 36 - (threshold k bias).toNat
    omega
  rw [decodeInt]
  dsimp only
  rw [hi]
  by_cases h36 : digitOf c < 36
  · rw [if_pos h36, if_neg (digitOf_lt_iff.mp h36)]
    by_cases hfits : i.toNat + digitOf c * w.toNat < 2 ^ 32
    · rw [if_pos hfits, if_neg (fun h => (gt_maxint_sub_div hw).mp h hfits)]
      by_cases hlt : digitOf c < (threshold k bias).toNat
      · rw [if_pos hlt, if_pos (UInt32.lt_iff_toNat_lt.mpr hlt)]
      · rw [if_neg hlt, if_neg (fun h => hlt (UInt32.lt_iff_toNat_lt.mp h))]
        by_cases hnext : w.toNat * (base - threshold k bias).toNat < 2 ^ 32
        · rw [if_pos hnext, if_neg (fun h => (gt_maxint_div hpos).mp h hnext)]
        · rw [if_neg hnext, if_pos ((gt_maxint_div hpos).mpr hnext)]
    · rw [if_neg hfits, if_pos ((gt_maxint_sub_div hw).mpr hfits)]
  · rw [if_neg h36, if_pos (by
      by_contra h
      exact h36 (digitOf_lt_iff.mpr h))]

/-- **The decoder reads what spells a number**, if the sum fits. -/
theorem decodeInt_eq (hbias : bias.toNat ≤ 213) (hk : k.toNat = 36 * (j + 1)) (hw : Weight w j)
    (h : (thresholds bias.toNat).Spells j ((cs ++ [c]).map digitOf) n) :
    decodeInt bias (cs ++ c :: input) i w k =
      if i.toNat + n * w.toNat < 2 ^ 32 then
        .ok (UInt32.ofNat (i.toNat + n * w.toNat), c, input)
      else .error .overflow := by
  have ht := toNat_threshold hbias hk
  have hsub := toNat_base_sub_threshold hbias hk
  induction cs generalizing i w k j n with
  | nil =>
    rw [List.nil_append, decodeInt_cons hw.pos, ht]
    cases h with
    | last hd =>
      have hle := thresholds_le bias.toNat j
      rw [if_pos (by omega), if_pos hd]
    | more _ _ hrest => cases hrest
  | cons e cs ih =>
    rw [List.cons_append, decodeInt_cons hw.pos, ht, hsub]
    generalize hds : (cs ++ [c]).map digitOf = ds at ih
    rw [List.cons_append, List.map_cons, hds] at h
    cases h with
    | last => simp at hds
    | more hd hlt hrest =>
      rename_i q
      rw [if_pos hlt]
      have hn : (digitOf e + (36 - (thresholds bias.toNat).threshold j) * q) * w.toNat =
          digitOf e * w.toNat + q * (w.toNat * (36 - (thresholds bias.toNat).threshold j)) := by
        ring
      by_cases hfits : i.toNat + digitOf e * w.toNat < 2 ^ 32
      · have hnext := hw.next_lt hbias hd (by omega)
        obtain ⟨hmul, hweight⟩ := hw.next hbias hk hnext
        have hk' := toNat_add_base hk (by have := hw.le_nine; omega)
        have hi : (UInt32.ofNat (i.toNat + digitOf e * w.toNat)).toNat =
            i.toNat + digitOf e * w.toNat := by
          rw [UInt32.toNat_ofNat', Nat.mod_eq_of_lt hfits]
        rw [if_pos hfits, if_neg (Nat.not_lt.mpr hd), if_pos hnext,
          ih hk' hweight hrest (toNat_threshold hbias hk') (toNat_base_sub_threshold hbias hk'),
          hi, hmul, hn, Nat.add_assoc]
      · rw [if_neg hfits, if_neg (by omega)]

/-- **The decoder reads nothing else.** -/
theorem spelled_of_decodeInt (hbias : bias.toNat ≤ 213) (hk : k.toNat = 36 * (j + 1))
    (hw : Weight w j) (h : decodeInt bias cs i w k = .ok (i', c, input)) :
    ∃ cs' n, cs = cs' ++ c :: input ∧
      (thresholds bias.toNat).Spells j ((cs' ++ [c]).map digitOf) n := by
  induction cs generalizing i w k j with
  | nil => cases h
  | cons e cs ih =>
    have ht := toNat_threshold hbias hk
    have hsub := toNat_base_sub_threshold hbias hk
    rw [decodeInt_cons hw.pos, ht, hsub] at h
    split_ifs at h with h36 hfits hlt hnext
    · cases h
      exact ⟨[], digitOf c, rfl, .last hlt⟩
    · obtain ⟨-, hweight⟩ := hw.next hbias hk hnext
      obtain ⟨cs', n, rfl, hspell⟩ :=
        ih (toNat_add_base hk (by have := hw.le_nine; omega)) hweight h
      exact ⟨e :: cs', _, rfl, .more (Nat.not_lt.mp hlt) h36 hspell⟩

end Intent.Old.Punycode
