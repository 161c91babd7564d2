import Intent.Old.PunycodeInsertions

/-!
# The main loop of the punycode encoder

In each state of the loops the text written so far stands for the insertions of the code points
handled so far (`Sent`), and `delta` is the number of pairs from there to the place of the loop.
The loops therefore end with a text that stands for the insertion of all code points, or they
report that there is no room, or they meet a number that has no place in 32 bits (`Stuck`). In the
last case some insertion skips too many pairs (`Stuck.exists_skip`).
-/

namespace Intent.Old.Punycode

/-! ### What is transmitted -/

/-- The character that is written for a basic code point. -/
def basicChar (useFlags : Bool) (p : Point) : UInt8 :=
  if useFlags then encodeBasic p.1 p.2 else p.1.toUInt8

/-- A code point with its flag as the decoder returns it. A basic code point is in the case of its
flag, if there are flags, and gets the flag of its case. -/
def restore (useFlags : Bool) (p : Point) : Point :=
  if basic p.1 then (charUint (basicChar useFlags p), flagged (charUint (basicChar useFlags p)))
  else p

theorem basic_iff {c : PunycodeUint} : basic c = true ↔ c.toNat < 0x80 := by
  rw [basic, decide_eq_true_iff, UInt32.lt_iff_toNat_lt]
  rfl

theorem charUint_toUInt8 {c : PunycodeUint} (h : basic c) : charUint c.toUInt8 = c := by
  have hall : ∀ e : Fin 128, charUint (UInt32.ofNat e).toUInt8 = UInt32.ofNat e := by
      decide +kernel
  have := hall ⟨c.toNat, basic_iff.mp h⟩
  rwa [UInt32.ofNat_toNat] at this

/-- Letters change their case, and nothing else changes. -/
theorem basic_charUint_basicChar {p : Point} (useFlags : Bool) (h : basic p.1) :
    basic (charUint (basicChar useFlags p)) := by
  cases useFlags with
  | false => rwa [basicChar, if_neg Bool.false_ne_true, charUint_toUInt8 h]
  | true =>
    have hall : ∀ e : Fin 128, ∀ f : Bool,
        basic (charUint (encodeBasic (UInt32.ofNat e) f)) = true := by decide +kernel
    have := hall ⟨p.1.toNat, basic_iff.mp h⟩ p.2
    rwa [UInt32.ofNat_toNat] at this

theorem key_restore_lt_iff {useFlags : Bool} {p : Point} {n : ℕ} (hn : 0x80 ≤ n) :
    key (restore useFlags p) < n ↔ key p < n := by
  unfold restore
  split_ifs with h
  · have h₁ := basic_iff.mp h
    have h₂ := basic_iff.mp (basic_charUint_basicChar useFlags h)
    exact ⟨fun _ => h₁.trans_le hn, fun _ => h₂.trans_le hn⟩
  · rfl

theorem restore_of_le {useFlags : Bool} {p : Point} (h : 0x80 ≤ key p) : restore useFlags p = p :=
  if_neg fun hbasic => Nat.not_lt.mpr h (basic_iff.mp hbasic)

/-- The characters of the basic code points. -/
def basics (useFlags : Bool) (points : List Point) : Text :=
  (points.filter fun p => basic p.1).map (basicChar useFlags)

theorem basics_cons_of_basic {useFlags : Bool} {p : Point} {points : List Point} (h : basic p.1) :
    basics useFlags (p :: points) = basicChar useFlags p :: basics useFlags points := by
  rw [basics, List.filter_cons, if_pos h]
  rfl

theorem basics_cons_of_not {useFlags : Bool} {p : Point} {points : List Point}
    (h : ¬ basic p.1) : basics useFlags (p :: points) = basics useFlags points := by
  rw [basics, List.filter_cons, if_neg h]
  rfl

/-- **The loop over the basic code points** leaves room for the delimiter. -/
theorem copyBasic_eq (useFlags : Bool) (maxOut : ℕ) (points : List Point) (output : Text) :
    copyBasic useFlags maxOut points output =
      if basics useFlags points = [] ∨
          output.length + (basics useFlags points).length + 1 ≤ maxOut then
        .ok (output ++ basics useFlags points)
      else .error .bigOutput := by
  induction points generalizing output with
  | nil =>
    have hnil : basics useFlags [] = [] := rfl
    rw [copyBasic, hnil, if_pos (Or.inl rfl), List.append_nil]
  | cons p points ih =>
    obtain ⟨c, flag⟩ := p
    rw [copyBasic]
    by_cases hbasic : basic c
    · rw [if_pos hbasic, basics_cons_of_basic (p := (c, flag)) hbasic, ih]
      have hchar : (if useFlags = true then encodeBasic c flag else UInt32.toUInt8 c) =
          basicChar useFlags (c, flag) := rfl
      rw [hchar, List.append_assoc, List.singleton_append, List.length_append,
        List.length_singleton, List.length_cons]
      have hne : ¬ basicChar useFlags (c, flag) :: basics useFlags points = [] :=
        List.cons_ne_nil _ _
      by_cases hroom : maxOut - output.length < 2
      · rw [if_pos hroom, if_neg (by
          rintro (h | h)
          · exact hne h
          · omega)]
      · rw [if_neg hroom]
        by_cases hall : output.length + ((basics useFlags points).length + 1) + 1 ≤ maxOut
        · rw [if_pos (Or.inr (by omega)), if_pos (Or.inr hall)]
        · rw [if_neg, if_neg (not_or.mpr ⟨hne, hall⟩)]
          rintro (h | h)
          · rw [h, List.length_nil] at hall
            omega
          · omega
    · rw [if_neg hbasic, basics_cons_of_not (p := (c, flag)) hbasic, ih]

/-! ### The main loop -/

/-- The characters are in lower case. -/
def Lower (y : Text) : Prop := ∀ c ∈ y, encodeBasic (charUint c) false = c

/-- The text `y` that the encoder has written after `pre` stands for the insertions up to `u`. -/
structure Sent (useFlags : Bool) (maxOut : ℕ) (l : List Point) (pre : Text) (s : EncodeState)
    (u : Slots Point) (y : Text) (skips : List ℕ) : Prop where
  transmits : Transmits False (start l) y skips u s.bias
  output : s.output = pre ++ y
  toNat_h : s.h.toNat = u.entries.length
  length_y : y.length ≤ 11 * skips.length
  length_le : s.output.length ≤ maxOut
  lower : useFlags = false → Lower y

/-- The number to be written next does not fit into 32 bits. -/
def Stuck (l all : List Point) : Prop :=
  ∃ (u : Slots Point) (skips : List ℕ) (n delta : ℕ) (seen rest : List Point),
    Inserted key (start l) skips u ∧ Standing key u n delta seen rest ∧ seen ++ rest = all ∧
      u.entries.length < all.length ∧ 2 ^ 32 ≤ delta

/-- Then some insertion skips too many pairs. -/
theorem Stuck.exists_skip {l all : List Point} (h : Stuck l all) :
    ∃ skips u, Inserted key (start l) skips u ∧ u.entries = all ∧
      ∃ skip ∈ skips, 2 ^ 32 ≤ skip := by
  obtain ⟨v, done, n, delta, seen, rest, hdone, hstand, rfl, hlen, hdelta⟩ := h
  obtain ⟨skip, todo, v', htodo, hv', hle⟩ := hstand.exists_rest hlen
  exact ⟨_, v', hdone.trans htodo, hv', skip, List.mem_append_right _ List.mem_cons_self,
    hdelta.trans hle⟩

theorem lower_writeDigits {b j n : ℕ} {ds : List ℕ} (h : (thresholds b).Spells j ds n) :
    Lower (writeDigits false ds) := by
  have hall : ∀ e : Fin 36, encodeBasic (charUint (encodeDigit (UInt32.ofNat e) false)) false =
      encodeDigit (UInt32.ofNat e) false := by decide +kernel
  induction h with
  | last hd =>
    rename_i j d
    have hle := thresholds_le b j
    exact List.forall_mem_singleton.mpr (hall ⟨d, by omega⟩)
  | more hd hlt hrest ih =>
    rename_i j d n ds
    rw [writeDigits_cons hrest.ne_nil]
    exact List.forall_mem_cons.mpr ⟨hall ⟨d, hlt⟩, ih⟩

section Scan

variable {useFlags : Bool} {maxOut : ℕ} {l seen : List Point} {pre y : Text} {s : EncodeState}
  {u : Slots Point} {skips : List ℕ} {b : PunycodeUint} {p : Point}

/-- What the scan has done when it has come to the end of the list. -/
structure Scanned (useFlags : Bool) (maxOut : ℕ) (l all : List Point) (pre : Text)
    (s s' : EncodeState) (u u' : Slots Point) (y' : Text) (skips' : List ℕ) : Prop where
  sent : Sent useFlags maxOut l pre s' u' y' skips'
  standing : Standing key u' s.n.toNat s'.delta.toNat all []
  n_eq : s'.n = s.n
  live : u'.n = s.n.toNat ∨ u' = u

/-- An entry of the pass is written, or there is no room for it. -/
theorem Sent.encodeInt_eq (h : Sent useFlags maxOut l pre s u y skips)
    (hb : b.toNat = l.length) {rest : List Point}
    (hstand : Standing key u s.n.toNat s.delta.toNat seen (p :: rest)) (hp : key p = s.n.toNat)
    (hflag : useFlags = false → p.2 = false) (hlen : (seen ++ p :: rest).length < 2 ^ 32) :
    (∃ t skip, encodeInt maxOut s.bias p.2 s.delta base s.output = .ok (s.output ++ t) ∧
      Sent useFlags maxOut l pre
        { s with
          delta := 0
          bias := adapt s.delta (s.h + 1) (s.h = b)
          h := s.h + 1
          output := s.output ++ t }
        (u.insert key (place key s.n.toNat seen) p) (y ++ t) (skips ++ [skip])) ∨
    (encodeInt maxOut s.bias p.2 s.delta base s.output = .error .bigOutput ∧
      maxOut < pre.length + 11 * (seen ++ p :: rest).length) := by
  have hk : base.toNat = 36 * (0 + 1) := rfl
  have hdelta : s.delta.toNat * 10 ^ 0 < 2 ^ 32 := by
    rw [Nat.pow_zero, Nat.mul_one]
    exact s.delta.toNat_lt
  obtain ⟨ds, hspell, hds, hwrite⟩ :=
    Punycode.encodeInt_eq h.transmits.bias_le hk hdelta (Nat.zero_le _) p.2
  have hins := hstand.step_eq hp
  have hcount : (u.insert key (place key s.n.toNat seen) p).entries.length =
      u.entries.length + 1 := List.length_insertIdx_of_le_length hstand.place_le p
  have htotal : u.entries.length + 1 ≤ (seen ++ p :: rest).length := by
    have hsub := (@handled_sublist _ key s.n.toNat (seen ++ [p]) rest).length_le
    rw [← hins.entries, hcount, List.append_assoc, List.singleton_append] at hsub
    exact hsub
  have hskips := h.transmits.inserted.length
  have hlength : (writeDigits p.2 ds).length = ds.length := length_writeDigits _ _
  rw [hwrite]
  by_cases hroom : s.output.length + ds.length ≤ maxOut
  · rw [if_pos hroom]
    refine Or.inl ⟨writeDigits p.2 ds, s.delta.toNat, rfl, ?_⟩
    obtain ⟨cs, c, hcs⟩ : ∃ cs c, writeDigits p.2 ds = cs ++ [c] := by
      rcases List.eq_nil_or_concat (writeDigits p.2 ds) with hnil | ⟨cs, c, hcs⟩
      · rw [hnil] at hlength
        exact absurd (List.eq_nil_of_length_eq_zero hlength.symm) hspell.ne_nil
      · exact ⟨cs, c, hcs.trans (List.concat_eq_append ..)⟩
    have hlast : flagged (charUint c) = p.2 := by
      refine flagged_of_getLast? hspell c ?_
      rw [hcs, List.getLast?_concat]
      rfl
    have hdigits : (cs ++ [c]).map digitOf = ds := by
      rw [← hcs]
      exact map_digitOf_writeDigits hspell
    have hsnoc := h.transmits.snoc hstand.place_le (hp ▸ hstand.skips) (hdigits ▸ hspell) hlast
      s.delta.toNat_lt False.elim
    have hsucc : UInt32.ofNat (u.entries.length + 1) = s.h + 1 := by
      rw [← h.toNat_h, UInt32.ofNat_add, UInt32.ofNat_toNat]
      rfl
    have hfirst : decide (skips = []) = decide (s.h = b) := by
      rw [decide_eq_decide, ← UInt32.toNat_inj, h.toNat_h, hb, hskips, ← List.length_eq_zero_iff]
      change _ ↔ l.length + skips.length = l.length
      omega
    rw [UInt32.ofNat_toNat, hsucc, hfirst, ← hcs] at hsnoc
    refine ⟨hsnoc, ?_, ?_, ?_, ?_, ?_⟩
    · rw [h.output, List.append_assoc]
    · rw [hcount, ← h.toNat_h]
      exact toNat_add_of_lt (b := 1) (by
        change s.h.toNat + 1 < 2 ^ 32
        rw [h.toNat_h]
        omega)
    · rw [List.length_append, List.length_append, hlength, List.length_singleton]
      have := h.length_y
      omega
    · rw [List.length_append, hlength]
      exact hroom
    · intro hno c hc
      rcases List.mem_append.mp hc with hc | hc
      · exact h.lower hno c hc
      · rw [hflag hno] at hc
        exact lower_writeDigits hspell c hc
  · rw [if_neg hroom]
    refine Or.inr ⟨rfl, ?_⟩
    have hout := congrArg List.length h.output
    rw [List.length_append] at hout
    have := h.length_y
    omega

theorem Sent.with_delta (h : Sent useFlags maxOut l pre s u y skips) (n delta : PunycodeUint) :
    Sent useFlags maxOut l pre { s with n := n, delta := delta } u y skips :=
  ⟨h.transmits, h.output, h.toNat_h, h.length_y, h.length_le, h.lower⟩

theorem place_le_length (n : ℕ) (seen : List Point) : place key n seen ≤ seen.length :=
  List.length_filter_le _ _

/-- **The scan of a round.** -/
theorem scanPoints_cases (hb : b.toNat = l.length)
    {points all : List Point} (h : Sent useFlags maxOut l pre s u y skips)
    (hstand : Standing key u s.n.toNat s.delta.toNat seen (points.map (restore useFlags)))
    (hn : 0x80 ≤ s.n.toNat) (hall : seen ++ points.map (restore useFlags) = all)
    (hlen : all.length < 2 ^ 32) (hlive : u.n = s.n.toNat ∨ u.entries.length < all.length)
    (hflags : useFlags = false → ∀ p ∈ points, p.2 = false) :
    (∃ s' u' y' skips', scanPoints maxOut b points s = .ok s' ∧
      Scanned useFlags maxOut l all pre s s' u u' y' skips') ∨
    (scanPoints maxOut b points s = .error .overflow ∧ Stuck l all) ∨
    (scanPoints maxOut b points s = .error .bigOutput ∧
      maxOut < pre.length + 11 * all.length) := by
  induction points generalizing s u y skips seen with
  | nil =>
    rw [List.map_nil, List.append_nil] at hall
    exact Or.inl ⟨s, u, y, skips, rfl, h, hall ▸ hstand, rfl, Or.inr rfl⟩
  | cons p points ih =>
    obtain ⟨c, flag⟩ := p
    rw [List.map_cons] at hstand hall
    have hall' : seen ++ [restore useFlags (c, flag)] ++ points.map (restore useFlags) = all := by
      rw [List.append_assoc, List.singleton_append, hall]
    have hflags' := fun hno q hq => hflags hno q (List.mem_cons_of_mem _ hq)
    have hiff := @key_restore_lt_iff useFlags (c, flag) _ hn
    rcases lt_trichotomy c.toNat s.n.toNat with hlt | heq | hgt
    · -- handled in an earlier round
      have hlt' : c < s.n := UInt32.lt_iff_toNat_lt.mpr hlt
      have hne : ¬ c = s.n := fun he => by
        rw [he] at hlt
        exact lt_irrefl _ hlt
      have hstep := hstand.step_lt (hiff.mpr hlt)
      rw [scanPoints]
      by_cases hover : s.delta.toNat + 1 < 2 ^ 32
      · have hdelta : (s.delta + 1).toNat = s.delta.toNat + 1 := toNat_add_of_lt (b := 1) hover
        have hnz : ¬ s.delta + 1 = 0 := fun he => by
          rw [he] at hdelta
          exact absurd hdelta (Nat.succ_ne_zero _).symm
        rw [if_neg fun hand => hnz hand.2]
        dsimp only
        rw [if_pos hlt', if_neg hne]
        rcases ih (h.with_delta s.n (s.delta + 1)) (hdelta ▸ hstep) hn hall' hlive hflags' with
          ⟨s', u', y', skips', hrun, hscan⟩ | hfail
        · exact Or.inl ⟨s', u', y', skips', hrun,
            hscan.sent, hscan.standing, hscan.n_eq, hscan.live⟩
        · exact Or.inr hfail
      · have hz : s.delta + 1 = 0 := by
          rw [← UInt32.toNat_inj, UInt32.toNat_add]
          have := s.delta.toNat_lt
          change (s.delta.toNat + 1) % 2 ^ 32 = 0
          omega
        rw [if_pos ⟨hlt', hz⟩]
        refine Or.inr (Or.inl ⟨rfl, u, skips, _, _, _, _, h.transmits.inserted, hstep, hall', ?_,
          Nat.not_lt.mp hover⟩)
        -- after an insertion in this round `delta` counts positions of the list
        rcases hlive with hu | hlive
        · have hskip := hstand.skips.2
          rw [hu, Nat.sub_self, Nat.zero_mul, Nat.zero_add] at hskip
          have hplace := place_le_length s.n.toNat seen
          have := congrArg List.length hall
          rw [List.length_append, List.length_cons] at this
          omega
        · exact hlive
    · -- written in this round
      obtain rfl : c = s.n := UInt32.toNat_inj.mp heq
      have hrestore : restore useFlags (s.n, flag) = (s.n, flag) := restore_of_le hn
      rw [hrestore] at hstand hall hall'
      rw [scanPoints]
      rw [if_neg fun hand => UInt32.lt_irrefl _ hand.1]
      dsimp only
      rw [if_neg (UInt32.lt_irrefl _), if_pos rfl]
      rcases h.encodeInt_eq hb hstand rfl (fun hno => hflags hno _ List.mem_cons_self)
        (hall ▸ hlen) with ⟨t, skip, hwrite, hsent⟩ | ⟨hwrite, hroom⟩
      · rw [hwrite]
        dsimp only
        rcases ih hsent (hstand.step_eq rfl) hn hall' (Or.inl rfl) hflags' with
          ⟨s', u', y', skips', hrun, hscan⟩ | hfail
        · exact Or.inl ⟨s', u', y', skips', hrun, hscan.sent, hscan.standing, hscan.n_eq,
            Or.inl (hscan.live.elim id fun he => he ▸ rfl)⟩
        · exact Or.inr hfail
      · rw [hwrite]
        exact Or.inr (Or.inr ⟨rfl, hall ▸ hroom⟩)
    · -- left to a later round
      have hnlt : ¬ c < s.n := fun h => Nat.lt_asymm hgt (UInt32.lt_iff_toNat_lt.mp h)
      have hne : ¬ c = s.n := fun he => by
        rw [he] at hgt
        exact lt_irrefl _ hgt
      have hrestore : restore useFlags (c, flag) = (c, flag) := restore_of_le (hn.trans hgt.le)
      rw [scanPoints, if_neg fun hand => hnlt hand.1]
      dsimp only
      rw [if_neg hnlt, if_neg hne]
      refine ih h (hstand.step_gt ?_) hn hall' hlive hflags'
      rw [hrestore]
      exact hgt

/-! ### Rounds -/

theorem nextPoint_fold (n m : PunycodeUint) (points : List Point) :
    let m' := points.foldl (fun m p => if p.1 ≥ n ∧ p.1 < m then p.1 else m) m
    m' ≤ m ∧ (m' = m ∨ ∃ p ∈ points, n ≤ p.1 ∧ p.1 = m') ∧ ∀ p ∈ points, n ≤ p.1 → m' ≤ p.1 := by
  induction points generalizing m with
  | nil => exact ⟨UInt32.le_refl m, Or.inl rfl, fun p hp => absurd hp List.not_mem_nil⟩
  | cons p points ih =>
    rw [List.foldl_cons]
    obtain ⟨hle, hmem, hmin⟩ := ih (if p.1 ≥ n ∧ p.1 < m then p.1 else m)
    split_ifs at hle hmem hmin ⊢ with hp
    · refine ⟨UInt32.le_trans hle (UInt32.le_of_lt hp.2), Or.inr ?_, fun q hq hnq => ?_⟩
      · rcases hmem with heq | ⟨q, hq, heq⟩
        · exact ⟨p, List.mem_cons_self, hp.1, heq.symm⟩
        · exact ⟨q, List.mem_cons_of_mem p hq, heq⟩
      · rcases List.mem_cons.mp hq with rfl | hq
        · exact hle
        · exact hmin q hq hnq
    · refine ⟨hle, hmem.imp_right fun ⟨q, hq, heq⟩ => ⟨q, List.mem_cons_of_mem p hq, heq⟩,
        fun q hq hnq => ?_⟩
      rcases List.mem_cons.mp hq with rfl | hq
      · exact UInt32.le_trans hle (UInt32.not_lt.mp fun hlt => hp ⟨hnq, hlt⟩)
      · exact hmin q hq hnq

/-- The search finds the least code point that is left. -/
theorem nextPoint_spec {n : PunycodeUint} {points : List Point}
    (h : ∃ p ∈ points, n.toNat ≤ key p) :
    (∃ p ∈ points, key p = (nextPoint n points).toNat) ∧ n.toNat ≤ (nextPoint n points).toNat ∧
      ∀ p ∈ points, n.toNat ≤ key p → (nextPoint n points).toNat ≤ key p := by
  obtain ⟨hle, hmem, hmin⟩ := nextPoint_fold n maxint points
  obtain ⟨p, hp, hnp⟩ := h
  rcases hmem with heq | ⟨q, hq, hnq, heq⟩
  · have hmax : p.1 = maxint := by
      refine UInt32.le_antisymm (UInt32.le_iff_toNat_le.mpr ?_) (heq ▸ hmin p hp hnp)
      exact Nat.le_of_lt_succ p.1.toNat_lt
    have hnext : nextPoint n points = p.1 := heq.trans hmax.symm
    exact ⟨⟨p, hp, by rw [hnext, key]⟩, by rw [hnext]; exact hnp, hmin⟩
  · have hnext : q.1 = nextPoint n points := heq
    exact ⟨⟨q, hq, congrArg UInt32.toNat hnext⟩, hnext ▸ hnq, hmin⟩

/-- **A round of the main loop.** -/
theorem encodeRound_cases (hb : b.toNat = l.length)
    {points all : List Point} (h : Sent useFlags maxOut l pre s u y skips)
    (hstand : Standing key u s.n.toNat s.delta.toNat [] all) (hn : 0x80 ≤ s.n.toNat)
    (hall : points.map (restore useFlags) = all) (hlen : all.length < 2 ^ 32)
    (hlt : u.entries.length < all.length) (hflags : useFlags = false → ∀ p ∈ points, p.2 = false) :
    (∃ s' u' y' skips', encodeRound points maxOut b s = .ok s' ∧
      Sent useFlags maxOut l pre s' u' y' skips' ∧ u.entries.length < u'.entries.length ∧
      (u'.entries = all ∨ u'.entries.length < all.length ∧ 0x80 ≤ s'.n.toNat ∧
        Standing key u' s'.n.toNat s'.delta.toNat [] all)) ∨
    (encodeRound points maxOut b s = .error .overflow ∧ Stuck l all) ∨
    (encodeRound points maxOut b s = .error .bigOutput ∧
      maxOut < pre.length + 11 * all.length) := by
  subst hall
  have hkey : ∀ p ∈ points, s.n.toNat ≤ key (restore useFlags p) → restore useFlags p = p ∧
      s.n.toNat ≤ key p := fun p _ hle => by
    have hnlt := fun hlt => Nat.not_lt.mpr hle ((key_restore_lt_iff hn).mpr hlt)
    exact ⟨restore_of_le (hn.trans (Nat.not_lt.mp hnlt)), Nat.not_lt.mp hnlt⟩
  -- some code point is left
  obtain ⟨p, hp, hpn⟩ : ∃ p ∈ points, s.n.toNat ≤ key (restore useFlags p) := by
    by_contra hno
    have hentries := hstand.entries
    rw [handled, List.filter_nil, List.nil_append, List.filter_eq_self.mpr] at hentries
    · rw [hentries] at hlt
      exact lt_irrefl _ hlt
    · intro q hq
      obtain ⟨p, hp, rfl⟩ := List.mem_map.mp hq
      exact decide_eq_true (Nat.not_le.mp fun hle => hno ⟨p, hp, hle⟩)
  obtain ⟨⟨q, hq, hqm⟩, hnm, hmin⟩ := nextPoint_spec ⟨p, hp, (hkey p hp hpn).2⟩
  have hadv := hstand.advance hnm fun r' hr' hle => by
    obtain ⟨r, hr, rfl⟩ := List.mem_map.mp hr'
    rw [(hkey r hr hle).1]
    exact hmin r hr (hkey r hr hle).2
  generalize hm : nextPoint s.n points = m at hqm hnm hmin hadv
  have hh : (s.h + 1).toNat = u.entries.length + 1 := by
    rw [← h.toNat_h]
    exact toNat_add_of_lt (b := 1) (by
      change s.h.toNat + 1 < 2 ^ 32
      rw [h.toNat_h]
      omega)
  have hsub : (m - s.n).toNat = m.toNat - s.n.toNat := UInt32.toNat_sub_of_le _ _ hnm
  have hguard : m - s.n > (maxint - s.delta) / (s.h + 1) ↔
      ¬ s.delta.toNat + (m.toNat - s.n.toNat) * (u.entries.length + 1) < 2 ^ 32 := by
    rw [gt_maxint_sub_div (by rw [hh]; exact Nat.succ_pos _), hh, hsub]
  unfold encodeRound
  rw [hm]
  dsimp only
  by_cases hfits : s.delta.toNat + (m.toNat - s.n.toNat) * (u.entries.length + 1) < 2 ^ 32
  · rw [if_neg fun hgt => hguard.mp hgt hfits]
    have hdelta : (s.delta + (m - s.n) * (s.h + 1)).toNat =
        s.delta.toNat + (m.toNat - s.n.toNat) * (u.entries.length + 1) := by
      have hmul : ((m - s.n) * (s.h + 1)).toNat =
          (m.toNat - s.n.toNat) * (u.entries.length + 1) := by
        rw [toNat_mul_of_lt (by rw [hsub, hh]; omega), hsub, hh]
      rw [toNat_add_of_lt (by rw [hmul]; exact hfits), hmul]
    rw [← hdelta] at hadv
    rcases scanPoints_cases hb (h.with_delta m _) hadv (hn.trans hnm) rfl hlen (Or.inr hlt)
      hflags with ⟨s', u', y', skips', hrun, hscan⟩ | ⟨hrun, hstuck⟩ | ⟨hrun, hroom⟩
    · rw [hrun]
      -- the pass inserts the code point that it is about
      have hmem : restore useFlags q = q := restore_of_le (hqm ▸ hn.trans hnm)
      have hlonger := hadv.length_lt hscan.standing
        (List.mem_map.mpr ⟨q, hq, hmem⟩) hqm
      have hlive : u'.n = m.toNat := hscan.live.resolve_right fun he => by
        rw [he] at hlonger
        exact lt_irrefl _ hlonger
      refine Or.inl ⟨_, u', y', skips', rfl, hscan.sent.with_delta _ _, hlonger, ?_⟩
      by_cases hdone : u'.entries.length < (points.map (restore useFlags)).length
      · refine Or.inr ⟨hdone, ?_⟩
        obtain ⟨r, hr, hmr⟩ := hscan.standing.exists_gt hdone
        have hn' : (s'.n + 1).toNat = m.toNat + 1 := by
          rw [hscan.n_eq]
          exact toNat_add_of_lt (b := 1) (Nat.lt_of_le_of_lt hmr (key_lt r))
        have hdelta' : (s'.delta + 1).toNat = s'.delta.toNat + 1 := by
          refine toNat_add_of_lt (b := 1) ?_
          have := hscan.standing.delta_le hlive
          change s'.delta.toNat + 1 < 2 ^ 32
          omega
        dsimp only
        rw [hn', hdelta']
        exact ⟨hn.trans (hnm.trans (Nat.le_succ _)), hscan.standing.next_pass⟩
      · refine Or.inl ?_
        have := hscan.standing.entries_eq (by rw [List.append_nil]; exact Nat.not_lt.mp hdone)
        rwa [List.append_nil] at this
    · rw [hrun]
      exact Or.inr (Or.inl ⟨rfl, hstuck⟩)
    · rw [hrun]
      exact Or.inr (Or.inr ⟨rfl, hroom⟩)
  · rw [if_pos (hguard.mpr hfits)]
    exact Or.inr (Or.inl ⟨rfl, u, skips, _, _, _, _, h.transmits.inserted, hadv, rfl, hlt,
      Nat.not_lt.mp hfits⟩)

/-- **The main loop.** With a round for each code point that is left it does not run out of
rounds. -/
theorem encodeRounds_cases (hb : b.toNat = l.length)
    {points all : List Point} {fuel : ℕ} (h : Sent useFlags maxOut l pre s u y skips)
    (hstand : u.entries = all ∨ u.entries.length < all.length ∧ 0x80 ≤ s.n.toNat ∧
      Standing key u s.n.toNat s.delta.toNat [] all)
    (hall : points.map (restore useFlags) = all) (hlen : all.length < 2 ^ 32)
    (hflags : useFlags = false → ∀ p ∈ points, p.2 = false) :
    (∃ s' u' y' skips', encodeRounds points maxOut b fuel s = some (.ok s') ∧
      Sent useFlags maxOut l pre s' u' y' skips' ∧ u'.entries = all) ∨
    (encodeRounds points maxOut b fuel s = some (.error .overflow) ∧ Stuck l all) ∨
    (encodeRounds points maxOut b fuel s = some (.error .bigOutput) ∧
      maxOut < pre.length + 11 * all.length) ∨
    (encodeRounds points maxOut b fuel s = none ∧ u.entries.length + fuel < all.length) := by
  have hunhandled : ∀ {s : EncodeState} {u : Slots Point} {y : Text} {skips : List ℕ},
      Sent useFlags maxOut l pre s u y skips →
        (s.unhandled points = true ↔ u.entries.length < all.length) := fun h => by
    rw [EncodeState.unhandled, decide_eq_true_iff, h.toNat_h, ← hall, List.length_map]
  unfold encodeRounds
  induction fuel generalizing s u y skips with
  | zero =>
    rcases hstand with hdone | ⟨hlt, -, -⟩
    · refine Or.inl ⟨s, u, y, skips, whileRounds_of_not_live ?_ 0, h, hdone⟩
      rw [hunhandled h, hdone]
      exact Nat.lt_irrefl _
    · refine Or.inr (Or.inr (Or.inr ⟨?_, hlt⟩))
      rw [whileRounds, if_pos ((hunhandled h).mpr hlt)]
  | succ fuel ih =>
    rcases hstand with hdone | ⟨hlt, hn, hstand⟩
    · refine Or.inl ⟨s, u, y, skips, whileRounds_of_not_live ?_ _, h, hdone⟩
      rw [hunhandled h, hdone]
      exact Nat.lt_irrefl _
    · have hlive : s.unhandled points := by
        rw [hunhandled h]
        exact hlt
      rcases encodeRound_cases hb h hstand hn hall hlen hlt hflags with
        ⟨s', u', y', skips', hround, hsent, hlonger, hstand'⟩ | ⟨hround, hstuck⟩ | ⟨hround, hroom⟩
      · rw [whileRounds_of_ok hlive hround]
        rcases ih hsent hstand' with hok | hover | hbig | ⟨hhang, hfuel⟩
        · exact Or.inl hok
        · exact Or.inr (Or.inl hover)
        · exact Or.inr (Or.inr (Or.inl hbig))
        · exact Or.inr (Or.inr (Or.inr ⟨hhang, by omega⟩))
      · rw [whileRounds_of_error hlive hround]
        exact Or.inr (Or.inl ⟨rfl, hstuck⟩)
      · rw [whileRounds_of_error hlive hround]
        exact Or.inr (Or.inr (Or.inl ⟨rfl, hroom⟩))

end Scan

/-! ### The whole function -/

/-- A character of the basic part as the decoder returns it. -/
def asPoint (c : UInt8) : Point := (charUint c, flagged (charUint c))

/-- The basic part of an encoding. -/
def basicPart (t : Text) : Text := if t = [] then [] else t ++ [delimiter]

/-- The list that is encoded, as the decoder returns it. -/
def EncodeInput.restored (x : EncodeInput) : List Point :=
  x.points.map (restore x.caseFlags.isSome)

/-- The basic code points of an input, as they are written. -/
def EncodeInput.basics (x : EncodeInput) : Text :=
  Punycode.basics x.caseFlags.isSome x.points

theorem EncodeInput.length_points (x : EncodeInput) : x.points.length = x.input.length := by
  obtain ⟨input, caseFlags, hlt, hflags⟩ := x
  cases caseFlags with
  | none => exact List.length_map _
  | some flags =>
    have hlen := hflags flags rfl
    change (input.zip (flags.map _)).length = input.length
    rw [List.length_zip, List.length_map, hlen, Nat.min_self]

theorem EncodeInput.snd_of_mem_points {x : EncodeInput} (h : x.caseFlags = none) :
    ∀ p ∈ x.points, p.2 = false := by
  unfold EncodeInput.points
  rw [h]
  intro p hp
  obtain ⟨c, -, rfl⟩ := List.mem_map.mp hp
  rfl

theorem basics_map_asPoint (useFlags : Bool) (points : List Point) :
    (basics useFlags points).map asPoint =
      (points.map (restore useFlags)).filter (key · < 0x80) := by
  induction points with
  | nil => rfl
  | cons p points ih =>
    by_cases h : basic p.1
    · have hrestore : restore useFlags p = asPoint (basicChar useFlags p) := if_pos h
      have hkey : key (restore useFlags p) < 0x80 := by
        rw [key_restore_lt_iff le_rfl]
        exact basic_iff.mp h
      rw [basics_cons_of_basic h, List.map_cons, List.map_cons,
        List.filter_cons, if_pos (decide_eq_true hkey), ih, hrestore]
    · have hkey : ¬ key (restore useFlags p) < 0x80 := by
        rw [key_restore_lt_iff le_rfl]
        exact fun hlt => h (basic_iff.mpr hlt)
      rw [basics_cons_of_not h, ih, List.map_cons, List.filter_cons,
        if_neg fun hd => hkey (of_decide_eq_true hd)]

theorem length_basics_le (useFlags : Bool) (points : List Point) :
    (basics useFlags points).length ≤ points.length := by
  rw [basics, List.length_map]
  exact List.length_filter_le _ _

theorem EncodeInput.length_basics (x : EncodeInput) : x.basics.length ≤ x.input.length := by
  rw [← x.length_points]
  exact length_basics_le x.caseFlags.isSome x.points

theorem EncodeInput.toNat_length_basics (x : EncodeInput) :
    (UInt32.ofNat x.basics.length).toNat = x.basics.length := by
  have := x.length_basics
  have := x.length_lt
  rw [UInt32.toNat_ofNat', Nat.mod_eq_of_lt (by omega)]

theorem punycodeEncode_eq (x : EncodeInput) (fuel maxOut : ℕ) :
    punycodeEncode fuel x maxOut =
      if x.basics = [] ∨ x.basics.length + 1 ≤ maxOut then
        (encodeRounds x.points maxOut (UInt32.ofNat x.basics.length) fuel
          ⟨initialN, 0, initialBias, UInt32.ofNat x.basics.length, basicPart x.basics⟩).map
            (Except.map EncodeState.output)
      else some (.error .bigOutput) := by
  have hcopy : copyBasic x.caseFlags.isSome maxOut x.points [] =
      if x.basics = [] ∨ x.basics.length + 1 ≤ maxOut then .ok x.basics
      else .error .bigOutput := by
    rw [copyBasic_eq, List.nil_append, List.length_nil, Nat.zero_add]
    rfl
  have hpre : (if UInt32.ofNat x.basics.length > 0 then x.basics ++ [delimiter] else x.basics) =
      basicPart x.basics := by
    have hpos : UInt32.ofNat x.basics.length > 0 ↔ x.basics ≠ [] := by
      rw [gt_iff_lt, UInt32.lt_iff_toNat_lt, x.toNat_length_basics]
      exact List.length_pos_iff
    unfold basicPart
    by_cases hnil : x.basics = []
    · rw [if_pos hnil, if_neg fun h => hpos.mp h hnil, hnil]
    · rw [if_neg hnil, if_pos (hpos.mpr hnil)]
  unfold punycodeEncode
  rw [hcopy]
  split_ifs with hroom
  · dsimp only
    rw [hpre]
  · rfl

/-- **The encoder.** It returns a text that stands for the insertions of all code points that are
not basic, or it says why there is none. -/
theorem punycodeEncode_cases (x : EncodeInput) (fuel maxOut : ℕ) :
    (∃ y skips u bias, punycodeEncode fuel x maxOut = some (.ok (basicPart x.basics ++ y)) ∧
      Transmits False (start (x.basics.map asPoint)) y skips u bias ∧ u.entries = x.restored ∧
      (basicPart x.basics ++ y).length ≤ maxOut ∧ (x.caseFlags = none → Lower y)) ∨
    (punycodeEncode fuel x maxOut = some (.error .overflow) ∧
      Stuck (x.basics.map asPoint) x.restored) ∨
    (punycodeEncode fuel x maxOut = some (.error .bigOutput) ∧
      maxOut < 12 * x.input.length + 1) ∨
    (punycodeEncode fuel x maxOut = none ∧ fuel < x.input.length) := by
  have hcount := x.length_basics
  have hlt := x.length_lt
  have hrestored : x.restored.length = x.input.length := by
    rw [EncodeInput.restored, List.length_map, x.length_points]
  have hl : x.basics.map asPoint = x.restored.filter (key · < 0x80) :=
    basics_map_asPoint x.caseFlags.isSome x.points
  have hb : (UInt32.ofNat x.basics.length).toNat = (x.basics.map asPoint).length := by
    rw [List.length_map, x.toNat_length_basics]
  have hprelen : (basicPart x.basics).length ≤ x.basics.length + 1 := by
    unfold basicPart
    split_ifs
    · exact Nat.zero_le _
    · rw [List.length_append]
      rfl
  rw [punycodeEncode_eq]
  by_cases hroom : x.basics = [] ∨ x.basics.length + 1 ≤ maxOut
  · rw [if_pos hroom]
    have hsent : Sent x.caseFlags.isSome maxOut (x.basics.map asPoint) (basicPart x.basics)
        ⟨initialN, 0, initialBias, UInt32.ofNat x.basics.length, basicPart x.basics⟩
        (start (x.basics.map asPoint)) [] [] := by
      refine ⟨.nil, (List.append_nil _).symm, hb, Nat.zero_le _, ?_, fun _ c hc => by cases hc⟩
      rcases hroom with hnil | hroom
      · rw [basicPart, if_pos hnil]
        exact Nat.zero_le _
      · exact hprelen.trans hroom
    have hstand : Standing key (start (x.basics.map asPoint)) 0x80 0 [] x.restored := by
      refine ⟨hl, le_rfl, ?_⟩
      change 0 + 0 = (0x80 - 0x80) * _ + 0
      rw [Nat.sub_self, Nat.zero_mul]
    have hflags : x.caseFlags.isSome = false → ∀ p ∈ x.points, p.2 = false := fun h =>
      x.snd_of_mem_points (Option.isSome_eq_false_iff.mp h |> Option.isNone_iff_eq_none.mp)
    have hdone : (start (x.basics.map asPoint)).entries = x.restored ∨
        (start (x.basics.map asPoint)).entries.length < x.restored.length ∧
          0x80 ≤ initialN.toNat ∧ Standing key (start (x.basics.map asPoint)) initialN.toNat
            (0 : PunycodeUint).toNat [] x.restored := by
      by_cases hlt : (start (x.basics.map asPoint)).entries.length < x.restored.length
      · exact Or.inr ⟨hlt, le_rfl, hstand⟩
      · exact Or.inl (hstand.entries_eq (Nat.not_lt.mp hlt))
    rcases encodeRounds_cases hb hsent hdone rfl (by rw [hrestored]; exact hlt) hflags with
      ⟨s', u', y', skips', hrun, hsent', hu'⟩ | ⟨hrun, hstuck⟩ | ⟨hrun, hbig⟩ | ⟨hrun, hfuel⟩
    · rw [hrun]
      have hout := hsent'.output
      refine Or.inl ⟨y', skips', u', s'.bias, ?_, hsent'.transmits, hu', ?_, fun hno => ?_⟩
      · rw [← hout]
        rfl
      · rw [← hout]
        exact hsent'.length_le
      · exact hsent'.lower (by rw [hno]; rfl)
    · rw [hrun]
      exact Or.inr (Or.inl ⟨rfl, hstuck⟩)
    · rw [hrun]
      exact Or.inr (Or.inr (Or.inl ⟨rfl, by omega⟩))
    · rw [hrun]
      exact Or.inr (Or.inr (Or.inr ⟨rfl, by omega⟩))
  · rw [if_neg hroom]
    refine Or.inr (Or.inr (Or.inl ⟨rfl, ?_⟩))
    rw [not_or, Nat.not_le] at hroom
    omega

/-! ### The room for the output -/

section Room

variable {maxOut : ℕ} {bias q k b : PunycodeUint} {flag : Bool} {output output' : Text}
  {points : List Point} {s s' : EncodeState}

/-- What fits into the room for a longer text is written into less room in the same way. -/
theorem encodeInt_room (maxOut' : ℕ) (h : encodeInt maxOut bias flag q k output = .ok output') :
    output.length ≤ output'.length ∧ (output'.length ≤ maxOut' →
      encodeInt maxOut' bias flag q k output = .ok output') := by
  fun_induction encodeInt maxOut bias flag q k output with
  | case1 => cases h
  | case2 q k output hroom t hlt =>
    cases h
    rw [List.length_append, List.length_singleton]
    refine ⟨Nat.le_succ _, fun hle => ?_⟩
    rw [encodeInt, if_neg (by omega)]
    exact if_pos hlt
  | case3 q k output hroom t hlt ih =>
    obtain ⟨hle, hwrite⟩ := ih h
    rw [List.length_append, List.length_singleton] at hle
    refine ⟨by omega, fun hle' => ?_⟩
    rw [encodeInt, if_neg (by omega)]
    exact (if_neg hlt).trans (hwrite hle')

theorem scanPoints_room (maxOut' : ℕ) (h : scanPoints maxOut b points s = .ok s') :
    s.output.length ≤ s'.output.length ∧ (s'.output.length ≤ maxOut' →
      scanPoints maxOut' b points s = .ok s') := by
  induction points generalizing s with
  | nil =>
    cases h
    exact ⟨le_rfl, fun _ => rfl⟩
  | cons p points ih =>
    obtain ⟨c, flag⟩ := p
    rw [scanPoints] at h ⊢
    by_cases hover : c < s.n ∧ s.delta + 1 = 0
    · rw [if_pos hover] at h
      cases h
    · rw [if_neg hover] at h ⊢
      have hout : (if c < s.n then { s with delta := s.delta + 1 } else s).output = s.output := by
        split_ifs <;> rfl
      dsimp only at h ⊢
      generalize (if c < s.n then { s with delta := s.delta + 1 } else s) = s₁ at h hout ⊢
      rw [← hout]
      by_cases heq : c = s₁.n
      · rw [if_pos heq] at h ⊢
        cases hwrite : encodeInt maxOut s₁.bias flag s₁.delta base s₁.output with
        | error e =>
          rw [hwrite] at h
          cases h
        | ok output =>
          rw [hwrite] at h
          obtain ⟨hle₁, hwrite'⟩ := encodeInt_room maxOut' hwrite
          obtain ⟨hle₂, hscan⟩ := ih h
          refine ⟨hle₁.trans hle₂, fun hle => ?_⟩
          rw [hwrite' (hle₂.trans hle)]
          exact hscan hle
      · rw [if_neg heq] at h ⊢
        exact ih h

theorem encodeRound_room (maxOut' : ℕ) (h : encodeRound points maxOut b s = .ok s') :
    s.output.length ≤ s'.output.length ∧ (s'.output.length ≤ maxOut' →
      encodeRound points maxOut' b s = .ok s') := by
  unfold encodeRound at h ⊢
  dsimp only at h ⊢
  split_ifs at h ⊢ with hover
  cases hscan : scanPoints maxOut b points { s with
      n := nextPoint s.n points
      delta := s.delta + (nextPoint s.n points - s.n) * (s.h + 1) } with
  | error e =>
    rw [hscan] at h
    cases h
  | ok s₁ =>
    rw [hscan] at h
    cases h
    obtain ⟨hle, hscan'⟩ := scanPoints_room maxOut' hscan
    refine ⟨hle, fun hle' => ?_⟩
    rw [hscan' hle']

theorem encodeRounds_room (maxOut' : ℕ) {fuel : ℕ}
    (h : encodeRounds points maxOut b fuel s = some (.ok s')) :
    s.output.length ≤ s'.output.length ∧ (s'.output.length ≤ maxOut' →
      encodeRounds points maxOut' b fuel s = some (.ok s')) := by
  unfold encodeRounds at h ⊢
  induction fuel generalizing s with
  | zero =>
    rw [whileRounds] at h ⊢
    split_ifs at h ⊢
    cases h
    exact ⟨le_rfl, fun _ => rfl⟩
  | succ fuel ih =>
    by_cases hlive : s.unhandled points
    · cases hround : encodeRound points maxOut b s with
      | error e =>
        rw [whileRounds_of_error hlive hround] at h
        cases h
      | ok s₁ =>
        rw [whileRounds_of_ok hlive hround] at h
        obtain ⟨hle₁, hround'⟩ := encodeRound_room maxOut' hround
        obtain ⟨hle₂, hrounds⟩ := ih h
        refine ⟨hle₁.trans hle₂, fun hle => ?_⟩
        rw [whileRounds_of_ok hlive (hround' (hle₂.trans hle))]
        exact hrounds hle
    · rw [whileRounds_of_not_live hlive] at h ⊢
      cases h
      exact ⟨le_rfl, fun _ => rfl⟩

/-- **A text fits if there is room for it.** -/
theorem punycodeEncode_room {maxOut' fuel : ℕ} {x : EncodeInput} {y : Text}
    (h : punycodeEncode fuel x maxOut = some (.ok y)) (hy : y.length ≤ maxOut') :
    punycodeEncode fuel x maxOut' = some (.ok y) := by
  rw [punycodeEncode_eq] at h ⊢
  split_ifs at h with hroom
  · obtain ⟨r, hrun, hr⟩ := Option.map_eq_some_iff.mp h
    cases r with
    | error e => cases hr
    | ok s' =>
      have hout : s'.output = y := Except.ok.inj hr
      obtain ⟨hle, hrun'⟩ := encodeRounds_room maxOut' hrun
      rw [hout] at hle hrun'
      rw [if_pos, hrun' hy]
      · rw [← hout]
        rfl
      · by_cases hnil : x.basics = []
        · exact Or.inl hnil
        · dsimp only at hle
          rw [basicPart, if_neg hnil, List.length_append] at hle
          exact Or.inr (hle.trans hy)
  · cases Option.some.inj h

end Room

end Intent.Old.Punycode
