import Intent.Library.Gen
import Intent.Library.Positional
import Intent.Old.Lexer
import Mathlib.Data.List.GetD

/-!
# Numbers in any base

`base_x_encode` looks for a power of the base that is above the number, and divides by falling
powers. Both happen in 64 bits. As long as the power above the number fits into them, the function
writes the digits of the number (`encoded_of_fits`). Where it does not fit, the multiple that the
first loop ends with is too small, if the loop ends at all, and what is written are not the digits
(`not_encoded_of_overflow`).
-/

namespace Intent.Old

/-! ### The function -/

/-- An access outside of an array. -/
inductive OutOfBounds where
  | read (idx : ℕ)
  | write (idx : ℕ)
  deriving DecidableEq, Repr

/-- The bytes from `buf` to `end`, as they were passed, and how many of them are written. -/
structure DigitBuffer where
  bytes : Text
  pos : ℕ
  deriving DecidableEq, Repr

/-- The body of `base_x_encode`. -/
abbrev Encode := Gen DigitBuffer Empty OutOfBounds

/-- `*buf++ = c`. -/
def putDigit (c : UInt8) : Encode Unit := do
  let s ← Gen.get
  if s.pos < s.bytes.length then Gen.modify fun s => ⟨s.bytes.set s.pos c, s.pos + 1⟩
  else Gen.raise (.write s.pos)

/-- `digit_inventory[idx]`. Behind the digits there is a NUL. -/
def readDigit (digitInventory : Text) (idx : ℕ) : Encode UInt8 :=
  match (digitInventory ++ [0])[idx]? with
  | some c => pure c
  | none => Gen.raise (.read idx)

/-- The loop that looks for a power of the base above `n`, with a bound on the number of its
rounds. -/
def findMultiple (n base : UInt64) : ℕ → UInt64 → Encode UInt64
  | 0, _ => Gen.hang
  | fuel + 1, multiple =>
    if n ≥ multiple then findMultiple n base fuel (multiple * base) else pure multiple

/-- What follows the loop over the digits: the last digit, and a NUL if there is room for it. -/
def putLastDigit (digitInventory : Text) (n : ℕ) : Encode Bool := do
  let c ← readDigit digitInventory n
  putDigit c
  Gen.modify fun s =>
    if s.pos < s.bytes.length then { s with bytes := s.bytes.set s.pos 0 } else s
  pure true

/-- The loop over the digits, with a bound on the number of its rounds. -/
def encodeDigits (digitInventory : Text) (base : UInt64) : ℕ → UInt64 → UInt64 → Encode Bool
  | 0, _, _ => Gen.hang
  | fuel + 1, n, multiple =>
    if multiple > 1 then do
      let idx := n / multiple
      let c ← readDigit digitInventory idx.toNat
      putDigit c
      let s ← Gen.get
      if s.pos ≥ s.bytes.length then pure false
      else encodeDigits digitInventory base fuel (n - multiple * idx) (multiple / base)
    else putLastDigit digitInventory n.toNat

/-- `base_x_encode`, with a bound on the rounds of its loops. A null pointer is `none`. -/
def baseXEncode (fuel : ℕ) (n : UInt64) (buf digitInventory : Option Text) (base : UInt64) :
    Trace DigitBuffer Empty OutOfBounds Bool :=
  match buf, digitInventory with
  | some bytes, some digits =>
    if bytes ≠ [] ∧ digits ≠ [] ∧ base > 1 then
      (findMultiple n base fuel base >>= fun multiple =>
        encodeDigits digits base fuel n (multiple / base)) ⟨bytes, 0⟩
    else ⟨[], ⟨bytes, 0⟩, .returned false⟩
  | bytes, _ => ⟨[], ⟨bytes.getD [], 0⟩, .returned false⟩

/-! ### Writing digits -/

/-- The digits of a list, as the function writes them. -/
def putDigits (digitInventory : Text) : List ℕ → Encode Bool
  | [] => pure true
  | [q] => putLastDigit digitInventory q
  | q :: r :: qs => do
    let c ← readDigit digitInventory q
    putDigit c
    let s ← Gen.get
    if s.pos ≥ s.bytes.length then pure false else putDigits digitInventory (r :: qs)

section Writing

variable {inventory rest : Text} {q : ℕ} {qs : List ℕ}

theorem putDigit_append (done rest : Text) (x c : UInt8) :
    putDigit c ⟨done ++ x :: rest, done.length⟩ =
      ⟨[], ⟨(done ++ [c]) ++ rest, (done ++ [c]).length⟩, .returned ()⟩ := by
  have hlt : done.length < (done ++ x :: rest).length := by simp
  rw [putDigit, Gen.get_bind, if_pos hlt]
  simp [Gen.modify]

/-- The character of a digit. -/
def digitChar (inventory : Text) (q : ℕ) : UInt8 := (inventory ++ [0]).getD q 0

theorem getElem?_inventory (h : q ≤ inventory.length) :
    (inventory ++ [0])[q]? = some (digitChar inventory q) := by
  have hlt : q < (inventory ++ [0]).length := by
    rw [List.length_append, List.length_singleton]
    omega
  rw [digitChar, List.getD_eq_getElem?_getD, List.getElem?_eq_getElem hlt, Option.getD_some]

/-- One character. -/
theorem readDigit_bind {f : UInt8 → Encode Bool} {s : DigitBuffer} (h : q ≤ inventory.length) :
    (readDigit inventory q >>= f) s = f (digitChar inventory q) s := by
  rw [readDigit, getElem?_inventory h]
  rfl

theorem readDigit_raises {f : UInt8 → Encode Bool} {s : DigitBuffer} (h : inventory.length < q) :
    (readDigit inventory q >>= f) s = ⟨[], s, .raised (.read q)⟩ := by
  have hnone : (inventory ++ [0])[q]? = none := by
    rw [List.getElem?_eq_none_iff, List.length_append, List.length_singleton]
    omega
  rw [readDigit, hnone]
  rfl

/-- The last digit. -/
theorem putLastDigit_eq (h : q ≤ inventory.length) (done rest : Text) (x y : UInt8) :
    putLastDigit inventory q ⟨done ++ x :: y :: rest, done.length⟩ =
      ⟨[], ⟨done ++ [digitChar inventory q] ++ 0 :: rest, (done ++ [digitChar inventory q]).length⟩,
        .returned true⟩ := by
  have hlt : (done ++ [digitChar inventory q]).length <
      (done ++ [digitChar inventory q] ++ y :: rest).length := by simp
  have hset : (done ++ [digitChar inventory q] ++ y :: rest).set
      (done ++ [digitChar inventory q]).length 0 =
        done ++ [digitChar inventory q] ++ 0 :: rest := by simp
  rw [putLastDigit, readDigit_bind h, Gen.bind_of_returned (putDigit_append ..), Gen.modify_bind,
    if_pos hlt]
  dsimp only
  rw [hset]
  rfl

/-- A digit before the last. -/
theorem putDigits_round (h : q ≤ inventory.length) (r : ℕ) (qs : List ℕ) (done rest : Text)
    (x : UInt8) :
    putDigits inventory (q :: r :: qs) ⟨done ++ x :: rest, done.length⟩ =
      if rest = [] then
        ⟨[], ⟨done ++ [digitChar inventory q], (done ++ [digitChar inventory q]).length⟩,
          .returned false⟩
      else putDigits inventory (r :: qs)
        ⟨done ++ [digitChar inventory q] ++ rest, (done ++ [digitChar inventory q]).length⟩ := by
  rw [putDigits, readDigit_bind h, Gen.bind_of_returned (putDigit_append ..), Gen.get_bind]
  dsimp only
  cases rest with
  | nil =>
    rw [List.append_nil, if_pos le_rfl, if_pos rfl]
    rfl
  | cons y rest =>
    have hlt : ¬ (done ++ [digitChar inventory q]).length ≥
        (done ++ [digitChar inventory q] ++ y :: rest).length := by simp
    rw [if_neg hlt, if_neg (List.cons_ne_nil y rest)]
    rfl

/-- **Enough room.** The digits are written, and a NUL. -/
theorem putDigits_eq (done : Text) (hq : ∀ q ∈ qs, q ≤ inventory.length) (hqs : qs ≠ [])
    (hroom : qs.length < rest.length) :
    ∃ pos, putDigits inventory qs ⟨done ++ rest, done.length⟩ =
      ⟨[], ⟨done ++ qs.map (digitChar inventory) ++ 0 :: rest.drop (qs.length + 1), pos⟩,
        .returned true⟩ := by
  induction qs generalizing done rest with
  | nil => exact absurd rfl hqs
  | cons q qs ih =>
    obtain ⟨hhead, htail⟩ := List.forall_mem_cons.mp hq
    cases rest with
    | nil => cases hroom
    | cons x rest =>
      cases qs with
      | nil =>
        cases rest with
        | nil => exact absurd hroom (lt_irrefl _)
        | cons y rest => exact ⟨_, putLastDigit_eq hhead done rest x y⟩
      | cons r qs =>
        have hroom' : (r :: qs).length < rest.length := Nat.lt_of_succ_lt_succ hroom
        have hne : rest ≠ [] := List.ne_nil_of_length_pos (Nat.zero_lt_of_lt hroom')
        obtain ⟨pos, hpos⟩ := ih (done ++ [digitChar inventory q]) htail
          (List.cons_ne_nil r qs) hroom'
        refine ⟨pos, ?_⟩
        rw [putDigits_round hhead, if_neg hne, hpos]
        simp

/-- **Not enough room.** -/
theorem putDigits_refused (done : Text) (hq : ∀ q ∈ qs, q ≤ inventory.length) (hrest : rest ≠ [])
    (hroom : rest.length < qs.length) :
    ∃ s, putDigits inventory qs ⟨done ++ rest, done.length⟩ = ⟨[], s, .returned false⟩ := by
  induction qs generalizing done rest with
  | nil => cases hroom
  | cons q qs ih =>
    obtain ⟨hhead, htail⟩ := List.forall_mem_cons.mp hq
    obtain ⟨x, rest, rfl⟩ := List.exists_cons_of_ne_nil hrest
    have hroom' : rest.length < qs.length := Nat.lt_of_succ_lt_succ hroom
    cases qs with
    | nil => cases hroom'
    | cons r qs =>
      rw [putDigits_round hhead]
      by_cases hnil : rest = []
      · rw [if_pos hnil]
        exact ⟨_, rfl⟩
      · rw [if_neg hnil]
        exact ih _ htail hnil hroom'

/-- What is written before the last digit. -/
theorem putDigits_cons {l : List ℕ} (hl : l ≠ []) (q : ℕ) :
    putDigits inventory (q :: l) = (readDigit inventory q >>= fun c => putDigit c >>= fun _ =>
      Gen.get >>= fun s =>
        if s.pos ≥ s.bytes.length then pure false else putDigits inventory l) := by
  cases l with
  | nil => exact absurd rfl hl
  | cons r qs => rfl

/-- **A digit without a character** is not written. -/
theorem putDigits_readable (s : DigitBuffer) :
    (putDigits inventory qs).wp s (fun b _ _ => b = true → ∀ q ∈ qs, q ≤ inventory.length)
      (fun _ _ _ => True) fun _ => True := by
  induction qs generalizing s with
  | nil => exact fun _ q hq => absurd hq List.not_mem_nil
  | cons q qs ih =>
    by_cases hq : q ≤ inventory.length
    · cases qs with
      | nil =>
        refine Gen.wp_run.imp (fun _ _ _ _ _ r hr => ?_) (fun _ _ _ h => h) fun _ h => h
        rwa [List.mem_singleton.mp hr]
      | cons r qs =>
        rw [putDigits_cons (List.cons_ne_nil r qs), Gen.wp, readDigit_bind hq]
        change Gen.wp (putDigit _ >>= _) s _ _ _
        simp only [Gen.wp_bind, Gen.wp_get, Gen.wp_ite, Gen.wp_pure]
        refine Gen.wp_run.imp (fun _ _ s' _ => ⟨fun _ hb => (by cases hb), fun _ => ?_⟩)
          (fun _ _ _ h => h) fun _ h => h
        exact (ih s').imp (fun b _ _ h hb => List.forall_mem_cons.mpr ⟨hq, h hb⟩)
          (fun _ _ _ h => h) fun _ h => h
    · have hraise : ∀ f : UInt8 → Encode Bool, (readDigit inventory q >>= f) s =
          ⟨[], s, .raised (.read q)⟩ := fun f => readDigit_raises (not_le.mp hq)
      cases qs with
      | nil =>
        rw [putDigits, putLastDigit, Gen.wp, hraise]
        trivial
      | cons r qs =>
        rw [putDigits, Gen.wp, hraise]
        trivial

end Writing

/-! ### The loops -/

section Loops

variable {inventory : Text} {n base multiple : UInt64} {fuel : ℕ} {s : DigitBuffer}

theorem quotients_ne_nil (b fuel n m : ℕ) : quotients b fuel n m ≠ [] := by
  cases fuel with
  | zero => exact List.cons_ne_nil _ _
  | succ fuel =>
    rw [quotients]
    split_ifs
    · exact List.cons_ne_nil _ _
    · exact List.cons_ne_nil _ _

/-- What is left behind a quotient. -/
theorem toNat_rest (n multiple : UInt64) :
    (n - multiple * (n / multiple)).toNat = n.toNat % multiple.toNat := by
  have hle : multiple.toNat * (n.toNat / multiple.toNat) ≤ n.toNat := Nat.mul_div_le _ _
  have hlt : n.toNat < 2 ^ 64 := UInt64.toNat_lt n
  have hprod : (multiple * (n / multiple)).toNat = multiple.toNat * (n.toNat / multiple.toNat) := by
    rw [UInt64.toNat_mul, UInt64.toNat_div, Nat.mod_eq_of_lt (hle.trans_lt hlt)]
  rw [UInt64.toNat_sub_of_le, hprod, Nat.mod_def]
  rw [UInt64.le_iff_toNat_le, hprod]
  exact hle

theorem one_lt_iff (multiple : UInt64) : multiple > 1 ↔ multiple.toNat > 1 :=
  UInt64.lt_iff_toNat_lt

/-- One round of the loop over the digits. -/
theorem encodeDigits_succ (h : multiple > 1) :
    encodeDigits inventory base (fuel + 1) n multiple =
      (readDigit inventory (n.toNat / multiple.toNat) >>= fun c => putDigit c >>= fun _ =>
        Gen.get >>= fun s => if s.pos ≥ s.bytes.length then pure false
          else encodeDigits inventory base fuel (n - multiple * (n / multiple))
            (multiple / base)) := by
  rw [encodeDigits, if_pos h, ← UInt64.toNat_div]

theorem putDigits_quotients (h : multiple > 1) :
    putDigits inventory (quotients base.toNat (fuel + 1) n.toNat multiple.toNat) =
      (readDigit inventory (n.toNat / multiple.toNat) >>= fun c => putDigit c >>= fun _ =>
        Gen.get >>= fun s => if s.pos ≥ s.bytes.length then pure false
          else putDigits inventory (quotients base.toNat fuel
            (n - multiple * (n / multiple)).toNat (multiple / base).toNat)) := by
  rw [quotients, if_pos ((one_lt_iff multiple).mp h), putDigits_cons (quotients_ne_nil _ _ _ _),
    toNat_rest, UInt64.toNat_div]

/-- The loop over the digits writes the quotients, if it ends. -/
theorem encodeDigits_eq_or_hung (inventory : Text) (base : UInt64) (fuel : ℕ) (n multiple : UInt64)
    (s : DigitBuffer) :
    encodeDigits inventory base fuel n multiple s =
        putDigits inventory (quotients base.toNat fuel n.toNat multiple.toNat) s ∨
      (encodeDigits inventory base fuel n multiple s).ending = .hung := by
  induction fuel generalizing n multiple s with
  | zero => exact .inr rfl
  | succ fuel ih =>
    by_cases h : multiple > 1
    · rw [encodeDigits_succ h, putDigits_quotients h]
      refine Gen.bind_eq_or_hung (fun c s => Gen.bind_eq_or_hung (fun _ s =>
        Gen.bind_eq_or_hung (fun t s => ?_) s) s) s
      split_ifs
      · exact .inl rfl
      · exact ih _ _ _
    · left
      rw [encodeDigits, if_neg h, quotients, if_neg (mt (one_lt_iff multiple).mpr h)]
      rfl

/-- **The loop over the digits**, with enough rounds. -/
theorem encodeDigits_eq (hbase : 1 < base.toNat) (hfuel : multiple.toNat < 2 ^ fuel) :
    encodeDigits inventory base (fuel + 1) n multiple =
      putDigits inventory (quotients base.toNat (fuel + 1) n.toNat multiple.toNat) := by
  induction fuel generalizing n multiple with
  | zero =>
    have hno : ¬ multiple > 1 := by
      rw [one_lt_iff]
      omega
    rw [encodeDigits, if_neg hno, quotients, if_neg (mt (one_lt_iff multiple).mpr hno)]
    rfl
  | succ fuel ih =>
    by_cases h : multiple > 1
    · have hnext : (multiple / base).toNat < 2 ^ fuel := by
        rw [UInt64.toNat_div, Nat.div_lt_iff_lt_mul (by omega)]
        calc multiple.toNat < 2 ^ fuel * 2 := by rwa [← Nat.pow_succ]
          _ ≤ 2 ^ fuel * base.toNat := Nat.mul_le_mul_left _ hbase
      rw [encodeDigits_succ h, putDigits_quotients h, ih hnext]
    · rw [encodeDigits, if_neg h, quotients, if_neg (mt (one_lt_iff multiple).mpr h)]
      rfl

/-- **The first loop** ends with a multiple above the number, if it ends. -/
theorem findMultiple_spec :
    (findMultiple n base fuel multiple).wp s (fun r _ s' => s' = s ∧ n < r)
      (fun _ _ _ => False) fun _ => True := by
  induction fuel generalizing multiple with
  | zero => trivial
  | succ fuel ih =>
    simp only [findMultiple, Gen.wp_ite, Gen.wp_pure]
    exact ⟨fun _ => ih, fun h => ⟨trivial, UInt64.not_le.mp h⟩⟩

/-- **The first loop** comes to the power of the base above the number, if that fits. -/
theorem findMultiple_eq {k : ℕ} (hbase : 1 < base.toNat)
    (hfits : base.toNat ^ numDigits base.toNat n.toNat < 2 ^ 64)
    (hmultiple : multiple.toNat = base.toNat ^ k) (hk : 0 < k)
    (hle : k ≤ numDigits base.toNat n.toNat) (hfuel : numDigits base.toNat n.toNat - k < fuel) :
    ∃ r, findMultiple n base fuel multiple = pure r ∧
      r.toNat = base.toNat ^ numDigits base.toNat n.toNat := by
  induction fuel generalizing k multiple with
  | zero => omega
  | succ fuel ih =>
    rw [findMultiple]
    split_ifs with h
    · have hpow : base.toNat ^ k ≤ n.toNat := by
        rw [← hmultiple]
        exact UInt64.le_iff_toNat_le.mp h
      have hnext : k + 1 ≤ numDigits base.toNat n.toNat :=
        Nat.succ_le_succ (Nat.le_log_of_pow_le hbase hpow)
      refine ih (k := k + 1) ?_ (Nat.succ_pos k) hnext (by omega)
      rw [UInt64.toNat_mul, hmultiple, ← Nat.pow_succ, Nat.mod_eq_of_lt]
      exact (Nat.pow_le_pow_right (by omega) hnext).trans_lt hfits
    · refine ⟨multiple, rfl, ?_⟩
      have hpow : n.toNat < base.toNat ^ k := by
        rw [← hmultiple]
        exact UInt64.lt_iff_toNat_lt.mp (UInt64.not_le.mp h)
      have hlog : Nat.log base.toNat n.toNat < k := by
        rcases Nat.eq_zero_or_pos n.toNat with hzero | hpos
        · rwa [hzero, Nat.log_zero_right]
        · exact Nat.log_lt_of_lt_pow hpos.ne' hpow
      rw [hmultiple, numDigits]
      rw [numDigits] at hle
      rw [show k = Nat.log base.toNat n.toNat + 1 by omega]

end Loops

/-! ### The encoding -/

/-- Digits for numbers in a base: at least as many distinct characters. -/
structure DigitInventory (base : UInt64) where
  chars : Text
  one_lt : 1 < base
  nodup : chars.Nodup
  no_nul : 0 ∉ chars
  base_le : base.toNat ≤ chars.length

/-- The function ends, returns true and leaves the digits of `n` in the buffer, with a NUL behind
them. -/
def Encoded {base : UInt64} (inventory : DigitInventory base) (n : UInt64) (buf : Text) : Prop :=
  ∃ fuel digits s, Canonical base.toNat n.toNat digits ∧
    baseXEncode fuel n (some buf) (some inventory.chars) base = ⟨[], s, .returned true⟩ ∧
    s.bytes = digits.map (fun d => inventory.chars.getD d 0) ++ 0 :: buf.drop (digits.length + 1)

/-- The function ends and returns false. -/
def Refused {base : UInt64} (inventory : DigitInventory base) (n : UInt64) (buf : Text) : Prop :=
  ∃ fuel s, baseXEncode fuel n (some buf) (some inventory.chars) base = ⟨[], s, .returned false⟩

section Encoding

variable {base : UInt64} {inventory : DigitInventory base} {n : UInt64} {buf : Text}

theorem DigitInventory.one_lt_toNat (inventory : DigitInventory base) : 1 < base.toNat :=
  UInt64.lt_iff_toNat_lt.mp inventory.one_lt

theorem DigitInventory.chars_ne_nil (inventory : DigitInventory base) : inventory.chars ≠ [] := by
  have h₁ := inventory.one_lt_toNat
  have h₂ := inventory.base_le
  exact List.ne_nil_of_length_pos (by omega)

/-- The body of the function. -/
theorem baseXEncode_eq (hbuf : buf ≠ []) (fuel : ℕ) :
    baseXEncode fuel n (some buf) (some inventory.chars) base =
      (findMultiple n base fuel base >>= fun multiple =>
        encodeDigits inventory.chars base fuel n (multiple / base)) ⟨buf, 0⟩ :=
  if_pos ⟨hbuf, inventory.chars_ne_nil, inventory.one_lt⟩

/-- **A power that fits.** The digits of the number are written. -/
theorem baseXEncode_of_fits (inventory : DigitInventory base) (hbuf : buf ≠ [])
    (hfits : base.toNat ^ numDigits base.toNat n.toNat < 2 ^ 64) :
    ∃ fuel digits, Canonical base.toNat n.toNat digits ∧
      baseXEncode fuel n (some buf) (some inventory.chars) base =
        putDigits inventory.chars digits ⟨buf, 0⟩ := by
  have hbase := inventory.one_lt_toNat
  have hdigits : numDigits base.toNat n.toNat < 64 := by
    refine (Nat.pow_lt_pow_iff_right (a := 2) (by decide)).mp ?_
    exact (Nat.pow_le_pow_left hbase _).trans_lt hfits
  have hlog : Nat.log base.toNat n.toNat ≤ 64 + 1 := by
    rw [numDigits] at hdigits
    omega
  obtain ⟨r, hfind, hr⟩ : ∃ r, findMultiple n base (64 + 1) base = pure r ∧
      r.toNat = base.toNat ^ numDigits base.toNat n.toNat :=
    findMultiple_eq hbase hfits (Nat.pow_one _).symm Nat.one_pos
      (Nat.succ_le_succ (Nat.zero_le _)) (by omega)
  have hmultiple : (r / base).toNat = base.toNat ^ Nat.log base.toNat n.toNat := by
    rw [UInt64.toNat_div, hr, numDigits, Nat.pow_succ, Nat.mul_div_cancel _ (by omega)]
  refine ⟨64 + 1, _, quotients_canonical hbase hlog, ?_⟩
  rw [baseXEncode_eq hbuf, hfind]
  change encodeDigits inventory.chars base (64 + 1) n (r / base) ⟨buf, 0⟩ = _
  rw [encodeDigits_eq hbase (UInt64.toNat_lt _), hmultiple]

theorem digitChar_of_lt {chars : Text} {d : ℕ} (h : d < chars.length) :
    digitChar chars d = chars.getD d 0 := by
  rw [digitChar, List.getD_eq_getElem?_getD, List.getD_eq_getElem?_getD,
    List.getElem?_append_left h]

theorem encoded_of_fits (hroom : numDigits base.toNat n.toNat < buf.length)
    (hfits : base.toNat ^ numDigits base.toNat n.toNat < 2 ^ 64) : Encoded inventory n buf := by
  have hbuf : buf ≠ [] := List.ne_nil_of_length_pos (by omega)
  obtain ⟨fuel, digits, hcanonical, hrun⟩ := baseXEncode_of_fits inventory hbuf hfits
  have hlt : ∀ d ∈ digits, d < inventory.chars.length :=
    fun d hd => (hcanonical.digit_lt d hd).trans_le inventory.base_le
  rw [← hcanonical.length_eq inventory.one_lt_toNat] at hroom
  obtain ⟨pos, hput⟩ := putDigits_eq [] (fun d hd => (hlt d hd).le) hcanonical.ne_nil hroom
  refine ⟨fuel, digits, _, hcanonical, hrun.trans hput, ?_⟩
  rw [List.nil_append, List.map_congr_left fun d hd => digitChar_of_lt (hlt d hd)]

theorem refused_of_fits (hroom : buf.length < numDigits base.toNat n.toNat)
    (hfits : base.toNat ^ numDigits base.toNat n.toNat < 2 ^ 64) : Refused inventory n buf := by
  by_cases hbuf : buf = []
  · subst hbuf
    exact ⟨0, ⟨[], 0⟩, rfl⟩
  · obtain ⟨fuel, digits, hcanonical, hrun⟩ := baseXEncode_of_fits inventory hbuf hfits
    rw [← hcanonical.length_eq inventory.one_lt_toNat] at hroom
    have hle : ∀ d ∈ digits, d ≤ inventory.chars.length :=
      fun d hd => ((hcanonical.digit_lt d hd).trans_le inventory.base_le).le
    obtain ⟨s, hput⟩ := putDigits_refused [] hle hbuf hroom
    exact ⟨fuel, s, hrun.trans hput⟩

/-! ### Overflow -/

theorem getD_ne_nul (inventory : DigitInventory base) {d : ℕ} (h : d < inventory.chars.length) :
    inventory.chars.getD d 0 ≠ 0 := by
  intro hzero
  rw [List.getD_eq_getElem _ _ h] at hzero
  exact inventory.no_nul (hzero ▸ List.getElem_mem h)

/-- A character stands for one digit only. -/
theorem digitChar_inj (inventory : DigitInventory base) {q d : ℕ} (hq : q ≤ inventory.chars.length)
    (hd : d < inventory.chars.length)
    (h : digitChar inventory.chars q = inventory.chars.getD d 0) : q = d := by
  rcases Nat.eq_or_lt_of_le hq with rfl | hlt
  · have hnul : digitChar inventory.chars inventory.chars.length = 0 := by simp [digitChar]
    rw [hnul] at h
    exact absurd h.symm (getD_ne_nul inventory hd)
  · rw [digitChar_of_lt hlt, List.getD_eq_getElem _ _ hlt, List.getD_eq_getElem _ _ hd] at h
    exact (inventory.nodup.getElem_inj_iff).mp h

/-- The digits can be read back, up to the NUL. -/
theorem digits_eq (inventory : DigitInventory base) {qs digits : List ℕ} {X Y : Text}
    (hqs : ∀ q ∈ qs, q ≤ inventory.chars.length)
    (hdigits : ∀ d ∈ digits, d < inventory.chars.length) (hlen : qs.length ≤ digits.length)
    (h : qs.map (digitChar inventory.chars) ++ 0 :: X =
      digits.map (fun d => inventory.chars.getD d 0) ++ 0 :: Y) : qs = digits := by
  induction qs generalizing digits with
  | nil =>
    cases digits with
    | nil => rfl
    | cons d digits =>
      have hzero : 0 = inventory.chars.getD d 0 := (List.cons.inj h).1
      exact absurd hzero.symm (getD_ne_nul inventory (hdigits d List.mem_cons_self))
  | cons q qs ih =>
    cases digits with
    | nil => cases hlen
    | cons d digits =>
      obtain ⟨hhead, htail⟩ := List.cons.inj h
      rw [digitChar_inj inventory (hqs q List.mem_cons_self) (hdigits d List.mem_cons_self) hhead,
        ih (fun q hq => hqs q (List.mem_cons_of_mem _ hq))
          (fun d hd => hdigits d (List.mem_cons_of_mem _ hd)) (Nat.le_of_succ_le_succ hlen) htail]

/-- **Overflow.** Where the power of the base above the number does not fit, its digits are not
written. -/
theorem not_encoded_of_overflow (hroom : numDigits base.toNat n.toNat < buf.length)
    (hover : 2 ^ 64 ≤ base.toNat ^ numDigits base.toNat n.toNat) : ¬ Encoded inventory n buf := by
  rintro ⟨fuel, digits, s, hcanonical, hrun, hbytes⟩
  have hbase := inventory.one_lt_toNat
  have hbuf : buf ≠ [] := List.ne_nil_of_length_pos (by omega)
  rw [baseXEncode_eq hbuf] at hrun
  have hloops : (findMultiple n base fuel base >>= fun multiple =>
      encodeDigits inventory.chars base fuel n (multiple / base)).wp ⟨buf, 0⟩
      (fun b _ s' => ∃ r es, encodeDigits inventory.chars base fuel n (r / base) ⟨buf, 0⟩ =
        ⟨es, s', .returned b⟩) (fun _ _ _ => True) fun _ => True := by
    simp only [Gen.wp_bind]
    refine findMultiple_spec.imp (fun r _ s' h => ?_) (fun _ _ _ h => h.elim) fun _ h => h
    obtain ⟨rfl, -⟩ := h
    exact Gen.wp_run.imp (fun b es s'' h => ⟨r, es, h⟩) (fun _ _ _ h => h) fun _ h => h
  obtain ⟨r, es, hencode⟩ := hloops.returned hrun
  -- the multiple is below the leading power of the base
  have hsmall : (r / base).toNat < base.toNat ^ Nat.log base.toNat n.toNat := by
    rw [UInt64.toNat_div]
    exact div_lt_pow hbase ((UInt64.toNat_lt r).trans_le hover)
  have hlarge : base.toNat ≤ n.toNat := by
    by_contra hlt
    rw [numDigits, Nat.log_of_lt (not_le.mp hlt), Nat.zero_add, Nat.pow_one] at hover
    exact absurd (UInt64.toNat_lt base) (not_lt.mpr hover)
  set qs := quotients base.toNat fuel n.toNat (r / base).toNat with hqs
  have hput : putDigits inventory.chars qs ⟨buf, 0⟩ = ⟨es, s, .returned true⟩ := by
    rcases encodeDigits_eq_or_hung inventory.chars base fuel n (r / base) ⟨buf, 0⟩ with heq | hung
    · rw [← heq, hencode]
    · rw [hencode] at hung
      cases hung
  have hle := (putDigits_readable _).returned hput rfl
  have hlen : qs.length ≤ numDigits base.toNat n.toNat := length_quotients_le hbase hsmall
  obtain ⟨pos, hput'⟩ := putDigits_eq [] hle (quotients_ne_nil _ _ _ _)
    (hlen.trans_lt hroom)
  have hs : s.bytes = qs.map (digitChar inventory.chars) ++ 0 :: buf.drop (qs.length + 1) := by
    rw [show s = _ from congrArg Trace.state (hput.symm.trans hput'), List.nil_append]
  rw [hbytes] at hs
  have hnot : ¬ Canonical base.toNat n.toNat qs := not_canonical_quotients hbase hlarge hsmall
  refine hnot ?_
  rw [digits_eq inventory hle (fun d hd => (hcanonical.digit_lt d hd).trans_le
    inventory.base_le) ?_ hs.symm]
  · exact hcanonical
  · rwa [hcanonical.length_eq hbase]

/-- **Numbers in any base.** For every number and every inventory of digits, `base_x_encode` writes
the digits into every buffer with room for them and a NUL, and refuses every buffer with less room
than they need, if and only if the power of the base above the number fits into 64 bits. -/
theorem baseXEncode_iff (inventory : DigitInventory base) (n : UInt64) :
    (∀ buf : Text, (numDigits base.toNat n.toNat < buf.length → Encoded inventory n buf) ∧
      (buf.length < numDigits base.toNat n.toNat → Refused inventory n buf)) ↔
      base.toNat ^ numDigits base.toNat n.toNat < 2 ^ 64 := by
  constructor
  · intro h
    by_contra hover
    set buf := List.replicate (numDigits base.toNat n.toNat + 1) (0 : UInt8) with hbuf
    have hroom : numDigits base.toNat n.toNat < buf.length := by
      rw [hbuf, List.length_replicate]
      exact Nat.lt_succ_self _
    exact not_encoded_of_overflow hroom (not_lt.mp hover) ((h buf).1 hroom)
  · intro hfits buf
    exact ⟨fun hroom => encoded_of_fits hroom hfits, fun hroom => refused_of_fits hroom hfits⟩

/-- The digits of binary numbers. -/
def binaryDigits : DigitInventory 2 :=
  ⟨bytes ['0', '1'], by decide, by decide, by decide, by decide⟩

/-- The sixty-four digits of `2 ^ 63` are not written. -/
theorem baseXEncode_overflows : ∃ buf : Text,
    numDigits (2 : UInt64).toNat (0x8000000000000000 : UInt64).toNat < buf.length ∧
      ¬ Encoded binaryDigits 0x8000000000000000 buf := by
  have hn : (0x8000000000000000 : UInt64).toNat = 2 ^ 63 := rfl
  have hdigits : numDigits (2 : UInt64).toNat (0x8000000000000000 : UInt64).toNat = 64 := by
    rw [hn, show (2 : UInt64).toNat = 2 from rfl, numDigits, Nat.log_pow (by decide)]
  have hroom : numDigits (2 : UInt64).toNat (0x8000000000000000 : UInt64).toNat <
      (List.replicate 65 (0 : UInt8)).length := by
    rw [hdigits, List.length_replicate]
    decide
  refine ⟨_, hroom, not_encoded_of_overflow hroom ?_⟩
  rw [hdigits]
  decide

end Encoding

end Intent.Old
