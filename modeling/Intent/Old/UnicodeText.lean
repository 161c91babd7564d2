import Intent.Old.Unicode

/-!
# Writing and walking UTF-8

`add_codepoint_to_utf8` writes a codepoint where a pointer stands and moves the pointer; four
functions walk over what was written: the decoder, `next_utf8_char`, the counter
`count_codepoints_in_utf8` and the two searches `find_codepoint_in_utf8`. A walker gets the
text from its position on, and answers with a distance from there.

* `utf8Bytes` is what is written for one codepoint, `encodeUtf8` for a list of them;
* `getCodepoint_utf8Bytes` and `nextUtf8Char_utf8Bytes` are the step lemmas: at a boundary, the
  decoder and the skipper both move to the next one;
* `utf8_round_trip` puts the writer and the walkers together, over whole lists.
-/

namespace Intent.Old

/-! ### The writer -/

/-- A position in a writable array (`char *& buf`, where `none` is the null pointer) and the
number of bytes that the caller says are available there. -/
structure Buffer where
  memory : List UInt8
  buf : Option ℕ
  bufLength : ℕ
  deriving DecidableEq, Repr

/-- An array after some bytes were stored at an offset. -/
def overwrite (memory : List UInt8) (p : ℕ) (bs : List UInt8) : List UInt8 :=
  memory.take p ++ bs ++ memory.drop (p + bs.length)

namespace Buffer

/-- `*buf++ = c`, for every byte of a list. -/
def put (b : Buffer) (bs : List UInt8) : Buffer :=
  match b.buf with
  | none => b
  | some p => { b with memory := overwrite b.memory p bs, buf := some (p + bs.length) }

/-- `add_codepoint_to_utf8`. It leaves `buf_length` alone, and a codepoint above
`MAX_UNICODE_CHAR` writes nothing and is no failure. -/
def addCodepointToUtf8 (b : Buffer) (cp : ℕ) : Bool × Buffer :=
  if b.buf = none ∨ b.bufLength < 1 then (false, b)
  else if cp < 0x80 then (true, b.put [UInt8.ofNat cp])
  else if cp < 0x800 then
    if b.bufLength < 2 then (false, b)
    else (true, b.put [UInt8.ofNat (cp >>> 6 ||| 0xC0), UInt8.ofNat (cp &&& 0x3F ||| 0x80)])
  else if cp < 0x10000 then
    if b.bufLength < 3 then (false, b)
    else (true, b.put [UInt8.ofNat (cp >>> 12 ||| 0xE0),
      UInt8.ofNat (cp >>> 6 &&& 0x3F ||| 0x80), UInt8.ofNat (cp &&& 0x3F ||| 0x80)])
  else if cp < 0x110000 then
    if b.bufLength < 4 then (false, b)
    else (true, b.put [UInt8.ofNat (cp >>> 18 ||| 0xF0),
      UInt8.ofNat (cp >>> 12 &&& 0x3F ||| 0x80), UInt8.ofNat (cp >>> 6 &&& 0x3F ||| 0x80),
      UInt8.ofNat (cp &&& 0x3F ||| 0x80)])
  else (true, b)

/-- One call of a writer for every codepoint of a list. -/
def addAll (add : Buffer → ℕ → Bool × Buffer) (b : Buffer) (cps : List ℕ) : Buffer :=
  cps.foldl (fun b cp => (add b cp).2) b

end Buffer

/-! ### The walkers -/

/-- `is_utf8_lead_byte`. -/
def isUtf8LeadByte (c : UInt8) : Bool := decide (0xC2 ≤ c ∧ c ≤ 0xF4)

/-- The condition of the loop in `next_utf8_char_inline`. -/
def isSkipped (c : UInt8) : Bool := decide (0x80 ≤ c) && !isUtf8LeadByte c

/-- `next_utf8_char`: the distance to the next byte after the first that is not skipped. -/
def nextUtf8Char (txt : List UInt8) : ℕ := ((txt.drop 1).takeWhile isSkipped).length + 1

/-- `get_codepoint_from_utf8`, from one codepoint to the next until a NUL: the codepoints, and
where the NUL is. -/
def codepointsOf (utf8 : List UInt8) : List ℕ × ℕ :=
  if byteAt utf8 0 = 0 then ([], 0)
  else
    let r := getCodepointFromUtf8 utf8
    let rest := codepointsOf (utf8.drop r.2)
    (r.1 :: rest.1, r.2 + rest.2)
termination_by utf8.length
decreasing_by
  rename_i h
  have hpos := getCodepointFromUtf8_pos utf8
  have hlen : 0 < utf8.length := List.length_pos_of_ne_nil fun hnil => h (by rw [hnil]; rfl)
  rw [List.length_drop]
  omega

/-- `count_codepoints_in_utf8`, up to `fin` bytes ahead. -/
def countCodepointsInUtf8 (utf8 : List UInt8) (fin : ℕ) : ℕ :=
  if 0 < fin then
    let d := (getCodepointFromUtf8 utf8).2
    countCodepointsInUtf8 (utf8.drop d) (fin - d) + 1
  else 0
termination_by fin
decreasing_by
  have hpos := getCodepointFromUtf8_pos utf8
  omega

/-- The loop of `find_codepoint_in_utf8` on a NUL-terminated string. -/
def findLoop (utf8 : List UInt8) (cp : ℕ) : Option ℕ :=
  if byteAt utf8 0 = 0 then none
  else
    let r := getCodepointFromUtf8 utf8
    if cp = r.1 then some 0 else (findLoop (utf8.drop r.2) cp).map (r.2 + ·)
termination_by utf8.length
decreasing_by
  rename_i h _
  have hpos := getCodepointFromUtf8_pos utf8
  have hlen : 0 < utf8.length := List.length_pos_of_ne_nil fun hnil => h (by rw [hnil]; rfl)
  rw [List.length_drop]
  omega

/-- The loop of `find_codepoint_in_utf8` up to `fin` bytes ahead. -/
def findLoopBefore (utf8 : List UInt8) (fin cp : ℕ) : Option ℕ :=
  if 0 < fin then
    let r := getCodepointFromUtf8 utf8
    if cp = r.1 then some 0 else (findLoopBefore (utf8.drop r.2) (fin - r.2) cp).map (r.2 + ·)
  else none
termination_by fin
decreasing_by
  have hpos := getCodepointFromUtf8_pos utf8
  omega

/-- `find_codepoint_in_utf8` without an end. -/
def findCodepointInUtf8 : Option (List UInt8) → ℕ → Option ℕ
  | none, _ => none
  | some utf8, cp => findLoop utf8 cp

/-- `find_codepoint_in_utf8` with an end. -/
def findCodepointInUtf8Before : Option (List UInt8) → ℕ → ℕ → Option ℕ
  | none, _, _ => none
  | some utf8, fin, cp => findLoopBefore utf8 fin cp

/-! ### What is written -/

/-- The bytes of a codepoint. -/
def utf8Bytes (cp : ℕ) : List UInt8 :=
  if cp < 0x80 then [UInt8.ofNat cp]
  else if cp < 0x800 then
    [UInt8.ofNat (cp >>> 6 ||| 0xC0), UInt8.ofNat (cp &&& 0x3F ||| 0x80)]
  else if cp < 0x10000 then
    [UInt8.ofNat (cp >>> 12 ||| 0xE0), UInt8.ofNat (cp >>> 6 &&& 0x3F ||| 0x80),
      UInt8.ofNat (cp &&& 0x3F ||| 0x80)]
  else if cp < 0x110000 then
    [UInt8.ofNat (cp >>> 18 ||| 0xF0), UInt8.ofNat (cp >>> 12 &&& 0x3F ||| 0x80),
      UInt8.ofNat (cp >>> 6 &&& 0x3F ||| 0x80), UInt8.ofNat (cp &&& 0x3F ||| 0x80)]
  else []

/-- The bytes of a list of codepoints. -/
def encodeUtf8 (cps : List ℕ) : List UInt8 := cps.flatMap utf8Bytes

/-- The codepoints that are not NUL. -/
def IsCodepoint (cp : ℕ) : Prop := 1 ≤ cp ∧ cp ≤ maxUnicodeChar

instance (cp : ℕ) : Decidable (IsCodepoint cp) := inferInstanceAs (Decidable (_ ∧ _))


/-- The low six bits with the mark of a continuation byte. -/
private theorem trail_toNat (n : ℕ) :
    (UInt8.ofNat (n &&& 0x3F ||| 0x80)).toNat = n % 64 + 0x80 := by
  have hmask : n &&& 0x3F = n % 64 := Nat.and_two_pow_sub_one_eq_mod n 6
  have hlt : n % 64 < 2 ^ 6 := Nat.mod_lt _ (by decide)
  rw [hmask, Nat.or_comm]
  rw [show 0x80 = 2 <<< 6 from rfl, ← Nat.shiftLeft_add_eq_or_of_lt hlt, UInt8.toNat_ofNat']
  simp only [Nat.reduceShiftLeft, Nat.reducePow]
  omega

private theorem trail_trail (n : ℕ) : Trail (UInt8.ofNat (n &&& 0x3F ||| 0x80)) := by
  have := trail_toNat n
  exact ⟨by omega, by omega⟩

/-- The high bits with the mark of a lead byte, which ends in `k` clear bits. -/
private theorem lead_toNat {n k m : ℕ} (hn : n < 2 ^ k) (hsum : m <<< k + n < 256) :
    (UInt8.ofNat (n ||| m <<< k)).toNat = m <<< k + n := by
  rw [Nat.or_comm, ← Nat.shiftLeft_add_eq_or_of_lt hn, UInt8.toNat_ofNat']
  exact Nat.mod_eq_of_lt hsum

private theorem lead_two {cp : ℕ} (h : cp < 0x800) :
    (UInt8.ofNat (cp >>> 6 ||| 0xC0)).toNat = 0xC0 + cp / 64 := by
  rw [Nat.shiftRight_eq_div_pow]
  exact @lead_toNat (cp / 64) 5 6 (by omega) (by omega)

private theorem lead_three {cp : ℕ} (h : cp < 0x10000) :
    (UInt8.ofNat (cp >>> 12 ||| 0xE0)).toNat = 0xE0 + cp / 4096 := by
  rw [Nat.shiftRight_eq_div_pow]
  exact @lead_toNat (cp / 4096) 4 14 (by omega) (by omega)

private theorem lead_four {cp : ℕ} (h : cp < 0x110000) :
    (UInt8.ofNat (cp >>> 18 ||| 0xF0)).toNat = 0xF0 + cp / 262144 := by
  rw [Nat.shiftRight_eq_div_pow]
  exact @lead_toNat (cp / 262144) 3 30 (by omega) (by omega)

/-- **Packing.** The four lengths of an encoding: the ranges of its bytes, and the codepoint
that they hold together. -/
inductive Packed (cp : ℕ) : List UInt8 → Prop where
  | one {a : UInt8} : InRange 0x01 0x7F a → a.toNat = cp → Packed cp [a]
  | two {a b : UInt8} : InRange 0xC2 0xDF a → Trail b →
      (a.toNat - 0xC0) * 64 + (b.toNat - 0x80) = cp → Packed cp [a, b]
  | three {a b c : UInt8} : InRange 0xE0 0xEF a → Trail b → Trail c →
      ((a.toNat - 0xE0) * 64 + (b.toNat - 0x80)) * 64 + (c.toNat - 0x80) = cp →
      Packed cp [a, b, c]
  | four {a b c d : UInt8} : InRange 0xF0 0xF4 a → Trail b → Trail c → Trail d →
      (((a.toNat - 0xF0) * 64 + (b.toNat - 0x80)) * 64 + (c.toNat - 0x80)) * 64 +
        (d.toNat - 0x80) = cp → Packed cp [a, b, c, d]

theorem packed_utf8Bytes {cp : ℕ} (hcp : IsCodepoint cp) : Packed cp (utf8Bytes cp) := by
  obtain ⟨hpos, hmax⟩ := hcp
  unfold maxUnicodeChar at hmax
  have low := trail_toNat cp
  have middle : (UInt8.ofNat (cp >>> 6 &&& 0x3F ||| 0x80)).toNat = cp / 64 % 64 + 0x80 := by
    rw [trail_toNat, Nat.shiftRight_eq_div_pow]
  have high : (UInt8.ofNat (cp >>> 12 &&& 0x3F ||| 0x80)).toNat = cp / 4096 % 64 + 0x80 := by
    rw [trail_toNat, Nat.shiftRight_eq_div_pow]
  -- with the bytes as quotients and remainders, every case is linear
  unfold utf8Bytes
  split_ifs with h₁ h₂ h₃ h₄
  · have hone : (UInt8.ofNat cp).toNat = cp := by
      rw [UInt8.toNat_ofNat']
      omega
    exact .one ⟨by omega, by omega⟩ hone
  · have lead := lead_two h₂
    exact .two ⟨by omega, by omega⟩ (trail_trail _) (by omega)
  · have lead := lead_three h₃
    exact .three ⟨by omega, by omega⟩ (trail_trail _) (trail_trail _) (by omega)
  · have lead := lead_four h₄
    exact .four ⟨by omega, by omega⟩ (trail_trail _) (trail_trail _) (trail_trail _) (by omega)
  · omega

/-- **One step of the decoder.** -/
theorem getCodepoint_utf8Bytes {cp : ℕ} (hcp : IsCodepoint cp) (txt : List UInt8) :
    getCodepointFromUtf8 (utf8Bytes cp ++ txt) = (cp, (utf8Bytes cp).length) := by
  have hp := packed_utf8Bytes hcp
  generalize utf8Bytes cp = s at hp
  cases hp with
  | one ha h => rw [List.singleton_append, getCodepoint_one ha, h, List.length_singleton]
  | two ha hb h =>
    simp only [List.cons_append, List.nil_append]
    rw [getCodepoint_two ha, byteAt_cons_zero, if_pos hb, h]
    rfl
  | three ha hb hc h =>
    simp only [List.cons_append, List.nil_append]
    rw [getCodepoint_three ha, byteAt_cons_zero, byteAt_cons_succ, byteAt_cons_zero, if_pos hb,
      if_pos hc, h]
    rfl
  | four ha hb hc hd h =>
    simp only [List.cons_append, List.nil_append]
    rw [getCodepoint_four ha, byteAt_cons_zero, byteAt_cons_succ, byteAt_cons_zero,
      byteAt_cons_succ, byteAt_cons_succ, byteAt_cons_zero, if_pos hb, if_pos hc, if_pos hd, h,
      if_neg (Nat.not_lt.mpr hcp.2)]
    rfl

theorem isSkipped_of_trail {c : UInt8} (hc : Trail c) : isSkipped c = true := by
  obtain ⟨h₁, h₂⟩ := hc
  simp only [isSkipped, isUtf8LeadByte, UInt8.le_iff_toNat_le, UInt8.reduceToNat,
    Bool.and_eq_true, decide_eq_true_eq, Bool.not_eq_true', decide_eq_false_iff_not]
  omega

theorem not_isSkipped_of_first {c : UInt8} (hc : InRange 0x01 0x7F c ∨ InRange 0xC2 0xF4 c) :
    isSkipped c = false ∧ c ≠ 0 := by
  have hnat : 1 ≤ c.toNat ∧ (c.toNat ≤ 0x7F ∨ 0xC2 ≤ c.toNat ∧ c.toNat ≤ 0xF4) := by
    rcases hc with ⟨h₁, h₂⟩ | ⟨h₁, h₂⟩ <;> omega
  refine ⟨?_, fun hzero => ?_⟩
  · simp only [isSkipped, isUtf8LeadByte, UInt8.le_iff_toNat_le, UInt8.reduceToNat,
      Bool.and_eq_false_iff, Bool.not_eq_false', decide_eq_true_eq, decide_eq_false_iff_not]
    omega
  · rw [hzero] at hnat
    exact absurd hnat.1 (by decide)

/-- A first byte that is not skipped, and bytes that are. -/
theorem Packed.shape {cp : ℕ} {s : List UInt8} (h : Packed cp s) :
    ∃ a rest, s = a :: rest ∧ a ≠ 0 ∧ isSkipped a = false ∧ ∀ c ∈ rest, isSkipped c = true := by
  cases h with
  | one ha _ =>
    obtain ⟨h₁, h₂⟩ := not_isSkipped_of_first (.inl ha)
    exact ⟨_, [], rfl, h₂, h₁, List.forall_mem_nil _⟩
  | two ha hb _ =>
    obtain ⟨h₁, h₂⟩ := not_isSkipped_of_first (.inr (ha.mono le_rfl (by decide)))
    exact ⟨_, [_], rfl, h₂, h₁, by simp [isSkipped_of_trail hb]⟩
  | three ha hb hc _ =>
    obtain ⟨h₁, h₂⟩ := not_isSkipped_of_first (.inr (ha.mono (by decide) (by decide)))
    exact ⟨_, [_, _], rfl, h₂, h₁, by simp [isSkipped_of_trail hb, isSkipped_of_trail hc]⟩
  | four ha hb hc hd _ =>
    obtain ⟨h₁, h₂⟩ := not_isSkipped_of_first (.inr (ha.mono (by decide) le_rfl))
    refine ⟨_, [_, _, _], rfl, h₂, h₁, ?_⟩
    simp [isSkipped_of_trail hb, isSkipped_of_trail hc, isSkipped_of_trail hd]

/-! ### Whole strings -/

section Strings

variable {cps : List ℕ}

theorem encodeUtf8_cons (cp : ℕ) (cps : List ℕ) :
    encodeUtf8 (cp :: cps) = utf8Bytes cp ++ encodeUtf8 cps := List.flatMap_cons

theorem encodeUtf8_append (cps cps' : List ℕ) :
    encodeUtf8 (cps ++ cps') = encodeUtf8 cps ++ encodeUtf8 cps' := List.flatMap_append

/-- Where the codepoint with index `k` begins. -/
def boundary (cps : List ℕ) (k : ℕ) : ℕ := (encodeUtf8 (cps.take k)).length

theorem takeWhile_encodeUtf8 (h : ∀ cp ∈ cps, IsCodepoint cp) :
    (encodeUtf8 cps).takeWhile isSkipped = [] := by
  cases cps with
  | nil => rfl
  | cons cp cps =>
    obtain ⟨a, rest, hs, -, ha, -⟩ := (packed_utf8Bytes (h cp List.mem_cons_self)).shape
    rw [encodeUtf8_cons, hs, List.cons_append, List.takeWhile_cons, ha]
    rfl

/-- **One step of the skipper.** -/
theorem nextUtf8Char_utf8Bytes {cp : ℕ} (hcp : IsCodepoint cp)
    (h : ∀ cp ∈ cps, IsCodepoint cp) :
    nextUtf8Char (utf8Bytes cp ++ encodeUtf8 cps) = (utf8Bytes cp).length := by
  obtain ⟨a, rest, hs, -, -, hrest⟩ := (packed_utf8Bytes hcp).shape
  rw [hs, nextUtf8Char, List.cons_append, List.drop_succ_cons, List.drop_zero,
    List.takeWhile_append_of_pos hrest, takeWhile_encodeUtf8 h, List.append_nil,
    List.length_cons]

/-- **One step of any walker.** It does not see a NUL, decodes the first codepoint and goes on
with the rest. -/
theorem walk_cons {cp : ℕ} (hcp : IsCodepoint cp) (cps : List ℕ) :
    byteAt (encodeUtf8 (cp :: cps)) 0 ≠ 0 ∧
      getCodepointFromUtf8 (encodeUtf8 (cp :: cps)) = (cp, (utf8Bytes cp).length) ∧
      (encodeUtf8 (cp :: cps)).drop (utf8Bytes cp).length = encodeUtf8 cps ∧
      0 < (utf8Bytes cp).length := by
  obtain ⟨a, rest, hs, hzero, -, -⟩ := (packed_utf8Bytes hcp).shape
  rw [encodeUtf8_cons]
  refine ⟨?_, getCodepoint_utf8Bytes hcp _, List.drop_left, ?_⟩
  · rw [hs]
    exact hzero
  · rw [hs]
    exact Nat.succ_pos _

theorem codepointsOf_encodeUtf8 (h : ∀ cp ∈ cps, IsCodepoint cp) :
    codepointsOf (encodeUtf8 cps) = (cps, (encodeUtf8 cps).length) := by
  induction cps with
  | nil =>
    rw [codepointsOf]
    rfl
  | cons cp cps ih =>
    obtain ⟨hcp, hcps⟩ := List.forall_mem_cons.mp h
    obtain ⟨hzero, hget, hdrop, -⟩ := walk_cons hcp cps
    rw [codepointsOf, if_neg hzero]
    simp only [hget, hdrop, ih hcps]
    rw [encodeUtf8_cons, List.length_append]

theorem countCodepointsInUtf8_encodeUtf8 (h : ∀ cp ∈ cps, IsCodepoint cp) :
    countCodepointsInUtf8 (encodeUtf8 cps) (encodeUtf8 cps).length = cps.length := by
  induction cps with
  | nil =>
    rw [countCodepointsInUtf8]
    rfl
  | cons cp cps ih =>
    obtain ⟨hcp, hcps⟩ := List.forall_mem_cons.mp h
    obtain ⟨-, hget, hdrop, hpos⟩ := walk_cons hcp cps
    have hlen : (encodeUtf8 (cp :: cps)).length =
        (utf8Bytes cp).length + (encodeUtf8 cps).length := by
      rw [encodeUtf8_cons, List.length_append]
    rw [countCodepointsInUtf8, if_pos (by omega)]
    simp only [hget, hdrop, hlen, Nat.add_sub_cancel_left, ih hcps, List.length_cons]

theorem boundary_succ (cp : ℕ) (cps : List ℕ) (k : ℕ) :
    boundary (cp :: cps) (k + 1) = (utf8Bytes cp).length + boundary cps k := by
  rw [boundary, List.take_succ_cons, encodeUtf8_cons, List.length_append, boundary]

/-- The answer of a search: the boundary of the first occurrence. -/
private theorem idxOf?_boundary {cp c : ℕ} (hne : ¬ cp = c) (cps : List ℕ) :
    ((c :: cps).idxOf? cp).map (boundary (c :: cps)) =
      ((cps.idxOf? cp).map (boundary cps)).map ((utf8Bytes c).length + ·) := by
  rw [List.idxOf?_cons, if_neg (by simpa using Ne.symm hne), Option.map_map, Option.map_map]
  congr 1
  funext k
  exact boundary_succ c cps k

theorem findLoop_encodeUtf8 (h : ∀ cp ∈ cps, IsCodepoint cp) (cp : ℕ) :
    findLoop (encodeUtf8 cps) cp = (cps.idxOf? cp).map (boundary cps) := by
  induction cps with
  | nil =>
    rw [findLoop]
    rfl
  | cons c cps ih =>
    obtain ⟨hc, hcps⟩ := List.forall_mem_cons.mp h
    obtain ⟨hzero, hget, hdrop, -⟩ := walk_cons hc cps
    rw [findLoop, if_neg hzero]
    simp only [hget, hdrop, ih hcps]
    split_ifs with heq
    · rw [heq, List.idxOf?_cons]
      simp [boundary, encodeUtf8]
    · rw [idxOf?_boundary heq]

theorem findLoopBefore_encodeUtf8 (h : ∀ cp ∈ cps, IsCodepoint cp) (cp : ℕ) :
    findLoopBefore (encodeUtf8 cps) (encodeUtf8 cps).length cp =
      (cps.idxOf? cp).map (boundary cps) := by
  induction cps with
  | nil =>
    rw [findLoopBefore]
    rfl
  | cons c cps ih =>
    obtain ⟨hc, hcps⟩ := List.forall_mem_cons.mp h
    obtain ⟨-, hget, hdrop, hpos⟩ := walk_cons hc cps
    have hlen : (encodeUtf8 (c :: cps)).length =
        (utf8Bytes c).length + (encodeUtf8 cps).length := by
      rw [encodeUtf8_cons, List.length_append]
    rw [findLoopBefore, if_pos (by omega)]
    simp only [hget, hdrop, hlen, Nat.add_sub_cancel_left, ih hcps]
    split_ifs with heq
    · rw [heq, List.idxOf?_cons]
      simp [boundary, encodeUtf8]
    · rw [idxOf?_boundary heq]

theorem nextUtf8Char_boundary (h : ∀ cp ∈ cps, IsCodepoint cp) {k : ℕ} (hk : k < cps.length) :
    boundary cps k + nextUtf8Char ((encodeUtf8 cps).drop (boundary cps k)) =
      boundary cps (k + 1) := by
  induction cps generalizing k with
  | nil => exact absurd hk (Nat.not_lt_zero k)
  | cons cp cps ih =>
    obtain ⟨hcp, hcps⟩ := List.forall_mem_cons.mp h
    cases k with
    | zero =>
      -- the bytes that are skipped are the continuation bytes of the first codepoint
      have hnext := nextUtf8Char_utf8Bytes hcp hcps
      rw [← encodeUtf8_cons] at hnext
      rw [boundary_succ]
      simp only [boundary, List.take_zero, encodeUtf8, List.flatMap_nil, List.length_nil,
        List.drop_zero, Nat.zero_add, Nat.add_zero]
      exact hnext
    | succ k =>
      have hrest := ih hcps (Nat.lt_of_succ_lt_succ hk)
      have hdrop : (encodeUtf8 (cp :: cps)).drop ((utf8Bytes cp).length + boundary cps k) =
          (encodeUtf8 cps).drop (boundary cps k) := by
        rw [encodeUtf8_cons, ← List.drop_drop, List.drop_left]
      rw [boundary_succ, boundary_succ, ← hrest, hdrop, Nat.add_assoc]

end Strings

/-! ### Writing into a buffer -/

namespace Buffer

/-- Between two states of a buffer, `w` was written at its position, which moved behind `w`. -/
def Writes (b : Buffer) (w : List UInt8) (b' : Buffer) : Prop :=
  ∃ p, b.buf = some p ∧ b'.buf = some (p + w.length) ∧
    b'.memory.take (p + w.length) = b.memory.take p ++ w ∧ b'.memory.length = b.memory.length

theorem Writes.refl {b : Buffer} {p : ℕ} (h : b.buf = some p) : b.Writes [] b :=
  ⟨p, h, h, by simp, rfl⟩

theorem Writes.append {b b' b'' : Buffer} {w w' : List UInt8} (h : b.Writes w b')
    (h' : b'.Writes w' b'') : b.Writes (w ++ w') b'' := by
  obtain ⟨p, hp, hp', hmem, hlen⟩ := h
  obtain ⟨q, hq, hq', hmem', hlen'⟩ := h'
  obtain rfl : p + w.length = q := Option.some.inj (hp'.symm.trans hq)
  refine ⟨p, hp, ?_, ?_, hlen'.trans hlen⟩
  · rw [hq', List.length_append, Nat.add_assoc]
  · rw [List.length_append, ← Nat.add_assoc, hmem', hmem, List.append_assoc]

theorem overwrite_spec {memory w : List UInt8} {p : ℕ} (h : p + w.length ≤ memory.length) :
    (overwrite memory p w).take (p + w.length) = memory.take p ++ w ∧
      (overwrite memory p w).length = memory.length := by
  have hlen : (memory.take p ++ w).length = p + w.length := by
    rw [List.length_append, List.length_take]
    omega
  constructor
  · rw [overwrite, List.take_append_of_le_length hlen.ge, List.take_of_length_le hlen.le]
  · rw [overwrite, List.length_append, hlen, List.length_drop]
    omega

theorem put_writes {b : Buffer} {p : ℕ} {w : List UInt8} (hp : b.buf = some p)
    (h : p + w.length ≤ b.memory.length) : b.Writes w (b.put w) := by
  obtain ⟨h₁, h₂⟩ := overwrite_spec h
  rw [put, hp]
  exact ⟨p, hp, rfl, h₁, h₂⟩

/-- **A list of codepoints.** A writer that needs `n` bytes of room, and `e` bytes of the array
behind what it writes, writes a list codepoint by codepoint. -/
theorem addAll_writes {add : Buffer → ℕ → Bool × Buffer} {f : ℕ → List UInt8} {n e : ℕ}
    {cps : List ℕ}
    (hadd : ∀ (b : Buffer) (p : ℕ), ∀ cp ∈ cps, b.buf = some p → n ≤ b.bufLength →
      p + (f cp).length + e ≤ b.memory.length →
      b.Writes (f cp) (add b cp).2 ∧ n ≤ (add b cp).2.bufLength) :
    ∀ (b : Buffer) (p : ℕ), b.buf = some p → n ≤ b.bufLength →
      p + (cps.flatMap f).length + e ≤ b.memory.length →
      b.Writes (cps.flatMap f) (b.addAll add cps) := by
  induction cps with
  | nil => exact fun b p hp _ _ => .refl hp
  | cons cp cps ih =>
    intro b p hp hn hroom
    rw [List.flatMap_cons, List.length_append] at hroom
    obtain ⟨hw, hn'⟩ := hadd b p cp List.mem_cons_self hp hn (by omega)
    -- the room that is left behind the first codepoint is enough for the others
    obtain ⟨q, hq, hq', -, hlen⟩ := id hw
    obtain rfl : p = q := Option.some.inj (hp.symm.trans hq)
    have hrest := ih (fun b p c hc => hadd b p c (List.mem_cons_of_mem _ hc)) (add b cp).2 _ hq'
      hn' (by omega)
    rw [List.flatMap_cons]
    exact hw.append hrest

theorem addCodepointToUtf8_of_room {b : Buffer} (hp : b.buf ≠ none) (h : 4 ≤ b.bufLength)
    (cp : ℕ) : b.addCodepointToUtf8 cp =
      (true, if cp < 0x110000 then b.put (utf8Bytes cp) else b) := by
  have hroom : ¬ (b.buf = none ∨ b.bufLength < 1) := by
    rw [not_or]
    exact ⟨hp, by omega⟩
  unfold addCodepointToUtf8 utf8Bytes
  rw [if_neg hroom, if_neg (by omega : ¬ b.bufLength < 2), if_neg (by omega : ¬ b.bufLength < 3),
    if_neg (by omega : ¬ b.bufLength < 4)]
  split_ifs <;> first | rfl | omega

end Buffer

/-- **Round trip.** For every list of codepoints, surrogates included: a buffer with room gets
their bytes one after the other, the decoder reads the list back and stops at the NUL,
`next_utf8_char` moves from boundary to boundary, the counter counts the list, and the searches
find the boundary of the first occurrence. -/
theorem utf8_round_trip (cps : List ℕ) (h : ∀ cp ∈ cps, 1 ≤ cp ∧ cp ≤ 0x10FFFF) :
    (∀ (b : Buffer) (p : ℕ), b.buf = some p → 4 ≤ b.bufLength →
      p + (encodeUtf8 cps).length ≤ b.memory.length →
      b.Writes (encodeUtf8 cps) (b.addAll Buffer.addCodepointToUtf8 cps)) ∧
    codepointsOf (encodeUtf8 cps) = (cps, (encodeUtf8 cps).length) ∧
    (∀ k, k < cps.length →
      boundary cps k + nextUtf8Char ((encodeUtf8 cps).drop (boundary cps k)) =
        boundary cps (k + 1)) ∧
    countCodepointsInUtf8 (encodeUtf8 cps) (encodeUtf8 cps).length = cps.length ∧
    (∀ cp, findCodepointInUtf8 (some (encodeUtf8 cps)) cp =
      (cps.idxOf? cp).map (boundary cps)) ∧
    ∀ cp, findCodepointInUtf8Before (some (encodeUtf8 cps)) (encodeUtf8 cps).length cp =
      (cps.idxOf? cp).map (boundary cps) := by
  refine ⟨fun b p hp hn hroom => ?_, codepointsOf_encodeUtf8 h,
    fun k hk => nextUtf8Char_boundary h hk, countCodepointsInUtf8_encodeUtf8 h,
    findLoop_encodeUtf8 h, findLoopBefore_encodeUtf8 h⟩
  refine @Buffer.addAll_writes _ utf8Bytes 4 0 cps (fun b p cp hcp hp hn hroom => ?_) b p hp hn
    hroom
  have hlt : cp < 0x110000 := Nat.lt_succ_of_le (h cp hcp).2
  rw [Buffer.addCodepointToUtf8_of_room (by simp [hp]) hn, if_pos hlt]
  refine ⟨Buffer.put_writes hp hroom, ?_⟩
  rw [Buffer.put, hp]
  exact hn

/-- The round trip of `a`, a surrogate and the last codepoint. -/
theorem utf8_round_trip_three :
    (∀ cp ∈ [0x61, 0xD800, 0x10FFFF], 1 ≤ cp ∧ cp ≤ 0x10FFFF) ∧
      codepointsOf (encodeUtf8 [0x61, 0xD800, 0x10FFFF]) = ([0x61, 0xD800, 0x10FFFF], 8) :=
  have h : ∀ cp ∈ [0x61, 0xD800, 0x10FFFF], 1 ≤ cp ∧ cp ≤ 0x10FFFF := by simp
  ⟨h, (utf8_round_trip [0x61, 0xD800, 0x10FFFF] h).2.1⟩

end Intent.Old
