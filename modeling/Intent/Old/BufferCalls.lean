import Intent.Old.EscapeSequence

/-!
# Calls on one buffer

The append functions take a position and a number of available bytes by reference, and one call
after the other is made with the same two variables. `Accounted` is what a call owes to the next
one: if it succeeds, the position moves behind the bytes that it wrote and their number is taken
off the available ones, and if it fails, both stay. As long as every call is accounted for, nothing
is written outside of the buffer (`Accounted.inside`).

The code owes it. `add_codepoint_to_utf8` moves the position only, `cat_codepoint_to_utf8` takes
off the byte of the NUL only, and `advance_and_return_true` adds where it should subtract. What is
left are the calls that fail for lack of room, and codepoints above `MAX_UNICODE_CHAR`, of which
nothing is written (`accounted_iff`).
-/

namespace Intent.Old

namespace Buffer

/-- `cat_codepoint_to_utf8`. -/
def catCodepointToUtf8 (b : Buffer) (cp : ℕ) : Bool × Buffer :=
  if b.bufLength ≠ 0 then
    let r := { b with bufLength := b.bufLength - 1 }.addCodepointToUtf8 cp
    if r.1 then (true, r.2.put [0]) else (false, b)
  else (false, b)

end Buffer

/-- A call of one of the append functions. -/
inductive AppendCall where
  | addCodepointToUtf8 (cp : ℕ)
  | catCodepointToUtf8 (cp : ℕ)
  | addEscapeSequence (cp : ℕ)
  | addUtf8OrEscapeSequence (cp : ℕ)

namespace AppendCall

/-- The result of a call, and the buffer after it. -/
def result : AppendCall → Buffer → Bool × Buffer
  | addCodepointToUtf8 cp, b => b.addCodepointToUtf8 cp
  | catCodepointToUtf8 cp, b => b.catCodepointToUtf8 cp
  | addEscapeSequence cp, b => b.addEscapeSequence cp
  | addUtf8OrEscapeSequence cp, b => b.addUtf8OrEscapeSequence cp

/-- The room that `add_codepoint_to_utf8` asks for. -/
def utf8Room (cp : ℕ) : ℕ :=
  if cp < 0x80 then 1
  else if cp < 0x800 then 2
  else if cp < 0x10000 then 3
  else if cp < 0x110000 then 4
  else 1

/-- The room that a call asks for. -/
def room : AppendCall → ℕ
  | addCodepointToUtf8 cp => utf8Room cp
  | catCodepointToUtf8 cp => utf8Room cp + 1
  | addEscapeSequence cp =>
    if cp < 0x20 ∧ (oneCharEscapeOf cp).isSome then 2
    else if cp ≤ 0x7F then 5
    else if cp ≤ 0xFFFF then 6
    else 10
  | addUtf8OrEscapeSequence cp =>
    if cp < 0x80 then
      if cp < 0x20 then if cp ≠ 0 ∧ (oneCharEscapeOf cp).isSome then 2 else 5
      else if cp = 0x5C ∨ cp = 0x22 ∨ cp = 0x27 then 2
      else if cp = 0x7F then 4
      else 1
    else if cp ≤ 0xFFFF then 6
    else 10

/-- A call of `add_codepoint_to_utf8` or `cat_codepoint_to_utf8` with no codepoint of Unicode. -/
def BeyondUnicode : AppendCall → Prop
  | addCodepointToUtf8 cp => maxUnicodeChar < cp
  | catCodepointToUtf8 cp => maxUnicodeChar < cp
  | addEscapeSequence _ => False
  | addUtf8OrEscapeSequence _ => False

end AppendCall

namespace Buffer

/-- A call did its accounting: behind a success the position and the number of available bytes
moved by the bytes written, behind a failure both are as before. -/
def Accounted (b : Buffer) (r : Bool × Buffer) : Prop :=
  if r.1 then
    ∃ p w, b.buf = some p ∧ r.2.memory = overwrite b.memory p w ∧
      r.2.buf = some (p + w.length) ∧ r.2.bufLength + w.length = b.bufLength
  else r.2.memory = b.memory ∧ r.2.buf = b.buf ∧ r.2.bufLength = b.bufLength

/-- The position and the available bytes are in the buffer of `n` bytes at `start`, and the memory
around it is as it was. -/
structure Inside (memory : List UInt8) (start n : ℕ) (b : Buffer) : Prop where
  cursor : ∃ p, b.buf = some p ∧ start ≤ p ∧ p + b.bufLength = start + n
  length_eq : b.memory.length = memory.length
  before : b.memory.take start = memory.take start
  behind : b.memory.drop (start + n) = memory.drop (start + n)

/-- What a call owes: it is accounted for, and leaves the memory around the buffer of `n` bytes at
`start` as it was. -/
def Correct (memory : List UInt8) (start n : ℕ) (b : Buffer) (c : AppendCall) : Prop :=
  b.Accounted (c.result b) ∧ (c.result b).2.memory.length = memory.length ∧
    (c.result b).2.memory.take start = memory.take start ∧
    (c.result b).2.memory.drop (start + n) = memory.drop (start + n)

/-- A property of every call in a sequence, with the state of the buffer before it. -/
def Calls (P : Buffer → AppendCall → Prop) : Buffer → List AppendCall → Prop
  | _, [] => True
  | b, c :: cs => P b c ∧ Calls P (c.result b).2 cs

/-! ### Accounting is enough -/

section Inside

variable {memory : List UInt8} {start n : ℕ} {b : Buffer} {r : Bool × Buffer}

theorem overwrite_take {w : List UInt8} {p k : ℕ} (hp : p ≤ memory.length) (hk : k ≤ p) :
    (overwrite memory p w).take k = memory.take k := by
  rw [overwrite, List.append_assoc, List.take_append_of_le_length, List.take_take,
    Nat.min_eq_left hk]
  rw [List.length_take]
  omega

theorem overwrite_drop {w : List UInt8} {p k : ℕ} (hp : p ≤ memory.length)
    (hk : p + w.length ≤ k) : (overwrite memory p w).drop k = memory.drop k := by
  have hlen : (memory.take p ++ w).length = p + w.length := by
    rw [List.length_append, List.length_take, Nat.min_eq_left hp]
  obtain ⟨m, rfl⟩ := Nat.exists_eq_add_of_le hk
  rw [overwrite, ← List.drop_drop, List.drop_left' hlen, List.drop_drop]

/-- **No byte outside of the buffer** is written by a call that is accounted for. -/
theorem Accounted.inside (h : b.Accounted r) (hb : b.Inside memory start n)
    (hmem : start + n ≤ memory.length) : r.2.Inside memory start n := by
  obtain ⟨⟨p, hp, hstart, hend⟩, hlen, hbefore, hbehind⟩ := hb
  rw [Accounted] at h
  split_ifs at h with hok
  · obtain ⟨q, w, hq, hmemory, hbuf, hleft⟩ := h
    obtain rfl : p = q := Option.some.inj (hp.symm.trans hq)
    have hroom : p + w.length ≤ b.memory.length := by omega
    refine ⟨⟨p + w.length, hbuf, by omega, by omega⟩, ?_, ?_, ?_⟩
    · rw [hmemory, (overwrite_spec hroom).2, hlen]
    · rw [hmemory, overwrite_take (by omega) hstart, hbefore]
    · rw [hmemory, overwrite_drop (by omega) (by omega), hbehind]
  · obtain ⟨hmemory, hbuf, hleft⟩ := h
    exact ⟨⟨p, hbuf.trans hp, hstart, by omega⟩, hmemory ▸ hlen, hmemory ▸ hbefore,
      hmemory ▸ hbehind⟩

end Inside

/-! ### What one call does -/

section Call

variable {b : Buffer} {p cp : ℕ}

/-- A successful call whose two variables do not fit together. -/
theorem not_accounted {r : Bool × Buffer} {k : ℕ} (hp : b.buf = some p) (hok : r.1 = true)
    (hbuf : r.2.buf = some (p + k)) (hne : r.2.bufLength + k ≠ b.bufLength) : ¬ b.Accounted r := by
  intro h
  rw [Accounted, if_pos hok] at h
  obtain ⟨q, w, hq, -, hbuf', hleft⟩ := h
  have hsome : p + k = q + w.length := Option.some.inj (hbuf.symm.trans hbuf')
  have hstart : p = q := Option.some.inj (hp.symm.trans hq)
  omega

theorem accounted_of_failure (b : Buffer) : b.Accounted (false, b) := ⟨rfl, rfl, rfl⟩

/-- `add_codepoint_to_utf8` fails, or it leaves the available bytes alone. -/
theorem addCodepointToUtf8_cases (hp : b.buf = some p) (cp : ℕ) :
    b.bufLength < AppendCall.utf8Room cp ∧ b.addCodepointToUtf8 cp = (false, b) ∨
      AppendCall.utf8Room cp ≤ b.bufLength ∧ b.addCodepointToUtf8 cp =
        (true, if cp < 0x110000 then b.put (utf8Bytes cp) else b) := by
  have hpos : 1 ≤ AppendCall.utf8Room cp := by
    unfold AppendCall.utf8Room
    split_ifs <;> decide
  by_cases hroom : b.bufLength < 1
  · refine .inl ⟨by omega, ?_⟩
    rw [addCodepointToUtf8, if_pos (.inr hroom)]
  · have hnot : ¬ (b.buf = none ∨ b.bufLength < 1) := by
      rw [hp, not_or]
      exact ⟨by simp, hroom⟩
    unfold AppendCall.utf8Room addCodepointToUtf8 utf8Bytes
    rw [if_neg hnot]
    split_ifs <;> first | exact .inl ⟨by omega, rfl⟩ | exact .inr ⟨by omega, rfl⟩ | omega

theorem put_buf (hp : b.buf = some p) (w : List UInt8) :
    (b.put w).buf = some (p + w.length) := by
  rw [put, hp]

theorem put_bufLength (b : Buffer) (w : List UInt8) : (b.put w).bufLength = b.bufLength := by
  rw [put]
  split <;> rfl

theorem utf8Bytes_ne_nil (h : cp < 0x110000) : 0 < (utf8Bytes cp).length := by
  unfold utf8Bytes
  split_ifs <;> exact Nat.zero_lt_succ _

theorem overwrite_nil (memory : List UInt8) (p : ℕ) : overwrite memory p [] = memory := by
  rw [overwrite, List.append_nil, List.length_nil, Nat.add_zero, List.take_append_drop]

theorem addCodepoint_accounted_iff (hp : b.buf = some p) (cp : ℕ) :
    b.Accounted (b.addCodepointToUtf8 cp) ↔
      b.bufLength < AppendCall.utf8Room cp ∨ maxUnicodeChar < cp := by
  rcases addCodepointToUtf8_cases hp cp with ⟨hroom, heq⟩ | ⟨hroom, heq⟩
  · rw [heq]
    exact iff_of_true b.accounted_of_failure (.inl hroom)
  · rw [heq]
    by_cases hcp : cp < 0x110000
    · rw [if_pos hcp]
      have hpos := utf8Bytes_ne_nil hcp
      refine iff_of_false (not_accounted hp rfl (put_buf hp _) ?_) ?_
      · rw [put_bufLength]
        omega
      · rw [maxUnicodeChar]
        omega
    · rw [if_neg hcp]
      refine iff_of_true ⟨p, [], hp, (overwrite_nil _ p).symm, hp, rfl⟩ (.inr ?_)
      rw [maxUnicodeChar]
      omega

theorem catCodepoint_accounted_iff (hp : b.buf = some p) (cp : ℕ) :
    b.Accounted (b.catCodepointToUtf8 cp) ↔
      b.bufLength < AppendCall.utf8Room cp + 1 ∨ maxUnicodeChar < cp := by
  rw [catCodepointToUtf8]
  by_cases hzero : b.bufLength = 0
  · rw [if_neg (not_not_intro hzero)]
    exact iff_of_true b.accounted_of_failure (.inl (by omega))
  rw [if_pos hzero]
  obtain ⟨hroom, heq⟩ | ⟨hroom, heq⟩ :=
    @addCodepointToUtf8_cases { b with bufLength := b.bufLength - 1 } p hp cp
  · rw [heq]
    exact iff_of_true b.accounted_of_failure (.inl (by dsimp only at hroom; omega))
  · rw [heq]
    dsimp only at hroom
    by_cases hcp : cp < 0x110000
    · -- the bytes of the codepoint are not taken off
      have hpos := utf8Bytes_ne_nil hcp
      simp only [if_pos hcp, if_true]
      refine iff_of_false (not_accounted (k := (utf8Bytes cp).length + 1) hp rfl ?_ ?_) ?_
      · have hput := put_buf (b := { b with bufLength := b.bufLength - 1 }) hp (utf8Bytes cp)
        exact put_buf hput [0]
      · rw [put_bufLength, put_bufLength]
        dsimp only
        omega
      · rw [maxUnicodeChar]
        omega
    · simp only [if_neg hcp, if_true]
      have hput := put_buf (b := { b with bufLength := b.bufLength - 1 }) hp [0]
      refine iff_of_true ⟨p, [0], hp, ?_, hput, ?_⟩ (.inr ?_)
      · rw [put, hp]
      · rw [put_bufLength, List.length_singleton]
        exact Nat.sub_add_cancel (Nat.pos_of_ne_zero hzero)
      · rw [maxUnicodeChar]
        omega

/-- A call that fails, or ends in `advance_and_return_true`. -/
def FailsOrGrows (b : Buffer) (room : ℕ) (r : Bool × Buffer) : Prop :=
  b.bufLength < room ∧ r = (false, b) ∨
    room ≤ b.bufLength ∧ ∃ (b' : Buffer) (k : ℕ), 0 < k ∧ b'.buf = b.buf ∧
      b'.bufLength = b.bufLength ∧ r = b'.advanceAndReturnTrue k

theorem FailsOrGrows.accounted_result_of_room {room : ℕ} {r : Bool × Buffer}
    (h : b.FailsOrGrows room r) (hp : b.buf = some p) : b.Accounted r ↔ b.bufLength < room := by
  obtain ⟨hroom, rfl⟩ | ⟨hroom, b', k, hk, hbuf, hlen, rfl⟩ := h
  · exact iff_of_true b.accounted_of_failure hroom
  · refine iff_of_false (not_accounted (k := k) hp rfl ?_ ?_) (by omega)
    · rw [advanceAndReturnTrue, hbuf, hp]
      rfl
    · rw [advanceAndReturnTrue, hlen]
      dsimp only
      omega

theorem store_same (b : Buffer) (bs : Text) :
    (b.store bs).buf = b.buf ∧ (b.store bs).bufLength = b.bufLength := by
  rw [store]
  split <;> exact ⟨rfl, rfl⟩

theorem snprintf_same (b : Buffer) (bs : Text) :
    (b.snprintf bs).buf = b.buf ∧ (b.snprintf bs).bufLength = b.bufLength := by
  rw [snprintf]
  split_ifs
  · exact ⟨rfl, rfl⟩
  · exact store_same b _

/-- The shape of every branch of the escape writers. -/
theorem failsOrGrows_ite {room k : ℕ} {b' : Buffer} (hk : 0 < k)
    (h : b'.buf = b.buf ∧ b'.bufLength = b.bufLength) :
    b.FailsOrGrows room
      (if b.bufLength ≥ room then b'.advanceAndReturnTrue k else (false, b)) := by
  split_ifs with hroom
  · exact .inr ⟨hroom, b', k, hk, h.1, h.2, rfl⟩
  · exact .inl ⟨by omega, rfl⟩

theorem write2byteSequence_failsOrGrows (b : Buffer) (c : UInt8) :
    b.FailsOrGrows 2 (b.write2byteSequence c) :=
  failsOrGrows_ite (by decide) (b.store_same _)

theorem writeX_failsOrGrows (b : Buffer) (cp : ℕ) : b.FailsOrGrows 5 (b.writeX cp) :=
  failsOrGrows_ite (by decide) (b.snprintf_same _)

theorem writeU_failsOrGrows (b : Buffer) (cp : ℕ) :
    b.FailsOrGrows (if cp ≤ 0xFFFF then 6 else 10) (b.writeU cp) := by
  rw [writeU]
  by_cases hcp : cp ≤ 0xFFFF
  · rw [if_pos hcp, if_pos hcp]
    exact failsOrGrows_ite (k := 6) (by decide) (b.snprintf_same _)
  · rw [if_neg hcp, if_neg hcp]
    exact failsOrGrows_ite (k := 10) (by decide) (b.snprintf_same _)

theorem addEscapeSequence_failsOrGrows (b : Buffer) (cp : ℕ) :
    b.FailsOrGrows (AppendCall.addEscapeSequence cp).room (b.addEscapeSequence cp) := by
  rw [addEscapeSequence, AppendCall.room]
  cases hone : (if cp < 0x20 then oneCharEscapeOf cp else none) with
  | some c =>
    have hletter : cp < 0x20 ∧ (oneCharEscapeOf cp).isSome := by
      split_ifs at hone with hcp
      exact ⟨hcp, Option.isSome_of_mem hone⟩
    rw [if_pos hletter]
    exact b.write2byteSequence_failsOrGrows c
  | none =>
    have hletter : ¬ (cp < 0x20 ∧ (oneCharEscapeOf cp).isSome) := by
      rintro ⟨hcp, hsome⟩
      rw [if_pos hcp] at hone
      rw [hone] at hsome
      exact Bool.false_ne_true hsome
    rw [if_neg hletter]
    dsimp only
    by_cases hcp : cp ≤ 0x7F
    · rw [if_pos hcp, if_pos hcp]
      exact b.writeX_failsOrGrows cp
    · rw [if_neg hcp, if_neg hcp]
      exact b.writeU_failsOrGrows cp

theorem addUtf8OrEscapeSequence_failsOrGrows (hp : b.buf = some p) (cp : ℕ) :
    b.FailsOrGrows (AppendCall.addUtf8OrEscapeSequence cp).room (b.addUtf8OrEscapeSequence cp) := by
  by_cases hroom : b.bufLength < 1
  · have hpos : 1 ≤ (AppendCall.addUtf8OrEscapeSequence cp).room := by
      rw [AppendCall.room]
      split_ifs <;> decide
    rw [addUtf8OrEscapeSequence, if_pos (.inr hroom)]
    exact .inl ⟨by omega, rfl⟩
  rw [addUtf8OrEscapeSequence, if_neg (by rw [hp, not_or]; exact ⟨by simp, hroom⟩),
    AppendCall.room]
  by_cases hascii : cp < 0x80
  · rw [if_pos hascii, if_pos hascii]
    by_cases hcontrol : cp < 0x20
    · rw [if_pos hcontrol, if_pos hcontrol]
      cases hone : (if cp ≠ 0 then oneCharEscapeOf cp else none) with
      | some c =>
        have hletter : cp ≠ 0 ∧ (oneCharEscapeOf cp).isSome := by
          split_ifs at hone with hzero
          exact ⟨hzero, Option.isSome_of_mem hone⟩
        rw [if_pos hletter]
        exact b.write2byteSequence_failsOrGrows c
      | none =>
        have hletter : ¬ (cp ≠ 0 ∧ (oneCharEscapeOf cp).isSome) := by
          rintro ⟨hzero, hsome⟩
          rw [if_pos hzero] at hone
          rw [hone] at hsome
          exact Bool.false_ne_true hsome
        rw [if_neg hletter]
        exact b.writeX_failsOrGrows cp
    · rw [if_neg hcontrol, if_neg hcontrol]
      by_cases hquote : cp = 0x5C ∨ cp = 0x22 ∨ cp = 0x27
      · rw [if_pos hquote, if_pos hquote]
        exact b.write2byteSequence_failsOrGrows _
      rw [if_neg hquote, if_neg hquote]
      by_cases hdel : cp = 0x7F
      · rw [if_pos hdel, if_pos hdel]
        exact failsOrGrows_ite (k := 4) (by decide) (b.store_same _)
      · rw [if_neg hdel, if_neg hdel]
        obtain ⟨hbuf, hlen⟩ := b.store_same [UInt8.ofNat cp]
        exact .inr ⟨by omega, _, 1, by decide, hbuf, hlen, rfl⟩
  · rw [if_neg hascii, if_neg hascii]
    exact b.writeU_failsOrGrows cp

/-- **One call** is accounted for if it fails, or if it is about no codepoint of Unicode. -/
theorem accounted_result_iff (hp : b.buf = some p) (c : AppendCall) :
    b.Accounted (c.result b) ↔ b.bufLength < c.room ∨ c.BeyondUnicode := by
  cases c with
  | addCodepointToUtf8 cp => exact addCodepoint_accounted_iff hp cp
  | catCodepointToUtf8 cp => exact catCodepoint_accounted_iff hp cp
  | addEscapeSequence cp =>
    rw [AppendCall.BeyondUnicode, or_false]
    exact (b.addEscapeSequence_failsOrGrows cp).accounted_result_of_room hp
  | addUtf8OrEscapeSequence cp =>
    rw [AppendCall.BeyondUnicode, or_false]
    exact (addUtf8OrEscapeSequence_failsOrGrows hp cp).accounted_result_of_room hp

end Call

/-! ### Runs -/

section Calls

variable {P Q : Buffer → AppendCall → Prop} {memory : List UInt8} {start n : ℕ} {b : Buffer}

/-- Two properties of calls that agree as long as the buffer is kept. -/
theorem calls_iff (hiff : ∀ s c, s.Inside memory start n → (P s c ↔ Q s c))
    (hkeep : ∀ s c, s.Inside memory start n → Q s c → (c.result s).2.Inside memory start n)
    (cs : List AppendCall) : ∀ {b : Buffer}, b.Inside memory start n →
      (b.Calls P cs ↔ b.Calls Q cs) := by
  induction cs with
  | nil => exact fun _ => Iff.rfl
  | cons c cs ih =>
    intro b hb
    constructor
    · rintro ⟨hP, hrest⟩
      have hQ := (hiff b c hb).mp hP
      exact ⟨hQ, (ih (hkeep b c hb hQ)).mp hrest⟩
    · rintro ⟨hQ, hrest⟩
      exact ⟨(hiff b c hb).mpr hQ, (ih (hkeep b c hb hQ)).mpr hrest⟩

/-- **The accounting of a sequence of calls.** All calls on a buffer of `n` bytes at `start` are
accounted for, and none writes outside of the buffer, if and only if each of them finds less room
than it asks for, or is about no codepoint of Unicode. -/
theorem accounted_iff (hb : b.buf = some start) (hmem : start + b.bufLength ≤ b.memory.length)
    (cs : List AppendCall) :
    b.Calls (Correct b.memory start b.bufLength) cs ↔
      b.Calls (fun s c => s.bufLength < c.room ∨ c.BeyondUnicode) cs := by
  have hkeep : ∀ (s : Buffer) (c : AppendCall), s.Inside b.memory start b.bufLength →
      s.bufLength < c.room ∨ c.BeyondUnicode →
      (c.result s).2.Inside b.memory start b.bufLength := by
    intro s c hs hc
    obtain ⟨p, hp, -⟩ := hs.cursor
    exact ((accounted_result_iff hp c).mpr hc).inside hs hmem
  refine calls_iff (fun s c hs => ?_) hkeep cs
    (⟨⟨start, hb, le_rfl, rfl⟩, rfl, rfl, rfl⟩ : b.Inside b.memory start b.bufLength)
  obtain ⟨p, hp, -⟩ := hs.cursor
  rw [Correct, accounted_result_iff hp c]
  refine ⟨And.left, fun hc => ⟨hc, ?_⟩⟩
  obtain ⟨-, hlen, hbefore, hbehind⟩ := hkeep s c hs hc
  exact ⟨hlen, hbefore, hbehind⟩

/-- Calls on a buffer of three bytes: there is no room for four, a number that is no codepoint takes
one, and then there is no room for five or four. -/
theorem accounted_three_bytes :
    Calls (Correct [1, 0, 0, 0, 2] 1 3) ⟨[1, 0, 0, 0, 2], some 1, 3⟩
      [.addCodepointToUtf8 0x1F600, .catCodepointToUtf8 0x110000, .addEscapeSequence 0x41,
        .catCodepointToUtf8 0x20AC] :=
  (accounted_iff (b := ⟨[1, 0, 0, 0, 2], some 1, 3⟩) rfl (by decide) _).mpr
    ⟨.inl (by decide), .inr (show maxUnicodeChar < 0x110000 by decide), .inl (by decide),
      .inl (by decide), trivial⟩

/-- Two letters for a buffer of one byte: the number of available bytes stays, and the second one
is written behind the buffer. -/
theorem add_twice_overflows :
    let b : Buffer := ⟨[0, 0xFF], some 0, 1⟩
    let r := b.addCodepointToUtf8 0x61
    r = (true, ⟨[0x61, 0xFF], some 1, 1⟩) ∧
      r.2.addCodepointToUtf8 0x62 = (true, ⟨[0x61, 0x62], some 2, 1⟩) ∧
      ¬ b.Calls (Correct b.memory 0 1) [.addCodepointToUtf8 0x61, .addCodepointToUtf8 0x62] := by
  refine ⟨rfl, rfl, fun h => ?_⟩
  exact not_accounted (k := 1) rfl rfl rfl (by decide) h.1.1

end Calls

end Buffer

end Intent.Old
