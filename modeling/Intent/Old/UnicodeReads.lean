import Intent.Library.Gen
import Intent.Old.UnicodeText
import Mathlib.Data.List.GetD

/-!
# Which bytes the walkers read

Here the decoder and the loops over it run on a memory, and every byte that they look at is
recorded: a run yields the addresses in the order in which they were read. The decoder looks up to
three bytes ahead, and an address past the terminator would be a read beyond the string.

A string in the memory is a `HoldsString`, and the runs on it are those of the functions on lists
(`getCodepointAt_spec`, `findCodepointAt_spec`, `isWellFormedAt_spec`), so that what is known of the
functions on lists holds of the runs. `walks_safely` puts the facts about the addresses together.
-/

namespace Intent.Old

/-! ### The walkers on a memory -/

/-- A computation that reads memory: it yields the addresses it reads. -/
abbrev Reading (ε α : Type) := Gen Unit ℕ ε α

section Walkers

variable {ε : Type} (mem : ℕ → UInt8)

/-- `*p`. -/
def readByte (p : ℕ) : Reading ε UInt8 := do
  Gen.emit p
  pure (mem p)

/-- The macro `or_continuation_byte`, with the byte at `utf8` next: a byte that is no continuation
byte is the address that the function returns. -/
def orContinuationByteAt (utf8 cp : ℕ) : Reading ℕ ℕ := do
  let c ← readByte mem utf8
  if isUtf8ContinuationByte c then pure (cp <<< 6 ||| (c &&& 0x3F).toNat) else Gen.raise utf8

/-- `get_codepoint_from_utf8` behind its test for a null pointer: the codepoint, and the address of
the next one. -/
def getCodepointAt (utf8 : ℕ) : Reading ε (ℕ × ℕ) :=
  Gen.handle (do
    let c ← readByte mem utf8
    match predictLengthOfCodepointFromLeadByte c with
    | 1 => pure (c.toNat, utf8 + 1)
    | 2 => do
      let cp ← orContinuationByteAt mem (utf8 + 1) (c &&& 0x1F).toNat
      pure (cp, utf8 + 2)
    | 3 => do
      let cp ← orContinuationByteAt mem (utf8 + 1) (c &&& 0x0F).toNat
      let cp ← orContinuationByteAt mem (utf8 + 2) cp
      pure (cp, utf8 + 3)
    | 4 => do
      let cp ← orContinuationByteAt mem (utf8 + 1) (c &&& 0x07).toNat
      let cp ← orContinuationByteAt mem (utf8 + 2) cp
      let cp ← orContinuationByteAt mem (utf8 + 3) cp
      if cp > maxUnicodeChar then pure (unicodeReplacementChar, utf8 + 4 - 3)
      else pure (cp, utf8 + 4)
    | _ => pure (unicodeReplacementChar, utf8 + 1))
    fun next => pure (unicodeReplacementChar, next)

/-- The loop of `find_codepoint_in_utf8` on a NUL-terminated string. -/
def findCodepointAt (cp : ℕ) : ℕ → ℕ → Reading ε (Option ℕ)
  | 0, _ => Gen.hang
  | fuel + 1, utf8 => do
    let c ← readByte mem utf8
    if c = 0 then pure none
    else do
      let found ← getCodepointAt mem utf8
      if cp = found.1 then pure (some utf8) else findCodepointAt cp fuel found.2

/-- The loop of `find_codepoint_in_utf8` up to `fin`. -/
def findCodepointBeforeAt (fin cp : ℕ) : ℕ → ℕ → Reading ε (Option ℕ)
  | 0, _ => Gen.hang
  | fuel + 1, utf8 =>
    if utf8 ≥ fin then pure none
    else do
      let found ← getCodepointAt mem utf8
      if cp = found.1 then pure (some utf8) else findCodepointBeforeAt fin cp fuel found.2

/-- The loop of `is_well_formed_utf8`. -/
def isWellFormedAt : ℕ → ℕ → Reading ε Bool
  | 0, _ => Gen.hang
  | fuel + 1, txt => do
    let c ← readByte mem txt
    if c = 0 then pure true
    else do
      let next ← getCodepointAt mem txt
      if acceptsCodepoint next.1 (next.2 - txt) then isWellFormedAt fuel next.2 else pure false

end Walkers

/-! ### Strings in the memory -/

/-- The bytes of a string are at `p`, with the first NUL behind them. -/
def HoldsString (mem : ℕ → UInt8) (p : ℕ) (txt : List UInt8) : Prop :=
  0 ∉ txt ∧ ∀ k ≤ txt.length, mem (p + k) = byteAt txt k

section Strings

variable {mem : ℕ → UInt8} {p k : ℕ} {txt : List UInt8}

theorem HoldsString.drop (h : HoldsString mem p txt) (hk : k ≤ txt.length) :
    HoldsString mem (p + k) (txt.drop k) := by
  refine ⟨fun h0 => h.1 (List.mem_of_mem_drop h0), fun l hl => ?_⟩
  rw [List.length_drop] at hl
  rw [Nat.add_assoc, h.2 (k + l) (by omega), byteAt, byteAt, List.getD_eq_getElem?_getD,
    List.getD_eq_getElem?_getD, List.getElem?_drop]

theorem byteAt_eq_zero_iff (h : HoldsString mem p txt) : byteAt txt k = 0 ↔ txt.length ≤ k := by
  rw [byteAt]
  constructor
  · intro h0
    by_contra hlt
    rw [List.getD_eq_getElem _ _ (by omega)] at h0
    exact h.1 (h0 ▸ List.getElem_mem _)
  · exact fun hle => List.getD_eq_default _ _ hle

/-- A run on the string from `p` on that follows a computation on the list, and reads nothing
behind the terminator. -/
def Agrees (p n : ℕ) (x : Except ℕ (ℕ × ℕ)) (g : Reading ℕ (ℕ × ℕ)) : Prop :=
  g.wp ()
    (fun r reads _ => ∃ d, x = .ok (r.1, d) ∧ r.2 = p + d ∧ d ≤ n ∧ ∀ a ∈ reads, a ≤ p + n)
    (fun e reads _ => ∃ d, x = .error d ∧ e = p + d ∧ d ≤ n ∧ ∀ a ∈ reads, a ≤ p + n)
    fun _ => False

theorem agrees_pure {n cp d q : ℕ} (hq : q = p + d) (hd : d ≤ n) :
    Agrees p n (pure (cp, d)) (pure (cp, q)) :=
  ⟨d, rfl, hq, hd, List.forall_mem_nil _⟩

/-- **One more byte.** It is read no further than the terminator, and if it is a continuation byte
it is not the terminator. -/
theorem agrees_orContinuation (h : HoldsString mem p txt) (hk : k ≤ txt.length) {cp : ℕ}
    {x : ℕ → Except ℕ (ℕ × ℕ)} {g : ℕ → Reading ℕ (ℕ × ℕ)}
    (hrest : k + 1 ≤ txt.length → ∀ cp, Agrees p txt.length (x cp) (g cp)) :
    Agrees p txt.length (orContinuationByte txt k cp >>= x)
      (orContinuationByteAt mem (p + k) cp >>= g) := by
  have hbyte := h.2 k hk
  rw [Agrees, orContinuationByteAt, readByte]
  simp only [Gen.wp_bind, Gen.wp_emit, Gen.wp_pure, Gen.wp_ite, Gen.wp_raise, hbyte]
  rw [orContinuationByte]
  constructor
  · intro hcont
    have hne : byteAt txt k ≠ 0 := by
      intro h0
      rw [h0] at hcont
      exact absurd hcont (by decide)
    have hlt : k + 1 ≤ txt.length := by
      have := mt (byteAt_eq_zero_iff h).mpr hne
      omega
    have hreads : ∀ reads : List ℕ, (∀ a ∈ reads, a ≤ p + txt.length) →
        ∀ a ∈ [p + k] ++ [] ++ [] ++ reads, a ≤ p + txt.length := by
      intro reads hle
      exact List.forall_mem_cons.mpr ⟨Nat.add_le_add_left hk p, hle⟩
    rw [if_pos hcont]
    refine (hrest hlt _).imp ?_ ?_ fun _ hf => hf
    · rintro r reads _ ⟨d, hx, hr, hd, hle⟩
      exact ⟨d, hx, hr, hd, hreads reads hle⟩
    · rintro e reads _ ⟨d, hx, he, hd, hle⟩
      exact ⟨d, hx, he, hd, hreads reads hle⟩
  · intro hcont
    rw [if_neg hcont]
    refine ⟨k, rfl, rfl, hk, ?_⟩
    exact List.forall_mem_cons.mpr ⟨Nat.add_le_add_left hk p, List.forall_mem_nil _⟩

/-! ### Runs that return -/

/-- The run returns this value, and reads no address behind `last`. -/
def ReturnsWithin {ε α : Type} (m : Reading ε α) (a : α) (last : ℕ) : Prop :=
  ∃ reads, m () = ⟨reads, (), .returned a⟩ ∧ ∀ q ∈ reads, q ≤ last

section ReturnsWithin

variable {ε α β : Type} {a : α} {b : β} {last : ℕ} {m : Reading ε α} {f : α → Reading ε β}

theorem returnsWithin_pure : ReturnsWithin (pure a : Reading ε α) a last :=
  ⟨[], rfl, List.forall_mem_nil _⟩

theorem returnsWithin_readByte (h : p ≤ last) :
    ReturnsWithin (readByte mem p : Reading ε UInt8) (mem p) last :=
  ⟨[p], rfl, List.forall_mem_singleton.mpr h⟩

theorem ReturnsWithin.bind (h : ReturnsWithin m a last) (h' : ReturnsWithin (f a) b last) :
    ReturnsWithin (m >>= f) b last := by
  obtain ⟨reads, hm, hle⟩ := h
  obtain ⟨reads', hf, hle'⟩ := h'
  refine ⟨reads ++ reads', ?_, List.forall_mem_append.mpr ⟨hle, hle'⟩⟩
  rw [Gen.bind_of_returned hm, hf]
  rfl

end ReturnsWithin

/-! ### The walkers on a string -/

variable {ε : Type}

/-- The body of the decoder, behind the first byte. -/
theorem agrees_decoder (h : HoldsString mem p txt) (hne : txt ≠ []) :
    ∃ x, getCodepointFromUtf8 txt = decodedOrReplacement x ∧ Agrees p txt.length x
      (match predictLengthOfCodepointFromLeadByte (byteAt txt 0) with
      | 1 => pure ((byteAt txt 0).toNat, p + 1)
      | 2 => do
        let cp ← orContinuationByteAt mem (p + 1) (byteAt txt 0 &&& 0x1F).toNat
        pure (cp, p + 2)
      | 3 => do
        let cp ← orContinuationByteAt mem (p + 1) (byteAt txt 0 &&& 0x0F).toNat
        let cp ← orContinuationByteAt mem (p + 2) cp
        pure (cp, p + 3)
      | 4 => do
        let cp ← orContinuationByteAt mem (p + 1) (byteAt txt 0 &&& 0x07).toNat
        let cp ← orContinuationByteAt mem (p + 2) cp
        let cp ← orContinuationByteAt mem (p + 3) cp
        if cp > maxUnicodeChar then pure (unicodeReplacementChar, p + 4 - 3)
        else pure (cp, p + 4)
      | _ => pure (unicodeReplacementChar, p + 1)) := by
  have hlen : 1 ≤ txt.length := List.length_pos_of_ne_nil hne
  rw [getCodepointFromUtf8]
  refine ⟨_, rfl, ?_⟩
  generalize predictLengthOfCodepointFromLeadByte (byteAt txt 0) = l
  -- the lengths 1 to 4, between those that no first byte has
  rcases l with _ | _ | _ | _ | _ | l
  · exact agrees_pure rfl hlen
  · exact agrees_pure rfl hlen
  · exact agrees_orContinuation h hlen fun h₂ cp => agrees_pure rfl h₂
  · refine agrees_orContinuation h hlen fun h₂ cp => ?_
    exact agrees_orContinuation h h₂ fun h₃ cp => agrees_pure rfl h₃
  · refine agrees_orContinuation h hlen fun h₂ cp => ?_
    refine agrees_orContinuation h h₂ fun h₃ cp => ?_
    refine agrees_orContinuation h h₃ fun h₄ cp => ?_
    split_ifs
    · exact agrees_pure (by omega) hlen
    · exact agrees_pure rfl h₄
  · exact agrees_pure rfl hlen

/-- **The decoder** moves as it does on the list of bytes, and to the terminator at most. -/
theorem getCodepointAt_spec (h : HoldsString mem p txt) (hne : txt ≠ []) :
    ReturnsWithin (getCodepointAt mem p : Reading ε (ℕ × ℕ))
        ((getCodepointFromUtf8 txt).1, p + (getCodepointFromUtf8 txt).2) (p + txt.length) ∧
      (getCodepointFromUtf8 txt).2 ≤ txt.length := by
  have hbyte : mem p = byteAt txt 0 := h.2 0 (Nat.zero_le _)
  obtain ⟨x, hx, hbody⟩ := agrees_decoder h hne
  have hread : ∀ reads : List ℕ, (∀ a ∈ reads, a ≤ p + txt.length) →
      ∀ a ∈ [p] ++ [] ++ reads, a ≤ p + txt.length := by
    intro reads hle
    exact List.forall_mem_cons.mpr ⟨Nat.le_add_right p _, hle⟩
  have key : (getCodepointAt mem p : Reading ε (ℕ × ℕ)).wp ()
      (fun r reads _ => r = ((getCodepointFromUtf8 txt).1, p + (getCodepointFromUtf8 txt).2) ∧
        (getCodepointFromUtf8 txt).2 ≤ txt.length ∧ ∀ a ∈ reads, a ≤ p + txt.length)
      (fun _ _ _ => False) fun _ => False := by
    rw [getCodepointAt, Gen.wp_handle, readByte]
    simp only [Gen.wp_bind, Gen.wp_emit, Gen.wp_pure, hbyte]
    refine hbody.imp ?_ ?_ fun _ hf => hf
    · rintro r reads _ ⟨d, rfl, hr, hd, hle⟩
      rw [hx]
      exact ⟨Prod.ext rfl hr, hd, hread reads hle⟩
    · rintro e reads _ ⟨d, rfl, rfl, hd, hle⟩
      rw [hx, List.append_nil]
      exact ⟨rfl, hd, hread reads hle⟩
  obtain ⟨r, reads, s', hrun, rfl, hd, hle⟩ := key.exists_returned
  exact ⟨⟨reads, hrun, hle⟩, hd⟩

/-- What is left of the string behind one character. -/
theorem HoldsString.next (h : HoldsString mem p txt) (hne : txt ≠ []) :
    HoldsString mem (p + (getCodepointFromUtf8 txt).2) (txt.drop (getCodepointFromUtf8 txt).2) ∧
      p + (getCodepointFromUtf8 txt).2 + (txt.drop (getCodepointFromUtf8 txt).2).length =
        p + txt.length ∧
      (txt.drop (getCodepointFromUtf8 txt).2).length < txt.length := by
  have hle := (getCodepointAt_spec (ε := Empty) h hne).2
  have hpos := getCodepointFromUtf8_pos txt
  have hlen : 0 < txt.length := List.length_pos_of_ne_nil hne
  rw [List.length_drop]
  exact ⟨h.drop hle, by omega, by omega⟩

theorem HoldsString.head (h : HoldsString mem p txt) : mem p = 0 ↔ txt = [] := by
  have hbyte : mem p = byteAt txt 0 := h.2 0 (Nat.zero_le _)
  rw [hbyte, byteAt_eq_zero_iff h, Nat.le_zero, List.length_eq_zero_iff]

/-- The results of the search count from the beginning of the string. -/
theorem map_add_map (p d : ℕ) (o : Option ℕ) :
    (o.map (d + ·)).map (p + ·) = o.map (p + d + ·) := by
  rw [Option.map_map]
  congr 1
  funext k
  exact (Nat.add_assoc p d k).symm

/-- `find_codepoint_in_utf8`. -/
theorem findCodepointAt_spec (cp fuel : ℕ) : ∀ {p : ℕ} {txt : List UInt8},
    HoldsString mem p txt → txt.length < fuel →
    ReturnsWithin (findCodepointAt mem cp fuel p : Reading ε (Option ℕ))
      ((findLoop txt cp).map (p + ·)) (p + txt.length) := by
  induction fuel with
  | zero => exact fun _ hfuel => absurd hfuel (Nat.not_lt_zero _)
  | succ fuel ih =>
    intro p txt h hfuel
    have hbyte : mem p = byteAt txt 0 := h.2 0 (Nat.zero_le _)
    rw [findCodepointAt, findLoop, ← hbyte]
    refine (returnsWithin_readByte (Nat.le_add_right p _)).bind ?_
    by_cases hzero : mem p = 0
    · rw [if_pos hzero, if_pos hzero]
      exact returnsWithin_pure
    · rw [if_neg hzero, if_neg hzero]
      have hne := mt h.head.mpr hzero
      refine (getCodepointAt_spec h hne).1.bind ?_
      dsimp only
      by_cases hfound : cp = (getCodepointFromUtf8 txt).1
      · rw [if_pos hfound, if_pos hfound]
        exact returnsWithin_pure
      · -- the rest of the string is shorter, and has the same terminator
        obtain ⟨hnext, hend, hlt⟩ := h.next hne
        have hrest := ih hnext (by omega)
        rwa [if_neg hfound, if_neg hfound, map_add_map, ← hend]

/-- `find_codepoint_in_utf8` with an end, which is in the string. -/
theorem findCodepointBeforeAt_spec (fin cp fuel : ℕ) : ∀ {p : ℕ} {txt : List UInt8},
    HoldsString mem p txt → fin ≤ p + txt.length → fin - p < fuel →
    ReturnsWithin (findCodepointBeforeAt mem fin cp fuel p : Reading ε (Option ℕ))
      ((findLoopBefore txt (fin - p) cp).map (p + ·)) (p + txt.length) := by
  induction fuel with
  | zero => exact fun _ _ hfuel => absurd hfuel (Nat.not_lt_zero _)
  | succ fuel ih =>
    intro p txt h hfin hfuel
    rw [findCodepointBeforeAt, findLoopBefore]
    by_cases hpos : 0 < fin - p
    · have hne : txt ≠ [] := List.ne_nil_of_length_pos (by omega)
      rw [if_neg (by omega), if_pos hpos]
      refine (getCodepointAt_spec h hne).1.bind ?_
      dsimp only
      by_cases hfound : cp = (getCodepointFromUtf8 txt).1
      · rw [if_pos hfound, if_pos hfound]
        exact returnsWithin_pure
      · -- the last character may go beyond the end, but not beyond the terminator
        obtain ⟨hnext, hend, hlt⟩ := h.next hne
        have hdist := getCodepointFromUtf8_pos txt
        have hrest := ih hnext (by omega) (by omega)
        rwa [if_neg hfound, if_neg hfound, map_add_map, ← hend, Nat.sub_sub]
    · rw [if_pos (by omega), if_neg hpos]
      exact returnsWithin_pure

/-- `is_well_formed_utf8`. -/
theorem isWellFormedAt_spec (fuel : ℕ) : ∀ {p : ℕ} {txt : List UInt8},
    HoldsString mem p txt → txt.length < fuel →
    ReturnsWithin (isWellFormedAt mem fuel p : Reading ε Bool) (wellFormedLoop txt)
      (p + txt.length) := by
  induction fuel with
  | zero => exact fun _ hfuel => absurd hfuel (Nat.not_lt_zero _)
  | succ fuel ih =>
    intro p txt h hfuel
    rw [isWellFormedAt]
    refine (returnsWithin_readByte (Nat.le_add_right p _)).bind ?_
    by_cases hzero : mem p = 0
    · obtain rfl := h.head.mp hzero
      rw [if_pos hzero, wellFormedLoop]
      exact returnsWithin_pure
    · have hne := mt h.head.mpr hzero
      obtain ⟨c, cs, rfl⟩ := List.exists_cons_of_ne_nil hne
      have hc : c ≠ 0 := fun h0 => h.1 (h0 ▸ List.mem_cons_self)
      rw [if_neg hzero, wellFormedLoop, if_neg hc]
      refine (getCodepointAt_spec h hne).1.bind ?_
      dsimp only
      rw [Nat.add_sub_cancel_left]
      by_cases hacc : acceptsCodepoint (getCodepointFromUtf8 (c :: cs)).1
          (getCodepointFromUtf8 (c :: cs)).2 = true
      · obtain ⟨hnext, hend, hlt⟩ := h.next hne
        rw [if_pos hacc, if_pos hacc, ← hend]
        exact ih hnext (by omega)
      · rw [if_neg hacc, if_neg hacc]
        exact returnsWithin_pure

/-- **Walking is safe** on every NUL-terminated string, malformed or not: from every byte before the
terminator the decoder returns a later address, and neither that nor an address it reads is behind
the terminator. So the loops come to an end, and read nothing behind the terminator. -/
theorem walks_safely {start : ℕ} (h : HoldsString mem start txt) :
    (∀ p, start ≤ p → p < start + txt.length → ∃ r : ℕ × ℕ,
      ReturnsWithin (getCodepointAt mem p : Reading Empty (ℕ × ℕ)) r (start + txt.length) ∧
        p < r.2 ∧ r.2 ≤ start + txt.length) ∧
    ∀ p, start ≤ p → p ≤ start + txt.length → ∀ fuel > txt.length,
      (∀ cp, ∃ found : Option ℕ,
        ReturnsWithin (findCodepointAt mem cp fuel p : Reading Empty (Option ℕ)) found
          (start + txt.length)) ∧
      (∀ cp, ∀ fin ≤ start + txt.length, ∃ found : Option ℕ,
        ReturnsWithin (findCodepointBeforeAt mem fin cp fuel p : Reading Empty (Option ℕ)) found
          (start + txt.length)) ∧
      ∃ ok : Bool, ReturnsWithin (isWellFormedAt mem fuel p : Reading Empty Bool) ok
        (start + txt.length) := by
  have hsuffix : ∀ p, start ≤ p → p ≤ start + txt.length →
      HoldsString mem p (txt.drop (p - start)) ∧
        p + (txt.drop (p - start)).length = start + txt.length := by
    intro p hle hp
    have hdrop := h.drop (k := p - start) (by omega)
    rw [Nat.add_sub_cancel' hle] at hdrop
    rw [List.length_drop]
    exact ⟨hdrop, by omega⟩
  constructor
  · intro p hle hp
    obtain ⟨hp', hend⟩ := hsuffix p hle hp.le
    have hne : txt.drop (p - start) ≠ [] := List.ne_nil_of_length_pos (by omega)
    obtain ⟨hreturns, hdist⟩ := getCodepointAt_spec (ε := Empty) hp' hne
    have hpos := getCodepointFromUtf8_pos (txt.drop (p - start))
    rw [hend] at hreturns
    exact ⟨_, hreturns, Nat.lt_add_of_pos_right hpos, by dsimp only; omega⟩
  · intro p hle hp fuel hfuel
    obtain ⟨hp', hend⟩ := hsuffix p hle hp
    have hlen : (txt.drop (p - start)).length < fuel := by
      rw [List.length_drop]
      omega
    refine ⟨fun cp => ⟨_, hend ▸ findCodepointAt_spec cp fuel hp' hlen⟩, fun cp fin hfin => ?_,
      ⟨_, hend ▸ isWellFormedAt_spec fuel hp' hlen⟩⟩
    exact ⟨_, hend ▸ findCodepointBeforeAt_spec fin cp fuel hp' (by omega) (by omega)⟩

/-- A lead byte of three right before the terminator. -/
theorem walks_safely_leadByte : HoldsString (fun a => if a = 0 then 0xE2 else 0) 0 [0xE2] ∧
    ∃ r : ℕ × ℕ, ReturnsWithin (getCodepointAt (fun a => if a = 0 then 0xE2 else 0) 0 :
      Reading Empty (ℕ × ℕ)) r 1 ∧ 0 < r.2 ∧ r.2 ≤ 1 := by
  have h : HoldsString (fun a => if a = 0 then 0xE2 else 0) 0 [0xE2] := by
    refine ⟨by decide, fun k hk => ?_⟩
    have hk' : k = 0 ∨ k = 1 := by
      rw [List.length_singleton] at hk
      omega
    rcases hk' with rfl | rfl <;> rfl
  exact ⟨h, (walks_safely h).1 0 le_rfl Nat.one_pos⟩

end Strings

end Intent.Old
