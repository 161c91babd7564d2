import Mathlib.Data.List.Basic
import Intent.Old.Lexer
import Intent.Old.HeaderOrder

/-!
# The body of a response

`response::impl_t::store_bytes` of `core/net/curl/response.cpp`, which libcurl calls with each
piece of a body. The computation of the sizes is written once over its arithmetic: with
`SizeArith.wrapping` it is the code, with `SizeArith.checked` it fails where the code wraps.

`stored_body` says that the body holds the first bytes that came, up to one less than the limit,
and that the arithmetic does not wrap.
-/

namespace Intent.Old.Curl

/-! ### Data -/

/-- `session_state`. -/
inductive SessionState where
  | configuring
  | requesting
  | waitingForResponse
  | acceptingResponse
  | idle
  deriving DecidableEq, Repr

/-- The fields of `response::impl_t` that the session uses: `received_bytes`, `status_code` and
`effective_url`. -/
structure Response where
  receivedBytes : Text
  /-- The room that was reserved for `received_bytes`. It is a lower bound of the real capacity,
  since a string takes more room than it is asked to reserve. -/
  capacity : UInt64
  statusCode : UInt16
  effectiveUrl : Option CString

/-- `max_stored_response_size`. -/
def maxStoredResponseSize : UInt64 := 16 * 1024 * 1024

/-- Arithmetic on sizes. -/
structure SizeArith (m : Type → Type) where
  add : UInt64 → UInt64 → m UInt64
  sub : UInt64 → UInt64 → m UInt64

/-- The arithmetic of the machine. -/
def SizeArith.wrapping : SizeArith Id := ⟨fun x y => x + y, fun x y => x - y⟩

/-- Arithmetic that fails instead of wrapping around. -/
def SizeArith.checked : SizeArith Option :=
  ⟨fun x y => if x.toNat + y.toNat < 2 ^ 64 then some (x + y) else none,
    fun x y => if y.toNat ≤ x.toNat then some (x - y) else none⟩

/-! ### `store_bytes` -/

section StoreBytes

variable {m : Type → Type} [Monad m]

/-- `byte_count` and `new_size`, for a body of the given size and more bytes. -/
def newSizes (arith : SizeArith m) (receivedByteCount byteCount : UInt64) :
    m (UInt64 × UInt64) := do
  let sum ← arith.add receivedByteCount byteCount
  let desiredByteCount ← arith.add sum 1
  if desiredByteCount > maxStoredResponseSize then
    -- only a part of the bytes is stored
    let excess ← arith.sub desiredByteCount maxStoredResponseSize
    let byteCount ← arith.sub byteCount excess
    return (byteCount, maxStoredResponseSize)
  else
    let roundUpTo := if desiredByteCount < 8192 then 1024 else 4096
    let mod := desiredByteCount % roundUpTo
    if mod ≠ 0 then
      let padding ← arith.sub roundUpTo mod
      let newSize ← arith.add desiredByteCount padding
      return (byteCount, newSize)
    else return (byteCount, desiredByteCount)

/-- What `store_bytes` does to the response. -/
def Response.append (arith : SizeArith m) (r : Response) (bytes : Text) (byteCount : UInt64) :
    m (UInt64 × Response) :=
  if byteCount ≠ 0 then
    let receivedByteCount := UInt64.ofNat r.receivedBytes.length
    if receivedByteCount ≥ maxStoredResponseSize then return (0, r)
    else do
      let (byteCount, newSize) ← newSizes arith receivedByteCount byteCount
      return (byteCount,
        { r with
          receivedBytes := r.receivedBytes ++ bytes.take byteCount.toNat
          capacity := if newSize > r.capacity then newSize else r.capacity })
  else return (byteCount, r)

/-- What `store_bytes` does to the state of the session. -/
def SessionState.accept : SessionState → SessionState
  | .requesting | .waitingForResponse => .acceptingResponse
  | s => s

/-- `store_bytes`, over its arithmetic. -/
def storeBytesWith (arith : SizeArith m) (s : SessionState) (r : Response) (bytes : Text)
    (byteCount : UInt64) : m (UInt64 × SessionState × Response) := do
  let (stored, r) ← r.append arith bytes byteCount
  return (stored, s.accept, r)

end StoreBytes

/-- `store_bytes`. -/
def storeBytes (s : SessionState) (r : Response) (bytes : Text) (byteCount : UInt64) :
    UInt64 × SessionState × Response := storeBytesWith SizeArith.wrapping s r bytes byteCount

/-- A sequence of calls of `store_bytes`. -/
def storeAll (s : SessionState) (r : Response) (chunks : List Text) : SessionState × Response :=
  chunks.foldl (fun s c => (storeBytes s.1 s.2 c (UInt64.ofNat c.length)).2) (s, r)

/-! ### The sizes -/

section Sizes

theorem SizeArith.checked_add {x y : UInt64} (h : x.toNat + y.toNat < 2 ^ 64) :
    SizeArith.checked.add x y = some (x + y) ∧ (x + y).toNat = x.toNat + y.toNat :=
  ⟨if_pos h, by rw [UInt64.toNat_add, Nat.mod_eq_of_lt h]⟩

theorem SizeArith.checked_sub {x y : UInt64} (h : y.toNat ≤ x.toNat) :
    SizeArith.checked.sub x y = some (x - y) ∧ (x - y).toNat = x.toNat - y.toNat :=
  ⟨if_pos h, UInt64.toNat_sub_of_le _ _ (UInt64.le_iff_toNat_le.mpr h)⟩

/-- The computation of the sizes on the machine. -/
theorem newSizes_wrapping (received byteCount : UInt64) :
    newSizes SizeArith.wrapping received byteCount =
      if received + byteCount + 1 > maxStoredResponseSize then
        (byteCount - (received + byteCount + 1 - maxStoredResponseSize), maxStoredResponseSize)
      else
        let roundUpTo := if received + byteCount + 1 < 8192 then 1024 else 4096
        let mod := (received + byteCount + 1) % roundUpTo
        if mod ≠ 0 then (byteCount, received + byteCount + 1 + (roundUpTo - mod))
        else (byteCount, received + byteCount + 1) := rfl

/-- **Sizes.** Below the limit, no operation wraps, and the number of bytes to store is what
there is room for, with one byte to spare. -/
theorem newSizes_spec (received byteCount : UInt64)
    (hreceived : received.toNat < maxStoredResponseSize.toNat)
    (hcount : byteCount.toNat < 2 ^ 63) :
    newSizes SizeArith.checked received byteCount =
        some (newSizes SizeArith.wrapping received byteCount) ∧
      (newSizes SizeArith.wrapping received byteCount).1.toNat =
        min byteCount.toNat (maxStoredResponseSize.toNat - 1 - received.toNat) := by
  have hmax : maxStoredResponseSize.toNat = 2 ^ 24 := by decide
  have hone : (1 : UInt64).toNat = 1 := rfl
  obtain ⟨hsum, hsum'⟩ := SizeArith.checked_add (x := received) (y := byteCount) (by omega)
  obtain ⟨hdesired, hdesired'⟩ :=
    SizeArith.checked_add (x := received + byteCount) (y := 1) (by omega)
  rw [newSizes_wrapping]
  simp only [newSizes, hsum, hdesired, Option.bind_eq_bind, Option.bind_some]
  generalize hd : received + byteCount + 1 = desired at *
  by_cases hlarge : desired > maxStoredResponseSize
  · -- the excess over the limit is cut off
    have hlarge' := UInt64.lt_iff_toNat_lt.mp hlarge
    obtain ⟨hexcess, hexcess'⟩ :=
      SizeArith.checked_sub (x := desired) (y := maxStoredResponseSize) (by omega)
    obtain ⟨hcut, hcut'⟩ :=
      SizeArith.checked_sub (x := byteCount) (y := desired - maxStoredResponseSize) (by omega)
    simp only [if_pos hlarge, hexcess, hcut, Option.bind_some]
    refine ⟨rfl, ?_⟩
    omega
  · -- the size is rounded up, which does not change what is stored
    have hlarge' := mt UInt64.lt_iff_toNat_lt.mpr hlarge
    simp only [if_neg hlarge]
    generalize hround : (if desired < 8192 then (1024 : UInt64) else 4096) = roundUpTo
    have hround' : roundUpTo.toNat = 1024 ∨ roundUpTo.toNat = 4096 := by
      rw [← hround]
      split_ifs
      · exact .inl rfl
      · exact .inr rfl
    have hstored : byteCount.toNat =
        min byteCount.toNat (maxStoredResponseSize.toNat - 1 - received.toNat) := by omega
    by_cases hmod : desired % roundUpTo = 0
    · simp only [hmod, ne_eq, not_true_eq_false, if_false]
      exact ⟨rfl, hstored⟩
    · have hlt : (desired % roundUpTo).toNat < roundUpTo.toNat := by
        rw [UInt64.toNat_mod]
        exact Nat.mod_lt _ (by omega)
      obtain ⟨hpad, hpad'⟩ :=
        SizeArith.checked_sub (x := roundUpTo) (y := desired % roundUpTo) hlt.le
      obtain ⟨hgrow, -⟩ :=
        SizeArith.checked_add (x := desired) (y := roundUpTo - desired % roundUpTo) (by omega)
      simp only [ne_eq, hmod, not_false_eq_true, if_true, hpad, hgrow, Option.bind_some]
      exact ⟨rfl, hstored⟩

end Sizes

/-! ### The body -/

section Body

variable {r : Response} {bytes : Text}

/-- **One call.** Below the limit, a call appends as many of the bytes as there is room for and
returns their number. -/
theorem Response.append_spec (hr : r.receivedBytes.length < maxStoredResponseSize.toNat)
    (hbytes : bytes.length < 2 ^ 63) :
    ∃ stored capacity,
      r.append SizeArith.wrapping bytes (UInt64.ofNat bytes.length) =
        (stored, { r with receivedBytes := r.receivedBytes ++ bytes.take stored.toNat, capacity }) ∧
      r.append SizeArith.checked bytes (UInt64.ofNat bytes.length) =
        some (r.append SizeArith.wrapping bytes (UInt64.ofNat bytes.length)) ∧
      stored.toNat =
        min bytes.length (maxStoredResponseSize.toNat - 1 - r.receivedBytes.length) := by
  have hmax : maxStoredResponseSize.toNat = 2 ^ 24 := by decide
  have hsize : UInt64.size = 2 ^ 64 := rfl
  have hcount : (UInt64.ofNat bytes.length).toNat = bytes.length :=
    UInt64.toNat_ofNat_of_lt' (by omega)
  have hreceived : (UInt64.ofNat r.receivedBytes.length).toNat = r.receivedBytes.length :=
    UInt64.toNat_ofNat_of_lt' (by omega)
  by_cases hzero : UInt64.ofNat bytes.length = 0
  · -- nothing to store
    have hlength : bytes.length = 0 := by
      rw [← hcount, hzero]
      rfl
    refine ⟨0, r.capacity, ?_, ?_, ?_⟩
    · rw [Response.append, if_neg (not_not.mpr hzero), hzero, UInt64.toNat_zero, List.take_zero,
        List.append_nil]
      rfl
    · rw [Response.append, Response.append, if_neg (not_not.mpr hzero),
        if_neg (not_not.mpr hzero)]
      rfl
    · rw [hlength, Nat.zero_min]
      rfl
  · have hroom : ¬ UInt64.ofNat r.receivedBytes.length ≥ maxStoredResponseSize := by
      rw [ge_iff_le, UInt64.le_iff_toNat_le]
      omega
    obtain ⟨hchecked, hstored⟩ := newSizes_spec (UInt64.ofNat r.receivedBytes.length)
      (UInt64.ofNat bytes.length) (by omega) (by omega)
    rw [hcount, hreceived] at hstored
    simp only [Response.append, if_pos hzero, if_neg hroom, hchecked]
    exact ⟨_, _, rfl, rfl, hstored⟩

theorem take_append_take {n : ℕ} (t c : Text) :
    t.take n ++ c.take (min c.length (n - (t.take n).length)) = (t ++ c).take n := by
  have hlength : n - (t.take n).length = n - t.length := by
    rw [List.length_take]
    omega
  rw [hlength, Nat.min_comm, ← List.take_eq_take_min, List.take_append]

/-- **One call of many.** A body that is the beginning of some bytes stays their beginning when
more bytes come. -/
theorem append_take {t : Text} (hr : r.receivedBytes = t.take (maxStoredResponseSize.toNat - 1))
    (hbytes : bytes.length < 2 ^ 63) (s : SessionState) :
    let call := storeBytes s r bytes (UInt64.ofNat bytes.length)
    call.2.2.receivedBytes = (t ++ bytes).take (maxStoredResponseSize.toNat - 1) ∧
      call.2.2.receivedBytes = r.receivedBytes ++ bytes.take call.1.toNat ∧
      call.1.toNat ≤ bytes.length ∧
      storeBytesWith SizeArith.checked s r bytes (UInt64.ofNat bytes.length) = some call := by
  have hmax : maxStoredResponseSize.toNat = 2 ^ 24 := by decide
  have hlength : r.receivedBytes.length < maxStoredResponseSize.toNat := by
    rw [hr, List.length_take]
    omega
  obtain ⟨stored, capacity, hwrapping, hchecked, hstored⟩ := r.append_spec hlength hbytes
  have hcall : storeBytes s r bytes (UInt64.ofNat bytes.length) = (stored, s.accept,
      { r with receivedBytes := r.receivedBytes ++ bytes.take stored.toNat, capacity }) := by
    rw [storeBytes, storeBytesWith, hwrapping]
    rfl
  rw [hcall]
  refine ⟨?_, rfl, ?_, ?_⟩
  · change r.receivedBytes ++ bytes.take stored.toNat = _
    rw [hstored, hr]
    exact take_append_take t bytes
  · change stored.toNat ≤ bytes.length
    omega
  · rw [storeBytesWith, hchecked, hwrapping]
    rfl

/-- **Every call.** After any calls, the body is the beginning of the bytes that came. -/
theorem storeAll_receivedBytes (s : SessionState) (hr : r.receivedBytes = []) {chunks : List Text}
    (hchunks : ∀ c ∈ chunks, c.length < 2 ^ 63) :
    (storeAll s r chunks).2.receivedBytes =
      chunks.flatten.take (maxStoredResponseSize.toNat - 1) := by
  induction chunks using List.reverseRecOn with
  | nil => exact hr
  | append_singleton chunks c ih =>
    rw [storeAll, List.foldl_concat, List.flatten_concat]
    have hbefore := ih fun x hx => hchunks x (List.mem_append_left _ hx)
    exact (append_take hbefore (hchunks c List.mem_concat_self) _).1

end Body

/-- **The body of a response.** After every call the body holds the first bytes of all that came,
up to one less than the limit; the call returns the number of bytes that it appended, and its
arithmetic does not wrap. -/
theorem stored_body (s : SessionState) (r : Response) (hr : r.receivedBytes = [])
    (chunks : List Text) (c : Text) (hchunks : ∀ x ∈ chunks ++ [c], x.length < 2 ^ 63) :
    let before := storeAll s r chunks
    let call := storeBytes before.1 before.2 c (UInt64.ofNat c.length)
    let total := (chunks ++ [c]).flatten
    call.2.2.receivedBytes = total.take (min total.length (16 * 1024 * 1024 - 1)) ∧
      call.2.2.receivedBytes = before.2.receivedBytes ++ c.take call.1.toNat ∧
      call.2.2.receivedBytes.length = before.2.receivedBytes.length + call.1.toNat ∧
      storeBytesWith SizeArith.checked before.1 before.2 c (UInt64.ofNat c.length) =
        some call := by
  dsimp only
  have hbefore := storeAll_receivedBytes s hr fun x hx => hchunks x (List.mem_append_left _ hx)
  obtain ⟨hbody, happend, hle, hchecked⟩ :=
    append_take hbefore (hchunks c List.mem_concat_self) (storeAll s r chunks).1
  refine ⟨?_, happend, ?_, hchecked⟩
  · rw [hbody, List.flatten_concat, Nat.min_comm, ← List.take_eq_take_min]
    rfl
  · rw [happend, List.length_append, List.length_take, Nat.min_eq_left hle]

/-- Two chunks of three bytes. -/
theorem stored_body_two :
    (storeBytes .acceptingResponse
      (storeAll .requesting ⟨[], 0, 0, none⟩ [[1, 2, 3]]).2 [4, 5, 6] 3).2.2.receivedBytes =
      [1, 2, 3, 4, 5, 6] := by
  have h := stored_body .requesting ⟨[], 0, 0, none⟩ rfl [[1, 2, 3]] [4, 5, 6] (by decide)
  exact h.1

end Intent.Old.Curl
