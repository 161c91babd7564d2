import Intent.Old.HeadersIndex
import Mathlib.Algebra.Group.Nat.Defs
import Mathlib.Data.List.TakeWhile

/-!
# Header lines

`headers::add` splits a line at its first `:`, with `find_char`, which returns the end of its range
when it finds nothing. The value that it stores begins at the colon, and a line without a colon is
stored as a name with an empty value. `store_header` passes on the lines that libcurl receives.

`add_ne_set` says what this means for a line `name: value`: no such line has the effect of
`set(name, value)`, and none can be read back through `get(name)`.
-/

namespace Intent.Old.Headers

/-! ### Lines -/

/-- The bytes of a view, as the `c_str()` of the string that is made of them. -/
def cStr (txt : List Int8) : CString where
  chars := txt.takeWhile (· ≠ 0)
  nonzero c hc := by
    have hdecide := List.mem_takeWhile_imp hc
    exact of_decide_eq_true hdecide

/-- `headers::set`, for views of any bytes. -/
def State.setView (s : State) (i : ℕ) (header value : List Int8) : State :=
  if header = [] then s
  else
    { s with
      heap := s.heap.modify i fun x =>
        { x with map := x.map.assign (cStr header) (cStr value) } }

/-- `headers::add`. What `find_char` returns is not null, and is the end of the line where there is
no colon. -/
def State.add (s : State) (i : ℕ) (line : List Int8) : State :=
  if line = [] then s
  else s.setView i (line.takeWhile (· ≠ schar ':')) (line.dropWhile (· ≠ schar ':'))

/-- `store_header`, for the headers with the implementation `i`. -/
def State.storeHeader (s : State) (i : ℕ) (bytes : List Int8) (byteCount : UInt64) :
    UInt64 × State :=
  if byteCount ≠ 0 then
    let capturedByteCount := byteCount - 2
    if byteCount ≥ 2 ∧ bytes[(byteCount - 2).toNat]? = some (schar '\r') ∧
        bytes[(byteCount - 1).toNat]? = some (schar '\n') then
      if byteCount = 2 then (byteCount, s)
      else (byteCount, s.add i (bytes.take capturedByteCount.toNat))
    else (byteCount, s.add i (bytes.take (capturedByteCount + 2).toNat))
  else (byteCount, s)

/-- A line `name: value`. -/
def headerLine (name value : List Int8) : List Int8 := name ++ schar ':' :: schar ' ' :: value

/-! ### What `add` stores -/

section Add

variable {s : State} {i : ℕ} {x : Impl} {name value line : List Int8}

/-- A string is its own `c_str()`. -/
theorem cStr_chars (a : CString) : cStr a.chars = a := by
  obtain ⟨chars, hnonzero⟩ := a
  have htake : chars.takeWhile (· ≠ 0) = chars :=
    List.takeWhile_eq_self_iff.mpr fun c hc => decide_eq_true (hnonzero c hc)
  simp only [cStr, htake]

/-- For strings without NUL this is the `set` of the other modules. -/
theorem setView_chars (s : State) (i : ℕ) (header value : CString) :
    s.setView i header.chars value.chars = s.set i header value := by
  rw [State.setView, State.set, cStr_chars, cStr_chars]

/-- **A line with a colon**: the value begins at the colon. -/
theorem add_headerLine (hcolon : schar ':' ∉ name) :
    s.add i (headerLine name value) = s.setView i name (schar ':' :: schar ' ' :: value) := by
  have hpos : ∀ c ∈ name, decide (c ≠ schar ':') = true :=
    fun c hc => decide_eq_true fun heq => hcolon (heq ▸ hc)
  have hne : headerLine name value ≠ [] := by
    rw [headerLine]
    simp
  rw [State.add, if_neg hne, headerLine, List.takeWhile_append_of_pos hpos,
    List.dropWhile_append_of_pos hpos]
  simp

/-- **A line without a colon**: all of it is the name. -/
theorem add_of_not_mem (hcolon : schar ':' ∉ line) : s.add i line = s.setView i line [] := by
  have hpos : ∀ c ∈ line, decide (c ≠ schar ':') = true :=
    fun c hc => decide_eq_true fun heq => hcolon (heq ▸ hc)
  by_cases hline : line = []
  · rw [State.add, if_pos hline, State.setView, if_pos hline]
  · rw [State.add, if_neg hline, List.takeWhile_eq_self_iff.mpr hpos,
      List.dropWhile_eq_nil_iff.mpr hpos]

/-- An assigned header is found with its value. -/
theorem find_assign (map : HeadersMap) (header value : CString) :
    (map.assign header value).find header = some value := by
  rw [HeadersMap.assign, HeadersMap.find]
  split_ifs with hfound
  · -- the first entry with the name has the value now
    rw [List.find?_map, Option.map_map]
    have hsame : ((fun entry : CString × CString => sameHeader entry.1 header) ∘
        fun entry => if sameHeader entry.1 header then (entry.1, value) else entry) =
        fun entry => sameHeader entry.1 header := by
      funext entry
      rw [Function.comp]
      split_ifs <;> rfl
    rw [hsame]
    rw [HeadersMap.find, Option.isSome_map] at hfound
    obtain ⟨entry, hentry⟩ := Option.isSome_iff_exists.mp hfound
    have hfirst := List.find?_some hentry
    rw [hentry, Option.map_some, Function.comp, if_pos hfirst]
  · rw [List.find?_cons, sameHeader_equivalence.refl header]
    rfl

/-- An assignment leaves a map as it is if it has the header with this value already. -/
theorem assign_eq_self_iff (map : HeadersMap) (header value : CString) :
    map.assign header value = map ↔ (map.find header).isSome = true ∧
      ∀ entry ∈ map, sameHeader entry.1 header = true → entry.2 = value := by
  rw [HeadersMap.assign]
  split_ifs with hfound
  · rw [and_iff_right hfound]
    have hmap := @List.map_inj_left _ _ map
      (fun entry => if sameHeader entry.1 header then (entry.1, value) else entry) id
    rw [List.map_id] at hmap
    rw [hmap]
    refine forall₂_congr fun entry _ => ?_
    by_cases hsame : sameHeader entry.1 header = true
    · rw [if_pos hsame, forall_prop_of_true hsame, id, Prod.ext_iff, eq_comm (a := entry.2)]
      exact and_iff_right rfl
    · rw [if_neg hsame]
      exact iff_of_true rfl fun h => absurd h hsame
  · refine iff_of_false (fun heq => ?_) fun h => hfound h.1
    have hlen := congrArg List.length heq
    rw [List.length_cons] at hlen
    omega

/-- What `get` reads after `set`. -/
theorem at?_setView (hx : s.heap.at? i = some x) (hname : name ≠ []) :
    (s.setView i name value).heap.at? i =
      some { x with map := x.map.assign (cStr name) (cStr value) } := by
  rw [State.setView, if_neg hname, Heap.modify_of_at? hx]
  dsimp only
  rw [Heap.at?_set hx, if_pos rfl]

/-- What `get` reads after `set`. -/
theorem get_setView (hx : s.heap.at? i = some x) (hname : (cStr name).chars ≠ []) (n : ℕ) :
    (s.setView i name value).get (n + 1) i (cStr name) = some (some (cStr value)) := by
  have hne : name ≠ [] := by
    rintro rfl
    exact hname rfl
  rw [State.get, if_neg hname, Heap.get, at?_setView hx hne, Option.bind_some]
  simp only [find_assign]

/-- A value has more characters with a colon and a blank in front of it. -/
theorem cStr_colon_ne (value : List Int8) :
    cStr (schar ':' :: schar ' ' :: value) ≠ cStr value := by
  intro heq
  have hlen := congrArg (fun a => a.chars.length) heq
  have hcolon : decide (schar ':' ≠ 0) = true := rfl
  have hblank : decide (schar ' ' ≠ 0) = true := rfl
  simp only [cStr, List.takeWhile_cons, hcolon, hblank, if_true, List.length_cons] at hlen
  omega

/-- **What is stored** for a line from libcurl that ends in CR LF. -/
theorem storeHeader_line (hline : line ≠ []) (hlen : line.length + 2 < 2 ^ 64) :
    s.storeHeader i (line ++ [schar '\r', schar '\n']) (UInt64.ofNat (line.length + 2)) =
      (UInt64.ofNat (line.length + 2), s.add i line) := by
  have hpos : 0 < line.length := List.length_pos_of_ne_nil hline
  have hnat : (UInt64.ofNat (line.length + 2)).toNat = line.length + 2 :=
    UInt64.toNat_ofNat_of_lt' hlen
  have hge : 2 ≤ UInt64.ofNat (line.length + 2) := by
    rw [UInt64.le_iff_toNat_le, hnat]
    exact Nat.le_add_left 2 _
  have hge' : 1 ≤ UInt64.ofNat (line.length + 2) := by
    rw [UInt64.le_iff_toNat_le, hnat]
    exact Nat.le_add_left 1 _
  have h2 : (UInt64.ofNat (line.length + 2) - 2).toNat = line.length := by
    rw [UInt64.toNat_sub_of_le _ _ hge, hnat]
    rfl
  have h1 : (UInt64.ofNat (line.length + 2) - 1).toNat = line.length + 1 := by
    rw [UInt64.toNat_sub_of_le _ _ hge', hnat]
    rfl
  have hzero : UInt64.ofNat (line.length + 2) ≠ 0 := by
    intro heq
    have := congrArg UInt64.toNat heq
    rw [hnat] at this
    exact absurd this (Nat.succ_ne_zero _)
  have htwo : UInt64.ofNat (line.length + 2) ≠ 2 := by
    intro heq
    have hnat' := congrArg UInt64.toNat heq
    rw [hnat] at hnat'
    have h22 : (2 : UInt64).toNat = 2 := rfl
    omega
  rw [State.storeHeader, if_pos hzero]
  dsimp only
  have hcr : (line ++ [schar '\r', schar '\n'])[line.length]? = some (schar '\r') := by simp
  have hlf : (line ++ [schar '\r', schar '\n'])[line.length + 1]? = some (schar '\n') := by simp
  rw [h2, h1, if_pos ⟨hge, hcr, hlf⟩, if_neg htwo, List.take_left]

end Add

/-- **Header lines.** No line `name: value` has the effect of `set(name, value)`, or can be read
back with this value once it has come from libcurl. A line without a colon leaves the map as it is
if and only if it is empty, or a header with an empty value already. -/
theorem add_ne_set {s : State} {i : ℕ} {x : Impl} (hx : s.heap.at? i = some x) :
    (∀ name value, name ≠ [] → schar ':' ∉ name →
      s.add i (headerLine name value) ≠ s.setView i name value) ∧
    (∀ line, schar ':' ∉ line → (s.add i line = s ↔ line = [] ∨
      (x.map.find (cStr line)).isSome = true ∧
        ∀ entry ∈ x.map, sameHeader entry.1 (cStr line) = true → entry.2 = cStr [])) ∧
    ∀ name value, name ≠ [] → schar ':' ∉ name → (headerLine name value).length + 2 < 2 ^ 64 →
      ∀ fuel, (s.storeHeader i (headerLine name value ++ [schar '\r', schar '\n'])
        (UInt64.ofNat ((headerLine name value).length + 2))).2.get fuel i (cStr name) ≠
          some (some (cStr value)) := by
  refine ⟨fun name value hname hcolon heq => ?_, fun line hcolon => ?_,
    fun name value hname hcolon hlen fuel => ?_⟩
  · -- no value is the same with a colon in front
    rw [add_headerLine hcolon] at heq
    have hat := congrArg (fun s => s.heap.at? i) heq
    simp only [at?_setView hx hname, Option.some.injEq, Impl.mk.injEq] at hat
    have hfind := congrArg (fun map => HeadersMap.find map (cStr name)) hat.2.1
    simp only [find_assign, Option.some.injEq] at hfind
    exact cStr_colon_ne value hfind
  · -- a name with an empty value is stored
    rw [add_of_not_mem hcolon]
    by_cases hline : line = []
    · rw [State.setView, if_pos hline]
      exact iff_of_true rfl (.inl hline)
    · rw [or_iff_right hline, ← assign_eq_self_iff]
      constructor
      · intro heq
        have hat : (s.setView i line []).heap.at? i = some { x with map := _ } :=
          at?_setView hx hline
        rw [heq, hx, Option.some.injEq] at hat
        exact (congrArg Impl.map hat).symm
      · intro heq
        obtain ⟨hi, hget⟩ := List.getElem?_eq_some_iff.mp (Heap.getElem?_of_at? hx)
        rw [State.setView, if_neg hline, Heap.modify_of_at? hx, heq, ← hget,
          List.set_getElem_self]
  · -- what `get` finds begins at the colon
    have hne : headerLine name value ≠ [] := by
      rw [headerLine]
      simp
    rw [storeHeader_line hne hlen, add_headerLine hcolon]
    by_cases hempty : (cStr name).chars = []
    · rw [State.get, if_pos hempty]
      exact fun h => by cases h
    · cases fuel with
      | zero =>
        rw [State.get, if_neg hempty]
        exact fun h => by cases h
      | succ n =>
        rw [get_setView hx hempty, ne_eq, Option.some.injEq, Option.some.injEq]
        exact cStr_colon_ne value

/-- The line `a: b` on an object without headers. -/
theorem add_ne_set_ab :
    State.add ⟨[some ⟨1, [], none⟩], [0]⟩ 0 (headerLine [schar 'a'] [schar 'b']) ≠
      State.setView ⟨[some ⟨1, [], none⟩], [0]⟩ 0 [schar 'a'] [schar 'b'] :=
  (add_ne_set (s := ⟨[some ⟨1, [], none⟩], [0]⟩) rfl).1 [schar 'a'] [schar 'b'] (by decide)
    (by decide)

/-- What is stored for `a: b` is `: b`. -/
theorem add_stores_colon :
    State.add ⟨[some ⟨1, [], none⟩], [0]⟩ 0 (headerLine [schar 'a'] [schar 'b']) =
      ⟨[some ⟨1, [(cStr [schar 'a'], cStr [schar ':', schar ' ', schar 'b'])], none⟩], [0]⟩ ∧
    State.setView ⟨[some ⟨1, [], none⟩], [0]⟩ 0 [schar 'a'] [schar 'b'] =
      ⟨[some ⟨1, [(cStr [schar 'a'], cStr [schar 'b'])], none⟩], [0]⟩ ∧
    cStr [schar ':', schar ' ', schar 'b'] ≠ cStr [schar 'b'] :=
  ⟨rfl, rfl, cStr_colon_ne [schar 'b']⟩

end Intent.Old.Headers
