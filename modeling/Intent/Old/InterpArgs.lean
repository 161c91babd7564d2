import Intent.Old.Interp

/-!
# Arguments of `interp`

Two properties of `interp` rest on conversions to narrower types. The number of a reference is
computed in 64 bits, and compared with the number of arguments in 32 bits. So a number that is too
big can pass for an argument (`Mistaken`). It is the only way in which an element outside of the
arguments is read, or in which a reference to no argument is replaced (`interp_inside_iff`).

The candidates of a reference with a tilde are selected by the value of its argument, as an `int`.
The loop over them comes to the right candidate, unless its counter overflows
(`pickCandidate_eq`, `pickCandidate_overflows`). So the result is right if the value and the `int`
select the same text (`interp_pluralizes_iff`).
-/

namespace Intent.Old

/-! ### References to no argument -/

/-- The number of a reference is not the number of an argument. -/
def OutOfRange {δ : Type} (args : List (Arg δ)) (p : Text) : Prop :=
  refNumber p = 0 ∨ args.length < refNumber p

/-- A number that is too big passes for the number of an argument, and then the argument is not
there, or the reference is replaced. -/
def Mistaken {δ : Type} (args : List (Arg δ)) (p : Text) : Prop :=
  args.length < refNumber p ∧ Selects args p ∧ (args.length < refNumber p % 2 ^ 64 ∨ Closes p)

/-- Behind a brace, everything up to the next brace is copied. -/
def CopiesReference {δ : Type} (lib : CLibrary δ) (args : List (Arg δ)) (p : Text) : Prop :=
  ∀ w rest txt, p = w ++ rest → w ≠ [] → ch '{' ∉ w → ∃ ts,
    interpFrom lib args (ch '{' :: p) txt =
      (interpFrom lib args rest (txt ++ ch '{' :: w)).after ts

/-- Only arguments are read, and references to no argument are copied: the brace and the character
behind it are written for them, and the next round is behind these. -/
structure Inside {δ : Type} (lib : CLibrary δ) (args : List (Arg δ)) (events : List ArgEvent) :
    Prop where
  reads : ∀ idx, .read idx ∈ events → idx < args.length
  copies : ∀ p, .call p ∈ events → OutOfRange args p →
    .done p (ch '{' :: p.take 1) (p.drop 1) ∈ events ∧ CopiesReference lib args p

section References

variable {δ : Type} {lib : CLibrary δ} {args : List (Arg δ)} {p txt : Text}

/-- **No mistake.** The arguments are not left. A reference is replaced only if there is an argument
for it. -/
theorem scanArg_of_not_mistaken (lib : CLibrary δ) (h : ¬ Mistaken args p) (txt : Text) :
    ∃ ts, (∀ ev ∈ ts, ∃ idx < args.length, ev = .read idx) ∧
      (scanArg lib args (maxArg args) p txt = ⟨ts, txt, .returned p⟩ ∨
        ¬ OutOfRange args p ∧ Selects args p ∧ ∃ t,
          scanArg lib args (maxArg args) p txt = ⟨ts, txt ++ t, .returned (refEnd p)⟩ ∨
          scanArg lib args (maxArg args) p txt = ⟨ts, txt ++ t, .raised .overflow⟩) := by
  have hmod := Nat.mod_le (refNumber p) (2 ^ 64)
  rcases scanArg_cases lib args p txt with ⟨-, hstay⟩ | ⟨n, hn, hsel, hcases⟩
  · exact ⟨[], fun ev hev => absurd hev List.not_mem_nil, .inl hstay⟩
  · have hread : n < args.length → ∀ ev ∈ [ArgEvent.read n], ∃ idx < args.length, ev = .read idx :=
      fun hlt ev hev => ⟨n, hlt, List.mem_singleton.mp hev⟩
    rcases hcases with ⟨hle, -⟩ | ⟨hlt, -, hstay⟩ | ⟨hlt, hcloses, hmove⟩
    · exact absurd ⟨by omega, hsel, .inl (by omega)⟩ h
    · exact ⟨_, hread hlt, .inl hstay⟩
    · refine ⟨_, hread hlt, .inr ⟨?_, hsel, hmove⟩⟩
      rintro (hzero | hlarge)
      · omega
      · exact h ⟨hlarge, hsel, .inr hcloses⟩

/-- **A mistake.** Something outside of the arguments is read, or the reference is not copied. -/
theorem scanReference_of_mistaken (lib : CLibrary δ) (h : Mistaken args p) (txt : Text) :
    (∃ idx, args.length ≤ idx ∧
        .read idx ∈ (scanReference lib args (maxArg args) p txt).yields) ∨
      ∀ written, .done p written (p.drop 1) ∉
        (scanReference lib args (maxArg args) p txt).yields := by
  obtain ⟨hlarge, hsel, hwrong⟩ := h
  rcases scanArg_cases lib args p txt with ⟨hnot, -⟩ | ⟨n, hn, -, hcases⟩
  · exact absurd hsel hnot
  rcases hcases with ⟨hle, hraise⟩ | ⟨hlt, hcloses, -⟩ | ⟨-, hcloses, t, hmove | hraise⟩
  · left
    rw [scanReference_raises hraise]
    exact ⟨n, hle, List.mem_cons_of_mem _ List.mem_cons_self⟩
  · exact absurd (hwrong.resolve_right hcloses) (by omega)
  · right
    have hend := length_refEnd_lt hsel
    rw [scanReference_moves hmove hend]
    intro written hmem
    have heq : written = t ∧ p.drop 1 = (refEnd p).drop 1 := by simpa using hmem
    have hlen := congrArg List.length heq.2
    have hpos : 0 < (refEnd p).length := by
      refine List.length_pos_of_ne_nil fun hnil => ?_
      have hhead := hcloses.1
      rw [hnil] at hhead
      cases hhead
    rw [List.length_drop, List.length_drop] at hlen
    omega
  · right
    rw [scanReference_raises hraise]
    simp

/-- The place that an event is about. -/
def ArgEvent.place? : ArgEvent → Option Text
  | .call p => some p
  | .read _ => none
  | .done p _ _ => some p

theorem scanReference_places (lib : CLibrary δ) (args : List (Arg δ)) (p txt : Text) :
    .call p ∈ (scanReference lib args (maxArg args) p txt).yields ∧
      ∀ ev ∈ (scanReference lib args (maxArg args) p txt).yields, ∀ q ∈ ev.place?, q = p := by
  rcases scanArg_cases lib args p txt with ⟨-, hstay⟩ | ⟨n, hn, hsel, hcases⟩
  · rw [scanReference_stays hstay]
    simp [ArgEvent.place?]
  rcases hcases with ⟨-, hraise⟩ | ⟨-, -, hstay⟩ | ⟨-, -, t, hmove | hraise⟩
  · rw [scanReference_raises hraise]
    simp [ArgEvent.place?]
  · rw [scanReference_stays hstay]
    simp [ArgEvent.place?]
  · rw [scanReference_moves hmove (length_refEnd_lt hsel)]
    simp [ArgEvent.place?]
  · rw [scanReference_raises hraise]
    simp [ArgEvent.place?]

/-- The rounds from `p` on are about places behind `p`. -/
theorem interpFrom_places (p txt : Text) :
    ∀ ev ∈ (interpFrom lib args p txt).yields, ∀ q ∈ ev.place?, q.length < p.length := by
  induction p using rounds_induction generalizing txt with
  | nil =>
    rw [interpFrom_nil]
    exact fun ev hev => absurd hev List.not_mem_nil
  | cons c p hc ih =>
    rw [interpFrom_cons hc]
    exact fun ev hev q hq => (ih _ ev hev q hq).trans (Nat.lt_succ_self _)
  | escaped p hp ih =>
    rw [interpFrom_escaped hp]
    exact fun ev hev q hq => (ih _ ev hev q hq).trans (Nat.lt_succ_of_lt (Nat.lt_succ_self _))
  | reference p hlen hhead ih =>
    obtain ⟨us, hus, hrest⟩ := interpFrom_yields lib args txt hlen hhead
    rw [hus]
    intro ev hev q hq
    rw [List.length_cons]
    rcases List.mem_append.mp hev with hev | hev
    · rw [(scanReference_places lib args p txt).2 ev hev q hq]
      exact Nat.lt_succ_self _
    · rcases hrest with rfl | ⟨rest, txt', hlt, rfl⟩
      · exact absurd hev List.not_mem_nil
      · exact (ih rest hlt txt' ev hev q hq).trans (hlt.trans (Nat.lt_succ_self _))

theorem inside_nil : Inside lib args [] ↔ ∀ q, ArgEvent.call q ∈ [] → ¬ Mistaken args q :=
  ⟨fun _ _ hq => absurd hq List.not_mem_nil, fun _ =>
    ⟨fun _ h => absurd h List.not_mem_nil, fun _ h => absurd h List.not_mem_nil⟩⟩

/-- A reference that is copied, with everything up to the next brace. -/
theorem copiesReference (hlen : 2 ≤ p.length) (hhead : p.head? ≠ some (ch '{'))
    (hrange : OutOfRange args p) (h : ¬ Mistaken args p) : CopiesReference lib args p := by
  rintro w rest txt rfl hw hbrace
  obtain ⟨c, w, rfl⟩ := List.exists_cons_of_ne_nil hw
  obtain ⟨ts, -, hstay | ⟨hnot, -⟩⟩ := scanArg_of_not_mistaken lib h txt
  · rw [interpFrom_reference hlen hhead, Gen.bind_of_returned (scanReference_stays hstay)]
    refine ⟨_, congrArg _ ?_⟩
    change interpFrom lib args (w ++ rest) (txt ++ [ch '{', c]) = _
    rw [interpFrom_append (fun h => hbrace (List.mem_cons_of_mem c h)), List.append_assoc]
    rfl
  · exact absurd hrange hnot

/-- A round that makes no mistake. -/
theorem inside_of_not_mistaken (lib : CLibrary δ) (hlen : 2 ≤ p.length)
    (hhead : p.head? ≠ some (ch '{')) (h : ¬ Mistaken args p) (txt : Text) :
    Inside lib args (scanReference lib args (maxArg args) p txt).yields := by
  obtain ⟨ts, hreads, hrun⟩ := scanArg_of_not_mistaken lib h txt
  have hread : ∀ idx, .read idx ∈ ts → idx < args.length := by
    intro idx hidx
    obtain ⟨idx', hlt, heq⟩ := hreads _ hidx
    rwa [ArgEvent.read.inj heq]
  refine ⟨fun idx hidx => hread idx ?_, fun q hq hrange => ?_⟩
  · rcases hrun with hstay | ⟨-, hsel, t, hmove | hraise⟩
    · rw [scanReference_stays hstay] at hidx
      simpa using hidx
    · rw [scanReference_moves hmove (length_refEnd_lt hsel)] at hidx
      simpa using hidx
    · rw [scanReference_raises hraise] at hidx
      simpa using hidx
  · obtain rfl : q = p := (scanReference_places lib args p txt).2 _ hq q rfl
    refine ⟨?_, copiesReference hlen hhead hrange h⟩
    rcases hrun with hstay | ⟨hnot, -⟩
    · rw [scanReference_stays hstay]
      exact List.mem_append_right _ List.mem_cons_self
    · exact absurd hrange hnot

/-- A round, and what is yielded by the rounds behind it. -/
theorem inside_append_iff {us : List ArgEvent} (hlen : 2 ≤ p.length)
    (hhead : p.head? ≠ some (ch '{'))
    (hrounds : Inside lib args us ↔ ∀ q, .call q ∈ us → ¬ Mistaken args q)
    (hbehind : ∀ ev ∈ us, ∀ q ∈ ev.place?, q ≠ p) :
    Inside lib args ((scanReference lib args (maxArg args) p txt).yields ++ us) ↔
      ∀ q, .call q ∈ (scanReference lib args (maxArg args) p txt).yields ++ us →
        ¬ Mistaken args q := by
  obtain ⟨hcall, hplaces⟩ := scanReference_places lib args p txt
  constructor
  · intro h
    have hp : ¬ Mistaken args p := by
      intro hmistaken
      rcases scanReference_of_mistaken lib hmistaken txt with ⟨idx, hle, hread⟩ | hnot
      · exact absurd (h.reads idx (List.mem_append_left us hread)) (not_lt.mpr hle)
      · have hdone := (h.copies p (List.mem_append_left us hcall) (.inr hmistaken.1)).1
        rcases List.mem_append.mp hdone with hmem | hmem
        · exact hnot _ hmem
        · exact hbehind _ hmem p rfl rfl
    have hus : Inside lib args us := by
      refine ⟨fun idx hidx => h.reads idx (List.mem_append_right _ hidx), fun q hq hrange => ?_⟩
      obtain ⟨hdone, hcopies⟩ := h.copies q (List.mem_append_right _ hq) hrange
      refine ⟨(List.mem_append.mp hdone).resolve_left fun hmem => ?_, hcopies⟩
      exact hbehind _ hq q rfl (hplaces _ hmem q rfl)
    intro q hq
    rcases List.mem_append.mp hq with hq | hq
    · rw [hplaces _ hq q rfl]
      exact hp
    · exact hrounds.mp hus q hq
  · intro h
    have hround := inside_of_not_mistaken lib hlen hhead
      (h p (List.mem_append_left us hcall)) txt
    have hus := hrounds.mpr fun q hq => h q (List.mem_append_right _ hq)
    refine ⟨fun idx hidx => ?_, fun q hq hrange => ?_⟩
    · exact (List.mem_append.mp hidx).elim (hround.reads idx) (hus.reads idx)
    · rcases List.mem_append.mp hq with hq | hq
      · exact (hround.copies q hq hrange).imp_left (List.mem_append_left us)
      · exact (hus.copies q hq hrange).imp_left (List.mem_append_right _)

/-- **The rounds from `p` on.** -/
theorem interpFrom_inside_iff (p txt : Text) :
    Inside lib args (interpFrom lib args p txt).yields ↔
      ∀ q, .call q ∈ (interpFrom lib args p txt).yields → ¬ Mistaken args q := by
  induction p using rounds_induction generalizing txt with
  | nil =>
    rw [interpFrom_nil]
    exact inside_nil
  | cons c p hc ih =>
    rw [interpFrom_cons hc]
    exact ih _
  | escaped p hp ih =>
    rw [interpFrom_escaped hp]
    exact ih _
  | reference p hlen hhead ih =>
    obtain ⟨us, hus, hrest⟩ := interpFrom_yields lib args txt hlen hhead
    have hrounds : Inside lib args us ↔ ∀ q, .call q ∈ us → ¬ Mistaken args q := by
      rcases hrest with rfl | ⟨rest, txt', hlt, rfl⟩
      · exact inside_nil
      · exact ih rest hlt txt'
    have hbehind : ∀ ev ∈ us, ∀ q ∈ ev.place?, q ≠ p := by
      rintro ev hev q hq rfl
      rcases hrest with rfl | ⟨rest, txt', hlt, rfl⟩
      · exact absurd hev List.not_mem_nil
      · exact absurd (interpFrom_places rest txt' ev hev q hq) hlt.not_gt
    rw [hus]
    exact inside_append_iff hlen hhead hrounds hbehind

/-- **References to no argument.** For every format and all arguments, only arguments are read and
references to no argument are copied, if and only if `scan_arg` is called for no reference with a
number that is mistaken for the number of an argument. -/
theorem interp_inside_iff (lib : CLibrary δ) (args : List (Arg δ)) (format : Text) :
    Inside lib args (interp lib args format).yields ↔
      ∀ p, .call p ∈ (interp lib args format).yields → ¬ Mistaken args p :=
  interpFrom_inside_iff _ []

/-- The reference `4294967297` with one argument. -/
theorem interp_outside :
    ¬ Inside plainLibrary [.bool true]
      (interp plainLibrary [.bool true]
        (bytes ['{', '4', '2', '9', '4', '9', '6', '7', '2', '9', '7', '}'])).yields := by
  intro h
  exact absurd (h.reads 4294967296 (by decide)) (by decide)

end References

/-! ### Candidates -/

/-- A candidate: it has nothing in it that ends a candidate or a reference, and no blanks around
it. -/
structure IsCandidate (s : Text) : Prop where
  plain : ∀ c ∈ s, c ≠ ch '|' ∧ c ≠ ch '}' ∧ c ≠ ch '\r' ∧ c ≠ ch '\n' ∧ c ≠ 0
  first : s.head?.any isSpaceOrTab = false
  last : s.getLast?.any isSpaceOrTab = false

/-- The text of a list of candidates. -/
def joinCandidates (candidates : List Text) : Text := List.intercalate [ch '|'] candidates

/-- The candidate for a value: the one with this number, or else the last. -/
def candidateFor (candidates : List Text) (v : ℤ) : Text :=
  if 0 ≤ v ∧ v < candidates.length then candidates.getD v.toNat [] else candidates.getLastD []

section Candidates

variable {s t txt endOfArg : Text} {candidates : List Text} {value : Int32} {fuel j : ℕ}

theorem IsCandidate.not_whitespace (h : IsCandidate s) {c : UInt8} (hc : c ∈ s)
    (hblank : isSpaceOrTab c = false) : (isWhitespace c || c == 0) = false := by
  obtain ⟨-, -, hcr, hlf, hnul⟩ := h.plain c hc
  simp [isWhitespace, isLineBreak, hblank, hcr, hlf, hnul]

theorem IsCandidate.rtrim_eq (h : IsCandidate s) : rtrim s = s := by
  rw [rtrim, List.rdropWhile_eq_self_iff]
  intro hne
  have hlast := h.last
  rw [List.getLast?_eq_some_getLast hne, Option.any_some] at hlast
  rw [h.not_whitespace (List.getLast_mem hne) hlast]
  exact Bool.false_ne_true

/-- A candidate with another one behind it. -/
theorem findChar_append (h : IsCandidate s) :
    findChar (s ++ ch '|' :: t) (ch '|') = ch '|' :: t := by
  rw [findChar, List.dropWhile_append_of_pos, List.dropWhile_cons, if_neg (by decide)]
  intro c hc
  exact decide_eq_true (h.plain c hc).1

theorem findChar_eq_nil (h : IsCandidate s) : findChar s (ch '|') = [] := by
  rw [findChar, List.dropWhile_eq_nil_iff]
  intro c hc
  exact decide_eq_true (h.plain c hc).1

theorem between_append (s t : Text) : between (s ++ t) t = s := by
  rw [between, List.length_append, Nat.add_sub_cancel, List.take_left]

/-- What is appended for a candidate. -/
theorem append_candidate (h : IsCandidate s) :
    (if rtrim s ≠ [] then append (rtrim s) else pure () : Interp Unit) txt =
      ⟨[], txt ++ s, .returned ()⟩ := by
  rw [h.rtrim_eq]
  split_ifs with hne
  · rfl
  · rw [not_not.mp hne, List.append_nil]
    rfl

/-- The last candidate. -/
theorem pickCandidate_last (h : IsCandidate s) :
    pickCandidate value endOfArg (fuel + 1) j s txt = ⟨[], txt ++ s, .returned ()⟩ := by
  rw [pickCandidate, findChar_eq_nil h]
  dsimp only
  rw [if_pos (.inr rfl), between, List.length_nil, Nat.sub_zero, List.take_length]
  exact append_candidate h

/-- The candidate for the value. -/
theorem pickCandidate_found (h : IsCandidate s) (hj : (j : ℤ) = value.toInt) :
    pickCandidate value endOfArg (fuel + 1) j (s ++ ch '|' :: t) txt =
      ⟨[], txt ++ s, .returned ()⟩ := by
  have hne : ch '|' :: t ++ endOfArg ≠ [] := List.cons_ne_nil _ _
  rw [pickCandidate, findChar_append h]
  dsimp only
  rw [if_pos (.inl ⟨hj, hne⟩), between_append]
  exact append_candidate h

/-- A candidate for another value. -/
theorem pickCandidate_next (h : IsCandidate s) (hj : (j : ℤ) ≠ value.toInt) :
    pickCandidate value endOfArg (fuel + 1) j (s ++ ch '|' :: t) txt =
      if j + 1 < 2 ^ 31 then pickCandidate value endOfArg fuel (j + 1) t txt
      else ⟨[], txt, .raised .overflow⟩ := by
  have hne : ¬ (((j : ℤ) = value.toInt ∧ ch '|' :: t ++ endOfArg ≠ []) ∨ ch '|' :: t = []) := by
    rintro (⟨heq, -⟩ | hnil)
    · exact hj heq
    · exact List.cons_ne_nil _ _ hnil
  rw [pickCandidate, findChar_append h]
  dsimp only
  rw [if_neg hne]
  split_ifs
  · rfl
  · rfl

theorem joinCandidates_cons (c d : Text) (cs : List Text) :
    joinCandidates (c :: d :: cs) = c ++ ch '|' :: joinCandidates (d :: cs) := by
  rw [joinCandidates, List.intercalate_cons_cons, List.append_assoc]
  rfl

theorem candidateFor_singleton (c : Text) (v : ℤ) : candidateFor [c] v = c := by
  rw [candidateFor, List.length_singleton]
  split_ifs with hv
  · obtain rfl : v = 0 := by omega
    rfl
  · rfl

theorem candidateFor_cons (c d : Text) (cs : List Text) (v : ℤ) :
    candidateFor (c :: d :: cs) v = if v = 0 then c else candidateFor (d :: cs) (v - 1) := by
  have hlast : (c :: d :: cs).getLastD [] = (d :: cs).getLastD [] := rfl
  rw [candidateFor, candidateFor, hlast]
  simp only [List.length_cons, Nat.cast_add, Nat.cast_one]
  by_cases hv : v = 0
  · subst hv
    rw [if_pos (by omega), if_pos rfl]
    rfl
  · rw [if_neg hv]
    by_cases hrange : 0 ≤ v ∧ v < cs.length + 1 + 1
    · obtain ⟨n, rfl⟩ : ∃ n : ℕ, v = n + 1 := ⟨(v - 1).toNat, by omega⟩
      rw [if_pos hrange, if_pos (by omega), Int.add_sub_cancel, Int.toNat_natCast]
      rfl
    · rw [if_neg hrange, if_neg (by omega)]

/-- **The loop over the candidates** appends the one for the value, if its counter does not
overflow before. -/
theorem pickCandidate_eq (hne : candidates ≠ []) (h : ∀ s ∈ candidates, IsCandidate s)
    (hfuel : candidates.length ≤ fuel)
    (hj : (j : ℤ) ≤ value.toInt ∨ j + candidates.length ≤ 2 ^ 31) :
    pickCandidate value endOfArg fuel j (joinCandidates candidates) txt =
      ⟨[], txt ++ candidateFor candidates (value.toInt - j), .returned ()⟩ := by
  have hvalue : value.toInt < 2 ^ 31 := Int32.toInt_lt value
  induction candidates generalizing fuel j with
  | nil => exact absurd rfl hne
  | cons c cs ih =>
    obtain ⟨hc, hcs⟩ := List.forall_mem_cons.mp h
    obtain ⟨fuel, rfl⟩ := Nat.exists_eq_succ_of_ne_zero (Nat.ne_zero_of_lt hfuel)
    cases cs with
    | nil =>
      rw [candidateFor_singleton, joinCandidates, List.intercalate_singleton]
      exact pickCandidate_last hc
    | cons d cs =>
      rw [joinCandidates_cons, candidateFor_cons]
      rw [List.length_cons] at hj hfuel
      by_cases heq : (j : ℤ) = value.toInt
      · rw [if_pos (by omega)]
        exact pickCandidate_found hc heq
      · have hlen : (d :: cs).length = cs.length + 1 := List.length_cons
        rw [pickCandidate_next hc heq, if_pos (by omega), if_neg (by omega),
          ih (List.cons_ne_nil d cs) hcs (Nat.le_of_succ_le_succ hfuel) (by omega), Int.sub_sub]
        rfl

/-- **Overflow.** -/
theorem pickCandidate_overflows (h : ∀ s ∈ candidates, IsCandidate s)
    (hfuel : candidates.length ≤ fuel) (hj : value.toInt < (j : ℤ)) (hlt : j < 2 ^ 31)
    (hlarge : 2 ^ 31 < j + candidates.length) :
    pickCandidate value endOfArg fuel j (joinCandidates candidates) txt =
      ⟨[], txt, .raised .overflow⟩ := by
  induction candidates generalizing fuel j with
  | nil => exact absurd hlarge (by simp; omega)
  | cons c cs ih =>
    obtain ⟨hc, hcs⟩ := List.forall_mem_cons.mp h
    obtain ⟨fuel, rfl⟩ := Nat.exists_eq_succ_of_ne_zero (Nat.ne_zero_of_lt hfuel)
    rw [List.length_cons] at hlarge hfuel
    cases cs with
    | nil =>
      rw [List.length_nil] at hlarge
      omega
    | cons d cs =>
      rw [joinCandidates_cons, pickCandidate_next hc (by omega)]
      split_ifs with hnext
      · exact ih hcs (Nat.le_of_succ_le_succ hfuel) (by omega) hnext (by omega)
      · rfl

theorem length_le_joinCandidates (candidates : List Text) :
    candidates.length ≤ (joinCandidates candidates).length + 1 := by
  induction candidates with
  | nil => exact Nat.zero_le _
  | cons c cs ih =>
    cases cs with
    | nil => exact Nat.le_add_left 1 _
    | cons d cs =>
      simp only [joinCandidates_cons, List.length_append, List.length_cons] at ih ⊢
      omega

/-- The candidates, as they stand in a reference. -/
theorem joinCandidates_plain (h : ∀ s ∈ candidates, IsCandidate s) :
    ∀ c ∈ joinCandidates candidates, c ≠ ch '}' ∧ c ≠ ch '\r' ∧ c ≠ ch '\n' ∧ c ≠ 0 := by
  induction candidates with
  | nil => exact fun c hc => absurd hc List.not_mem_nil
  | cons s cs ih =>
    obtain ⟨hs, hcs⟩ := List.forall_mem_cons.mp h
    cases cs with
    | nil =>
      rw [joinCandidates, List.intercalate_singleton]
      exact fun c hc => (hs.plain c hc).2
    | cons d cs =>
      intro c hc
      rw [joinCandidates_cons] at hc
      rcases List.mem_append.mp hc with hc | hc
      · exact (hs.plain c hc).2
      rcases List.mem_cons.mp hc with rfl | hc
      · decide
      · exact ih hcs c hc

theorem head_joinCandidates (h : ∀ s ∈ candidates, IsCandidate s) :
    (joinCandidates candidates).head?.any isSpaceOrTab = false := by
  cases candidates with
  | nil => rfl
  | cons s cs =>
    have hfirst := (List.forall_mem_cons.mp h).1.first
    cases cs with
    | nil => rwa [joinCandidates, List.intercalate_singleton]
    | cons d cs =>
      rw [joinCandidates_cons]
      cases s with
      | nil => rfl
      | cons c s => exact hfirst

theorem ltrim_joinCandidates (h : ∀ s ∈ candidates, IsCandidate s) :
    ltrim (joinCandidates candidates) = joinCandidates candidates := by
  cases hjoin : joinCandidates candidates with
  | nil => rfl
  | cons c t =>
    have hblank : isSpaceOrTab c = false := by
      have hhead := head_joinCandidates h
      rwa [hjoin, List.head?_cons, Option.any_some] at hhead
    have hmem : c ∈ joinCandidates candidates := by
      rw [hjoin]
      exact List.mem_cons_self
    obtain ⟨-, hcr, hlf, hnul⟩ := joinCandidates_plain h c hmem
    have hnot : (isWhitespace c || c == 0) = false := by
      simp [isWhitespace, isLineBreak, hblank, hcr, hlf, hnul]
    rw [ltrim, List.dropWhile_cons, hnot]
    rfl

end Candidates

section Pluralize

variable {δ : Type} {lib : CLibrary δ} {a : Arg δ} {pre suf txt : Text} {candidates : List Text}

/-- The value of a 64-bit integer. -/
def Arg.integer? : Arg δ → Option ℤ
  | .signed i64 => some i64.toInt
  | .unsigned u64 => some u64.toNat
  | _ => none

/-- A reference to the first argument with candidates, between two texts. -/
def pluralFormat (pre suf : Text) (candidates : List Text) : Text :=
  pre ++ (bytes ['{', '1', '~'] ++ (joinCandidates candidates ++ ch '}' :: suf))

/-- The value as an `int` has its low 32 bits. -/
theorem toInt_valueToCompare {v : ℤ} (h : a.integer? = some v) :
    (a.valueToCompare lib).toInt = v.bmod (2 ^ 32) := by
  cases a with
  | signed i64 =>
    cases h
    exact Int64.toInt_toInt32 i64
  | unsigned u64 =>
    cases h
    change u64.toUInt32.toBitVec.toInt = _
    rw [BitVec.toInt_eq_toNat_bmod, UInt32.toNat_toBitVec, UInt64.toNat_toUInt32, Int.natCast_mod]
    exact Int.emod_bmod _ _
  | _ => cases h

theorem decimal_one : ∀ c ∈ bytes ['1'], (digitBelow 10 c).isSome = true :=
  List.all_iff_forall_prop.mp (by decide)

/-- The reference is read up to its candidates. -/
theorem scanArg_plural (lib : CLibrary δ) (a : Arg δ) (suf txt : Text)
    (h : ∀ s ∈ candidates, IsCandidate s) :
    scanArg lib [a] (maxArg [a])
        (bytes ['1'] ++ ch '~' :: (joinCandidates candidates ++ ch '}' :: suf)) txt =
      ((pickCandidate (a.valueToCompare lib) (ch '}' :: suf)
        ((joinCandidates candidates).length + 1) 0 (joinCandidates candidates) >>= fun _ =>
          pure (ch '}' :: suf)) txt).after [.read 0] := by
  have hend : findAnyChar (ch '~' :: (joinCandidates candidates ++ ch '}' :: suf))
      (bytes ['}', '\r', '\n']) = ch '}' :: suf := by
    rw [← List.cons_append]
    refine findAnyChar_append (List.forall_mem_cons.mpr ⟨rfl, fun c hc => ?_⟩) rfl
    obtain ⟨h₁, h₂, h₃, h₄⟩ := joinCandidates_plain h c hc
    simp [strchr, bytes, h₁, h₂, h₃, h₄]
  have hends : EndsDigits (digitBelow 10)
      (ch '~' :: (joinCandidates candidates ++ ch '}' :: suf)) := by
    rintro _ ⟨⟩
    decide
  have hsection : ∀ p, scanSections lib p (ch '}' :: suf)
      (ch '~' :: (joinCandidates candidates ++ ch '}' :: suf)) a =
        (pickCandidate (a.valueToCompare lib) (ch '}' :: suf)
          ((joinCandidates candidates).length + 1) 0 (joinCandidates candidates) >>= fun _ =>
            pure (ch '}' :: suf)) := by
    intro p
    have htilde : (ch '~' :: (joinCandidates candidates ++ ch '}' :: suf)).headD 0 = ch '~' := rfl
    rw [scanSections]
    dsimp only
    rw [htilde, if_neg (by decide), if_neg (by decide), if_pos rfl, List.drop_one, List.tail_cons,
      between_append, ltrim_joinCandidates h]
  have hargs : [a].length ≤ 99 := show 1 ≤ 99 by decide
  have hone : decimalNumber (bytes ['1']) = 1 := by decide
  rw [scanArg_reference lib txt hargs decimal_one hone.ge hone.le hends rfl hend,
    ← hsection (bytes ['1'] ++ ch '~' :: (joinCandidates candidates ++ ch '}' :: suf))]
  rfl

/-- The loop comes to the reference. -/
theorem interp_pluralFormat (h : ∀ s ∈ candidates, IsCandidate s)
    (hpre : ∀ c ∈ pre, c ≠ ch '{' ∧ c ≠ 0) (hsuf : ∀ c ∈ suf, c ≠ ch '{' ∧ c ≠ 0) :
    interp lib [a] (pluralFormat pre suf candidates) =
      interpFrom lib [a] (ch '{' :: (bytes ['1'] ++ ch '~' ::
        (joinCandidates candidates ++ ch '}' :: suf))) ([] ++ pre) := by
  have hnul : 0 ∉ pluralFormat pre suf candidates := by
    simp only [pluralFormat, List.mem_append, List.mem_cons, not_or]
    exact ⟨fun hc => (hpre 0 hc).2 rfl, by decide,
      fun hc => (joinCandidates_plain h 0 hc).2.2.2 rfl, by decide, fun hc => (hsuf 0 hc).2 rfl⟩
  rw [interp_eq hnul, pluralFormat, interpFrom_append fun hc => (hpre _ hc).1 rfl]
  rfl

/-- **The output for candidates**, as long as the counter of their loop does not overflow. -/
theorem interp_plural (lib : CLibrary δ) {v : ℤ} (hne : candidates ≠ [])
    (h : ∀ s ∈ candidates, IsCandidate s) (hpre : ∀ c ∈ pre, c ≠ ch '{' ∧ c ≠ 0)
    (hsuf : ∀ c ∈ suf, c ≠ ch '{' ∧ c ≠ 0) (hv : a.integer? = some v)
    (hcount : v.bmod (2 ^ 32) < 0 → candidates.length ≤ 2 ^ 31) :
    Returns lib [a] (pluralFormat pre suf candidates)
      (pre ++ candidateFor candidates (v.bmod (2 ^ 32)) ++ suf) := by
  have hvalue : (a.valueToCompare lib).toInt = v.bmod (2 ^ 32) := toInt_valueToCompare hv
  have hscan := scanArg_plural lib a suf ([] ++ pre) h
  have hpick : pickCandidate (a.valueToCompare lib) (ch '}' :: suf)
      ((joinCandidates candidates).length + 1) 0 (joinCandidates candidates) ([] ++ pre) =
        ⟨[], [] ++ pre ++ candidateFor candidates (v.bmod (2 ^ 32)), .returned ()⟩ := by
    rw [pickCandidate_eq hne h (length_le_joinCandidates candidates) (by omega), hvalue]
    simp
  rw [Gen.bind_of_returned hpick] at hscan
  obtain ⟨ts, hround⟩ := interpFrom_replaced decimal_one (by decide) (by simp; omega) hscan
  rw [Returns, interp_pluralFormat h hpre hsuf, hround,
    interpFrom_plainText fun hc => (hsuf _ hc).1 rfl]
  exact ⟨rfl, rfl⟩

/-- **Overflow.** -/
theorem interp_plural_overflows (lib : CLibrary δ) {v : ℤ} (h : ∀ s ∈ candidates, IsCandidate s)
    (hpre : ∀ c ∈ pre, c ≠ ch '{' ∧ c ≠ 0) (hsuf : ∀ c ∈ suf, c ≠ ch '{' ∧ c ≠ 0)
    (hv : a.integer? = some v) (hneg : v.bmod (2 ^ 32) < 0)
    (hlarge : 2 ^ 31 < candidates.length) :
    (interp lib [a] (pluralFormat pre suf candidates)).ending = .raised .overflow := by
  have hvalue : (a.valueToCompare lib).toInt = v.bmod (2 ^ 32) := toInt_valueToCompare hv
  have hscan := scanArg_plural lib a suf ([] ++ pre) h
  have hpick : pickCandidate (a.valueToCompare lib) (ch '}' :: suf)
      ((joinCandidates candidates).length + 1) 0 (joinCandidates candidates) ([] ++ pre) =
        ⟨[], [] ++ pre, .raised .overflow⟩ :=
    pickCandidate_overflows h (length_le_joinCandidates candidates) (by omega) (by decide)
      (by omega)
  rw [Gen.bind_of_raised hpick] at hscan
  have hlen : 2 ≤ (bytes ['1'] ++ ch '~' :: (joinCandidates candidates ++ ch '}' :: suf)).length :=
    Nat.le_add_left 2 _
  have hhead : (bytes ['1'] ++ ch '~' :: (joinCandidates candidates ++ ch '}' :: suf)).head? ≠
      some (ch '{') := by
    rintro ⟨⟩
  rw [interp_pluralFormat h hpre hsuf, interpFrom_reference hlen hhead,
    Gen.bind_of_raised (scanReference_raises hscan)]

/-- **Candidates.** For every list of candidates, all texts around the reference and every 64-bit
integer, `interp` returns the candidate with the number of the value, or else the last, if and only
if the `int` with the low 32 bits of the value selects the same text, and is not negative for more
candidates than an `int` can count. -/
theorem interp_pluralizes_iff {v : ℤ} (hne : candidates ≠ [])
    (h : ∀ s ∈ candidates, IsCandidate s) (hpre : ∀ c ∈ pre, c ≠ ch '{' ∧ c ≠ 0)
    (hsuf : ∀ c ∈ suf, c ≠ ch '{' ∧ c ≠ 0) (hv : a.integer? = some v) :
    Returns lib [a] (pluralFormat pre suf candidates)
        (pre ++ candidateFor candidates v ++ suf) ↔
      (v.bmod (2 ^ 32) < 0 → candidates.length ≤ 2 ^ 31) ∧
        candidateFor candidates (v.bmod (2 ^ 32)) = candidateFor candidates v := by
  by_cases hcount : v.bmod (2 ^ 32) < 0 → candidates.length ≤ 2 ^ 31
  · obtain ⟨hending, hstate⟩ :=
      interp_plural lib hne h hpre hsuf hv hcount
    rw [Returns, hending, hstate, List.append_cancel_right_eq, List.append_cancel_left_eq]
    exact ⟨fun heq => ⟨hcount, heq.2⟩, fun heq => ⟨rfl, heq.2⟩⟩
  · obtain ⟨hneg, hlarge⟩ := Classical.not_imp.mp hcount
    have hraise := interp_plural_overflows lib h hpre hsuf hv hneg (not_le.mp hlarge)
    refine ⟨fun hreturns => ?_, fun hright => absurd hright.1 hcount⟩
    rw [hreturns.1] at hraise
    cases hraise

/-- The candidates `s` and the empty text. -/
def pluralCandidates : List Text := [bytes ['s'], [], bytes ['s']]

/-- The text in front of the candidates. -/
def errorText : Text := bytes ['e', 'r', 'r', 'o', 'r']

theorem errorText_plain : ∀ c ∈ errorText, c ≠ ch '{' ∧ c ≠ 0 :=
  List.all_iff_forall_prop.mp (by decide)

theorem nil_plain : ∀ c ∈ ([] : Text), c ≠ ch '{' ∧ c ≠ 0 :=
  fun _ hc => absurd hc List.not_mem_nil

theorem isCandidate_plural : ∀ s ∈ pluralCandidates, IsCandidate s := by
  have hs : IsCandidate (bytes ['s']) := ⟨List.all_iff_forall_prop.mp (by decide), rfl, rfl⟩
  have hnil : IsCandidate [] := ⟨fun c hc => absurd hc List.not_mem_nil, rfl, rfl⟩
  intro s hmem
  simp only [pluralCandidates, List.mem_cons, List.not_mem_nil, or_false] at hmem
  rcases hmem with rfl | rfl | rfl
  · exact hs
  · exact hnil
  · exact hs

/-- One error. -/
theorem interp_pluralizes_one :
    Returns plainLibrary [.signed 1] (pluralFormat errorText [] pluralCandidates)
      (errorText ++ candidateFor pluralCandidates 1 ++ []) :=
  (interp_pluralizes_iff (by decide) isCandidate_plural errorText_plain nil_plain rfl).mpr
    (by decide)

/-- With the argument `2 ^ 32 + 1`, it is as if there were one. -/
theorem interp_pluralizes_wrongly :
    ¬ Returns plainLibrary [.unsigned 0x100000001] (pluralFormat errorText [] pluralCandidates)
      (errorText ++ candidateFor pluralCandidates 0x100000001 ++ []) := by
  have hvalue : (Arg.unsigned 0x100000001 : Arg Empty).integer? = some 0x100000001 := rfl
  have hreturns := interp_plural plainLibrary (by decide) isCandidate_plural errorText_plain
    nil_plain hvalue (by decide)
  exact fun h => absurd (hreturns.2.symm.trans h.2) (by decide)

end Pluralize

end Intent.Old
