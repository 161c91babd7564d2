import Intent.Library.Gen
import Intent.Old.NumericLiteral
import Mathlib.Data.Bool.AllAny
import Mathlib.Data.Int.Basic

/-!
# `interp`

`core/text/interp.cpp` replaces the references to arguments in a format. A pointer into the format
is the rest of the format from there on, so that `end` is the empty text, and a range is the text
between its ends.

The loop of `interp_into` hands its cursor to `scan_arg`, which comes back with the same cursor if
there is no reference. `scanArg_cases` lists all that a call can do. It is the only place where the
function is taken apart. `interpFrom` is the loop from some character on, with an equation for each
way in which a round can go. They give the output for formats that are made of pieces
(`interp_pieces`), and for braces that are doubled (`interp_doubleBraces_iff`): the test for two
braces comes behind one for three characters, so that it fails at the end of a format.
-/

namespace Intent.Old

/-! ### Arguments -/

/-- `arg`. The type of floating-point numbers is a parameter. -/
inductive Arg (δ : Type) where
  | empty
  | signed (i64 : Int64)
  | unsigned (u64 : UInt64)
  | float (dbl : δ)
  | date
  | string (str : Text)
  /-- A pointer, with the characters in front of the NUL if it is not null. -/
  | cstr (s : Option Text)
  | path (native : Text)
  | strView (slice : Text)
  | bool (boolean : Bool)

/-- A value that is passed to `snprintf`: the 64 bits of a whole number, or a `double`. -/
inductive Word (δ : Type) where
  | whole (bits : UInt64)
  | real (x : δ)

/-- What `arg` uses of the C library and of floating-point arithmetic. -/
structure CLibrary (δ : Type) where
  /-- The characters that `snprintf` writes into a buffer of 36 bytes. -/
  snprintf : Text → Word δ → Text
  /-- `static_cast<int>` of a `double`. -/
  truncate : δ → Int32

section

variable {δ : Type} (lib : CLibrary δ)

/-- `arg::to_string`, where the default of its parameter is `none`. -/
def Arg.toString (format : Option Text) : Arg δ → Text
  | .empty => []
  | .string str => str
  | .strView slice => slice
  | .path native => native
  | .cstr s => s.getD (bytes ['(', 'n', 'u', 'l', 'l', ')'])
  | .bool boolean => if boolean then bytes ['t', 'r', 'u', 'e'] else bytes ['f', 'a', 'l', 's', 'e']
  | .signed i64 => lib.snprintf (format.getD (bytes ['%', 'l', 'l', 'd'])) (.whole i64.toUInt64)
  | .unsigned u64 => lib.snprintf (format.getD (bytes ['%', 'l', 'l', 'u'])) (.whole u64)
  | .float dbl => lib.snprintf (format.getD (bytes ['%', 'g'])) (.real dbl)
  | .date => []

/-- `value_to_compare` of `scan_arg`. -/
def Arg.valueToCompare : Arg δ → Int32
  | .empty => 0
  | .signed i64 => i64.toInt32
  | .unsigned u64 => u64.toUInt32.toInt32
  | .float dbl => lib.truncate dbl
  | .date => 0
  | .string str => if str = [] then 0 else 1
  | .cstr s => if s.getD [] = [] then 0 else 1
  | .bool boolean => if boolean then 1 else 0
  | .path _ => 0
  | .strView _ => 0

end

/-! ### The function -/

/-- What goes wrong in a call: an element outside of the arguments is read, or an `int`
overflows. -/
inductive ArgFault where
  | outOfBounds (idx : ℕ)
  | overflow
  deriving DecidableEq, Repr

/-- What is known of a run, besides its text: `scan_arg` is called, it reads an argument, and a
call is over. Then there is the text that was written for the reference, and the rest of the
format. -/
inductive ArgEvent where
  | call (p : Text)
  | read (idx : ℕ)
  | done (p written rest : Text)
  deriving DecidableEq, Repr

/-- A run of `interp`, on the text to which it appends. -/
abbrev Interp := Gen Text ArgEvent ArgFault

/-- `txt += s`. -/
def append (s : Text) : Interp Unit := Gen.modify (· ++ s)

/-- `strchr` as a test: the NUL at the end of a string counts as one of its characters. -/
def strchr (s : Text) (c : UInt8) : Bool := s.contains c || c == 0

/-- `find_any_char`: the rest of the range, from the first of the characters on. -/
def findAnyChar (s any : Text) : Text := s.dropWhile fun c => !strchr any c

/-- `find_char`. -/
def findChar (s : Text) (c : UInt8) : Text := s.dropWhile (· ≠ c)

/-- `ltrim` with its default of any whitespace. -/
def ltrim (s : Text) : Text := s.dropWhile fun c => isWhitespace c || c == 0

/-- The range between two pointers. -/
def between (p q : Text) : Text := p.take (p.length - q.length)

/-- `*(args.begin() + idx)`. -/
def readArg {δ : Type} (args : List (Arg δ)) (idx : ℕ) : Interp (Arg δ) := do
  Gen.emit (.read idx)
  match args[idx]? with
  | some a => pure a
  | none => Gen.raise (.outOfBounds idx)

/-- The loop over the candidates in front of `endOfArg`, with a bound on the number of its rounds.
Its counter is an `int`. -/
def pickCandidate (value : Int32) (endOfArg : Text) : ℕ → ℕ → Text → Interp Unit
  | 0, _, _ => Gen.hang
  | fuel + 1, j, s =>
    let endOfSection := findChar s (ch '|')
    if ((j : ℤ) = value.toInt ∧ endOfSection ++ endOfArg ≠ []) ∨ endOfSection = [] then
      let candidate := rtrim (between s endOfSection)
      if candidate ≠ [] then append candidate else pure ()
    else if j + 1 < 2 ^ 31 then pickCandidate value endOfArg fuel (j + 1) (endOfSection.drop 1)
    else Gen.raise .overflow

section

variable {δ : Type} (lib : CLibrary δ) (args : List (Arg δ))

/-- The `switch` of `scan_arg` on the first character of `next`, for a reference to `a` that ends
at `endOfArg`. -/
def scanSections (p endOfArg next : Text) (a : Arg δ) : Interp Text :=
  let c := next.headD 0
  if c = ch '%' then
    let specifier := rtrim (between next (findAnyChar next (bytes ['}', '='])))
    if specifier.length < 32 then do
      append (a.toString lib (some specifier))
      pure endOfArg
    else pure p
  else if c = ch '}' ∨ c = ch '=' then do
    append (a.toString lib none)
    pure endOfArg
  else if c = ch '~' then do
    let s := ltrim (between (next.drop 1) endOfArg)
    pickCandidate (a.valueToCompare lib) endOfArg (s.length + 1) 0 s
    pure endOfArg
  else pure p

/-- `scan_arg`. -/
def scanArg (maxArg : UInt32) (p : Text) : Interp Text :=
  let (n, k) := scanDecimalDigitsPreRadix p
  let endOfSection := p.drop k
  if n > 0 ∧ n.toUInt32 ≤ maxArg then do
    let a ← readArg args (n.toNat - 1)
    let endOfArg := findAnyChar endOfSection (bytes ['}', '\r', '\n'])
    if endOfArg.head? = some (ch '}') then
      scanSections lib p endOfArg (endOfSection.drop (scanSpacesAndTabs endOfSection 0)) a
    else pure p
  else pure p

/-- The branch of the loop of `interp_into` for a brace in front of `p`: the rest of the format
behind the reference, if `scan_arg` moves, or else behind the first character of `p`. -/
def scanReference (maxArg : UInt32) (p : Text) : Interp Text := do
  Gen.emit (.call p)
  let before ← Gen.get
  let endOfArg ← scanArg lib args maxArg p
  let rest ←
    if endOfArg.length < p.length then pure (endOfArg.drop 1)
    else do
      append [ch '{']
      append (p.take 1)
      pure (p.drop 1)
  let after ← Gen.get
  Gen.emit (.done p (after.drop before.length) rest)
  pure rest

/-- The loop of `interp_into`, with a bound on the number of its rounds. -/
def interpRounds (maxArg : UInt32) : ℕ → Text → Interp Unit
  | _, [] => pure ()
  | 0, _ :: _ => Gen.hang
  | fuel + 1, c :: p =>
    if c = ch '{' ∧ 2 ≤ p.length then
      if p.head? = some (ch '{') then do
        append [c]
        interpRounds maxArg fuel (p.drop 1)
      else do
        let rest ← scanReference lib args maxArg p
        interpRounds maxArg fuel rest
    else do
      append [c]
      interpRounds maxArg fuel p

/-- `max_arg`. -/
def maxArg : UInt32 :=
  if UInt32.ofNat args.length > 99 then 99 else UInt32.ofNat args.length

/-- `interp_into`. The format ends at its first NUL. -/
def interpInto (txt format : Text) : Trace Text ArgEvent ArgFault Unit :=
  let s := format.takeWhile (· ≠ 0)
  interpRounds lib args (maxArg args) s.length s txt

/-- `interp`. -/
def interp (format : Text) : Trace Text ArgEvent ArgFault Unit := interpInto lib args [] format

end

/-! ### Calls of `scan_arg` -/

/-- The number of a reference. -/
def refNumber (p : Text) : ℕ := numeral 10 (digitRun (digitBelow 10) p).1

/-- What follows the number of a reference. -/
def refSections (p : Text) : Text := p.drop (scanDecimalDigitsPreRadix p).2

/-- Where a reference ends. -/
def refEnd (p : Text) : Text := findAnyChar (refSections p) (bytes ['}', '\r', '\n'])

/-- What follows the number of a reference, and spaces and tabs. -/
def refNext (p : Text) : Text := (refSections p).drop (scanSpacesAndTabs (refSections p) 0)

/-- A section that `scan_arg` knows begins at `next`. -/
def IsSection (next : Text) : Prop :=
  next.headD 0 = ch '%' ∧
      (rtrim (between next (findAnyChar next (bytes ['}', '='])))).length < 32 ∨
    next.headD 0 = ch '}' ∨ next.headD 0 = ch '=' ∨ next.headD 0 = ch '~'

/-- The reference ends with a brace, and has a section that `scan_arg` knows. -/
def Closes (p : Text) : Prop := (refEnd p).head? = some (ch '}') ∧ IsSection (refNext p)

section Calls

variable {δ : Type} {lib : CLibrary δ} {args : List (Arg δ)} {a : Arg δ}
variable {p next endOfArg s txt : Text} {m : UInt32} {n : UInt64} {value : Int32} {fuel j : ℕ}

theorem toNat_scanDecimalDigitsPreRadix (p : Text) :
    (scanDecimalDigitsPreRadix p).1.toNat = refNumber p % 2 ^ 64 :=
  toNat_scanDigits 10 (digitBelow 10) p

/-- The loop over the candidates ends, and appends one of them, or its counter overflows. -/
theorem pickCandidate_ends (value : Int32) (endOfArg : Text) (j : ℕ) (txt : Text)
    (hfuel : s.length < fuel) :
    ∃ t, pickCandidate value endOfArg fuel j s txt = ⟨[], txt ++ t, .returned ()⟩ ∨
      pickCandidate value endOfArg fuel j s txt = ⟨[], txt ++ t, .raised .overflow⟩ := by
  induction fuel generalizing j s with
  | zero => cases hfuel
  | succ fuel ih =>
    rw [pickCandidate]
    dsimp only
    split_ifs with hpick hne hj
    · exact ⟨_, .inl rfl⟩
    · exact ⟨[], .inl (by rw [List.append_nil]; rfl)⟩
    · refine ih (j + 1) ?_
      have hle : (findChar s (ch '|')).length ≤ s.length := List.length_dropWhile_le _ _
      have hpos : 0 < (findChar s (ch '|')).length :=
        List.length_pos_of_ne_nil fun h => hpick (.inr h)
      rw [List.length_drop]
      omega
    · exact ⟨[], .inr (by rw [List.append_nil]; rfl)⟩

theorem scanSections_of_not (h : ¬ IsSection next) :
    scanSections lib p endOfArg next a txt = ⟨[], txt, .returned p⟩ := by
  simp only [IsSection, not_or, not_and] at h
  obtain ⟨hpercent, hbrace, hcomment, htilde⟩ := h
  rw [scanSections]
  dsimp only
  split_ifs with h₁ h₂ h₃
  · exact absurd h₂ (hpercent h₁)
  · rfl
  · exact absurd h₃ (not_or.mpr ⟨hbrace, hcomment⟩)
  · rfl

theorem scanSections_of_isSection (lib : CLibrary δ) (p endOfArg : Text) (a : Arg δ) (txt : Text)
    (h : IsSection next) :
    ∃ t, scanSections lib p endOfArg next a txt = ⟨[], txt ++ t, .returned endOfArg⟩ ∨
      scanSections lib p endOfArg next a txt = ⟨[], txt ++ t, .raised .overflow⟩ := by
  rw [scanSections]
  dsimp only
  split_ifs with h₁ h₂ h₃ h₄
  · exact ⟨_, .inl rfl⟩
  · rcases h with ⟨-, hlen⟩ | h | h | h
    · exact absurd hlen h₂
    all_goals
      rw [h₁] at h
      exact absurd h (by decide)
  · exact ⟨_, .inl rfl⟩
  · have hfuel := Nat.lt_succ_self (ltrim (between (next.drop 1) endOfArg)).length
    obtain ⟨t, ht | ht⟩ := pickCandidate_ends (a.valueToCompare lib) endOfArg 0 txt hfuel
    · refine ⟨t, .inl ?_⟩
      rw [Gen.bind_of_returned ht]
      rfl
    · exact ⟨t, .inr (Gen.bind_of_raised ht)⟩
  · rcases h with ⟨h, -⟩ | h | h | h
    · exact absurd h h₁
    · exact absurd (.inl h) h₃
    · exact absurd (.inr h) h₃
    · exact absurd h h₄

/-- The condition under which `scan_arg` reads an argument. -/
def Selects (args : List (Arg δ)) (p : Text) : Prop :=
  0 < refNumber p % 2 ^ 64 ∧ refNumber p % 2 ^ 64 % 2 ^ 32 ≤ min (args.length % 2 ^ 32) 99

theorem selects_iff :
    ((scanDecimalDigitsPreRadix p).1 > 0 ∧
      (scanDecimalDigitsPreRadix p).1.toUInt32 ≤ maxArg args) ↔ Selects args p := by
  have hmax : (maxArg args).toNat = min (args.length % 2 ^ 32) 99 := by
    have hiff : UInt32.ofNat args.length > 99 ↔ 99 < args.length % 2 ^ 32 := by
      rw [gt_iff_lt, UInt32.lt_iff_toNat_lt, UInt32.toNat_ofNat']
      rfl
    rw [maxArg]
    split_ifs with h
    · exact (min_eq_right (hiff.mp h).le).symm
    · rw [UInt32.toNat_ofNat']
      exact (min_eq_left (not_lt.mp (mt hiff.mpr h))).symm
  rw [Selects, gt_iff_lt, UInt64.lt_iff_toNat_lt, UInt32.le_iff_toNat_le, hmax,
    UInt64.toNat_toUInt32, toNat_scanDecimalDigitsPreRadix]
  rfl

theorem scanArg_of_not (h : ¬ Selects args p) :
    scanArg lib args (maxArg args) p txt = ⟨[], txt, .returned p⟩ := by
  rw [scanArg]
  dsimp only
  rw [if_neg (mt selects_iff.mp h)]
  rfl

theorem scanArg_of_selects (h : Selects args p) :
    scanArg lib args (maxArg args) p = (readArg args (refNumber p % 2 ^ 64 - 1) >>= fun a =>
      if (refEnd p).head? = some (ch '}') then scanSections lib p (refEnd p) (refNext p) a
      else pure p) := by
  rw [scanArg]
  dsimp only
  rw [if_pos (selects_iff.mpr h), toNat_scanDecimalDigitsPreRadix]
  rfl

theorem readArg_bind {α : Type} {idx : ℕ} {f : Arg δ → Interp α} (h : args[idx]? = some a) :
    (readArg args idx >>= f) txt = (f a txt).after [.read idx] := by
  refine Gen.bind_of_returned ?_
  rw [readArg, h]
  rfl

/-- **A call of `scan_arg`.** It does not move, or reads an argument. Then it may leave the
arguments. Or else it stays where it is, or it appends a text and moves to the end of the
reference. -/
theorem scanArg_cases (lib : CLibrary δ) (args : List (Arg δ)) (p txt : Text) :
    (¬ Selects args p ∧ scanArg lib args (maxArg args) p txt = ⟨[], txt, .returned p⟩) ∨
      ∃ n, n + 1 = refNumber p % 2 ^ 64 ∧ Selects args p ∧
        ((args.length ≤ n ∧ scanArg lib args (maxArg args) p txt =
            ⟨[.read n], txt, .raised (.outOfBounds n)⟩) ∨
          (n < args.length ∧ ¬ Closes p ∧ scanArg lib args (maxArg args) p txt =
            ⟨[.read n], txt, .returned p⟩) ∨
          (n < args.length ∧ Closes p ∧ ∃ t, scanArg lib args (maxArg args) p txt =
              ⟨[.read n], txt ++ t, .returned (refEnd p)⟩ ∨
            scanArg lib args (maxArg args) p txt =
              ⟨[.read n], txt ++ t, .raised .overflow⟩)) := by
  by_cases hsel : Selects args p
  · right
    obtain ⟨n, hn⟩ := Nat.exists_eq_succ_of_ne_zero hsel.1.ne'
    refine ⟨n, hn.symm, hsel, ?_⟩
    rw [scanArg_of_selects hsel, hn, Nat.succ_sub_one]
    by_cases hlt : n < args.length
    · right
      obtain ⟨a, ha⟩ : ∃ a, args[n]? = some a := ⟨_, List.getElem?_eq_getElem hlt⟩
      rw [readArg_bind ha]
      by_cases hend : (refEnd p).head? = some (ch '}')
      · rw [if_pos hend]
        by_cases hsection : IsSection (refNext p)
        · obtain ⟨t, ht | ht⟩ := scanSections_of_isSection lib p (refEnd p) a txt hsection
          · exact .inr ⟨hlt, ⟨hend, hsection⟩, t, .inl (by rw [ht]; rfl)⟩
          · exact .inr ⟨hlt, ⟨hend, hsection⟩, t, .inr (by rw [ht]; rfl)⟩
        · exact .inl ⟨hlt, fun h => hsection h.2, by rw [scanSections_of_not hsection]; rfl⟩
      · exact .inl ⟨hlt, fun h => hend h.1, by rw [if_neg hend]; rfl⟩
    · left
      have hnone : args[n]? = none := List.getElem?_eq_none_iff.mpr (not_lt.mp hlt)
      refine ⟨not_lt.mp hlt, Gen.bind_of_raised ?_⟩
      rw [readArg, hnone]
      rfl
  · exact .inl ⟨hsel, scanArg_of_not hsel⟩

end Calls

/-! ### Rounds of the loop -/

section Rounds

variable {δ : Type} {lib : CLibrary δ} {args : List (Arg δ)}
variable {p q w t txt : Text} {c : UInt8} {m : UInt32} {ts : List ArgEvent}

theorem digitRun_eq_nil {digit : UInt8 → Option ℕ} {s : Text} (h : (digitRun digit s).2 = 0) :
    (digitRun digit s).1 = [] := by
  cases s with
  | nil => rfl
  | cons c s =>
    rw [digitRun] at h ⊢
    split at h
    · cases h
    · split_ifs at h ⊢
      rfl

/-- A reference that is read ends behind its beginning. -/
theorem length_refEnd_lt (h : Selects args p) : (refEnd p).length < p.length := by
  have hk : (scanDecimalDigitsPreRadix p).2 ≠ 0 := by
    intro hk
    have hzero : refNumber p = 0 := by
      rw [refNumber, digitRun_eq_nil hk]
      rfl
    have hpos := h.1
    rw [hzero] at hpos
    exact absurd hpos (by decide)
  have hp : (scanDecimalDigitsPreRadix p).2 ≤ p.length := digitRun_le _ p
  calc (refEnd p).length ≤ (refSections p).length := List.length_dropWhile_le _ _
    _ = p.length - (scanDecimalDigitsPreRadix p).2 := List.length_drop
    _ < p.length := by omega

/-- `scan_arg` does not move: the brace and a character are copied. -/
theorem scanReference_stays (h : scanArg lib args m p txt = ⟨ts, txt, .returned p⟩) :
    scanReference lib args m p txt =
      ⟨.call p :: ts ++ [.done p (ch '{' :: p.take 1) (p.drop 1)], txt ++ ch '{' :: p.take 1,
        .returned (p.drop 1)⟩ := by
  rw [scanReference, Gen.emit_bind, Gen.get_bind, Gen.bind_of_returned h, if_neg (lt_irrefl _)]
  change Trace.mk (.call p :: (ts ++ [.done p ((txt ++ [ch '{'] ++ p.take 1).drop txt.length)
    (p.drop 1)])) (txt ++ [ch '{'] ++ p.take 1) _ = _
  rw [List.append_assoc, List.drop_left]
  rfl

theorem scanReference_moves (h : scanArg lib args m p txt = ⟨ts, txt ++ t, .returned q⟩)
    (hlt : q.length < p.length) :
    scanReference lib args m p txt =
      ⟨.call p :: ts ++ [.done p t (q.drop 1)], txt ++ t, .returned (q.drop 1)⟩ := by
  rw [scanReference, Gen.emit_bind, Gen.get_bind, Gen.bind_of_returned h, if_pos hlt]
  change Trace.mk (.call p :: (ts ++ [.done p ((txt ++ t).drop txt.length) (q.drop 1)]))
    (txt ++ t) _ = _
  rw [List.drop_left]
  rfl

theorem scanReference_raises {e : ArgFault} {txt' : Text}
    (h : scanArg lib args m p txt = ⟨ts, txt', .raised e⟩) :
    scanReference lib args m p txt = ⟨.call p :: ts, txt', .raised e⟩ := by
  rw [scanReference, Gen.emit_bind, Gen.get_bind, Gen.bind_of_raised h]
  rfl

/-- The next round is behind `p`. -/
theorem scanReference_lt (hp : 0 < p.length) :
    (scanReference lib args m p).wp txt (fun rest _ _ => rest.length < p.length)
      (fun _ _ _ => True) fun _ => True := by
  simp only [scanReference, append, Gen.wp_bind, Gen.wp_emit, Gen.wp_get, Gen.wp_ite,
    Gen.wp_modify, Gen.wp_pure, List.length_drop]
  refine Gen.wp_run.imp (fun endOfArg _ _ _ => ⟨fun hlt => ?_, fun _ => ?_⟩) (fun _ _ _ h => h)
    fun _ h => h
  · omega
  · omega

/-- As many rounds as there are characters are enough. -/
theorem interpRounds_eq {fuel fuel' : ℕ} (h : p.length ≤ fuel) (h' : p.length ≤ fuel') :
    interpRounds lib args m fuel p = interpRounds lib args m fuel' p := by
  induction fuel generalizing p fuel' with
  | zero =>
    rw [List.eq_nil_of_length_eq_zero (Nat.le_zero.mp h), interpRounds, interpRounds]
  | succ fuel ih =>
    cases p with
    | nil => rw [interpRounds, interpRounds]
    | cons c p =>
      obtain ⟨fuel', rfl⟩ := Nat.exists_eq_succ_of_ne_zero (show fuel' ≠ 0 by
        rw [List.length_cons] at h'
        omega)
      have hp : p.length ≤ fuel := Nat.le_of_succ_le_succ h
      have hp' : p.length ≤ fuel' := Nat.le_of_succ_le_succ h'
      have hdrop : (p.drop 1).length ≤ p.length := List.length_drop.trans_le (Nat.sub_le _ _)
      rw [interpRounds, interpRounds]
      split_ifs with hbrace hescaped
      · rw [ih (hdrop.trans hp) (hdrop.trans hp')]
      · funext txt
        refine Gen.bind_eq_of_wp ((scanReference_lt (by omega)).imp (fun rest _ _ hlt => ?_)
          (fun _ _ _ h => h) fun _ h => h)
        rw [ih (hlt.le.trans hp) (hlt.le.trans hp')]
      · rw [ih hp hp']

/-- The loop of `interp_into`, from `p` on. -/
def interpFrom (lib : CLibrary δ) (args : List (Arg δ)) (p : Text) : Interp Unit :=
  interpRounds lib args (maxArg args) p.length p

theorem interpFrom_nil : interpFrom lib args [] txt = ⟨[], txt, .returned ()⟩ := by
  rw [interpFrom, interpRounds]
  rfl

/-- A character that is copied. -/
theorem interpFrom_cons (h : ¬ (c = ch '{' ∧ 2 ≤ p.length)) :
    interpFrom lib args (c :: p) txt = interpFrom lib args p (txt ++ [c]) := by
  rw [interpFrom, List.length_cons, interpRounds, if_neg h]
  rfl

/-- Two braces, with something behind them. -/
theorem interpFrom_escaped (h : p ≠ []) :
    interpFrom lib args (ch '{' :: ch '{' :: p) txt = interpFrom lib args p (txt ++ [ch '{']) := by
  have hp := List.length_pos_of_ne_nil h
  have hlen : 2 ≤ (ch '{' :: p).length := by
    rw [List.length_cons]
    omega
  rw [interpFrom, List.length_cons, interpRounds, if_pos ⟨rfl, hlen⟩, if_pos List.head?_cons,
    List.drop_one, List.tail_cons, List.length_cons,
    interpRounds_eq (Nat.le_succ p.length) le_rfl]
  rfl

/-- A brace for which `scan_arg` is called. -/
theorem interpFrom_reference (hlen : 2 ≤ p.length) (hp : p.head? ≠ some (ch '{')) :
    interpFrom lib args (ch '{' :: p) txt =
      (scanReference lib args (maxArg args) p >>= interpFrom lib args) txt := by
  rw [interpFrom, List.length_cons, interpRounds, if_pos ⟨rfl, hlen⟩, if_neg hp]
  refine Gen.bind_eq_of_wp ((scanReference_lt (by omega)).imp (fun rest _ _ hlt => ?_)
    (fun _ _ _ h => h) fun _ h => h)
  rw [interpFrom, interpRounds_eq hlt.le le_rfl]

/-- What is yielded from a brace on for which `scan_arg` is called. -/
theorem interpFrom_yields (lib : CLibrary δ) (args : List (Arg δ)) (txt : Text)
    (hlen : 2 ≤ p.length) (hp : p.head? ≠ some (ch '{')) :
    ∃ us, (interpFrom lib args (ch '{' :: p) txt).yields =
        (scanReference lib args (maxArg args) p txt).yields ++ us ∧
      (us = [] ∨ ∃ rest txt', rest.length < p.length ∧
        us = (interpFrom lib args rest txt').yields) := by
  rw [interpFrom_reference hlen hp]
  obtain ⟨us, hus, hnil | ⟨rest, ts, txt', hrun, hrest⟩⟩ :=
    Gen.yields_bind (scanReference lib args (maxArg args) p) (interpFrom lib args) txt
  · exact ⟨us, hus, .inl hnil⟩
  · exact ⟨us, hus, .inr ⟨rest, txt', (scanReference_lt (by omega)).returned hrun, hrest⟩⟩

/-- **Induction over the rounds**, with a case for each way in which a round can go. -/
theorem rounds_induction {C : Text → Prop} (nil : C [])
    (cons : ∀ c p, ¬ (c = ch '{' ∧ 2 ≤ p.length) → C p → C (c :: p))
    (escaped : ∀ p, p ≠ [] → C p → C (ch '{' :: ch '{' :: p))
    (reference : ∀ p, 2 ≤ p.length → p.head? ≠ some (ch '{') →
      (∀ q : Text, q.length < p.length → C q) → C (ch '{' :: p)) (p : Text) : C p := by
  induction hn : p.length using Nat.strong_induction_on generalizing p with
  | _ n ih =>
    cases p with
    | nil => exact nil
    | cons c p =>
      have hlt : ∀ q : Text, q.length ≤ p.length → C q := by
        intro q hq
        refine ih q.length ?_ q rfl
        rw [← hn, List.length_cons]
        omega
      by_cases hc : c = ch '{' ∧ 2 ≤ p.length
      · obtain ⟨rfl, hlen⟩ := hc
        by_cases hp : p.head? = some (ch '{')
        · obtain ⟨p, rfl⟩ : ∃ r, p = ch '{' :: r := List.head?_eq_some_iff.mp hp
          refine escaped p ?_ (hlt p (Nat.le_succ _))
          rintro rfl
          exact absurd hlen (by decide)
        · exact reference p hlen hp fun q hq => hlt q hq.le
      · exact cons c p hc (hlt p le_rfl)

/-- Characters other than braces are copied. -/
theorem interpFrom_append (h : ch '{' ∉ w) :
    interpFrom lib args (w ++ p) txt = interpFrom lib args p (txt ++ w) := by
  induction w generalizing txt with
  | nil => rw [List.nil_append, List.append_nil]
  | cons c w ih =>
    obtain ⟨hc, hw⟩ := List.ne_and_not_mem_of_not_mem_cons h
    rw [List.cons_append, interpFrom_cons fun h => hc h.1.symm, ih hw, List.append_assoc]
    rfl

/-- A format without braces. -/
theorem interpFrom_plainText (h : ch '{' ∉ w) :
    interpFrom lib args w txt = ⟨[], txt ++ w, .returned ()⟩ := by
  nth_rewrite 1 [← List.append_nil w]
  rw [interpFrom_append h, interpFrom_nil]

/-- The format up to its NUL. -/
theorem interp_eq {format : Text} (h : 0 ∉ format) :
    interp lib args format = interpFrom lib args format [] := by
  have hself : format.takeWhile (· ≠ 0) = format := by
    rw [List.takeWhile_eq_self_iff]
    intro c hc
    exact decide_eq_true fun hzero => h (hzero ▸ hc)
  rw [interp, interpInto, hself]
  rfl

end Rounds

/-! ### Formats that are made of pieces -/

/-- `interp` returns `out`. -/
def Returns {δ : Type} (lib : CLibrary δ) (args : List (Arg δ)) (format out : Text) : Prop :=
  (interp lib args format).ending = .returned () ∧ (interp lib args format).state = out

/-- The number of decimal digits. -/
def decimalNumber (digits : Text) : ℕ := numeral 10 (digits.filterMap (digitBelow 10))

/-- A piece of a format for `n` arguments: a text without braces, or a reference with its number
in decimal, and perhaps a comment. -/
inductive FormatPiece (n : ℕ) where
  | literal (s : Text) (plain : ∀ c ∈ s, c ≠ ch '{' ∧ c ≠ 0)
  | reference (digits : Text) (decimal : ∀ c ∈ digits, (digitBelow 10 c).isSome = true)
      (one_le : 1 ≤ decimalNumber digits) (le : decimalNumber digits ≤ n) (comment : Option Text)
      (plain : ∀ s ∈ comment, ∀ c ∈ s, c ≠ ch '}' ∧ c ≠ ch '\r' ∧ c ≠ ch '\n' ∧ c ≠ 0)

namespace FormatPiece

/-- What follows the number of a reference. -/
def sections (comment : Option Text) : Text := comment.elim [] (ch '=' :: ·) ++ [ch '}']

/-- The characters of a piece. -/
def text {n : ℕ} : FormatPiece n → Text
  | literal s _ => s
  | reference digits _ _ _ comment _ => ch '{' :: (digits ++ sections comment)

/-- What a piece stands for. -/
def expansion {δ : Type} (lib : CLibrary δ) (args : List (Arg δ)) :
    FormatPiece args.length → Text
  | literal s _ => s
  | reference digits _ one_le le _ _ =>
    (args.get ⟨decimalNumber digits - 1, by omega⟩).toString lib none

end FormatPiece

section Pieces

variable {δ : Type} {lib : CLibrary δ} {args : List (Arg δ)} {a : Arg δ}
variable {digits tail w any rest txt : Text} {c : UInt8}

theorem findAnyChar_append (hw : ∀ c ∈ w, strchr any c = false) (hc : strchr any c = true) :
    findAnyChar (w ++ c :: rest) any = c :: rest := by
  induction w with
  | nil => simp [findAnyChar, hc]
  | cons b w ih =>
    have hb : (!strchr any b) = true := by rw [hw b List.mem_cons_self, Bool.not_false]
    rw [List.cons_append, findAnyChar, List.dropWhile_cons, if_pos hb]
    exact ih fun c hc => hw c (List.mem_cons_of_mem b hc)

/-- The number and the sections of a reference. -/
theorem refNumber_append (hdigits : ∀ c ∈ digits, (digitBelow 10 c).isSome = true)
    (hends : EndsDigits (digitBelow 10) tail) :
    refNumber (digits ++ tail) = decimalNumber digits ∧ refSections (digits ++ tail) = tail := by
  have hrun := digitRun_of_ends (fun c hc => .inl (hdigits c hc)) hends
  refine ⟨?_, ?_⟩
  · rw [refNumber, hrun]
    rfl
  · rw [refSections, scanDecimalDigitsPreRadix, scanDigits, hrun]
    exact List.drop_left

/-- A number that names one of at most 99 arguments. -/
theorem selects_of_le {p : Text} (hargs : args.length ≤ 99) (hone : 1 ≤ refNumber p)
    (hle : refNumber p ≤ args.length) : Selects args p ∧ refNumber p % 2 ^ 64 = refNumber p := by
  have hmod : refNumber p % 2 ^ 64 = refNumber p := Nat.mod_eq_of_lt (by omega)
  rw [Selects, hmod, Nat.mod_eq_of_lt (show refNumber p < 2 ^ 32 by omega),
    Nat.mod_eq_of_lt (show args.length < 2 ^ 32 by omega)]
  exact ⟨⟨hone, by omega⟩, rfl⟩

/-- A reference to an argument, up to its sections. -/
theorem scanArg_reference (lib : CLibrary δ) (txt : Text) (hargs : args.length ≤ 99)
    (hdigits : ∀ c ∈ digits, (digitBelow 10 c).isSome = true) (hone : 1 ≤ decimalNumber digits)
    (hle : decimalNumber digits ≤ args.length) (hends : EndsDigits (digitBelow 10) (c :: tail))
    (hc : isSpaceOrTab c = false)
    (hend : findAnyChar (c :: tail) (bytes ['}', '\r', '\n']) = ch '}' :: rest) :
    scanArg lib args (maxArg args) (digits ++ c :: tail) txt =
      (scanSections lib (digits ++ c :: tail) (ch '}' :: rest) (c :: tail)
        (args.get ⟨decimalNumber digits - 1, by omega⟩) txt).after
          [.read (decimalNumber digits - 1)] := by
  obtain ⟨hnumber, hsections⟩ := refNumber_append hdigits hends
  rw [← hnumber] at hone hle
  obtain ⟨hsel, hmod⟩ := selects_of_le hargs hone hle
  have hrefEnd : refEnd (digits ++ c :: tail) = ch '}' :: rest := by rw [refEnd, hsections, hend]
  have hnext : refNext (digits ++ c :: tail) = c :: tail := by
    rw [refNext, hsections, scanSpacesAndTabs, scanWhile_of_false, List.drop_zero]
    rw [List.getElem?_cons_zero, Option.any_some, hc]
  rw [hnumber] at hmod hle hone
  rw [scanArg_of_selects hsel, hnumber, hmod, hrefEnd, hnext,
    readArg_bind (List.getElem?_eq_getElem (by omega)), if_pos List.head?_cons]
  rfl

/-- A reference that is replaced. -/
theorem interpFrom_replaced {t : Text} {ts : List ArgEvent}
    (hdigits : ∀ c ∈ digits, (digitBelow 10 c).isSome = true) (hone : 1 ≤ decimalNumber digits)
    (hlt : rest.length < (c :: tail).length)
    (h : scanArg lib args (maxArg args) (digits ++ c :: tail) txt =
      ⟨ts, txt ++ t, .returned (ch '}' :: rest)⟩) :
    ∃ ts', interpFrom lib args (ch '{' :: (digits ++ c :: tail)) txt =
      (interpFrom lib args rest (txt ++ t)).after ts' := by
  obtain ⟨d, digits, rfl⟩ : ∃ d ds, digits = d :: ds := by
    refine List.exists_cons_of_ne_nil ?_
    rintro rfl
    exact absurd hone (by decide)
  have hhead : (d :: digits ++ c :: tail).head? ≠ some (ch '{') := by
    rintro ⟨⟩
    exact absurd (hdigits _ List.mem_cons_self) (by decide)
  have hlen : (d :: digits ++ c :: tail).length = digits.length + 1 + (c :: tail).length := by
    rw [List.length_append, List.length_cons]
  rw [interpFrom_reference (by rw [hlen, List.length_cons]; omega) hhead,
    Gen.bind_of_returned (scanReference_moves h (by rw [hlen, List.length_cons]; omega))]
  exact ⟨_, rfl⟩

/-- What follows the number of a reference with nothing but a comment. -/
theorem sections_append {comment : Option Text} (rest : Text)
    (h : ∀ s ∈ comment, ∀ c ∈ s, c ≠ ch '}' ∧ c ≠ ch '\r' ∧ c ≠ ch '\n' ∧ c ≠ 0) :
    ∃ c tail, FormatPiece.sections comment ++ rest = c :: tail ∧ (c = ch '}' ∨ c = ch '=') ∧
      rest.length < (c :: tail).length ∧
      findAnyChar (c :: tail) (bytes ['}', '\r', '\n']) = ch '}' :: rest := by
  cases comment with
  | none =>
    have hnil : ∀ c ∈ ([] : Text), strchr (bytes ['}', '\r', '\n']) c = false :=
      fun c hc => absurd hc List.not_mem_nil
    exact ⟨_, _, rfl, .inl rfl, Nat.lt_succ_self _, findAnyChar_append hnil rfl⟩
  | some s =>
    refine ⟨ch '=', s ++ ch '}' :: rest, ?_, .inr rfl, ?_, ?_⟩
    · simp [FormatPiece.sections]
    · rw [List.length_cons, List.length_append, List.length_cons]
      omega
    · have hs : ∀ c ∈ ch '=' :: s, strchr (bytes ['}', '\r', '\n']) c = false := by
        refine List.forall_mem_cons.mpr ⟨rfl, fun c hc => ?_⟩
        obtain ⟨h₁, h₂, h₃, h₄⟩ := h s rfl c hc
        simp [strchr, bytes, h₁, h₂, h₃, h₄]
      rw [← List.cons_append]
      exact findAnyChar_append hs rfl

theorem scanSections_plain {p next endOfArg : Text}
    (h : next.headD 0 = ch '}' ∨ next.headD 0 = ch '=') :
    scanSections lib p endOfArg next a txt =
      ⟨[], txt ++ a.toString lib none, .returned endOfArg⟩ := by
  have hpercent : next.headD 0 ≠ ch '%' := by
    intro hpercent
    rw [hpercent] at h
    exact absurd h (by decide)
  rw [scanSections, if_neg hpercent, if_pos h]
  rfl

/-- A reference with nothing but a comment. -/
theorem interpFrom_plain (hargs : args.length ≤ 99)
    (hdigits : ∀ c ∈ digits, (digitBelow 10 c).isSome = true) (hone : 1 ≤ decimalNumber digits)
    (hle : decimalNumber digits ≤ args.length) {comment : Option Text}
    (hcomment : ∀ s ∈ comment, ∀ c ∈ s,
      c ≠ ch '}' ∧ c ≠ ch '\r' ∧ c ≠ ch '\n' ∧ c ≠ 0) :
    ∃ ts, interpFrom lib args (ch '{' :: (digits ++ (FormatPiece.sections comment ++ rest))) txt =
      (interpFrom lib args rest (txt ++
        (args.get ⟨decimalNumber digits - 1, by omega⟩).toString lib none)).after ts := by
  obtain ⟨c, tail, htail, hc, hlt, hend⟩ := sections_append rest hcomment
  have hends : EndsDigits (digitBelow 10) (c :: tail) := by
    rintro _ ⟨⟩
    rcases hc with rfl | rfl
    · decide
    · decide
  have hspace : isSpaceOrTab c = false := by
    rcases hc with rfl | rfl
    · rfl
    · rfl
  have hscan := scanArg_reference lib txt hargs hdigits hone hle hends hspace hend
  have hnext : (c :: tail).headD 0 = ch '}' ∨ (c :: tail).headD 0 = ch '=' := hc
  rw [scanSections_plain hnext] at hscan
  rw [htail]
  exact interpFrom_replaced hdigits hone hlt hscan

/-- One piece. -/
theorem interpFrom_piece (lib : CLibrary δ) (hargs : args.length ≤ 99)
    (piece : FormatPiece args.length) (rest txt : Text) :
    ∃ ts, interpFrom lib args (piece.text ++ rest) txt =
      (interpFrom lib args rest (txt ++ piece.expansion lib args)).after ts := by
  cases piece with
  | literal s plain => exact ⟨[], interpFrom_append fun h => (plain _ h).1 rfl⟩
  | reference digits decimal one_le le comment plain =>
    rw [FormatPiece.text, List.cons_append, List.append_assoc]
    exact interpFrom_plain hargs decimal one_le le plain

theorem zero_not_mem_text (piece : FormatPiece args.length) : 0 ∉ piece.text := by
  cases piece with
  | literal s plain => exact fun h => (plain _ h).2 rfl
  | reference digits decimal one_le le comment plain =>
    intro h
    rcases List.mem_cons.mp h with h | h
    · exact absurd h (by decide)
    rcases List.mem_append.mp h with h | h
    · exact absurd (decimal 0 h) (by decide)
    · cases comment with
      | none => exact absurd h (by decide)
      | some s =>
        rcases List.mem_append.mp h with h | h
        · rcases List.mem_cons.mp h with h | h
          · exact absurd h (by decide)
          · exact (plain s rfl 0 h).2.2.2 rfl
        · exact absurd h (by decide)

/-- **Pieces.** For at most 99 arguments and every list of pieces, `interp` returns what the pieces
stand for, in their order. -/
theorem interp_pieces (hargs : args.length ≤ 99) (pieces : List (FormatPiece args.length)) :
    Returns lib args (pieces.flatMap FormatPiece.text)
      (pieces.flatMap (FormatPiece.expansion lib args)) := by
  have hrounds : ∀ txt, ∃ ts, interpFrom lib args (pieces.flatMap FormatPiece.text) txt =
      ⟨ts, txt ++ pieces.flatMap (FormatPiece.expansion lib args), .returned ()⟩ := by
    induction pieces with
    | nil =>
      intro txt
      refine ⟨[], ?_⟩
      rw [List.flatMap_nil, List.flatMap_nil, interpFrom_nil, List.append_nil]
    | cons piece pieces ih =>
      intro txt
      obtain ⟨ts, hpiece⟩ := interpFrom_piece lib hargs piece
        (pieces.flatMap FormatPiece.text) txt
      obtain ⟨us, hpieces⟩ := ih (txt ++ piece.expansion lib args)
      refine ⟨ts ++ us, ?_⟩
      rw [List.flatMap_cons, List.flatMap_cons, hpiece, hpieces, List.append_assoc]
      rfl
  obtain ⟨ts, hrun⟩ := hrounds []
  have hnul : 0 ∉ pieces.flatMap FormatPiece.text := by
    intro h
    obtain ⟨piece, -, hpiece⟩ := List.mem_flatMap.mp h
    exact zero_not_mem_text piece hpiece
  rw [Returns, interp_eq hnul, hrun]
  exact ⟨rfl, rfl⟩

/-- A C library for which whole numbers do not matter. -/
def plainLibrary : CLibrary Empty := ⟨fun _ _ => [], fun _ => 0⟩

/-- The format `a{02=b}{1}` with the arguments `x` and `true`. -/
theorem interp_pieces_two :
    Returns plainLibrary [.string (bytes ['x']), .bool true]
      (bytes ['a', '{', '0', '2', '=', 'b', '}', '{', '1', '}'])
      (bytes ['a', 't', 'r', 'u', 'e', 'x']) :=
  have hliteral := List.all_iff_forall_prop.mp
    (show (bytes ['a']).all (fun c => c ≠ ch '{' ∧ c ≠ 0) = true by decide)
  have htwo := List.all_iff_forall_prop.mp
    (show (bytes ['0', '2']).all (fun c => (digitBelow 10 c).isSome = true) = true by decide)
  have hone := List.all_iff_forall_prop.mp
    (show (bytes ['1']).all (fun c => (digitBelow 10 c).isSome = true) = true by decide)
  have hcomment : ∀ s ∈ some (bytes ['b']), ∀ c ∈ s,
      c ≠ ch '}' ∧ c ≠ ch '\r' ∧ c ≠ ch '\n' ∧ c ≠ 0 := by
    rintro _ ⟨⟩
    exact List.all_iff_forall_prop.mp (by decide)
  interp_pieces (by decide)
    [.literal (bytes ['a']) hliteral,
      .reference (bytes ['0', '2']) htwo (by decide) (by decide) (some (bytes ['b'])) hcomment,
      .reference (bytes ['1']) hone (by decide) (by decide) none fun _ hs => by cases hs]

/-! ### Doubled braces -/

/-- A text with its braces doubled. -/
def doubleBraces (s : Text) : Text :=
  s.flatMap fun c => if c = ch '{' then [ch '{', ch '{'] else [c]

/-- Doubled braces are halved if something follows them. -/
theorem interpFrom_doubleBraces {p : Text} (hp : p ≠ []) (s txt : Text) :
    interpFrom lib args (doubleBraces s ++ p) txt = interpFrom lib args p (txt ++ s) := by
  induction s generalizing txt with
  | nil => rw [List.append_nil, doubleBraces, List.flatMap_nil, List.nil_append]
  | cons c s ih =>
    have hne : doubleBraces s ++ p ≠ [] := List.append_ne_nil_of_right_ne_nil _ hp
    by_cases hc : c = ch '{'
    · subst hc
      have heq : doubleBraces (ch '{' :: s) ++ p = ch '{' :: ch '{' :: (doubleBraces s ++ p) := rfl
      rw [heq, interpFrom_escaped hne, ih, List.append_assoc, List.singleton_append]
    · have heq : doubleBraces (c :: s) ++ p = c :: (doubleBraces s ++ p) := by
        rw [doubleBraces, List.flatMap_cons, if_neg hc]
        rfl
      rw [heq, interpFrom_cons fun h => hc h.1, ih, List.append_assoc, List.singleton_append]

/-- The two braces for a brace at the end are copied as they are. -/
theorem interpFrom_doubleBraces_concat (s : Text) (c : UInt8) :
    interpFrom lib args (doubleBraces (s ++ [c])) [] =
      ⟨[], s ++ (if c = ch '{' then [ch '{', ch '{'] else [c]), .returned ()⟩ := by
  have heq : doubleBraces (s ++ [c]) =
      doubleBraces s ++ (if c = ch '{' then [ch '{', ch '{'] else [c]) := by
    rw [doubleBraces, List.flatMap_append, List.flatMap_singleton]
    rfl
  rw [heq]
  split_ifs with hc
  · rw [interpFrom_doubleBraces (List.cons_ne_nil _ _),
      interpFrom_cons fun h => absurd h.2 (by decide),
      interpFrom_cons fun h => absurd h.2 (by decide), interpFrom_nil, List.append_assoc]
    rfl
  · rw [interpFrom_doubleBraces (List.cons_ne_nil _ _), interpFrom_cons fun h => hc h.1,
      interpFrom_nil]
    rfl

theorem zero_not_mem_doubleBraces {s : Text} (h : 0 ∉ s) : 0 ∉ doubleBraces s := by
  intro hmem
  obtain ⟨c, hc, hzero⟩ := List.mem_flatMap.mp hmem
  split_ifs at hzero
  · exact absurd hzero (by decide)
  · exact h (List.mem_singleton.mp hzero ▸ hc)

/-- **Doubled braces.** For every text without NUL and all arguments, `interp` of the text with its
braces doubled returns the text if and only if the text does not end with a brace. -/
theorem interp_doubleBraces_iff {s : Text} (h : 0 ∉ s) :
    Returns lib args (doubleBraces s) s ↔ s.getLast? ≠ some (ch '{') := by
  rw [Returns, interp_eq (zero_not_mem_doubleBraces h)]
  rcases List.eq_nil_or_concat' s with rfl | ⟨s, c, rfl⟩
  · rw [doubleBraces, List.flatMap_nil, interpFrom_nil]
    exact ⟨fun _ => by decide, fun _ => ⟨rfl, rfl⟩⟩
  · rw [interpFrom_doubleBraces_concat, List.getLast?_concat, Ne, Option.some.injEq]
    by_cases hc : c = ch '{'
    · rw [if_pos hc, List.append_cancel_left_eq]
      exact ⟨fun ⟨_, heq⟩ => absurd (List.cons.inj heq).2 (List.cons_ne_nil _ _),
        fun hne => absurd hc hne⟩
    · rw [if_neg hc]
      exact ⟨fun _ => hc, fun _ => ⟨rfl, rfl⟩⟩

/-- A brace in front of a letter. -/
theorem interp_doubleBraces_inside :
    Returns plainLibrary [] (doubleBraces (bytes ['{', 'a'])) (bytes ['{', 'a']) :=
  (interp_doubleBraces_iff (by decide)).mpr (by decide)

/-- The two braces for one brace. -/
theorem interp_doubleBraces_end :
    ¬ Returns plainLibrary [] (doubleBraces [ch '{']) [ch '{'] :=
  fun h => absurd h.2 (by decide)

end Pieces

end Intent.Old
